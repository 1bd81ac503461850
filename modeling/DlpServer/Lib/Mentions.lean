import Mathlib

/-!
# Mentions of a key in a sequence of batches

A history is a list of batches, numbered from 1; each batch lists the keys it
mentions. `occurrences h k` lists the numbers of the batches that mention `k`,
one entry for each mention. First and last mention and the number of mentions
are read off that list, and `recentKeys` is what the last batches mention.
-/

namespace DlpServer.Mentions

variable {κ : Type*} [DecidableEq κ]

def occurrences (h : List (List κ)) (k : κ) : List ℕ :=
  (h.zipIdx 1).flatMap fun (ks, i) => List.replicate (ks.count k) i

/-- The keys mentioned in the batches numbered `start` and up. -/
def recentKeys (h : List (List κ)) (start : ℤ) : Finset κ :=
  ((h.zipIdx 1).flatMap fun (ks, i) => if start ≤ i then ks else []).toFinset

@[simp] theorem occurrences_nil (k : κ) : occurrences [] k = [] := rfl

theorem occurrences_snoc (h : List (List κ)) (ks : List κ) (k : κ) :
    occurrences (h ++ [ks]) k =
      occurrences h k ++ List.replicate (ks.count k) (h.length + 1) := by
  simp [occurrences, List.zipIdx_append, Nat.add_comm]

/-- One more mention in the last batch. -/
theorem occurrences_mention (h : List (List κ)) (ks : List κ) (k₀ k : κ) :
    occurrences (h ++ [ks ++ [k₀]]) k =
      occurrences (h ++ [ks]) k ++ if k₀ = k then [h.length + 1] else [] := by
  rw [occurrences_snoc, occurrences_snoc, List.append_assoc, List.count_append]
  by_cases hk : k₀ = k
  · rw [if_pos hk, hk, List.count_singleton_self, List.replicate_succ']
  · rw [if_neg hk, List.count_singleton, beq_false_of_ne hk]
    simp

theorem mem_occurrences {h : List (List κ)} {k : κ} {i : ℕ} :
    i ∈ occurrences h k ↔ ∃ ks, (ks, i) ∈ h.zipIdx 1 ∧ k ∈ ks := by
  simp only [occurrences, List.mem_flatMap, List.mem_replicate, Prod.exists]
  constructor
  · rintro ⟨ks, j, hmem, hcount, rfl⟩
    exact ⟨ks, hmem, List.count_pos_iff.mp (Nat.pos_of_ne_zero hcount)⟩
  · rintro ⟨ks, hmem, hk⟩
    exact ⟨ks, i, hmem, (List.count_pos_iff.mpr hk).ne', rfl⟩

theorem occurrences_bounds {h : List (List κ)} {k : κ} {i : ℕ} (hi : i ∈ occurrences h k) :
    1 ≤ i ∧ i ≤ h.length := by
  obtain ⟨ks, hmem, -⟩ := mem_occurrences.mp hi
  obtain ⟨hlo, hhi, -⟩ := List.mem_zipIdx hmem
  omega

theorem occurrences_sorted (h : List (List κ)) (k : κ) :
    (occurrences h k).Pairwise (· ≤ ·) := by
  induction h using List.reverseRecOn with
  | nil => exact List.Pairwise.nil
  | append_singleton h ks ih =>
      rw [occurrences_snoc]
      refine List.pairwise_append.mpr ⟨ih, List.pairwise_replicate.mpr (Or.inr le_rfl), ?_⟩
      intro i hi j hj
      obtain rfl := List.eq_of_mem_replicate hj
      have := (occurrences_bounds hi).2
      omega

/-- The last mention is the latest. -/
theorem le_getLast {h : List (List κ)} {k : κ} {i : ℕ} (hi : i ∈ occurrences h k) :
    i ≤ (occurrences h k).getLast (List.ne_nil_of_mem hi) :=
  (occurrences_sorted h k).rel_getLast_of_rel_getLast_getLast hi le_rfl

theorem mem_recentKeys {h : List (List κ)} {start : ℤ} {k : κ} :
    k ∈ recentKeys h start ↔ ∃ i ∈ occurrences h k, start ≤ i := by
  simp only [recentKeys, List.mem_toFinset, List.mem_flatMap, Prod.exists, mem_occurrences]
  constructor
  · rintro ⟨ks, i, hmem, hk⟩
    split at hk
    · rename_i hstart
      exact ⟨i, ⟨ks, hmem, hk⟩, hstart⟩
    · cases hk
  · rintro ⟨i, ⟨ks, hmem, hk⟩, hstart⟩
    exact ⟨ks, i, hmem, by rwa [if_pos hstart]⟩

/-! ## Mentions without their batches -/

/-- How often a key is mentioned does not depend on the batches. -/
theorem occurrences_length (h : List (List κ)) (k : κ) :
    (occurrences h k).length = h.flatten.count k := by
  induction h using List.reverseRecOn with
  | nil => rfl
  | append_singleton h ks ih =>
      rw [occurrences_snoc, List.length_append, ih, List.length_replicate, List.flatten_append,
        List.count_append, List.flatten_singleton]

/-- From the first batch on, everything is recent. -/
theorem recentKeys_all (h : List (List κ)) {start : ℤ} (hstart : start ≤ 1) :
    recentKeys h start = h.flatten.toFinset := by
  ext k
  rw [mem_recentKeys, List.mem_toFinset, ← List.count_pos_iff, ← occurrences_length,
    List.length_pos_iff_exists_mem]
  constructor
  · rintro ⟨i, hi, -⟩
    exact ⟨i, hi⟩
  · rintro ⟨i, hi⟩
    refine ⟨i, hi, ?_⟩
    have := (occurrences_bounds hi).1
    omega

/-! ## More mentions -/

/-- With more mentions in the batches, no mention of a key is lost. -/
theorem occurrences_mono {h h' : List (List κ)} (hsub : List.Forall₂ List.Subperm h h') (k : κ) :
    (occurrences h k).Sublist (occurrences h' k) := by
  unfold occurrences
  generalize 1 = n
  induction hsub generalizing n with
  | nil => exact List.Sublist.refl _
  | cons hks _ ih =>
      rw [List.zipIdx_cons, List.zipIdx_cons, List.flatMap_cons, List.flatMap_cons]
      exact (List.replicate_sublist_replicate n |>.mpr (hks.count_le k)).append (ih (n + 1))

theorem recentKeys_mono {h h' : List (List κ)} (hsub : List.Forall₂ List.Subperm h h')
    (start : ℤ) : recentKeys h start ⊆ recentKeys h' start := by
  intro k hk
  obtain ⟨i, hi, hstart⟩ := mem_recentKeys.mp hk
  exact mem_recentKeys.mpr ⟨i, (occurrences_mono hsub k).subset hi, hstart⟩

end DlpServer.Mentions
