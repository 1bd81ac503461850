import Mathlib

/-!
# Clusters of overlapping intervals

A sweep over intervals sorted by their left ends puts an interval into the
current cluster while it starts before the furthest right end seen there, and
opens a new cluster otherwise. The clusters are the connected components of
overlap (`joined_iff`), and later clusters lie to the right of earlier ones.
-/

namespace Sweep

variable {α : Type*} (lo hi : α → ℕ)

/-! ## The sweep -/

/-- The clusters of `l`, continuing the one that reaches to `reach`. -/
def sweep (cluster : List α) (reach : ℕ) : List α → List (List α)
  | [] => [cluster]
  | a :: l =>
      if lo a < reach then sweep (cluster ++ [a]) (max reach (hi a)) l
      else cluster :: sweep [a] (hi a) l

def clusters : List α → List (List α)
  | [] => []
  | a :: l => sweep lo hi [a] (hi a) l

/-! ## Overlap -/

def Overlap (a b : α) : Prop := lo a < hi b ∧ lo b < hi a

/-- A chain of overlapping intervals of `l` leads from `a` to `b`. -/
def Joined (l : List α) : α → α → Prop :=
  Relation.ReflTransGen fun a b => (a ∈ l ∧ b ∈ l) ∧ Overlap lo hi a b

/-- Every interval of `k` ends before every interval of `k'` starts. -/
def LeftOf (k k' : List α) : Prop := ∀ a ∈ k, ∀ b ∈ k', hi a ≤ lo b

/-- The intervals are not empty and sorted by their left ends. -/
structure Sorted (l : List α) : Prop where
  proper : ∀ a ∈ l, lo a < hi a
  order : l.Pairwise fun a b => lo a ≤ lo b

/-- A cluster in the making, before the intervals `l`: connected, sorted before
`l`, and reaching to `reach`. -/
structure Open (cluster : List α) (reach : ℕ) (l : List α) : Prop where
  connected : ∀ a ∈ cluster, ∀ b ∈ cluster, Joined lo hi cluster a b
  proper : ∀ a ∈ cluster, lo a < hi a
  before : ∀ a ∈ cluster, ∀ b ∈ l, lo a ≤ lo b
  within : ∀ a ∈ cluster, hi a ≤ reach
  reached : ∃ a ∈ cluster, hi a = reach

variable {lo hi}

theorem Overlap.symm {a b : α} (h : Overlap lo hi a b) : Overlap lo hi b a := ⟨h.2, h.1⟩

theorem Joined.symm {l : List α} {a b : α} (h : Joined lo hi l a b) : Joined lo hi l b a := by
  have : Std.Symm fun a b => (a ∈ l ∧ b ∈ l) ∧ Overlap lo hi a b :=
    ⟨fun a b hab => ⟨⟨hab.1.2, hab.1.1⟩, hab.2.symm⟩⟩
  exact Relation.ReflTransGen.stdSymm.symm _ _ h

theorem Joined.mono {l l' : List α} (hsub : ∀ a ∈ l, a ∈ l') {a b : α}
    (h : Joined lo hi l a b) : Joined lo hi l' a b :=
  h.lift id fun _ _ hab => ⟨⟨hsub _ hab.1.1, hsub _ hab.1.2⟩, hab.2⟩

theorem Sorted.tail {a : α} {l : List α} (h : Sorted lo hi (a :: l)) : Sorted lo hi l where
  proper b hb := h.proper b (List.mem_cons_of_mem _ hb)
  order := h.order.of_cons

/-! ## What the sweep keeps -/

theorem Open.singleton {a : α} {l : List α} (h : Sorted lo hi (a :: l)) :
    Open lo hi [a] (hi a) l where
  connected b hb c hc := by
    obtain rfl := List.mem_singleton.mp hb
    obtain rfl := List.mem_singleton.mp hc
    exact Relation.ReflTransGen.refl
  proper b hb := by
    obtain rfl := List.mem_singleton.mp hb
    exact h.proper b List.mem_cons_self
  before b hb c hc := by
    obtain rfl := List.mem_singleton.mp hb
    exact List.rel_of_pairwise_cons h.order hc
  within b hb := by
    obtain rfl := List.mem_singleton.mp hb
    exact le_rfl
  reached := ⟨a, List.mem_singleton.mpr rfl, rfl⟩

theorem Open.snoc {cluster l : List α} {reach : ℕ} {a : α}
    (h : Open lo hi cluster reach (a :: l)) (hl : Sorted lo hi (a :: l))
    (ha : lo a < reach) :
    Open lo hi (cluster ++ [a]) (max reach (hi a)) l := by
  obtain ⟨c, hc, hreach⟩ := h.reached
  have hpa : lo a < hi a := hl.proper a List.mem_cons_self
  -- `c` reaches over the start of `a`, and starts no later.
  have hover : Overlap lo hi c a :=
    ⟨(h.before c hc a List.mem_cons_self).trans_lt hpa, hreach ▸ ha⟩
  have hold : ∀ b ∈ cluster, ∀ d ∈ cluster, Joined lo hi (cluster ++ [a]) b d :=
    fun b hb d hd => (h.connected b hb d hd).mono fun _ => List.mem_append_left _
  have hnew : ∀ b ∈ cluster, Joined lo hi (cluster ++ [a]) b a := fun b hb =>
    (hold b hb c hc).tail ⟨⟨List.mem_append_left _ hc, by simp⟩, hover⟩
  constructor
  case connected =>
    intro b hb d hd
    rcases List.mem_append.mp hb with hbc | hba <;> rcases List.mem_append.mp hd with hdc | hda
    · exact hold b hbc d hdc
    · obtain rfl := List.mem_singleton.mp hda
      exact hnew b hbc
    · obtain rfl := List.mem_singleton.mp hba
      exact (hnew d hdc).symm
    · obtain rfl := List.mem_singleton.mp hba
      obtain rfl := List.mem_singleton.mp hda
      exact Relation.ReflTransGen.refl
  case proper =>
    intro b hb
    rcases List.mem_append.mp hb with hb | hb
    · exact h.proper b hb
    · exact List.mem_singleton.mp hb ▸ hpa
  case before =>
    intro b hb d hd
    rcases List.mem_append.mp hb with hb | hb
    · exact h.before b hb d (List.mem_cons_of_mem _ hd)
    · obtain rfl := List.mem_singleton.mp hb
      exact List.rel_of_pairwise_cons hl.order hd
  case within =>
    intro b hb
    rcases List.mem_append.mp hb with hb | hb
    · exact (h.within b hb).trans (le_max_left _ _)
    · exact List.mem_singleton.mp hb ▸ le_max_right _ _
  case reached =>
    rcases le_total reach (hi a) with hle | hle
    · exact ⟨a, by simp, (max_eq_right hle).symm⟩
    · exact ⟨c, List.mem_append_left _ hc, by rw [max_eq_left hle, hreach]⟩

theorem sweep_flatten (lo hi : α → ℕ) (cluster : List α) (reach : ℕ) (l : List α) :
    (sweep lo hi cluster reach l).flatten = cluster ++ l := by
  induction l generalizing cluster reach with
  | nil => simp [sweep]
  | cons a l ih =>
      rw [sweep]
      split
      · rw [ih, List.append_assoc]
        rfl
      · rw [List.flatten_cons, ih]
        rfl

theorem clusters_flatten (lo hi : α → ℕ) (l : List α) : (clusters lo hi l).flatten = l := by
  cases l with
  | nil => rfl
  | cons a l => exact sweep_flatten lo hi [a] (hi a) l

theorem sweep_spec {cluster l : List α} {reach : ℕ}
    (h : Open lo hi cluster reach l) (hl : Sorted lo hi l) :
    (∀ k ∈ sweep lo hi cluster reach l, k ≠ [] ∧ ∀ a ∈ k, ∀ b ∈ k, Joined lo hi k a b) ∧
      (sweep lo hi cluster reach l).Pairwise (LeftOf lo hi) := by
  induction l generalizing cluster reach with
  | nil =>
      obtain ⟨c, hc, -⟩ := h.reached
      simp only [sweep, List.mem_singleton, forall_eq, List.pairwise_singleton, and_true]
      exact ⟨List.ne_nil_of_mem hc, h.connected⟩
  | cons a l ih =>
      rw [sweep]
      split
      · rename_i ha
        exact ih (h.snoc hl ha) hl.tail
      · rename_i ha
        obtain ⟨hconn, hpair⟩ := ih (Open.singleton hl) hl.tail
        obtain ⟨c, hc, -⟩ := h.reached
        constructor
        · intro k hk
          rcases List.mem_cons.mp hk with rfl | hk
          · exact ⟨List.ne_nil_of_mem hc, h.connected⟩
          · exact hconn k hk
        · refine List.pairwise_cons.mpr ⟨fun k hk b hb d hd => ?_, hpair⟩
          -- What comes later starts no earlier than `a`.
          have hmem : d ∈ [a] ++ l := by
            rw [← sweep_flatten lo hi [a] (hi a) l]
            exact List.mem_flatten_of_mem hk hd
          have had : lo a ≤ lo d := by
            rcases List.mem_cons.mp hmem with rfl | hd
            · exact le_rfl
            · exact List.rel_of_pairwise_cons hl.order hd
          have hb := h.within b hb
          omega

/-! ## The clusters of a sorted list -/

section Clusters

variable {l : List α} (h : Sorted lo hi l)
include h

theorem clusters_connected {k : List α} (hk : k ∈ clusters lo hi l) :
    k ≠ [] ∧ ∀ a ∈ k, ∀ b ∈ k, Joined lo hi k a b := by
  cases l with
  | nil => cases hk
  | cons a l => exact (sweep_spec (Open.singleton h) h.tail).1 k hk

theorem clusters_leftOf : (clusters lo hi l).Pairwise (LeftOf lo hi) := by
  cases l with
  | nil => exact List.Pairwise.nil
  | cons a l => exact (sweep_spec (Open.singleton h) h.tail).2

omit h in
theorem mem_clusters {a : α} : a ∈ l ↔ ∃ k ∈ clusters lo hi l, a ∈ k := by
  rw [← List.mem_flatten, clusters_flatten lo hi]

/-- Overlapping intervals are in one cluster. -/
theorem overlap_same {k k' : List α} (hk : k ∈ clusters lo hi l) (hk' : k' ∈ clusters lo hi l)
    {a b : α} (ha : a ∈ k) (hb : b ∈ k') (hab : Overlap lo hi a b) : k = k' := by
  by_contra hne
  have hsym : (clusters lo hi l).Pairwise fun k k' => LeftOf lo hi k k' ∨ LeftOf lo hi k' k :=
    (clusters_leftOf h).imp Or.inl
  have : Std.Symm fun k k' : List α => LeftOf lo hi k k' ∨ LeftOf lo hi k' k :=
    ⟨fun _ _ => Or.symm⟩
  obtain ⟨hlo, hhi⟩ := hab
  rcases hsym.forall hk hk' hne with hleft | hleft
  · exact absurd (hleft a ha b hb) (not_le.mpr hhi)
  · exact absurd (hleft b hb a ha) (not_le.mpr hlo)

/-- **The clusters are the connected components of overlap.** -/
theorem joined_iff {a b : α} (ha : a ∈ l) :
    Joined lo hi l a b ↔ ∃ k ∈ clusters lo hi l, a ∈ k ∧ b ∈ k := by
  constructor
  · intro hab
    induction hab with
    | refl =>
        obtain ⟨k, hk, hak⟩ := mem_clusters.mp ha
        exact ⟨k, hk, hak, hak⟩
    | tail _ hstep ih =>
        obtain ⟨k, hk, hak, hbk⟩ := ih
        obtain ⟨k', hk', hck'⟩ := mem_clusters.mp hstep.1.2
        obtain rfl := overlap_same h hk hk' hbk hck' hstep.2
        exact ⟨k, hk, hak, hck'⟩
  · rintro ⟨k, hk, hak, hbk⟩
    refine ((clusters_connected h hk).2 a hak b hbk).mono fun c hc => ?_
    exact mem_clusters.mpr ⟨k, hk, hc⟩

end Clusters

end Sweep
