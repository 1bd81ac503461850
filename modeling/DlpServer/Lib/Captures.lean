import DlpServer.Lib.Regex

/-!
# What the groups of a match hold

A pattern without groups captures nothing (`Plain`), and a group of such a pattern
captures the word it reads.
-/

namespace Regex

variable {α : Type*}

theorem Reads.unique {c c' : Cursor α} {w w' : List α} (h : Reads c w c') (h' : Reads c w' c') :
    w = w' :=
  List.append_cancel_right (h.after.symm.trans h'.after)

namespace Pattern

/-- The pattern captures nothing. -/
def Plain (r : Pattern α) : Prop := ∀ c, ∀ c' ∈ r.run c, c'.groups = c.groups

variable {r s : Pattern α}

theorem plain_one (p : α → Bool) : (one p).Plain := by
  intro c c' h
  rw [run] at h
  cases hc : c.after with
  | nil => simp [hc] at h
  | cons a rest =>
      rw [hc] at h
      dsimp only at h
      split at h
      · rw [List.mem_singleton.mp h]
      · cases h

theorem plain_look (p : List α → List α → Bool) : (look p).Plain := by
  intro c c' h
  rw [run] at h
  split at h
  · rw [List.mem_singleton.mp h]
  · cases h

/-- A test at the end. -/
theorem look_run {p : List α → List α → Bool} {c c' : Cursor α} (h : c' ∈ (look p).run c) :
    Reads c [] c' ∧ c'.groups = c.groups := by
  obtain ⟨w, hw, rfl, -⟩ := run_sound h
  exact ⟨hw, plain_look p c c' h⟩

theorem Plain.seq (hr : r.Plain) (hs : s.Plain) : (Pattern.seq r s).Plain := by
  intro c c' h
  obtain ⟨d, hd, hc'⟩ := List.mem_flatMap.mp h
  rw [hs d c' hc', hr c d hd]

theorem Plain.alt (hr : r.Plain) (hs : s.Plain) : (Pattern.alt r s).Plain := by
  intro c c' h
  rcases List.mem_append.mp h with h | h
  · exact hr c c' h
  · exact hs c c' h

theorem plain_lit [DecidableEq α] (w : List α) : (lit w).Plain := by
  induction w with
  | nil => exact plain_look _
  | cons a w ih => exact (plain_one _).seq ih

theorem Plain.rep (hr : r.Plain) (least : ℕ) (most : Option ℕ) :
    (Pattern.rep r least most).Plain := by
  have hiter : ∀ n c, ∀ c' ∈ iter r.run n c, c'.groups = c.groups := by
    intro n
    induction n with
    | zero =>
        intro c c' h
        rw [List.mem_singleton.mp h]
    | succ n ih =>
        intro c c' h
        obtain ⟨d, hd, hc'⟩ := List.mem_flatMap.mp h
        rw [ih d c' hc', hr c d hd]
  intro c c' h
  obtain ⟨n, -, -, hn⟩ := mem_greedy.mp h
  exact hiter n c c' hn

/-- What is read by the first part of a sequence, which captures nothing. -/
theorem Plain.seq_run (hr : r.Plain) {c c' : Cursor α} (h : c' ∈ (Pattern.seq r s).run c) :
    ∃ w d, Reads c w d ∧ r.Accepts c.before w d.after ∧ d.groups = c.groups ∧ c' ∈ s.run d := by
  obtain ⟨d, hd, hc'⟩ := List.mem_flatMap.mp h
  obtain ⟨w, hw, hacc⟩ := run_sound hd
  exact ⟨w, d, hw, hacc, hr c d hd, hc'⟩

/-- What a group reads it captures. -/
theorem Plain.group_reads (hr : r.Plain) {n : ℕ} {c c' : Cursor α} (h : c' ∈ (group n r).run c) :
    ∃ w, Reads c w c' ∧ r.Accepts c.before w c'.after ∧ c'.groups = c.groups ++ [(n, w)] := by
  obtain ⟨w, hw, hacc⟩ := run_sound h
  obtain ⟨e, he, rfl⟩ := List.mem_map.mp h
  have hafter : c.after = w ++ e.after := hw.after
  refine ⟨w, hw, hacc, ?_⟩
  show e.groups ++ [(n, c.after.take (c.after.length - e.after.length))] = _
  rw [hr c e he, hafter, List.length_append, Nat.add_sub_cancel, List.take_left]

/-- What is read by the first part of a sequence, which is a group. -/
theorem Plain.group_run (hr : r.Plain) {n : ℕ} {c c' : Cursor α}
    (h : c' ∈ (Pattern.seq (group n r) s).run c) :
    ∃ w d, Reads c w d ∧ r.Accepts c.before w d.after ∧ d.groups = c.groups ++ [(n, w)] ∧
      c' ∈ s.run d := by
  obtain ⟨d, hd, hc'⟩ := List.mem_flatMap.mp h
  obtain ⟨w, hw, hacc, hgroups⟩ := hr.group_reads hd
  exact ⟨w, d, hw, hacc, hgroups, hc'⟩

/-- The match of a pattern and its groups are those of the first position found. -/
theorem matchAt_reads {b s' : List α} {m : Match α} (h : r.matchAt b s' = some m) :
    ∃ c' ∈ r.run ⟨b, s', []⟩, Reads ⟨b, s', []⟩ m.text c' ∧ m.groups = c'.groups := by
  unfold matchAt at h
  cases hrun : r.run ⟨b, s', []⟩ with
  | nil => simp [hrun] at h
  | cons c cs =>
      obtain ⟨w, hw, -⟩ := run_sound (hrun ▸ List.mem_cons_self)
      have hs : s' = w ++ c.after := hw.after
      rw [hrun] at h
      obtain rfl := Option.some.inj h
      refine ⟨c, List.mem_cons_self, ?_, rfl⟩
      show Reads _ (s'.take (s'.length - c.after.length)) c
      rw [hs, List.length_append, Nat.add_sub_cancel, List.take_left]
      exact ⟨rfl, hw.before⟩

/-- A match of the whole text ends at one of the positions found. -/
theorem fullmatch_reads {text : List α} {m : Match α} (h : r.fullmatch text = some m) :
    ∃ c ∈ r.run ⟨[], text, []⟩, c.after = [] ∧ m.groups = c.groups := by
  obtain ⟨c, hc, rfl⟩ := Option.map_eq_some_iff.mp h
  exact ⟨c, List.mem_of_find?_eq_some hc,
    List.isEmpty_iff.mp (List.find?_some (p := fun c : Cursor α => c.after.isEmpty) hc), rfl⟩

theorem fullmatch_isSome {text : List α} (h : r.Accepts [] text []) :
    (r.fullmatch text).isSome = true := by
  obtain ⟨g, hg⟩ := run_complete [] h
  rw [List.append_nil] at hg
  rw [fullmatch, Option.isSome_map, List.find?_isSome]
  exact ⟨_, hg, rfl⟩

end Pattern

end Regex
