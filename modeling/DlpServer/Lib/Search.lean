import DlpServer.Lib.Regex

/-!
# What a search finds and what it cannot step over

The matches of a search do not overlap, each is the preferred one at its place, and
where the pattern matches at a place either that match is found or the place lies
inside one that is (`found_or_inside`). Together these say which matches are found.
-/

namespace Regex

variable {α : Type*}

namespace Match

/-- The place behind the match. -/
def stop (m : Match α) : ℕ := m.start + m.text.length

end Match

namespace Piece

/-- The match of a piece. -/
def hit? : Piece α → Option (Match α)
  | kept _ => none
  | hit m => some m

end Piece

namespace Pattern

/-- The preferred match at place `i` of the text. -/
def matchFrom (r : Pattern α) (text : List α) (i : ℕ) : Option (Match α) :=
  r.matchAt (text.take i).reverse (text.drop i)

variable {r : Pattern α}

theorem finditer_eq (r : Pattern α) (text : List α) :
    r.finditer text = (r.scan [] 0 text).filterMap Piece.hit? := by
  rw [finditer]
  congr 1

theorem matchFrom_append (b s : List α) : r.matchFrom (b ++ s) b.length = r.matchAt b.reverse s := by
  rw [matchFrom, List.take_left, List.drop_left]

/-! ## One scan -/

/-- What holds of the matches that a scan finds in `s` behind `b`, from `skip` on. -/
structure Scanned (r : Pattern α) (b : List α) (skip : ℕ) (s : List α)
    (found : List (Match α)) : Prop where
  preferred : ∀ m ∈ found, m.text ≠ [] ∧ b.length + skip ≤ m.start ∧
    r.matchFrom (b.reverse ++ s) m.start = some m
  follow : found.Pairwise fun m m' => m.stop ≤ m'.start
  complete : ∀ i m, b.length + skip ≤ i → r.matchFrom (b.reverse ++ s) i = some m →
    m.text ≠ [] → m ∈ found ∨ ∃ m' ∈ found, m'.start < i ∧ i < m'.stop

theorem scanned (r : Pattern α) (b s : List α) (skip : ℕ) :
    Scanned r b skip s ((r.scan b skip s).filterMap Piece.hit?) := by
  induction s generalizing b skip with
  | nil =>
      have hnil : r.scan b skip [] = [] := by cases skip <;> rfl
      rw [hnil]
      refine ⟨by simp, List.Pairwise.nil, fun i m hi hm hne => ?_⟩
      obtain ⟨t, ht, -⟩ := matchAt_some hm
      rw [List.append_nil, List.drop_of_length_le (by rw [List.length_reverse]; omega)] at ht
      exact absurd (List.append_eq_nil_iff.mp ht.symm).1 hne
  | cons a s ih =>
      have htext : (a :: b).reverse ++ s = b.reverse ++ a :: s := by
        rw [List.reverse_cons, List.append_assoc]
        rfl
      have hlen : (a :: b).length = b.length + 1 := List.length_cons
      cases skip with
      | succ skip =>
          have h := ih (a :: b) skip
          obtain ⟨hpref, hfollow, hcomplete⟩ := h
          rw [htext, hlen] at hpref hcomplete
          refine ⟨fun m hm => ?_, hfollow, fun i m hi => hcomplete i m (by omega)⟩
          obtain ⟨hne, hle, hmatch⟩ := hpref m hm
          exact ⟨hne, by omega, hmatch⟩
      | zero =>
          have hhere : r.matchFrom (b.reverse ++ a :: s) b.length = r.matchAt b (a :: s) := by
            have := matchFrom_append (r := r) b.reverse (a :: s)
            rwa [List.length_reverse, List.reverse_reverse] at this
          rw [scan]
          split
          · rename_i i x w g hmatch
            have h := ih (a :: b) w.length
            obtain ⟨hpref, hfollow, hcomplete⟩ := h
            rw [htext, hlen] at hpref hcomplete
            have hstart : i = b.length := matchAt_start hmatch
            subst hstart
            have hstop : (⟨b.length, x :: w, g⟩ : Match α).stop = b.length + 1 + w.length := by
              show b.length + (w.length + 1) = _
              omega
            rw [List.filterMap_cons_some (by rfl)]
            refine ⟨?_, ?_, ?_⟩
            · intro m hm
              rcases List.mem_cons.mp hm with rfl | hm
              · exact ⟨List.cons_ne_nil _ _, le_rfl, hhere.trans hmatch⟩
              · obtain ⟨hne, hle, hm⟩ := hpref m hm
                exact ⟨hne, by omega, hm⟩
            · refine List.pairwise_cons.mpr ⟨fun m hm => ?_, hfollow⟩
              rw [hstop]
              exact (hpref m hm).2.1
            · intro i m hi hm hne
              rcases Nat.lt_or_ge i (b.length + 1 + w.length) with hlt | hge
              · rcases Nat.eq_or_lt_of_le hi with heq | hgt
                · rw [← heq, Nat.add_zero, hhere, hmatch] at hm
                  cases hm
                  exact Or.inl List.mem_cons_self
                · exact Or.inr ⟨_, List.mem_cons_self, hgt, hstop ▸ hlt⟩
              · rcases hcomplete i m hge hm hne with hin | ⟨m', hm', hinside⟩
                · exact Or.inl (List.mem_cons_of_mem _ hin)
                · exact Or.inr ⟨m', List.mem_cons_of_mem _ hm', hinside⟩
          · rename_i hno
            have h := ih (a :: b) 0
            obtain ⟨hpref, hfollow, hcomplete⟩ := h
            rw [htext, hlen] at hpref hcomplete
            rw [List.filterMap_cons_none (by rfl)]
            refine ⟨fun m hm => ?_, hfollow, fun i m hi hm hne => ?_⟩
            · obtain ⟨hne, hle, hm⟩ := hpref m hm
              exact ⟨hne, by omega, hm⟩
            · rcases Nat.eq_or_lt_of_le hi with heq | hgt
              · rw [← heq, Nat.add_zero, hhere] at hm
                obtain ⟨start, text, groups⟩ := m
                cases text with
                | nil => exact absurd rfl hne
                | cons x w => exact absurd hm (hno start x w groups)
              · exact hcomplete i m (by omega) hm hne

/-! ## The matches of a search -/

/-- A match is the preferred one at its place. -/
theorem matchFrom_of_mem {text : List α} {m : Match α} (h : m ∈ r.finditer text) :
    r.matchFrom text m.start = some m := by
  rw [finditer_eq] at h
  have hm := ((scanned r [] text 0).preferred m h).2.2
  rwa [List.reverse_nil, List.nil_append] at hm

/-- The matches do not overlap. -/
theorem finditer_follow (r : Pattern α) (text : List α) :
    (r.finditer text).Pairwise fun m m' => m.stop ≤ m'.start := by
  rw [finditer_eq]
  exact (scanned r [] text 0).follow

theorem finditer_apart {text : List α} {m m' : Match α} (hm : m ∈ r.finditer text)
    (hm' : m' ∈ r.finditer text) (hne : m ≠ m') : m.stop ≤ m'.start ∨ m'.stop ≤ m.start := by
  have hpair : (r.finditer text).Pairwise fun m m' => m.stop ≤ m'.start ∨ m'.stop ≤ m.start :=
    (finditer_follow r text).imp Or.inl
  have : Std.Symm fun m m' : Match α => m.stop ≤ m'.start ∨ m'.stop ≤ m.start :=
    ⟨fun _ _ => Or.symm⟩
  exact hpair.forall hm hm' hne

/-- **What matches is found**, unless it starts inside what is found. -/
theorem found_or_inside {text : List α} {i : ℕ} {m : Match α} (h : r.matchFrom text i = some m)
    (hne : m.text ≠ []) :
    m ∈ r.finditer text ∨ ∃ m' ∈ r.finditer text, m'.start < i ∧ i < m'.stop := by
  rw [finditer_eq]
  refine (scanned r [] text 0).complete i m (Nat.zero_le _) ?_ hne
  rwa [List.reverse_nil, List.nil_append]

/-- A search does not step over a word of the pattern: a match overlaps it. -/
theorem exists_overlapping {b w t : List α} (hpos : 0 < r.leastLength)
    (h : r.Accepts b.reverse w t) :
    ∃ m ∈ r.finditer (b ++ (w ++ t)), m.start < b.length + w.length ∧ b.length < m.stop := by
  obtain ⟨m, hm⟩ := matchAt_isSome h
  obtain ⟨t', -, hacc⟩ := matchAt_some hm
  have hmpos : 0 < m.text.length := hpos.trans_le (leastLength_le hacc)
  have hwpos : 0 < w.length := hpos.trans_le (leastLength_le h)
  have hstart : m.start = b.length := by
    have := matchAt_start hm
    rwa [List.length_reverse] at this
  rw [← matchFrom_append] at hm
  rcases found_or_inside hm (List.ne_nil_of_length_pos hmpos) with hin | ⟨m', hm', hlt, hgt⟩
  · refine ⟨m, hin, ?_, ?_⟩
    · omega
    · rw [Match.stop]
      omega
  · exact ⟨m', hm', by omega, hgt⟩

end Pattern

end Regex
