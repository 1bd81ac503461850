import DlpServer.Lib.Longest

/-!
# What a pattern asks of the text around its words

A test at the front or at the end of a pattern holds around every word of it
(`Opens`, `Closes`), and nothing but the tests depends on what stands around
(`accepts_congr`).
-/

namespace Regex

variable {α : Type*}

namespace Pattern

/-- The test holds where a word begins. -/
def Opens (r : Pattern α) (p : List α → List α → Bool) : Prop :=
  ∀ b w t, r.Accepts b w t → p b (w ++ t) = true

/-- The test holds where a word ends. -/
def Closes (r : Pattern α) (p : List α → List α → Bool) : Prop :=
  ∀ b w t, r.Accepts b w t → p (w.reverse ++ b) t = true

/-- The last element of a word is in the class. -/
def Ends (r : Pattern α) (p : α → Bool) : Prop :=
  ∀ b w t, r.Accepts b w t → w.getLast?.any p = true

variable {r s : Pattern α} {p : List α → List α → Bool} {q : α → Bool}

theorem opens_look (p : List α → List α → Bool) : (look p).Opens p := by
  rintro b w t ⟨rfl, hp⟩
  exact hp

theorem Opens.seq (h : r.Opens p) (s : Pattern α) : (seq r s).Opens p := by
  rintro b w t ⟨x, y, rfl, hx, -⟩
  rw [List.append_assoc]
  exact h b x _ hx

theorem closes_look (p : List α → List α → Bool) : (look p).Closes p := by
  rintro b w t ⟨rfl, hp⟩
  exact hp

theorem Closes.seq (h : s.Closes p) (r : Pattern α) : (seq r s).Closes p := by
  rintro b w t ⟨x, y, rfl, -, hy⟩
  rw [List.reverse_append, List.append_assoc]
  exact h _ y t hy

/-- A test at the end does not move. -/
theorem Closes.before_look (h : r.Closes p) (p' : List α → List α → Bool) :
    (Pattern.seq r (look p')).Closes p := by
  rintro b w t ⟨x, y, rfl, hx, rfl, -⟩
  rw [List.append_nil]
  exact h b x t hx

theorem ends_one (q : α → Bool) : (one q).Ends q := by
  rintro b w t ⟨a, rfl, ha⟩
  exact ha

theorem getLast?_append_any {x y : List α} (h : y.getLast?.any q = true) :
    (x ++ y).getLast?.any q = true := by
  cases y with
  | nil => cases h
  | cons a y =>
      rw [List.getLast?_append]
      cases hlast : (a :: y).getLast? with
      | none => simp at hlast
      | some c => rwa [hlast] at h

theorem Ends.seq (h : s.Ends q) (r : Pattern α) : (seq r s).Ends q := by
  rintro b w t ⟨x, y, rfl, -, hy⟩
  exact getLast?_append_any (h _ y t hy)

theorem Ends.before_look (h : r.Ends q) (p : List α → List α → Bool) :
    (Pattern.seq r (look p)).Ends q := by
  rintro b w t ⟨x, y, rfl, hx, rfl, -⟩
  rw [List.append_nil]
  exact h b x _ hx

theorem Ends.rep (h : r.Ends q) (least : ℕ) (most : Option ℕ) :
    (rep r (least + 1) most).Ends q := by
  rintro b w t ⟨n, hn, -, hR⟩
  have hrounds : ∀ {n b w}, Rounds r.Accepts (n + 1) b w t → w.getLast?.any q = true := by
    intro n
    induction n with
    | zero =>
        rintro b w ⟨x, y, rfl, hx, rfl⟩
        rw [List.append_nil]
        exact h b x _ hx
    | succ n ih =>
        rintro b w ⟨x, y, rfl, -, hy⟩
        exact getLast?_append_any (ih hy)
  obtain ⟨k, rfl⟩ : ∃ k, n = k + 1 := ⟨n - 1, by omega⟩
  exact hrounds hR

theorem Ends.group (h : r.Ends q) (n : ℕ) : (group n r).Ends q := h

theorem ends_of_closes (h : r.Closes fun b _ => b.head?.any q) (hpos : 0 < r.leastLength) :
    r.Ends q := by
  intro b w t hw
  have hlast : (w.reverse ++ b).head?.any q = true := h b w t hw
  have hne : w ≠ [] := List.ne_nil_of_length_pos (hpos.trans_le (leastLength_le hw))
  rw [List.head?_append_of_ne_nil _ (List.reverse_ne_nil_iff.mpr hne), List.head?_reverse] at hlast
  exact hlast

/-- The first element of a word that is not empty. -/
theorem Starts.of_accepts (h : r.Starts q) {b w t : List α} (hw : r.Accepts b w t) (hne : w ≠ []) :
    w.head?.any q = true := by
  obtain ⟨g, hg⟩ := run_complete [] hw
  obtain ⟨a, rest, hafter, ha⟩ := h _ (List.ne_nil_of_mem hg)
  cases w with
  | nil => exact absurd rfl hne
  | cons c w =>
      obtain ⟨rfl, -⟩ := List.cons.inj hafter
      exact ha

/-! ## Other surroundings -/

/-- The tests of the pattern. -/
def looks : Pattern α → List (List α → List α → Bool)
  | one _ => []
  | look p => [p]
  | seq r s | alt r s => r.looks ++ s.looks
  | rep r _ _ => r.looks
  | group _ r => r.looks

/-- A repetition without upper bound repeats something that is not empty. -/
def Paced : Pattern α → Prop
  | one _ | look _ => True
  | seq r s | alt r s => r.Paced ∧ s.Paced
  | rep r _ most => r.Paced ∧ (most = none → 0 < r.leastLength)
  | group _ r => r.Paced

/-- **Only the tests look around.** Where they cannot tell the surroundings apart, the
words are the same. -/
theorem accepts_congr {b b' t t' : List α} (hpaced : r.Paced)
    (hlooks : ∀ p ∈ r.looks, ∀ x y, p (x ++ b) (y ++ t) = p (x ++ b') (y ++ t')) {x w y : List α}
    (h : r.Accepts (x ++ b) w (y ++ t)) : r.Accepts (x ++ b') w (y ++ t') := by
  induction r generalizing x w y with
  | one p => exact h
  | look p =>
      obtain ⟨hw, hp⟩ := h
      refine ⟨hw, ?_⟩
      rw [← hlooks p (List.mem_singleton.mpr rfl)]
      exact hp
  | seq r s ihr ihs =>
      obtain ⟨v, z, hw, hr, hs⟩ := h
      refine ⟨v, z, hw, ?_, ?_⟩
      · rw [← List.append_assoc] at hr ⊢
        exact ihr hpaced.1 (fun p hp => hlooks p (List.mem_append_left _ hp)) hr
      · rw [← List.append_assoc] at hs ⊢
        exact ihs hpaced.2 (fun p hp => hlooks p (List.mem_append_right _ hp)) hs
  | alt r s ihr ihs =>
      rcases h with h | h
      · exact Or.inl (ihr hpaced.1 (fun p hp => hlooks p (List.mem_append_left _ hp)) h)
      · exact Or.inr (ihs hpaced.2 (fun p hp => hlooks p (List.mem_append_right _ hp)) h)
  | rep r least most ih =>
      obtain ⟨n, hl, hn, hR⟩ := h
      have hrounds : ∀ {n x w}, Rounds r.Accepts n (x ++ b) w (y ++ t) →
          Rounds r.Accepts n (x ++ b') w (y ++ t') := by
        intro n
        induction n with
        | zero => exact fun {x w} h => h
        | succ n ihn =>
            rintro x w ⟨v, z, hw, hr, hrest⟩
            refine ⟨v, z, hw, ?_, ?_⟩
            · rw [← List.append_assoc] at hr ⊢
              exact ih hpaced.1 hlooks hr
            · rw [← List.append_assoc] at hrest ⊢
              exact ihn hrest
      refine ⟨n, hl, ?_, hrounds hR⟩
      cases most with
      | some k => exact hn
      | none =>
          have hpos := hpaced.2 rfl
          have hlen := rounds_length (fun b w t hw => leastLength_le hw) hR
          have hle : n ≤ n * r.leastLength := Nat.le_mul_of_pos_right n hpos
          show n ≤ (w ++ (y ++ t')).length
          rw [List.length_append]
          omega
  | group n r ih => exact ih hpaced hlooks h

/-- The test asks of its neighbours only whether they are in the class. -/
def Beside (q : α → Bool) (p : List α → List α → Bool) : Prop :=
  ∀ b b' t t', b.head?.any q = b'.head?.any q → t.head?.any q = t'.head?.any q → p b t = p b' t'

theorem beside_const (x : Bool) : Beside q fun _ _ => x := fun _ _ _ _ _ _ => rfl

theorem beside_behind (f : Bool → Bool) : Beside q fun b _ => f (b.head?.any q) := by
  intro b b' t t' hb _
  exact congrArg f hb

theorem beside_ahead (f : Bool → Bool) : Beside q fun _ t => f (t.head?.any q) := by
  intro b b' t t' _ ht
  exact congrArg f ht

theorem head?_any_append {b b' : List α} (h : b.head?.any q = b'.head?.any q) (x : List α) :
    (x ++ b).head?.any q = (x ++ b').head?.any q := by
  cases x with
  | nil => exact h
  | cons a x => rfl

/-- Words may be moved between neighbours that are alike. -/
theorem accepts_moved {b b' w t t' : List α} (hpaced : r.Paced)
    (hlooks : ∀ p ∈ r.looks, Beside q p) (hb : b.head?.any q = b'.head?.any q)
    (ht : t.head?.any q = t'.head?.any q) (h : r.Accepts b w t) : r.Accepts b' w t' := by
  have hmoved := accepts_congr (x := []) (y := []) hpaced (fun p hp x y =>
    hlooks p hp _ _ _ _ (head?_any_append hb x) (head?_any_append ht y)) h
  exact hmoved

end Pattern

end Regex
