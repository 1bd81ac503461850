import Mathlib

/-!
# Regular expressions with backtracking

A pattern tried at a position yields its matches in the order in which a
backtracking engine finds them: a repetition tries more before fewer, an
alternative its left side before its right. A search takes the first match at
the leftmost position and goes on behind it.

`Pattern.run` is the engine. `Pattern.Accepts` says the same without an order,
as a relation between a word and what stands around it.
-/

namespace Regex

/-! ## Patterns -/

inductive Pattern (α : Type*) where
  /-- One element of a class. -/
  | one (p : α → Bool)
  /-- A test on what stands before (nearest first) and after. -/
  | look (p : List α → List α → Bool)
  | seq (r s : Pattern α)
  | alt (r s : Pattern α)
  /-- Greedy repetition, without upper bound for `none`. -/
  | rep (r : Pattern α) (least : ℕ) (most : Option ℕ)
  /-- A capturing group. -/
  | group (n : ℕ) (r : Pattern α)

/-- A position in a text: what stands before, nearest first, what comes after,
and the groups captured so far. -/
structure Cursor (α : Type*) where
  before : List α
  after : List α
  groups : List (ℕ × List α)

variable {α : Type*}

/-- From `least` to `most` rounds of `f`, more rounds first. -/
def greedy (f : Cursor α → List (Cursor α)) : ℕ → ℕ → Cursor α → List (Cursor α)
  | least, 0, c => if least = 0 then [c] else []
  | least, most + 1, c =>
      (f c).flatMap (greedy f (least - 1) most) ++ if least = 0 then [c] else []

namespace Pattern

/-- The positions behind the matches at a position, in order of preference. -/
def run : Pattern α → Cursor α → List (Cursor α)
  | one p, c =>
      match c.after with
      | a :: rest => if p a then [⟨a :: c.before, rest, c.groups⟩] else []
      | [] => []
  | look p, c => if p c.before c.after then [c] else []
  | seq r s, c => (r.run c).flatMap s.run
  | alt r s, c => r.run c ++ s.run c
  | rep r least most, c => greedy r.run least (most.getD c.after.length) c
  | group n r, c => (r.run c).map fun c' =>
      { c' with groups := c'.groups ++ [(n, c.after.take (c.after.length - c'.after.length))] }

/-- A fixed text. -/
def lit [DecidableEq α] (w : List α) : Pattern α :=
  w.foldr (fun a r => seq (one fun b => decide (b = a)) r) (look fun _ _ => true)

/-- One or more of a class. -/
def some1 (p : α → Bool) : Pattern α := rep (one p) 1 none

/-- Optional. -/
def opt (r : Pattern α) : Pattern α := rep r 0 (some 1)

/-- One of some words, tried in order. -/
def oneOf [DecidableEq α] (words : List (List α)) : Pattern α :=
  words.foldr (fun w r => alt (lit w) r) (look fun _ _ => false)

/-- `n` times. -/
def times (r : Pattern α) (n : ℕ) : Pattern α := rep r n (some n)

end Pattern

/-! ## What a pattern accepts -/

/-- `n` words of `P` in a row. -/
def Rounds (P : List α → List α → List α → Prop) : ℕ → List α → List α → List α → Prop
  | 0, _, w, _ => w = []
  | n + 1, b, w, t => ∃ u v, w = u ++ v ∧ P b u (v ++ t) ∧ Rounds P n (u.reverse ++ b) v t

namespace Pattern

/-- `r` accepts the word `w` between `b` (nearest first) and `t`. -/
def Accepts : Pattern α → List α → List α → List α → Prop
  | one p, _, w, _ => ∃ a, w = [a] ∧ p a = true
  | look p, b, w, t => w = [] ∧ p b t = true
  | seq r s, b, w, t => ∃ u v, w = u ++ v ∧ r.Accepts b u (v ++ t) ∧ s.Accepts (u.reverse ++ b) v t
  | alt r s, b, w, t => r.Accepts b w t ∨ s.Accepts b w t
  | rep r least most, b, w, t =>
      ∃ n, least ≤ n ∧ n ≤ most.getD (w ++ t).length ∧ Rounds r.Accepts n b w t
  | group _ r, b, w, t => r.Accepts b w t

end Pattern

/-- `n` rounds of `f`. -/
def iter (f : Cursor α → List (Cursor α)) : ℕ → Cursor α → List (Cursor α)
  | 0, c => [c]
  | n + 1, c => (f c).flatMap (iter f n)

theorem mem_greedy {f : Cursor α → List (Cursor α)} {least most : ℕ} {c c' : Cursor α} :
    c' ∈ greedy f least most c ↔ ∃ n, least ≤ n ∧ n ≤ most ∧ c' ∈ iter f n c := by
  induction most generalizing least c with
  | zero =>
      constructor
      · intro h
        by_cases hl : least = 0
        · exact ⟨0, hl.le, le_rfl, by simpa [greedy, hl, iter] using h⟩
        · simp [greedy, hl] at h
      · rintro ⟨n, hl, hn, h⟩
        obtain rfl : n = 0 := by omega
        obtain rfl : least = 0 := by omega
        simpa [greedy, iter] using h
  | succ most ih =>
      rw [greedy, List.mem_append, List.mem_flatMap]
      constructor
      · rintro (⟨d, hd, h⟩ | h)
        · obtain ⟨n, hl, hn, hc⟩ := ih.mp h
          exact ⟨n + 1, by omega, by omega, List.mem_flatMap.mpr ⟨d, hd, hc⟩⟩
        · by_cases hl : least = 0
          · exact ⟨0, hl.le, Nat.zero_le _, by simpa [hl, iter] using h⟩
          · simp [hl] at h
      · rintro ⟨n, hl, hn, h⟩
        cases n with
        | zero =>
            obtain rfl : least = 0 := by omega
            exact Or.inr (by simpa [iter] using h)
        | succ n =>
            obtain ⟨d, hd, hc⟩ := List.mem_flatMap.mp h
            exact Or.inl ⟨d, hd, ih.mpr ⟨n, by omega, by omega, hc⟩⟩

/-- Moving from `c` to `c'` reads `w`. -/
structure Reads (c : Cursor α) (w : List α) (c' : Cursor α) : Prop where
  after : c.after = w ++ c'.after
  before : c'.before = w.reverse ++ c.before

theorem Reads.trans {c d e : Cursor α} {u v : List α} (h : Reads c u d) (h' : Reads d v e) :
    Reads c (u ++ v) e where
  after := by rw [h.after, h'.after, List.append_assoc]
  before := by rw [h'.before, h.before, List.reverse_append, List.append_assoc]

section Rounds

variable {P : List α → List α → List α → Prop} {f : Cursor α → List (Cursor α)}

theorem iter_sound
    (hf : ∀ c, ∀ c' ∈ f c, ∃ w, Reads c w c' ∧ P c.before w c'.after) {n : ℕ} {c c' : Cursor α}
    (h : c' ∈ iter f n c) : ∃ w, Reads c w c' ∧ Rounds P n c.before w c'.after := by
  induction n generalizing c with
  | zero =>
      obtain rfl : c' = c := by simpa [iter] using h
      exact ⟨[], ⟨rfl, rfl⟩, rfl⟩
  | succ n ih =>
      obtain ⟨d, hd, hc⟩ := List.mem_flatMap.mp h
      obtain ⟨u, hu, hP⟩ := hf c d hd
      obtain ⟨v, hv, hR⟩ := ih hc
      refine ⟨u ++ v, hu.trans hv, u, v, rfl, ?_, ?_⟩
      · rw [← hv.after]
        exact hP
      · rw [← hu.before]
        exact hR

theorem iter_complete
    (hf : ∀ b w t g, P b w t → ∃ g', ⟨w.reverse ++ b, t, g'⟩ ∈ f ⟨b, w ++ t, g⟩) {n : ℕ}
    {b w t : List α} (g : List (ℕ × List α)) (h : Rounds P n b w t) :
    ∃ g', ⟨w.reverse ++ b, t, g'⟩ ∈ iter f n ⟨b, w ++ t, g⟩ := by
  induction n generalizing b w g with
  | zero =>
      obtain rfl : w = [] := h
      exact ⟨g, List.mem_singleton.mpr rfl⟩
  | succ n ih =>
      obtain ⟨u, v, rfl, hP, hR⟩ := h
      obtain ⟨g₁, h₁⟩ := hf b u (v ++ t) g hP
      obtain ⟨g₂, h₂⟩ := ih g₁ hR
      refine ⟨g₂, List.mem_flatMap.mpr ⟨⟨u.reverse ++ b, v ++ t, g₁⟩, ?_, ?_⟩⟩
      · rw [List.append_assoc]
        exact h₁
      · rw [List.reverse_append, List.append_assoc]
        exact h₂

end Rounds

namespace Pattern

theorem run_sound {r : Pattern α} {c c' : Cursor α} (h : c' ∈ r.run c) :
    ∃ w, Reads c w c' ∧ r.Accepts c.before w c'.after := by
  induction r generalizing c c' with
  | one p =>
      rw [run] at h
      cases hc : c.after with
      | nil => simp [hc] at h
      | cons a rest =>
          by_cases hp : p a = true
          · obtain rfl : c' = ⟨a :: c.before, rest, c.groups⟩ := by simpa [hc, hp] using h
            exact ⟨[a], ⟨hc, rfl⟩, a, rfl, hp⟩
          · simp [hc, hp] at h
  | look p =>
      rw [run] at h
      by_cases hp : p c.before c.after = true
      · obtain rfl : c' = c := by simpa [hp] using h
        exact ⟨[], ⟨rfl, rfl⟩, rfl, hp⟩
      · simp [hp] at h
  | seq r s ihr ihs =>
      obtain ⟨d, hd, hc⟩ := List.mem_flatMap.mp h
      obtain ⟨u, hu, hr⟩ := ihr hd
      obtain ⟨v, hv, hs⟩ := ihs hc
      refine ⟨u ++ v, hu.trans hv, u, v, rfl, ?_, ?_⟩
      · rw [← hv.after]
        exact hr
      · rw [← hu.before]
        exact hs
  | alt r s ihr ihs =>
      rcases List.mem_append.mp h with h | h
      · obtain ⟨w, hw, hr⟩ := ihr h
        exact ⟨w, hw, Or.inl hr⟩
      · obtain ⟨w, hw, hs⟩ := ihs h
        exact ⟨w, hw, Or.inr hs⟩
  | rep r least most ih =>
      obtain ⟨n, hl, hn, hc⟩ := mem_greedy.mp h
      obtain ⟨w, hw, hR⟩ := iter_sound (P := r.Accepts) (fun c c' h => ih h) hc
      refine ⟨w, hw, n, hl, ?_, hR⟩
      rw [← hw.after]
      exact hn
  | group n r ih =>
      obtain ⟨d, hd, rfl⟩ := List.mem_map.mp h
      obtain ⟨w, hw, hr⟩ := ih hd
      exact ⟨w, ⟨hw.after, hw.before⟩, hr⟩

theorem run_complete {r : Pattern α} {b w t : List α} (g : List (ℕ × List α))
    (h : r.Accepts b w t) : ∃ g', ⟨w.reverse ++ b, t, g'⟩ ∈ r.run ⟨b, w ++ t, g⟩ := by
  induction r generalizing b w t g with
  | one p =>
      obtain ⟨a, rfl, hp⟩ := h
      exact ⟨g, by simp [run, hp]⟩
  | look p =>
      obtain ⟨rfl, hp⟩ := h
      exact ⟨g, by simp [run, hp]⟩
  | seq r s ihr ihs =>
      obtain ⟨u, v, rfl, hr, hs⟩ := h
      obtain ⟨g₁, h₁⟩ := ihr g hr
      obtain ⟨g₂, h₂⟩ := ihs g₁ hs
      refine ⟨g₂, List.mem_flatMap.mpr ⟨⟨u.reverse ++ b, v ++ t, g₁⟩, ?_, ?_⟩⟩
      · rw [List.append_assoc]
        exact h₁
      · rw [List.reverse_append, List.append_assoc]
        exact h₂
  | alt r s ihr ihs =>
      rcases h with h | h
      · obtain ⟨g', h'⟩ := ihr g h
        exact ⟨g', List.mem_append_left _ h'⟩
      · obtain ⟨g', h'⟩ := ihs g h
        exact ⟨g', List.mem_append_right _ h'⟩
  | rep r least most ih =>
      obtain ⟨n, hl, hn, hR⟩ := h
      obtain ⟨g', h'⟩ := iter_complete (P := r.Accepts) (fun b w t g h => ih g h) g hR
      exact ⟨g', mem_greedy.mpr ⟨n, hl, hn, h'⟩⟩
  | group n r ih =>
      obtain ⟨g', h'⟩ := ih g h
      exact ⟨_, List.mem_map.mpr ⟨_, h', rfl⟩⟩

/-! ## What the syntax tells about the words -/

/-- The classes of the pattern. -/
def classes : Pattern α → List (α → Bool)
  | one p => [p]
  | look _ => []
  | seq r s | alt r s => r.classes ++ s.classes
  | rep r _ _ => r.classes
  | group _ r => r.classes

/-- A bound on the length of the words from below. -/
def leastLength : Pattern α → ℕ
  | one _ => 1
  | look _ => 0
  | seq r s => r.leastLength + s.leastLength
  | alt r s => min r.leastLength s.leastLength
  | rep r least _ => least * r.leastLength
  | group _ r => r.leastLength

theorem rounds_forall {P : List α → List α → List α → Prop} {Q : α → Prop}
    (hP : ∀ b w t, P b w t → ∀ x ∈ w, Q x) {n : ℕ} {b w t : List α} (h : Rounds P n b w t) :
    ∀ x ∈ w, Q x := by
  induction n generalizing b w with
  | zero =>
      obtain rfl : w = [] := h
      exact fun x hx => absurd hx List.not_mem_nil
  | succ n ih =>
      obtain ⟨u, v, rfl, hu, hv⟩ := h
      intro x hx
      rcases List.mem_append.mp hx with hx | hx
      · exact hP b u _ hu x hx
      · exact ih hv x hx

theorem rounds_length {P : List α → List α → List α → Prop} {k : ℕ}
    (hP : ∀ b w t, P b w t → k ≤ w.length) {n : ℕ} {b w t : List α} (h : Rounds P n b w t) :
    n * k ≤ w.length := by
  induction n generalizing b w with
  | zero =>
      rw [Nat.zero_mul]
      exact Nat.zero_le _
  | succ n ih =>
      obtain ⟨u, v, rfl, hu, hv⟩ := h
      have hlen := hP b u _ hu
      have hrest := ih hv
      rw [List.length_append, Nat.succ_mul]
      omega

theorem rounds_sublist {P : List α → List α → List α → Prop} {Q : α → Prop}
    (hP : ∀ b w t, P b w t → ∃ x ∈ w, Q x) {n : ℕ} {b w t : List α} (h : Rounds P n b w t) :
    ∃ v, List.Sublist v w ∧ v.length = n ∧ ∀ x ∈ v, Q x := by
  induction n generalizing b w with
  | zero => exact ⟨[], List.nil_sublist _, rfl, fun x hx => absurd hx List.not_mem_nil⟩
  | succ n ih =>
      obtain ⟨u, v, rfl, hu, hv⟩ := h
      obtain ⟨x, hx, hQ⟩ := hP b u _ hu
      obtain ⟨v', hsub, hlen, hall⟩ := ih hv
      refine ⟨x :: v', (List.singleton_sublist.mpr hx).append hsub, ?_, ?_⟩
      · rw [List.length_cons, hlen]
      · intro y hy
        rcases List.mem_cons.mp hy with rfl | hy
        · exact hQ
        · exact hall y hy

/-- Every element of a word is in a class of the pattern. -/
theorem accepts_classes {r : Pattern α} {b w t : List α} (h : r.Accepts b w t) :
    ∀ x ∈ w, ∃ p ∈ r.classes, p x = true := by
  induction r generalizing b w t with
  | one p =>
      obtain ⟨a, rfl, ha⟩ := h
      intro x hx
      obtain rfl := List.mem_singleton.mp hx
      exact ⟨p, List.mem_singleton.mpr rfl, ha⟩
  | look p =>
      obtain ⟨rfl, -⟩ := h
      exact fun x hx => absurd hx List.not_mem_nil
  | seq r s ihr ihs =>
      obtain ⟨u, v, rfl, hu, hv⟩ := h
      intro x hx
      rcases List.mem_append.mp hx with hx | hx
      · obtain ⟨p, hp, hpx⟩ := ihr hu x hx
        exact ⟨p, List.mem_append_left _ hp, hpx⟩
      · obtain ⟨p, hp, hpx⟩ := ihs hv x hx
        exact ⟨p, List.mem_append_right _ hp, hpx⟩
  | alt r s ihr ihs =>
      intro x hx
      rcases h with h | h
      · obtain ⟨p, hp, hpx⟩ := ihr h x hx
        exact ⟨p, List.mem_append_left _ hp, hpx⟩
      · obtain ⟨p, hp, hpx⟩ := ihs h x hx
        exact ⟨p, List.mem_append_right _ hp, hpx⟩
  | rep r least most ih =>
      obtain ⟨n, -, -, hR⟩ := h
      exact rounds_forall (fun b w t hw => ih hw) hR
  | group n r ih => exact ih h

theorem leastLength_le {r : Pattern α} {b w t : List α} (h : r.Accepts b w t) :
    r.leastLength ≤ w.length := by
  induction r generalizing b w t with
  | one p =>
      obtain ⟨a, rfl, -⟩ := h
      exact le_rfl
  | look p => exact Nat.zero_le _
  | seq r s ihr ihs =>
      obtain ⟨u, v, rfl, hu, hv⟩ := h
      rw [List.length_append]
      exact Nat.add_le_add (ihr hu) (ihs hv)
  | alt r s ihr ihs =>
      rcases h with h | h
      · exact (min_le_left _ _).trans (ihr h)
      · exact (min_le_right _ _).trans (ihs h)
  | rep r least most ih =>
      obtain ⟨n, hn, -, hR⟩ := h
      exact (Nat.mul_le_mul_right _ hn).trans (rounds_length (fun b w t hw => ih hw) hR)
  | group n r ih => exact ih h

/-! ## Words of the simple patterns -/

@[simp] theorem accepts_one {p : α → Bool} {b w t : List α} :
    (one p).Accepts b w t ↔ ∃ a, w = [a] ∧ p a = true := Iff.rfl

@[simp] theorem accepts_seq {r s : Pattern α} {b w t : List α} :
    (seq r s).Accepts b w t ↔
      ∃ u v, w = u ++ v ∧ r.Accepts b u (v ++ t) ∧ s.Accepts (u.reverse ++ b) v t := Iff.rfl

@[simp] theorem accepts_group {n : ℕ} {r : Pattern α} {b w t : List α} :
    (group n r).Accepts b w t ↔ r.Accepts b w t := Iff.rfl

@[simp] theorem accepts_lit [DecidableEq α] {l b w t : List α} :
    (lit l).Accepts b w t ↔ w = l := by
  induction l generalizing b w with
  | nil => exact and_iff_left rfl
  | cons a l ih =>
      constructor
      · rintro ⟨u, v, rfl, ⟨a', rfl, ha⟩, hv⟩
        obtain rfl : a' = a := of_decide_eq_true ha
        obtain rfl : v = l := ih.mp hv
        rfl
      · rintro rfl
        exact ⟨[a], l, rfl, ⟨a, rfl, decide_eq_true rfl⟩, ih.mpr rfl⟩

theorem accepts_oneOf [DecidableEq α] {words : List (List α)} {b w t : List α} :
    (oneOf words).Accepts b w t ↔ w ∈ words := by
  induction words with
  | nil =>
      constructor
      · rintro ⟨-, hfalse⟩
        cases hfalse
      · exact fun h => absurd h List.not_mem_nil
  | cons l words ih =>
      rw [List.mem_cons, ← ih]
      exact or_congr_left accepts_lit

theorem rounds_one {p : α → Bool} {n : ℕ} {b w t : List α} :
    Rounds (one p).Accepts n b w t ↔ w.length = n ∧ ∀ x ∈ w, p x = true := by
  induction n generalizing b w with
  | zero =>
      constructor
      · rintro rfl
        exact ⟨rfl, fun x hx => absurd hx List.not_mem_nil⟩
      · rintro ⟨h, -⟩
        exact List.length_eq_zero_iff.mp h
  | succ n ih =>
      constructor
      · rintro ⟨u, v, rfl, ⟨a, rfl, ha⟩, hR⟩
        obtain ⟨hlen, hall⟩ := ih.mp hR
        exact ⟨by simp [hlen], by simpa [ha] using hall⟩
      · rintro ⟨hlen, hall⟩
        obtain ⟨a, v, rfl⟩ := List.exists_cons_of_length_eq_add_one hlen
        refine ⟨[a], v, rfl, ⟨a, rfl, hall a List.mem_cons_self⟩, ih.mpr ⟨?_, ?_⟩⟩
        · exact Nat.succ.inj hlen
        · exact fun x hx => hall x (List.mem_cons_of_mem _ hx)

@[simp] theorem accepts_some1 {p : α → Bool} {b w t : List α} :
    (some1 p).Accepts b w t ↔ w ≠ [] ∧ ∀ x ∈ w, p x = true := by
  constructor
  · rintro ⟨n, hn, -, hR⟩
    obtain ⟨hlen, hall⟩ := rounds_one.mp hR
    exact ⟨List.ne_nil_of_length_pos (by omega), hall⟩
  · rintro ⟨hne, hall⟩
    refine ⟨w.length, List.length_pos_iff.mpr hne, ?_, rounds_one.mpr ⟨rfl, hall⟩⟩
    simp

theorem accepts_many {p : α → Bool} {b w t : List α} :
    (rep (one p) 0 none).Accepts b w t ↔ ∀ x ∈ w, p x = true := by
  constructor
  · rintro ⟨n, -, -, hR⟩
    exact (rounds_one.mp hR).2
  · intro hall
    refine ⟨w.length, Nat.zero_le _, ?_, rounds_one.mpr ⟨rfl, hall⟩⟩
    simp

theorem accepts_opt {r : Pattern α} {b w t : List α} :
    (opt r).Accepts b w t ↔ w = [] ∨ r.Accepts b w t := by
  constructor
  · rintro ⟨n, -, hn, hR⟩
    rcases Nat.le_one_iff_eq_zero_or_eq_one.mp hn with rfl | rfl
    · exact Or.inl hR
    · obtain ⟨u, v, rfl, hr, rfl⟩ := hR
      rw [List.append_nil]
      exact Or.inr hr
  · rintro (rfl | hr)
    · exact ⟨0, le_rfl, Nat.zero_le _, rfl⟩
    · exact ⟨1, Nat.zero_le _, le_rfl, w, [], (List.append_nil w).symm, hr, rfl⟩

end Pattern

/-! ## Searching -/

structure Match (α : Type*) where
  start : ℕ
  text : List α
  groups : List (ℕ × List α)
deriving DecidableEq

/-- What the last capture of a group holds. -/
def Match.group (m : Match α) (n : ℕ) : List α :=
  ((m.groups.reverse.find? fun g => g.1 = n).map Prod.snd).getD []

/-- A text cut at its matches. -/
inductive Piece (α : Type*) where
  | kept (a : α)
  | hit (m : Match α)

/-- What a piece stands for. -/
def Piece.word : Piece α → List α
  | .kept a => [a]
  | .hit m => m.text

namespace Pattern

/-- The preferred match at a position. -/
def matchAt (r : Pattern α) (b s : List α) : Option (Match α) :=
  match r.run ⟨b, s, []⟩ with
  | c :: _ => some ⟨b.length, s.take (s.length - c.after.length), c.groups⟩
  | [] => none

/-- The matches from left to right without overlap; `skip` counts the elements
left of the last one. An empty match is passed over: the patterns to which this
is applied have none. -/
def scan (r : Pattern α) : List α → ℕ → List α → List (Piece α)
  | _, _, [] => []
  | b, skip + 1, a :: s => scan r (a :: b) skip s
  | b, 0, a :: s =>
      match r.matchAt b (a :: s) with
      | some ⟨i, x :: w, g⟩ => .hit ⟨i, x :: w, g⟩ :: scan r (a :: b) w.length s
      | _ => .kept a :: scan r (a :: b) 0 s

/-- All matches, in order. -/
def finditer (r : Pattern α) (text : List α) : List (Match α) :=
  (r.scan [] 0 text).filterMap fun
    | .kept _ => none
    | .hit m => some m

/-- The preferred match that takes up the whole text. -/
def fullmatch (r : Pattern α) (text : List α) : Option (Match α) :=
  ((r.run ⟨[], text, []⟩).find? fun c => c.after.isEmpty).map fun c => ⟨0, text, c.groups⟩

/-- The pieces put together again, each match replaced; the replacement may
keep a state. -/
def refill {σ : Type*} (repl : List α → σ → List α × σ) : List (Piece α) → σ → List α × σ
  | [], s => ([], s)
  | .kept a :: ps, s =>
      let (rest, s) := refill repl ps s
      (a :: rest, s)
  | .hit m :: ps, s =>
      let (new, s) := repl m.text s
      let (rest, s) := refill repl ps s
      (new ++ rest, s)

/-- Every match replaced, from left to right. -/
def sub {σ : Type*} (r : Pattern α) (repl : List α → σ → List α × σ) (text : List α) (s : σ) :
    List α × σ :=
  refill repl (r.scan [] 0 text) s

theorem matchAt_some {r : Pattern α} {b s : List α} {m : Match α} (h : r.matchAt b s = some m) :
    ∃ t, s = m.text ++ t ∧ r.Accepts b m.text t := by
  unfold matchAt at h
  cases hrun : r.run ⟨b, s, []⟩ with
  | nil => simp [hrun] at h
  | cons c cs =>
      obtain ⟨w, hw, hr⟩ := run_sound (hrun ▸ List.mem_cons_self)
      have hs : s = w ++ c.after := hw.after
      have htext : m.text = w := by
        rw [hrun] at h
        obtain rfl := Option.some.inj h
        simp [hs]
      exact ⟨c.after, by rw [htext, hs], htext ▸ hr⟩

theorem matchAt_isSome {r : Pattern α} {b w t : List α} (h : r.Accepts b w t) :
    ∃ m, r.matchAt b (w ++ t) = some m := by
  obtain ⟨g, hg⟩ := run_complete [] h
  unfold matchAt
  cases hrun : r.run ⟨b, w ++ t, []⟩ with
  | nil =>
      rw [hrun] at hg
      cases hg
  | cons c cs => exact ⟨_, rfl⟩

theorem scan_skip (r : Pattern α) (b u s : List α) :
    r.scan b u.length (u ++ s) = r.scan (u.reverse ++ b) 0 s := by
  induction u generalizing b with
  | nil => rfl
  | cons a u ih =>
      rw [List.length_cons, List.cons_append, scan, ih, List.reverse_cons, List.append_assoc]
      rfl

theorem matchAt_start {r : Pattern α} {b s : List α} {m : Match α} (h : r.matchAt b s = some m) :
    m.start = b.length := by
  unfold matchAt at h
  cases hrun : r.run ⟨b, s, []⟩ with
  | nil => simp [hrun] at h
  | cons c cs =>
      rw [hrun] at h
      cases h
      rfl

/-- What a scan hits stands there, is not empty and is a word of the pattern. -/
theorem scan_hit {r : Pattern α} {b s : List α} {skip : ℕ} {m : Match α}
    (h : .hit m ∈ r.scan b skip s) :
    ∃ u t, s = u ++ (m.text ++ t) ∧ m.start = b.length + u.length ∧ m.text ≠ [] ∧
      r.Accepts (u.reverse ++ b) m.text t := by
  induction s generalizing b skip with
  | nil => cases skip <;> cases h
  | cons a s ih =>
      have later : ∀ {skip'}, .hit m ∈ r.scan (a :: b) skip' s →
          ∃ u t, a :: s = u ++ (m.text ++ t) ∧ m.start = b.length + u.length ∧ m.text ≠ [] ∧
            r.Accepts (u.reverse ++ b) m.text t := by
        intro skip' h
        obtain ⟨u, t, rfl, hstart, hne, hacc⟩ := ih h
        refine ⟨a :: u, t, rfl, ?_, hne, ?_⟩
        · rw [hstart, List.length_cons, List.length_cons]
          omega
        · rwa [List.reverse_cons, List.append_assoc]
      cases skip with
      | succ skip => exact later h
      | zero =>
          rw [scan] at h
          split at h
          · rename_i i x w g hmatch
            rcases List.mem_cons.mp h with heq | h
            · cases heq
              obtain ⟨t, hs, hacc⟩ := matchAt_some hmatch
              refine ⟨[], t, hs, ?_, List.cons_ne_nil x w, hacc⟩
              exact matchAt_start hmatch
            · exact later h
          · rcases List.mem_cons.mp h with heq | h
            · cases heq
            · exact later h

/-- **What a search finds** stands there, is not empty and is a word of the
pattern. -/
theorem mem_finditer {r : Pattern α} {text : List α} {m : Match α} (h : m ∈ r.finditer text) :
    ∃ u t, text = u ++ (m.text ++ t) ∧ m.start = u.length ∧ m.text ≠ [] ∧
      r.Accepts u.reverse m.text t := by
  obtain ⟨piece, hpiece, heq⟩ := List.mem_filterMap.mp h
  cases piece with
  | kept a => cases heq
  | hit m' =>
      cases heq
      obtain ⟨u, t, htext, hstart, hne, hacc⟩ := scan_hit hpiece
      refine ⟨u, t, htext, ?_, hne, ?_⟩
      · rw [hstart, List.length_nil, Nat.zero_add]
      · rwa [List.append_nil] at hacc

/-- The pieces are the text. -/
theorem scan_words (r : Pattern α) (b s : List α) (skip : ℕ) :
    (r.scan b skip s).flatMap Piece.word = s.drop skip := by
  induction s generalizing b skip with
  | nil => cases skip <;> rfl
  | cons a s ih =>
      cases skip with
      | succ skip => exact ih (a :: b) skip
      | zero =>
          rw [scan]
          split
          · rename_i i x w g hmatch
            rw [List.flatMap_cons, ih]
            obtain ⟨t, hs, -⟩ := matchAt_some hmatch
            obtain ⟨rfl, rfl⟩ := List.cons.inj hs
            show a :: w ++ List.drop w.length (w ++ t) = _
            rw [List.drop_left]
            rfl
          · rw [List.flatMap_cons, ih]
            rfl

/-- Replacements that agree in related states give the same text, and related
states. -/
theorem sub_rel {σ τ : Type*} {r : Pattern α} {repl : List α → σ → List α × σ}
    {repl' : List α → τ → List α × τ} {R : σ → τ → Prop}
    (hrepl : ∀ w s t, R s t → (repl w s).1 = (repl' w t).1 ∧ R (repl w s).2 (repl' w t).2)
    (text : List α) {s : σ} {t : τ} (hR : R s t) :
    (r.sub repl text s).1 = (r.sub repl' text t).1 ∧
      R (r.sub repl text s).2 (r.sub repl' text t).2 := by
  unfold sub
  generalize r.scan [] 0 text = pieces
  induction pieces generalizing s t with
  | nil => exact ⟨rfl, hR⟩
  | cons piece pieces ih =>
      cases piece with
      | kept a =>
          obtain ⟨htext, hR'⟩ := ih hR
          exact ⟨congrArg (a :: ·) htext, hR'⟩
      | hit m =>
          obtain ⟨hnew, hR'⟩ := hrepl m.text s t hR
          obtain ⟨htext, hR''⟩ := ih hR'
          exact ⟨congrArg₂ (· ++ ·) hnew htext, hR''⟩

/-- Replacing each match by a part of it leaves a part of the text. -/
theorem sub_sublist {σ : Type*} {r : Pattern α} {repl : List α → σ → List α × σ}
    (hrepl : ∀ w s, List.Sublist (repl w s).1 w) (text : List α) (s : σ) :
    List.Sublist (r.sub repl text s).1 text := by
  have hrefill : ∀ (pieces : List (Piece α)) (s : σ),
      List.Sublist (refill repl pieces s).1 (pieces.flatMap Piece.word) := by
    intro pieces
    induction pieces with
    | nil => exact fun s => List.Sublist.refl []
    | cons piece pieces ih =>
        intro s
        cases piece with
        | kept a => exact (ih s).cons_cons a
        | hit m => exact (hrepl m.text s).append (ih _)
  have := hrefill (r.scan [] 0 text) s
  rwa [scan_words, List.drop_zero] at this

end Pattern

/-! ## Where a word can lie -/

/-- A word that does not contain `c` lies on one side of an occurrence of it. -/
theorem beside {u w t a b : List α} {c : α} (h : u ++ (w ++ t) = a ++ c :: b) (hc : c ∉ w) :
    u.length + w.length ≤ a.length ∨ a.length + 1 ≤ u.length := by
  by_contra hno
  rw [not_or, not_le, not_le] at hno
  have hget : (u ++ (w ++ t))[a.length]? = some c := by
    rw [h, List.getElem?_append_right le_rfl, Nat.sub_self]
    rfl
  rw [List.getElem?_append_right (by omega), List.getElem?_append_left (by omega)] at hget
  exact hc (List.mem_of_getElem? hget)

/-- A word that lies within a part of the text, as a part of this part. -/
theorem inside {u w t a s b : List α} (h : u ++ (w ++ t) = a ++ (s ++ b))
    (hleft : a.length ≤ u.length) (hright : u.length + w.length ≤ a.length + s.length) :
    ∃ x y, s = x ++ (w ++ y) ∧ u = a ++ x := by
  obtain ⟨x, rfl, hx⟩ : ∃ x, u = a ++ x ∧ s ++ b = x ++ (w ++ t) := by
    rcases List.append_eq_append_iff.mp h with ⟨x, rfl, hx⟩ | ⟨x, rfl, hx⟩
    · obtain rfl : x = [] := List.eq_nil_of_length_eq_zero (by
        rw [List.length_append] at hleft
        omega)
      exact ⟨[], by simp, by simpa using hx.symm⟩
    · exact ⟨x, rfl, hx⟩
  rw [← List.append_assoc] at hx
  rcases List.append_eq_append_iff.mp hx with ⟨y, hy, -⟩ | ⟨y, hy, -⟩
  · obtain rfl : y = [] := List.eq_nil_of_length_eq_zero (by
      have := congrArg List.length hy
      simp only [List.length_append] at this hright
      omega)
    exact ⟨x, [], by simpa using hy.symm, rfl⟩
  · exact ⟨x, y, by rw [hy, List.append_assoc], rfl⟩

/-! ## Delimited patterns -/

/-- Two lists that stop at their first `sep` are equal part by part. -/
theorem append_sep_inj {sep : α} {xs xs' ys ys' : List α} (hx : sep ∉ xs)
    (hx' : sep ∉ xs') (h : xs ++ sep :: ys = xs' ++ sep :: ys') : xs = xs' ∧ ys = ys' := by
  induction xs generalizing xs' with
  | nil =>
      cases xs' with
      | nil => exact ⟨rfl, (List.cons.inj h).2⟩
      | cons x xs' =>
          have hsep : sep = x := (List.cons.inj h).1
          exact absurd (hsep ▸ List.mem_cons_self) hx'
  | cons x xs ih =>
      cases xs' with
      | nil =>
          have hsep : x = sep := (List.cons.inj h).1
          exact absurd (hsep ▸ List.mem_cons_self) hx
      | cons x' xs' =>
          obtain ⟨rfl, htail⟩ := List.cons.inj h
          obtain ⟨rfl, rfl⟩ := ih (fun hm => hx (List.mem_cons_of_mem _ hm))
            (fun hm => hx' (List.mem_cons_of_mem _ hm)) htail
          exact ⟨rfl, rfl⟩

/-- Every word of the pattern runs from an `a` to a `z`, with neither between,
and what stands around it does not matter. -/
structure Delimited (r : Pattern α) (a z : α) : Prop where
  ne : a ≠ z
  context : ∀ {b w t b' t'}, r.Accepts b w t → r.Accepts b' w t'
  shape : ∀ {b w t}, r.Accepts b w t → ∃ mid, w = a :: (mid ++ [z]) ∧ a ∉ mid ∧ z ∉ mid

/-- No word of the pattern occurs in the text. -/
def Misses (r : Pattern α) (text : List α) : Prop :=
  ∀ x w y, text = x ++ w ++ y → ∀ b t, ¬ r.Accepts b w t

theorem Misses.part {r : Pattern α} {text part : List α} (h : Misses r text)
    (hpart : part <:+: text) : Misses r part := by
  obtain ⟨x', y', rfl⟩ := hpart
  rintro x w y rfl b t
  exact h (x' ++ x) w (y ++ y') (by simp only [List.append_assoc]) b t

namespace Delimited

variable {r : Pattern α} {a z : α} (h : Delimited r a z)
include h

/-- At one position there is at most one word. -/
theorem unique {b w t b' w' t' : List α} (hw : r.Accepts b w t) (hw' : r.Accepts b' w' t')
    (heq : w ++ t = w' ++ t') : w = w' := by
  obtain ⟨mid, rfl, -, hz⟩ := h.shape hw
  obtain ⟨mid', rfl, -, hz'⟩ := h.shape hw'
  simp only [List.cons_append, List.append_assoc, List.nil_append, List.cons.injEq,
    true_and] at heq
  rw [(append_sep_inj hz hz' heq).1]

theorem ne_nil {b w t : List α} (hw : r.Accepts b w t) : w ≠ [] := by
  obtain ⟨mid, rfl, -⟩ := h.shape hw
  exact List.cons_ne_nil _ _

/-- A word is found whole. -/
theorem scan_word {b w : List α} (s : List α) {b' t' : List α} (hw : r.Accepts b' w t') :
    ∃ m : Match α, m.text = w ∧ r.scan b 0 (w ++ s) = .hit m :: r.scan (w.reverse ++ b) 0 s := by
  obtain ⟨m, hm⟩ := Pattern.matchAt_isSome (b := b) (t := s) (h.context hw)
  obtain ⟨t, heq, hacc⟩ := Pattern.matchAt_some hm
  have hw' : r.Accepts b w s := h.context hw
  have htext : m.text = w := h.unique hacc hw' heq.symm
  refine ⟨m, htext, ?_⟩
  cases w with
  | nil => exact absurd rfl (h.ne_nil hw)
  | cons x w =>
      obtain ⟨i, text, g⟩ := m
      obtain rfl : text = x :: w := htext
      rw [List.cons_append] at hm ⊢
      rw [Pattern.scan, hm]
      dsimp only
      rw [Pattern.scan_skip, List.reverse_cons, List.append_assoc]
      rfl

/-- Before the end or the start of a word, a part without words is kept. -/
theorem scan_gap {b gap rest : List α} (hgap : Misses r gap)
    (hrest : rest = [] ∨ ∃ rest', rest = a :: rest') :
    r.scan b 0 (gap ++ rest) = gap.map .kept ++ r.scan (gap.reverse ++ b) 0 rest := by
  induction gap generalizing b with
  | nil => rfl
  | cons x gap ih =>
      have hnone : r.matchAt b (x :: gap ++ rest) = none := by
        refine Option.eq_none_iff_forall_ne_some.mpr fun m hm => ?_
        obtain ⟨t, heq, hacc⟩ := Pattern.matchAt_some hm
        rcases List.append_eq_append_iff.mp heq with ⟨u, hu, hrest'⟩ | ⟨u, hu, -⟩
        · -- The word would go on into `rest`, past a second `a`.
          rcases List.eq_nil_or_concat u with rfl | ⟨_, _, hne⟩
          · exact hgap [] m.text [] (by rw [hu]; simp) b t hacc
          · obtain ⟨mid, hmid, ha, -⟩ := h.shape hacc
            have hmem : a ∈ u := by
              rcases hrest with rfl | ⟨rest', rfl⟩
              · simp [hne] at hrest'
              · cases u with
                | nil => simp at hne
                | cons y u =>
                    obtain ⟨rfl, -⟩ := List.cons.inj hrest'
                    exact List.mem_cons_self
            have htail : gap ++ u = mid ++ [z] := by
              rw [hu, List.cons_append] at hmid
              exact (List.cons.inj hmid).2
            have hin : a ∈ mid ++ [z] := htail ▸ List.mem_append_right gap hmem
            rcases List.mem_append.mp hin with hin | hin
            · exact ha hin
            · exact h.ne (List.mem_singleton.mp hin)
        · exact hgap [] m.text u hu b t hacc
      have hgap' : Misses r gap := hgap.part ⟨[x], [], by simp⟩
      rw [List.cons_append] at hnone ⊢
      rw [Pattern.scan, hnone]
      dsimp only
      rw [ih hgap', List.map_cons, List.reverse_cons, List.append_assoc]
      rfl

/-- Where the search finds nothing, there is nothing. -/
theorem misses_of_finditer {text : List α} (hnone : r.finditer text = []) : Misses r text := by
  have hkept : ∀ (b : List α), (∀ m, .hit m ∉ r.scan b 0 text) → Misses r text := by
    clear hnone
    induction text with
    | nil =>
        intro b _ x w y heq b' t hacc
        obtain ⟨rfl, -⟩ : w = [] ∧ _ := by
          simp only [List.nil_eq, List.append_eq_nil_iff] at heq
          exact ⟨heq.1.2, heq⟩
        exact h.ne_nil hacc rfl
    | cons c text ih =>
        intro b hno x w y heq b' t hacc
        cases x with
        | nil =>
            obtain ⟨m, -, hscan⟩ := h.scan_word (b := b) y hacc
            rw [heq, List.nil_append, hscan] at hno
            exact hno m List.mem_cons_self
        | cons x xs =>
            obtain ⟨rfl, htail⟩ := List.cons.inj heq
            refine ih (c :: b) ?_ xs w y htail b' t hacc
            intro m hm
            rw [Pattern.scan] at hno
            split at hno
            · exact hno _ List.mem_cons_self
            · exact hno m (List.mem_cons_of_mem _ hm)
  refine hkept [] fun m hm => ?_
  have hmem : m ∈ r.finditer text := List.mem_filterMap.mpr ⟨_, hm, rfl⟩
  rw [hnone] at hmem
  cases hmem

/-- **Replacing in a tiled text**: where words stand between parts without
words, exactly these words are replaced. `I` is what the state keeps. -/
theorem sub_tiles {σ : Type*} {repl : List α → σ → List α × σ} {I : σ → Prop}
    {f : List α → List α} {tiles : List (List α × List α)} {last : List α} {s : σ}
    (hI : I s) (hrepl : ∀ p ∈ tiles, ∀ s, I s → (repl p.2 s).1 = f p.2 ∧ I (repl p.2 s).2)
    (hgaps : ∀ p ∈ tiles, Misses r p.1) (hlast : Misses r last)
    (hwords : ∀ p ∈ tiles, ∃ b t, r.Accepts b p.2 t) :
    (r.sub repl (tiles.flatMap (fun p => p.1 ++ p.2) ++ last) s).1 =
      tiles.flatMap (fun p => p.1 ++ f p.2) ++ last := by
  have hkept : ∀ (gap : List α) (ps : List (Piece α)) (s : σ),
      (Pattern.refill repl (gap.map .kept ++ ps) s).1 = gap ++ (Pattern.refill repl ps s).1 := by
    intro gap ps s
    induction gap with
    | nil => rfl
    | cons x gap ih =>
        rw [List.map_cons, List.cons_append, Pattern.refill]
        exact congrArg (x :: ·) ih
  unfold Pattern.sub
  generalize [] = b
  induction tiles generalizing b s with
  | nil =>
      rw [List.flatMap_nil, List.nil_append, List.flatMap_nil, List.nil_append]
      have hscan : r.scan b 0 (last ++ []) = _ := h.scan_gap hlast (Or.inl rfl)
      rw [List.append_nil] at hscan
      rw [hscan, hkept]
      simp [Pattern.scan, Pattern.refill]
  | cons p tiles ih =>
      obtain ⟨b', t', hacc⟩ := hwords p List.mem_cons_self
      obtain ⟨hnew, hI'⟩ := hrepl p List.mem_cons_self s hI
      obtain ⟨mid, hmid, -⟩ := h.shape hacc
      rw [List.flatMap_cons, List.append_assoc, List.append_assoc]
      have hscan : r.scan b 0 (p.1 ++ (p.2 ++ (tiles.flatMap (fun p => p.1 ++ p.2) ++ last))) = _ :=
        h.scan_gap (hgaps p List.mem_cons_self) (Or.inr ⟨_, by rw [hmid, List.cons_append]⟩)
      obtain ⟨m, hm, hword⟩ := h.scan_word (b := p.1.reverse ++ b)
        (tiles.flatMap (fun p => p.1 ++ p.2) ++ last) hacc
      rw [hscan, hword, hkept, Pattern.refill, hm]
      dsimp only
      rw [ih hI' (fun q hq => hrepl q (List.mem_cons_of_mem _ hq))
        (fun q hq => hgaps q (List.mem_cons_of_mem _ hq))
        (fun q hq => hwords q (List.mem_cons_of_mem _ hq)), hnew, List.flatMap_cons]
      simp only [List.append_assoc]

/-- A text that no word can run into, for it has no `a`, no `z` and something
that is in no word, separates two texts without words. -/
theorem misses_around {u m v : List α} (hu : Misses r u) (hv : Misses r v) (ha : a ∉ m)
    (hz : z ∉ m) {c : α} (hc : c ∈ m) (hout : ∀ {b w t}, r.Accepts b w t → c ∉ w) :
    Misses r (u ++ m ++ v) := by
  intro x w y heq b t hacc
  obtain ⟨mid, rfl, -, -⟩ := h.shape hacc
  have hfirst : u ++ (m ++ v) = x ++ a :: (mid ++ [z] ++ y) := by
    rw [← List.append_assoc, heq]
    simp only [List.append_assoc, List.cons_append]
  have hlast : u ++ (m ++ v) = (x ++ a :: mid) ++ z :: y := by
    rw [← List.append_assoc, heq]
    simp only [List.append_assoc, List.cons_append, List.nil_append]
  have hword : u ++ (m ++ v) = x ++ (a :: (mid ++ [z]) ++ y) := by
    rw [← List.append_assoc, heq, List.append_assoc]
  have hlen : (x ++ a :: mid).length = x.length + mid.length + 1 := by
    rw [List.length_append, List.length_cons]
    omega
  have hwlen : (a :: (mid ++ [z])).length = mid.length + 2 := by
    rw [List.length_cons, List.length_append]
    rfl
  rcases beside hlast hz with hright | hleft
  · rcases beside hfirst ha with hstart | hstart
    · -- The word starts behind `m`.
      obtain ⟨x', y', hv', -⟩ := inside (u := x) (w := a :: (mid ++ [z])) (t := y) (a := u ++ m)
        (s := v) (b := []) (by rw [← hword, List.append_nil, List.append_assoc])
        (by rw [List.length_append]; omega)
        (by
          have := congrArg List.length hword
          simp only [List.length_append] at this ⊢
          omega)
      exact hv x' _ y' (by rw [hv', List.append_assoc]) b t hacc
    · -- It would run over `m`, past `c`.
      obtain ⟨x', y', hm, -⟩ := inside (u := u) (w := m) (t := v) (a := x)
        (s := a :: (mid ++ [z])) (b := y) hword (by omega) (by omega)
      exact hout hacc (by rw [hm]; exact List.mem_append_right _ (List.mem_append_left _ hc))
  · obtain ⟨x', y', hu', -⟩ := inside (u := x) (w := a :: (mid ++ [z])) (t := y) (a := [])
      (s := u) (b := m ++ v) (by rw [← hword]; rfl) (Nat.zero_le _)
      (by rw [List.length_nil, hwlen]; omega)
    exact hu x' _ y' (by rw [hu', List.append_assoc]) b t hacc

/-- **Searching a tiled text** finds the tiles. -/
theorem finditer_tiles {tiles : List (List α × List α)} {last : List α}
    (hgaps : ∀ p ∈ tiles, Misses r p.1) (hlast : Misses r last)
    (hwords : ∀ p ∈ tiles, ∃ b t, r.Accepts b p.2 t) :
    (r.finditer (tiles.flatMap (fun p => p.1 ++ p.2) ++ last)).map Match.text =
      tiles.map Prod.snd := by
  have hkept : ∀ (gap : List α) (ps : List (Piece α)),
      (gap.map Piece.kept ++ ps).filterMap (fun
        | .kept _ => none
        | .hit m => some m) = ps.filterMap fun
        | .kept _ => none
        | .hit m => some m := by
    intro gap ps
    induction gap with
    | nil => rfl
    | cons x gap ih => exact ih
  unfold Pattern.finditer
  generalize [] = b
  induction tiles generalizing b with
  | nil =>
      have hscan : r.scan b 0 (last ++ []) = _ := h.scan_gap hlast (Or.inl rfl)
      rw [List.append_nil] at hscan
      rw [List.flatMap_nil, List.nil_append, hscan, hkept]
      rfl
  | cons p tiles ih =>
      obtain ⟨b', t', hacc⟩ := hwords p List.mem_cons_self
      obtain ⟨mid, hmid, -⟩ := h.shape hacc
      have hscan : r.scan b 0 (p.1 ++ (p.2 ++ (tiles.flatMap (fun p => p.1 ++ p.2) ++ last))) = _ :=
        h.scan_gap (hgaps p List.mem_cons_self) (Or.inr ⟨_, by rw [hmid, List.cons_append]⟩)
      obtain ⟨m, hm, hword⟩ := h.scan_word (b := p.1.reverse ++ b)
        (tiles.flatMap (fun p => p.1 ++ p.2) ++ last) hacc
      rw [List.flatMap_cons, List.append_assoc, List.append_assoc, hscan, hword, hkept,
        List.filterMap_cons]
      dsimp only
      rw [List.map_cons, List.map_cons, hm]
      exact congrArg (p.2 :: ·) (ih (fun q hq => hgaps q (List.mem_cons_of_mem _ hq))
        (fun q hq => hwords q (List.mem_cons_of_mem _ hq)) _)

end Delimited

end Regex
