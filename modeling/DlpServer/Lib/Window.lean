import DlpServer.Lib.Longest
import DlpServer.Lib.Splice

/-!
# Two searches over one part

A part that stands in two texts is searched alike in both, if its words are the same in
both, the preferred match is the longest, and nothing that either search finds runs over
an edge of the part (`found_in_both`).
-/

namespace Regex

variable {α : Type*}

namespace Pattern

/-- What the search finds over the part between `A` and `B` lies within it. -/
def Within (r : Pattern α) (A g B : List α) : Prop :=
  ∀ m ∈ r.finditer (A ++ (g ++ B)), m.start < A.length + g.length → A.length < m.stop →
    A.length ≤ m.start ∧ m.stop ≤ A.length + g.length

/-- The words within the part are the same between `A` and `B` as between `A'` and `B'`. -/
def SameWords (r : Pattern α) (g A B A' B' : List α) : Prop :=
  ∀ x w y, g = x ++ (w ++ y) → w ≠ [] →
    (r.Accepts (A ++ x).reverse w (y ++ B) ↔ r.Accepts (A' ++ x).reverse w (y ++ B'))

variable {r : Pattern α} {g A B A' B' : List α}

theorem within_alone (r : Pattern α) (g : List α) : r.Within [] g [] := by
  intro m hm _ _
  obtain ⟨b, t, hsplit, hstart, -⟩ := mem_finditer hm
  have hlen := congrArg List.length hsplit
  simp only [List.length_append, List.length_nil, List.append_nil, List.nil_append] at hlen ⊢
  rw [Match.stop]
  omega

theorem SameWords.symm (h : r.SameWords g A B A' B') : r.SameWords g A' B' A B :=
  fun x w y hg hne => (h x w y hg hne).symm

/-- A match within the part. -/
theorem split_within {m : Match α} (hm : m ∈ r.finditer (A ++ (g ++ B)))
    (hleft : A.length ≤ m.start) (hright : m.stop ≤ A.length + g.length) :
    ∃ x y, g = x ++ (m.text ++ y) ∧ m.start = A.length + x.length ∧ m.text ≠ [] ∧
      r.Accepts (A ++ x).reverse m.text (y ++ B) ∧
      r.matchAt (A ++ x).reverse (m.text ++ (y ++ B)) = some m := by
  obtain ⟨b, t, htext, hstart, hne, hacc⟩ := mem_finditer hm
  have hstop : m.stop = b.length + m.text.length := by rw [Match.stop, hstart]
  obtain ⟨x, y, hg, rfl⟩ := inside htext.symm (by omega) (by omega)
  have ht : t = y ++ B := by
    rw [hg] at htext
    simp only [List.append_assoc] at htext
    exact (List.append_cancel_left (List.append_cancel_left (List.append_cancel_left htext))).symm
  subst ht
  refine ⟨x, y, hg, by rw [hstart, List.length_append], hne, hacc, ?_⟩
  have hmatch := matchFrom_of_mem hm
  rwa [htext, hstart, matchFrom_append] at hmatch

/-- **A match within the part is found in both texts.** -/
theorem found_in_both (hr : r.Longest) (h : r.Within A g B) (h' : r.Within A' g B')
    (hsame : r.SameWords g A B A' B') {m : Match α} (hm : m ∈ r.finditer (A ++ (g ++ B)))
    (hleft : A.length ≤ m.start) (hright : m.stop ≤ A.length + g.length) :
    ∃ m' ∈ r.finditer (A' ++ (g ++ B')), m'.text = m.text ∧
      A.length + m'.start = A'.length + m.start := by
  -- From left to right; what lies before the match in one text lies before it in the other.
  induction hn : m.start - A.length using Nat.strong_induction_on generalizing A B A' B' m with
  | _ n ih =>
      obtain ⟨x, y, hg, hstart, hne, hacc, hmatch⟩ := split_within hm hleft hright
      have hpos : 0 < m.text.length := List.length_pos_iff.mpr hne
      have hacc' := (hsame x m.text y hg hne).mp hacc
      obtain ⟨m₀, hm₀⟩ := matchAt_isSome hacc'
      have hlonger : m.text.length ≤ m₀.text.length := hr.le_of_matchAt hm₀ hacc'
      have hstart₀ : m₀.start = A'.length + x.length := by
        rw [matchAt_start hm₀, List.length_reverse, List.length_append]
      have htext' : A' ++ (g ++ B') = (A' ++ x) ++ (m.text ++ (y ++ B')) := by
        rw [hg]
        simp only [List.append_assoc]
      have hfrom : r.matchFrom (A' ++ (g ++ B')) (A'.length + x.length) = some m₀ := by
        rw [htext', ← List.length_append, matchFrom_append]
        exact hm₀
      have hglen : g.length = x.length + (m.text.length + y.length) := by
        rw [hg, List.length_append, List.length_append]
      rcases found_or_inside hfrom (List.ne_nil_of_length_pos (by omega)) with hin | hin
      · obtain ⟨hleft₀, hright₀⟩ := h' m₀ hin (by omega) (by rw [Match.stop]; omega)
        obtain ⟨x₀, y₀, hg₀, hx₀, hne₀, hacc₀, -⟩ := split_within hin hleft₀ hright₀
        obtain ⟨rfl, hrest⟩ : x = x₀ ∧ m.text ++ y = m₀.text ++ y₀ :=
          List.append_inj (hg.symm.trans hg₀) (by omega)
        have hback := (hsame x m₀.text y₀ hg₀ hne₀).mpr hacc₀
        have hshorter : m₀.text.length ≤ m.text.length := by
          refine hr.le_of_matchAt ?_ hback
          rw [← List.append_assoc, ← hrest, List.append_assoc]
          exact hmatch
        refine ⟨m₀, hin, ?_, by omega⟩
        exact (List.append_inj hrest (by omega)).1.symm
      · obtain ⟨m₁, hm₁, hbefore, hbehind⟩ := hin
        obtain ⟨hleft₁, hright₁⟩ := h' m₁ hm₁ (by omega) (by omega)
        obtain ⟨m₂, hm₂, htext₂, hstart₂⟩ :=
          ih (m₁.start - A'.length) (by omega) h' h hsame.symm hm₁ hleft₁ hright₁ rfl
        have hstop₂ : m₂.stop = m₂.start + m₁.text.length := by rw [Match.stop, htext₂]
        have hstop₁ : m₁.stop = m₁.start + m₁.text.length := rfl
        have hstop : m.stop = m.start + m.text.length := rfl
        have hne₂ : m₂ ≠ m := by
          rintro rfl
          omega
        have := finditer_apart hm₂ hm hne₂
        omega

end Pattern

/-! ## A word between edits -/

open Splice

/-- Where a word stands in a text with edits, of which it overlaps none: in the stretch
from `lo` to `hi` of the text before, between what two edits put in. -/
structure Stands (text : List α) (es : List (Edit α)) (pos lo hi : ℕ)
    (front x w y rear : List α) : Prop where
  places : pos ≤ lo ∧ lo ≤ hi ∧ hi ≤ text.length
  stretch : slice text lo hi = x ++ (w ++ y)
  left : lo = pos ∧ front = [] ∨ ∃ e ∈ es, lo = e.stop ∧ e.new <:+ front
  right : hi = text.length ∧ rear = [] ∨ ∃ e ∈ es, hi = e.start ∧ e.new <+: rear
  apart : ∀ e ∈ es, e.stop ≤ lo ∨ hi ≤ e.start

theorem start_of_ordered {hi lo : ℕ} {es : List (Edit α)} (h : Ordered hi lo es) :
    ∀ e ∈ es, lo ≤ e.start := by
  induction es generalizing lo with
  | nil => exact fun e he => absurd he List.not_mem_nil
  | cons e es ih =>
      obtain ⟨hlo, hle, hrest⟩ := h
      intro e' he'
      rcases List.mem_cons.mp he' with rfl | he'
      · exact hlo
      · exact (hlo.trans hle).trans (ih hrest e' he')

/-- What stands behind an edit stands there with the text before it. -/
theorem Stands.cons {text : List α} {e : Edit α} {es : List (Edit α)} {pos lo hi : ℕ}
    {front x w y rear : List α} (h : Stands text es e.stop lo hi front x w y rear)
    (hpos : pos ≤ e.start) (hle : e.start ≤ e.stop) :
    Stands text (e :: es) pos lo hi ((slice text pos e.start ++ e.new) ++ front) x w y rear := by
  obtain ⟨⟨hlo, hlohi, hhi⟩, hstretch, hleft, hright, hapart⟩ := h
  refine ⟨⟨(hpos.trans hle).trans hlo, hlohi, hhi⟩, hstretch, ?_, ?_, fun e' he' => ?_⟩
  · rcases hleft with ⟨rfl, rfl⟩ | ⟨e', he', hstop, hends⟩
    · refine Or.inr ⟨e, List.mem_cons_self, rfl, ?_⟩
      rw [List.append_nil]
      exact List.suffix_append _ _
    · exact Or.inr ⟨e', List.mem_cons_of_mem _ he', hstop, hends.trans (List.suffix_append _ _)⟩
  · rcases hright with hend | ⟨e', he', hstart, hbegins⟩
    · exact Or.inl hend
    · exact Or.inr ⟨e', List.mem_cons_of_mem _ he', hstart, hbegins⟩
  · rcases List.mem_cons.mp he' with rfl | he'
    · exact Or.inl hlo
    · exact hapart e' he'

theorem stands_of_clear {text : List α} {es : List (Edit α)} {pos : ℕ}
    (hordered : Ordered text.length pos es) {b w t : List α}
    (heq : weave text pos es = b ++ (w ++ t))
    (hclear : ∀ e ∈ es, ∀ p q, weave text pos es = p ++ (e.new ++ q) →
      b.length + w.length ≤ p.length ∨ p.length + e.new.length ≤ b.length) :
    ∃ lo hi front x y rear, Stands text es pos lo hi front x w y rear ∧ b = front ++ x ∧
      t = y ++ rear := by
  induction es generalizing pos b with
  | nil =>
      refine ⟨pos, text.length, [], b, t, [], ⟨⟨le_rfl, hordered, le_rfl⟩, ?_, Or.inl ⟨rfl, rfl⟩,
        Or.inl ⟨rfl, rfl⟩, by simp⟩, rfl, (List.append_nil t).symm⟩
      rw [slice, List.take_length]
      exact heq
  | cons e es ih =>
      obtain ⟨hpos, hle, hrest⟩ := hordered
      have hsplit : weave text pos (e :: es) =
          slice text pos e.start ++ (e.new ++ weave text e.stop es) := by
        rw [weave, List.append_assoc]
      rcases hclear e List.mem_cons_self _ _ hsplit with hbefore | hbehind
      · obtain ⟨x, y, hx, hb⟩ := inside (a := []) (heq.symm.trans hsplit) (Nat.zero_le _) (by
          rw [List.length_nil, Nat.zero_add]
          exact hbefore)
        rw [List.nil_append] at hb
        have ht : t = y ++ (e.new ++ weave text e.stop es) := by
          rw [heq, hx, hb] at hsplit
          simp only [List.append_assoc] at hsplit
          exact List.append_cancel_left (List.append_cancel_left hsplit)
        refine ⟨pos, e.start, [], x, y, e.new ++ weave text e.stop es,
          ⟨⟨le_rfl, hpos, hle.trans hrest.le⟩, hx, Or.inl ⟨rfl, rfl⟩,
            Or.inr ⟨e, List.mem_cons_self, rfl, List.prefix_append _ _⟩, fun e' he' => ?_⟩, hb, ht⟩
        rcases List.mem_cons.mp he' with rfl | he'
        · exact Or.inr le_rfl
        · exact Or.inr (hle.trans (start_of_ordered hrest e' he'))
      · obtain ⟨b', rfl⟩ : ∃ b', b = (slice text pos e.start ++ e.new) ++ b' := by
          have happend : b ++ (w ++ t) =
              (slice text pos e.start ++ e.new) ++ weave text e.stop es := by
            rw [← heq, hsplit, List.append_assoc]
          rcases List.append_eq_append_iff.mp happend with ⟨b', hb', -⟩ | ⟨b', hb', -⟩
          · refine ⟨[], ?_⟩
            have hnil : b' = [] := List.eq_nil_of_length_eq_zero (by
              have := congrArg List.length hb'
              rw [List.length_append, List.length_append] at this
              omega)
            rw [hb', hnil, List.append_nil, List.append_nil]
          · exact ⟨b', hb'⟩
        have hweave : weave text e.stop es = b' ++ (w ++ t) := by
          rw [heq] at hsplit
          simp only [List.append_assoc] at hsplit
          exact (List.append_cancel_left (List.append_cancel_left hsplit)).symm
        obtain ⟨lo, hi, front, x, y, rear, hstands, rfl, ht⟩ :=
          ih hrest hweave fun e' he' p q hpq => by
            have := hclear e' (List.mem_cons_of_mem _ he') ((slice text pos e.start ++ e.new) ++ p) q
              (by rw [hsplit, hpq]; simp only [List.append_assoc])
            simp only [List.length_append] at this
            omega
        exact ⟨lo, hi, _, x, y, rear, hstands.cons hpos hle, (List.append_assoc _ _ _).symm, ht⟩

/-- A stretch that the edits leave stands in the new text. -/
theorem stands_of_stretch {text : List α} {es : List (Edit α)} {pos lo hi : ℕ}
    (hordered : Ordered text.length pos es) (hproper : ∀ e ∈ es, e.start < e.stop)
    (hlo : lo = pos ∨ ∃ e ∈ es, lo = e.stop) (hhi : hi = text.length ∨ ∃ e ∈ es, hi = e.start)
    (hle : lo ≤ hi) (hapart : ∀ e ∈ es, e.stop ≤ lo ∨ hi ≤ e.start) :
    ∃ front rear, Stands text es pos lo hi front [] (slice text lo hi) [] rear ∧
      weave text pos es = front ++ (slice text lo hi ++ rear) := by
  induction es generalizing pos with
  | nil =>
      obtain rfl : lo = pos := by simpa using hlo
      obtain rfl : hi = text.length := by simpa using hhi
      refine ⟨[], [], ⟨⟨le_rfl, hle, le_rfl⟩, (List.append_nil _).symm, Or.inl ⟨rfl, rfl⟩,
        Or.inl ⟨rfl, rfl⟩, by simp⟩, ?_⟩
      rw [slice, List.take_length, List.append_nil]
      rfl
  | cons e es ih =>
      obtain ⟨hpos, hestop, hrest⟩ := hordered
      have hbehind := start_of_ordered hrest
      have hlt := hproper e List.mem_cons_self
      have hlater : ∀ e' ∈ es, e'.start < e'.stop := fun e' he' =>
        hproper e' (List.mem_cons_of_mem _ he')
      rcases hapart e List.mem_cons_self with hbefore | hfirst
      · -- The stretch lies behind the first edit.
        have hlo' : lo = e.stop ∨ ∃ e' ∈ es, lo = e'.stop := by
          rcases hlo with rfl | ⟨e', he', heq⟩
          · omega
          · rcases List.mem_cons.mp he' with rfl | he'
            · exact Or.inl heq
            · exact Or.inr ⟨e', he', heq⟩
        have hhi' : hi = text.length ∨ ∃ e' ∈ es, hi = e'.start := by
          rcases hhi with heq | ⟨e', he', heq⟩
          · exact Or.inl heq
          · rcases List.mem_cons.mp he' with rfl | he'
            · omega
            · exact Or.inr ⟨e', he', heq⟩
        obtain ⟨front, rear, hstands, hweave⟩ := ih hrest hlater hlo' hhi'
          fun e' he' => hapart e' (List.mem_cons_of_mem _ he')
        refine ⟨_, rear, hstands.cons hpos hestop, ?_⟩
        rw [weave, hweave, ← List.append_assoc]
      · -- The stretch lies before the first edit, and so it is all that does.
        obtain rfl : lo = pos := by
          rcases hlo with heq | ⟨e', he', heq⟩
          · exact heq
          · rcases List.mem_cons.mp he' with rfl | he'
            · omega
            · have := hbehind e' he'
              have := hlater e' he'
              omega
        obtain rfl : hi = e.start := by
          rcases hhi with heq | ⟨e', he', heq⟩
          · have := hrest.le
            omega
          · rcases List.mem_cons.mp he' with rfl | he'
            · exact heq
            · have := hbehind e' he'
              omega
        refine ⟨[], e.new ++ weave text e.stop es, ⟨⟨le_rfl, hle, hestop.trans hrest.le⟩,
          (List.append_nil _).symm, Or.inl ⟨rfl, rfl⟩,
          Or.inr ⟨e, List.mem_cons_self, rfl, List.prefix_append _ _⟩, hapart⟩, ?_⟩
        rw [weave, List.append_assoc]
        rfl

end Regex
