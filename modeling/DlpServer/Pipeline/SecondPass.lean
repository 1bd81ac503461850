import DlpServer.Detect.Gaps
import DlpServer.Guardrail.OutputCheck
import DlpServer.Transform.OnePass

/-!
# A second pass over the replaced text

What `transform_stage` puts in for redacted and tokenized spans, no pattern matches, not
even in part. So whatever a second detection finds stands between the replaced spans, and
it finds there what it finds in that stretch alone: nothing, unless a match ran over an edge
of the stretch (`second_pass_empty`).
-/

namespace DlpServer.Pipeline

open Regex Splice Transform Detect Detect.RegexRules Guardrail

variable {u : PyUnicode}

/-! ## What is put in -/

/-- What stands for a redacted or tokenized span: `_REDACT_TEXT` or a label with a number
of at most nine digits. -/
def Replacement (new : Text) : Prop := new = redactText ∨ RescanLabel new

/-- No word of a pattern has a bracket. -/
theorem bracket_not_mem {u : Unicode} {type : String} {r : Pattern Char}
    (hr : (type, r) ∈ patterns u) {b w t : Text} (h : r.Accepts b w t) {c : Char}
    (hc : c ∈ ['[', ']']) : c ∉ w := by
  have hbrackets : ['[', ']'].all fun d => decide (58 ≤ d.toNat ∧ d.toNat ≤ 95) &&
      decide (d.val < 128) && !d.isAlphanum && d != '_' &&
      !decide (d ∈ ['.', '+', '-', '@']) := by decide
  have hno := List.all_eq_true.mp hbrackets c hc
  simp only [Bool.and_eq_true, decide_eq_true_eq, Bool.not_eq_true', bne_iff_ne,
    decide_eq_false_iff_not, List.mem_cons, List.not_mem_nil, or_false, not_or] at hno
  obtain ⟨⟨⟨⟨⟨hlow, hhigh⟩, hascii⟩, halnum⟩, hunder⟩, hdot, hplus, hhyphen, hat⟩ := hno
  intro hmem
  rcases number_or_email hr with ⟨-, hne⟩ | ⟨-, rfl⟩
  · have hnumeric := (number_word hr hne h).chars c hmem
    rw [not_numericChar hlow hhigh] at hnumeric
    cases hnumeric
  · have hword : u.isWord c = false := not_word hascii halnum hunder
    obtain ⟨-, -, x, y, z, rfl, ⟨-, hx⟩, ⟨-, hy⟩, -, hz⟩ := email_accepts.mp h
    simp only [List.mem_append, List.mem_cons] at hmem
    rcases hmem with hmem | hmem | hmem | hmem | hmem
    · have := hx c hmem
      simp [hword, hdot, hplus, hhyphen] at this
    · exact hat hmem
    · have := hy c hmem
      simp [hword, hhyphen] at this
    · exact hdot hmem
    · have := hz c hmem
      simp [hword, hdot, hhyphen] at this

/-- A word and `_REDACT_TEXT` do not overlap. -/
theorem clear_of_redact {u : Unicode} {type : String} {r : Pattern Char}
    (hr : (type, r) ∈ patterns u) {b w t : Text} (hacc : r.Accepts b.reverse w t) {a z : Text}
    (h : b ++ (w ++ t) = a ++ (redactText ++ z)) :
    b.length + w.length ≤ a.length ∨ a.length + redactText.length ≤ b.length := by
  have hlen : redactText.length = 5 := rfl
  have hopen : b ++ (w ++ t) = a ++ '[' :: (['삭', '제', '됨'] ++ ']' :: z) := h
  have hclose : b ++ (w ++ t) = (a ++ ['[', '삭', '제', '됨']) ++ ']' :: z := by
    rw [hopen]
    simp
  rcases beside hopen (bracket_not_mem hr hacc (by decide)) with hleft | h₁
  · exact Or.inl hleft
  rcases beside hclose (bracket_not_mem hr hacc (by decide)) with hin | hright
  · -- between the brackets
    exfalso
    rw [List.length_append] at hin
    obtain ⟨x, y, hx, -⟩ := inside (a := a ++ ['[']) (s := ['삭', '제', '됨']) (b := ']' :: z)
      (by rw [hopen]; simp) (by rw [List.length_append]; exact h₁) (by
        rw [List.length_append]
        simp only [List.length_cons, List.length_nil] at hin ⊢
        omega)
    have hmem : ∀ c ∈ w, c ∈ ['삭', '제', '됨'] := by
      intro c hc
      rw [hx]
      exact List.mem_append_right _ (List.mem_append_left _ hc)
    rcases word_of_pattern hr hacc with hword | hword
    · rcases hword.outside with hlong | hhyphen | ⟨hzero, -⟩
      · have := congrArg List.length hx
        simp only [List.length_append, List.length_cons, List.length_nil] at this
        omega
      · exact absurd (hmem '-' hhyphen) (by decide)
      · exact absurd (hmem '0' (List.mem_of_mem_head? hzero)) (by decide)
    · exact absurd (hmem '@' hword.at_mem) (by decide)
  · rw [List.length_append] at hright
    simp only [List.length_cons, List.length_nil] at hright
    omega

/-- **No word overlaps what is put in.** -/
theorem clear_of_replacement {u : Unicode} {type : String} {r : Pattern Char}
    (hr : (type, r) ∈ patterns u) {b w t : Text} (hacc : r.Accepts b.reverse w t) (hne : w ≠ [])
    {new a z : Text} (hnew : Replacement new) (h : b ++ (w ++ t) = a ++ (new ++ z)) :
    b.length + w.length ≤ a.length ∨ a.length + new.length ≤ b.length := by
  rcases hnew with rfl | hlabel
  · exact clear_of_redact hr hacc h
  · exact clear_of_label (word_of_pattern hr hacc) hne hlabel h

/-- What is put in begins and ends with no word character. -/
theorem replacement_edges {new : Text} (hnew : Replacement new) (u : Unicode) :
    new.head?.any u.isWord = false ∧ new.getLast?.any u.isWord = false := by
  rcases hnew with rfl | ⟨etype, n, -, -, -, rfl⟩
  · exact ⟨not_word (by decide) (by decide) (by decide), not_word (by decide) (by decide) (by decide)⟩
  · constructor
    · exact not_word (u := u) (c := '<') (by decide) (by decide) (by decide)
    · have hlast : (Vault.tokenLabel etype n).getLast? = some '>' := by
        rw [Vault.tokenLabel, List.getLast?_concat]
      rw [hlast]
      exact not_word (u := u) (c := '>') (by decide) (by decide) (by decide)

/-! ## What survives is replaced -/

theorem candidate_match {u : Unicode} {text : Text} {c : Span} (hc : c ∈ candidates u text) :
    ∃ p ∈ patterns u, ∃ m ∈ p.2.finditer text, c.start = m.start ∧ c.stop = m.stop := by
  have hpassed : ∀ {type : String} {r : Pattern Char} {confidence test},
      (type, r) ∈ patterns u → c ∈ passed type r confidence test text →
      ∃ p ∈ patterns u, ∃ m ∈ p.2.finditer text, c.start = m.start ∧ c.stop = m.stop := by
    intro type r confidence test hr hc
    obtain ⟨m, hm, rfl⟩ := List.mem_map.mp hc
    exact ⟨_, hr, m, (List.mem_filter.mp hm).1, rfl, rfl⟩
  simp only [candidates, List.mem_append] at hc
  rcases hc with ((((hc | hc) | hc) | hc) | hc) | hc
  all_goals exact hpassed (by simp [patterns]) hc

/-- The result of the regex layer is a choice among what survives. -/
theorem merged_candidate {u : Unicode} {text : Text} {s : Span}
    (hs : s ∈ mergeSpans (detect u text) none none) : s ∈ candidates u text := by
  obtain ⟨k, hk, hmax⟩ := (mem_merge_regex detect_regex).mp hs
  rw [← accepted_detect]
  exact mem_clusterOverlapping.mpr ⟨k, hk, List.argmax_mem hmax⟩

theorem merged_found {u : Unicode} {text : Text} {s : Span}
    (hs : s ∈ mergeSpans (detect u text) none none) : Found u text s := by
  have hmem := merged_candidate hs
  rw [← accepted_detect] at hmem
  exact detect_found (List.mem_filter.mp hmem).1

/-- A chain of overlaps leads from what survives to a span of the result. -/
theorem candidate_joined {u : Unicode} {text : Text} {c : Span} (hc : c ∈ candidates u text) :
    ∃ s ∈ mergeSpans (detect u text) none none, SameComponent (candidates u text) c s := by
  rw [← accepted_detect] at hc ⊢
  obtain ⟨k, hk, hck⟩ := mem_clusterOverlapping.mp hc
  obtain ⟨s, hs⟩ := Best.exists_argmax (f := canonicalKey) (List.ne_nil_of_mem hck)
  refine ⟨s, (mem_merge_regex detect_regex).mpr ⟨k, hk, hs⟩, ?_⟩
  refine (mem_cluster_iff ?_ hk hck s).mp (List.argmax_mem hs)
  exact accepted_proper fun s hs => (detect_regex s hs).2

theorem merged_eq_nil_iff {u : Unicode} {text : Text} :
    mergeSpans (detect u text) none none = [] ↔ candidates u text = [] := by
  constructor
  · intro hnil
    refine List.eq_nil_iff_forall_not_mem.mpr fun c hc => ?_
    obtain ⟨s, hs, -⟩ := candidate_joined hc
    rw [hnil] at hs
    cases hs
  · intro hnil
    refine List.eq_nil_iff_forall_not_mem.mpr fun s hs => ?_
    have hmem := merged_candidate hs
    rw [hnil] at hmem
    cases hmem

/-! ## Between the replaced spans -/

/-- A stretch of the text that stays: from the beginning or the end of a span to the next
span or the end. -/
structure Stretch (text : Text) (spans : List Span) (lo hi : ℕ) : Prop where
  left : lo = 0 ∨ ∃ s ∈ spans, lo = s.stop
  right : hi = text.length ∨ ∃ s ∈ spans, hi = s.start
  le : lo ≤ hi
  apart : ∀ s ∈ spans, s.stop ≤ lo ∨ hi ≤ s.start

/-- Nothing that the six patterns match, whatever its checksum, runs over an edge of the
stretch. -/
def Uncrossed (u : Unicode) (text : Text) (lo hi : ℕ) : Prop :=
  ∀ p ∈ patterns u, ∀ m ∈ p.2.finditer text, m.start < hi → lo < m.stop →
    lo ≤ m.start ∧ m.stop ≤ hi

/-- The edits put in replacements for the spans of the result, all of them. -/
structure Replaces (u : Unicode) (text : Text) (es : List (Edit Char)) : Prop where
  fit : Fit text es
  span : ∀ e ∈ es, ∃ s ∈ mergeSpans (detect u text) none none, s.start = e.start ∧ s.stop = e.stop
  edit : ∀ s ∈ mergeSpans (detect u text) none none, ∃ e ∈ es, e.start = s.start ∧ e.stop = s.stop
  new : ∀ e ∈ es, Replacement e.new

section Stretch

variable {u : PyUnicode} {text : Text} {es : List (Edit Char)} {lo hi : ℕ}
  {front x w y rear : Text}

theorem Stretch.places (h : Stretch text (mergeSpans (detect u.toUnicode text) none none) lo hi) :
    text = text.take lo ++ (slice text lo hi ++ text.drop hi) ∧ (text.take lo).length = lo ∧
      (text.take lo).length + (slice text lo hi).length = hi := by
  have hlen : hi ≤ text.length := by
    rcases h.right with rfl | ⟨s, hs, rfl⟩
    · exact le_rfl
    · have hwithin := (merged_found hs).within
      omega
  have hlo : (text.take lo).length = lo := List.length_take_of_le (h.le.trans hlen)
  refine ⟨?_, hlo, ?_⟩
  · rw [slice_append_drop text h.le, List.take_append_drop]
  · rw [← List.length_append, take_append_slice text h.le, List.length_take_of_le hlen]

/-- Where nothing crosses its edges, nothing that survives reaches into a stretch: with
the chain that leads from there to a span of the result, it would lie within. -/
theorem Uncrossed.free (h : Stretch text (mergeSpans (detect u.toUnicode text) none none) lo hi)
    (huncrossed : Uncrossed u.toUnicode text lo hi) {c : Span}
    (hc : c ∈ candidates u.toUnicode text) : ¬ Touches c lo hi := by
  have hwithin : ∀ b ∈ candidates u.toUnicode text, Touches b lo hi →
      lo ≤ b.start ∧ b.stop ≤ hi := by
    rintro b hb ⟨hleft, hright⟩
    obtain ⟨p, hp, m, hm, hstart, hstop⟩ := candidate_match hb
    rw [hstart, hstop]
    exact huncrossed p hp m hm (hstart ▸ hleft) (hstop ▸ hright)
  intro htouch
  obtain ⟨s, hs, hsame⟩ := candidate_joined hc
  have hstouch : Touches s lo hi := by
    clear hs
    induction hsame with
    | refl => exact htouch
    | tail _ hstep ih =>
        obtain ⟨⟨hb, -⟩, hlt, hgt⟩ := hstep
        obtain ⟨hle, hge⟩ := hwithin _ hb ih
        exact ⟨by omega, by omega⟩
  obtain ⟨hleft, hright⟩ := hstouch
  rcases h.apart s hs with happart | happart
  · omega
  · omega

/-- A stretch whose edges nothing crosses, taken out of the text. -/
theorem Uncrossed.gap (h : Stretch text (mergeSpans (detect u.toUnicode text) none none) lo hi)
    (huncrossed : Uncrossed u.toUnicode text lo hi) :
    Gap u (text.take lo) (slice text lo hi) (text.drop hi) [] [] := by
  obtain ⟨htext, hlo, hhi⟩ := h.places
  constructor
  · intro p hp m hm hleft hright
    rw [← htext] at hm
    rw [hhi] at hleft ⊢
    rw [hlo] at hright ⊢
    exact huncrossed p hp m hm hleft hright
  · exact fun p _ => p.2.within_alone _
  · intro c d hc hd hdec
    rcases h.left with rfl | ⟨s, hmem, rfl⟩
    · cases hc
    · have hproper := (merged_found hmem).within.1
      obtain ⟨k, hk⟩ : ∃ k, k + 1 = s.stop := ⟨s.stop - 1, by omega⟩
      obtain ⟨hbefore, hafter⟩ :=
        heads_at (t := slice text s.stop hi ++ text.drop hi) (hk.trans hlo.symm)
      rw [← htext] at hbefore hafter
      refine (merged_found hmem).edge (Or.inr hk) (hbefore.symm.trans ?_)
        (hafter.symm.trans ?_) hdec
      · rw [List.head?_reverse]
        exact hc
      · rw [List.head?_append, hd]
        rfl
  · intro c d hc hd hdec
    rcases h.right with rfl | ⟨s, hmem, rfl⟩
    · rw [List.drop_length] at hd
      cases hd
    · have hpos : 0 < (slice text lo s.start).length := by
        cases hslice : slice text lo s.start with
        | nil =>
            rw [hslice] at hc
            cases hc
        | cons a rest => exact Nat.succ_pos _
      obtain ⟨k, hk⟩ : ∃ k, k + 1 = s.start := ⟨s.start - 1, by omega⟩
      obtain ⟨hbefore, hafter⟩ := heads_at (b := text.take lo ++ slice text lo s.start)
        (t := text.drop s.start) (by rw [List.length_append, hhi, hk])
      rw [List.append_assoc, ← htext] at hbefore hafter
      refine (merged_found hmem).edge (Or.inl hk) (hbefore.symm.trans ?_)
        (hafter.symm.trans hd) hdec
      rw [List.head?_reverse, List.getLast?_append, hc]
      rfl
  · rfl
  · rfl
  · intro c hc htouch
    rw [← htext] at hc
    rw [hhi, hlo] at htouch
    exact huncrossed.free h hc htouch

/-- Where a stretch stands between what is put in, nothing runs over its edges. -/
theorem within_replaced (hes : Replaces u.toUnicode text es)
    (hs : Stands text es 0 lo hi front x w y rear) :
    ∀ p ∈ patterns u.toUnicode, p.2.Within front (slice text lo hi) rear := by
  intro p hp m hm hleft hright
  obtain ⟨b, t, hsplit, hstart, hne, hacc⟩ := Pattern.mem_finditer hm
  have hstop : m.stop = b.length + m.text.length := by rw [Match.stop, hstart]
  constructor
  · rcases hs.left with ⟨-, rfl⟩ | ⟨e, he, -, z, rfl⟩
    · exact Nat.zero_le _
    · rw [List.append_assoc] at hsplit
      have hclear := clear_of_replacement hp hacc hne (hes.new e he) hsplit.symm
      rw [List.length_append] at hright ⊢
      omega
  · rcases hs.right with ⟨-, rfl⟩ | ⟨e, he, -, z, rfl⟩
    · have hlen := congrArg List.length hsplit
      simp only [List.length_append, List.length_nil] at hlen
      omega
    · rw [← List.append_assoc] at hsplit
      have hclear := clear_of_replacement hp hacc hne (hes.new e he) hsplit.symm
      rw [List.length_append] at hclear
      omega

/-- No word character stands beside the stretch there. -/
theorem beside_replaced (hes : Replaces u.toUnicode text es)
    (hs : Stands text es 0 lo hi front x w y rear) :
    front.getLast?.any u.isWord = false ∧ rear.head?.any u.isWord = false := by
  have hne : ∀ e ∈ es, e.new ≠ [] := by
    intro e he hnil
    rcases hes.new e he with hnew | ⟨etype, n, -, -, -, hnew⟩
    · rw [hnil] at hnew
      cases hnew
    · rw [hnil] at hnew
      cases hnew
  constructor
  · rcases hs.left with ⟨-, rfl⟩ | ⟨e, he, -, z, rfl⟩
    · rfl
    · rw [List.getLast?_append_of_ne_nil _ (hne e he)]
      exact (replacement_edges (hes.new e he) _).2
  · rcases hs.right with ⟨-, rfl⟩ | ⟨e, he, -, z, rfl⟩
    · rfl
    · rw [List.head?_append_of_ne_nil _ (hne e he)]
      exact (replacement_edges (hes.new e he) _).1

/-- A stretch with nothing to find, put between the replacements. -/
theorem gap_put_in (hes : Replaces u.toUnicode text es)
    (hs : Stands text es 0 lo hi front x w y rear)
    (hnone : candidates u.toUnicode (slice text lo hi) = []) :
    Gap u [] (slice text lo hi) [] front rear where
  within p _ := p.2.within_alone _
  within' := within_replaced hes hs
  left c d hc := by cases hc
  right c d _ hd := by cases hd
  left' := (beside_replaced hes hs).1
  right' := (beside_replaced hes hs).2
  free c hc := by
    rw [List.nil_append, List.append_nil, hnone] at hc
    cases hc

/-- A stretch of a text with nothing to find, taken out from between the replacements. -/
theorem gap_taken_out (hes : Replaces u.toUnicode text es)
    (hs : Stands text es 0 lo hi front x w y rear)
    (hnone : candidates u.toUnicode (front ++ (slice text lo hi ++ rear)) = []) :
    Gap u front (slice text lo hi) rear [] [] where
  within := within_replaced hes hs
  within' p _ := p.2.within_alone _
  left c d hc _ hdec := by
    have hno := Gap.not_decimal_of_any (beside_replaced hes hs).1
    rw [hc, Option.any_some, hdec] at hno
    cases hno
  right c d _ hd _ := by
    have hno := Gap.not_decimal_of_any (beside_replaced hes hs).2
    rwa [hd, Option.any_some] at hno
  left' := rfl
  right' := rfl
  free c hc := by
    rw [hnone] at hc
    cases hc

/-- Where nothing new comes to light in what stands alone, it has nothing to find. -/
theorem candidates_nil_of_gap {A g B : Text} (h : Gap u A g B [] []) :
    candidates u.toUnicode g = [] := by
  refine List.eq_nil_iff_forall_not_mem.mpr fun c hc => ?_
  have hwithin : c.start < c.stop ∧ c.stop ≤ g.length := by
    rw [← accepted_detect] at hc
    exact (detect_found (List.mem_filter.mp hc).1).within
  refine h.nothing_new c (by simpa using hc) ⟨?_, ?_⟩
  · rw [List.length_nil, Nat.zero_add]
    omega
  · rw [List.length_nil]
    omega

/-- **What a second pass can find** stands in one of the stretches and can be found there
without the rest of the text. -/
theorem no_candidates_iff (hes : Replaces u.toUnicode text es) :
    candidates u.toUnicode (onePass text es) = [] ↔
      ∀ lo hi, Stretch text (mergeSpans (detect u.toUnicode text) none none) lo hi →
        candidates u.toUnicode (slice text lo hi) = [] := by
  have hperm := ascending_perm es
  have hsorted : Replaces u.toUnicode text (ascending es) := by
    refine ⟨hes.fit.perm hperm, fun e he => hes.span e (hperm.mem_iff.mp he), fun s hs => ?_,
      fun e he => hes.new e (hperm.mem_iff.mp he)⟩
    obtain ⟨e, he, hplace⟩ := hes.edit s hs
    exact ⟨e, hperm.mem_iff.mpr he, hplace⟩
  have hordered := hsorted.fit.ordered (pairwise_ascending es)
  constructor
  · intro hnone lo hi hstretch
    have hproper : ∀ e ∈ ascending es, e.start < e.stop := fun e he =>
      (hsorted.fit.within e he).1
    have hleft : lo = 0 ∨ ∃ e ∈ ascending es, lo = e.stop := by
      rcases hstretch.left with hlo | ⟨s, hs, heq⟩
      · exact Or.inl hlo
      · obtain ⟨e, he, -, hstop⟩ := hsorted.edit s hs
        exact Or.inr ⟨e, he, heq.trans hstop.symm⟩
    have hright : hi = text.length ∨ ∃ e ∈ ascending es, hi = e.start := by
      rcases hstretch.right with hhi | ⟨s, hs, heq⟩
      · exact Or.inl hhi
      · obtain ⟨e, he, hstart, -⟩ := hsorted.edit s hs
        exact Or.inr ⟨e, he, heq.trans hstart.symm⟩
    have hapart : ∀ e ∈ ascending es, e.stop ≤ lo ∨ hi ≤ e.start := by
      intro e he
      obtain ⟨s, hs, hstart, hstop⟩ := hsorted.span e he
      rw [← hstart, ← hstop]
      exact hstretch.apart s hs
    obtain ⟨front, rear, hstands, hweave⟩ :=
      stands_of_stretch hordered hproper hleft hright hstretch.le hapart
    rw [onePass, hweave] at hnone
    exact candidates_nil_of_gap (gap_taken_out hsorted hstands hnone)
  · intro hnone
    refine List.eq_nil_iff_forall_not_mem.mpr fun c hc => ?_
    obtain ⟨p, hp, m, hm, hstart, hstop⟩ := candidate_match hc
    obtain ⟨b, t, hsplit, hbegin, hne, hacc⟩ := Pattern.mem_finditer hm
    obtain ⟨lo, hi, front, x, y, rear, hstands, rfl, rfl⟩ :=
      stands_of_clear hordered hsplit fun e he a z haz =>
        clear_of_replacement hp hacc hne (hsorted.new e he) (hsplit.symm.trans haz)
    have hstretch : Stretch text (mergeSpans (detect u.toUnicode text) none none) lo hi := by
      refine ⟨?_, ?_, hstands.places.2.1, fun s hs => ?_⟩
      · rcases hstands.left with ⟨hlo, -⟩ | ⟨e, he, heq, -⟩
        · exact Or.inl hlo
        · obtain ⟨s, hs, -, hstop⟩ := hsorted.span e he
          exact Or.inr ⟨s, hs, heq.trans hstop.symm⟩
      · rcases hstands.right with ⟨hhi, -⟩ | ⟨e, he, heq, -⟩
        · exact Or.inl hhi
        · obtain ⟨s, hs, hstart, -⟩ := hsorted.span e he
          exact Or.inr ⟨s, hs, heq.trans hstart.symm⟩
      · obtain ⟨e, he, hstart, hstop⟩ := hsorted.edit s hs
        rw [← hstart, ← hstop]
        exact hstands.apart e he
    have hgap := gap_put_in hsorted hstands (hnone lo hi hstretch)
    have htext : onePass text es = front ++ (slice text lo hi ++ rear) := by
      rw [hsplit, hstands.stretch]
      simp only [List.append_assoc]
    rw [htext] at hc
    refine hgap.nothing_new c hc ?_
    have hlen := congrArg List.length hstands.stretch
    have hpos := List.length_pos_iff.mpr hne
    rw [List.length_append] at hbegin
    rw [List.length_append, List.length_append] at hlen
    rw [Match.stop] at hstop
    constructor
    · omega
    · omega

end Stretch

/-- The edits of the stage put a replacement in the place of each span. -/
theorem replaces_renderAll {u : Unicode} {text : Text} {env : Vault.Env} {year : ℤ}
    {ctx : AnalysisContext} {chance : ℕ → Chance} {v : Vault.Db}
    (hspans : ctx.spanActions.map Prod.fst = mergeSpans (detect u text) none none)
    (hplaced : Placed text (ctx.spanActions.map Prod.fst))
    (hnew : ∀ e ∈ (renderAll env year ctx chance ctx.spanActions v).1, Replacement e.new) :
    Replaces u text (renderAll env year ctx chance ctx.spanActions v).1 := by
  have hplaces : (renderAll env year ctx chance ctx.spanActions v).1.map
      (fun e => (e.start, e.stop)) =
        (ctx.spanActions.map Prod.fst).map fun s => (s.start, s.stop) :=
    renderAll_places ctx.spanActions
  refine ⟨hplaced.fit hplaces, fun e he => ?_, fun s hs => ?_, hnew⟩
  · have hmem : (e.start, e.stop) ∈
        (ctx.spanActions.map Prod.fst).map fun s => (s.start, s.stop) := by
      rw [← hplaces]
      exact List.mem_map_of_mem he
    obtain ⟨s, hs, heq⟩ := List.mem_map.mp hmem
    obtain ⟨hstart, hstop⟩ := Prod.mk.inj heq
    exact ⟨s, hspans ▸ hs, hstart, hstop⟩
  · have hmem : (s.start, s.stop) ∈
        (renderAll env year ctx chance ctx.spanActions v).1.map fun e => (e.start, e.stop) := by
      rw [hplaces, hspans]
      exact List.mem_map_of_mem hs
    obtain ⟨e, he, heq⟩ := List.mem_map.mp hmem
    obtain ⟨hstart, hstop⟩ := Prod.mk.inj heq
    exact ⟨e, he, hstart, hstop⟩

theorem placed_merged (u : Unicode) (text : Text) :
    Placed text (mergeSpans (detect u text) none none) where
  within _ hs := (merged_found hs).within
  apart := (mergeSpans_follow fun s hs => (detect_regex s hs).2).imp fun hle => Or.inl hle

/-- **What a second pass finds** after every span of the result has been redacted or
tokenized. It finds nothing exactly when nothing is found in any of the stretches that
stay, each taken for a text of its own; and nothing is in a stretch over whose edges no
match runs, whatever its checksum. -/
theorem second_pass_empty (u : PyUnicode) (env : Vault.Env) (year : ℤ) (chance : ℕ → Chance)
    (ctx : AnalysisContext) (v : Vault.Db) (earlier : List Turn) (turn : Turn)
    (hturns : ctx.turns = earlier ++ [turn])
    (hspans : ctx.spanActions.map Prod.fst =
      mergeSpans (detect u.toUnicode turn.text) none none)
    (hactions : ∀ p ∈ ctx.spanActions, p.2 = .redact ∨ p.2 = .tokenize)
    (hnew : ∀ e ∈ (renderAll env year ctx chance ctx.spanActions v).1, Replacement e.new) :
    ∃ text, (Transform.transformStage env year chance ctx v).1.turns =
        earlier ++ [{ turn with text }] ∧
      (mergeSpans (detect u.toUnicode text) none none = [] ↔
        ∀ lo hi, Stretch turn.text (mergeSpans (detect u.toUnicode turn.text) none none) lo hi →
          mergeSpans (detect u.toUnicode (slice turn.text lo hi)) none none = []) ∧
      ∀ lo hi, Stretch turn.text (mergeSpans (detect u.toUnicode turn.text) none none) lo hi →
        Uncrossed u.toUnicode turn.text lo hi →
          mergeSpans (detect u.toUnicode (slice turn.text lo hi)) none none = [] := by
  have hplaced : Placed turn.text (ctx.spanActions.map Prod.fst) :=
    hspans ▸ placed_merged u.toUnicode turn.text
  have hno : ∀ p ∈ ctx.spanActions, p.2 ≠ .aggregate := by
    intro p hp heq
    rcases hactions p hp with hact | hact
    · rw [heq] at hact
      cases hact
    · rw [heq] at hact
      cases hact
  refine ⟨onePass turn.text (renderAll env year ctx chance ctx.spanActions v).1, ?_, ?_, ?_⟩
  · rw [transformStage_last hturns, transformText_eq_onePass hplaced hno]
  · rw [merged_eq_nil_iff]
    simp only [merged_eq_nil_iff (u := u.toUnicode)]
    exact no_candidates_iff (replaces_renderAll hspans hplaced hnew)
  · intro lo hi hstretch huncrossed
    exact merged_eq_nil_iff.mpr (candidates_nil_of_gap (huncrossed.gap hstretch))

/-- A turn whose spans are redacted and tokenized. -/
def contactContext : AnalysisContext where
  sessionId := "s"
  direction := "input"
  provider := "gateway"
  role := none
  turns := [⟨"user", "a@b.co 010-1234-5678".toList⟩]
  newTurnSpans := []
  riskScore := 0
  injection := ⟨false, 0, none⟩
  blocked := false
  blockReason := none
  purpose := none
  purposeConfidence := none
  spanActions := [(⟨"EMAIL", "a@b.co".toList, 0, 6, 9 / 10, "regex"⟩, .redact),
    (⟨"PHONE", "010-1234-5678".toList, 7, 20, 65 / 100, "regex"⟩, .tokenize)]

theorem second_pass_empty_sample :
    ∃ text, (Transform.transformStage .sample 2026 (fun _ => ⟨.zero, 0, fun _ => 0⟩) contactContext
        (.empty 0)).1.turns = [⟨"user", text⟩] ∧
      mergeSpans (detect .ascii text) none none = [] := by
  have hmerged : mergeSpans (detect .ascii "a@b.co 010-1234-5678".toList) none none =
      [⟨"EMAIL", "a@b.co".toList, 0, 6, 9 / 10, "regex"⟩,
        ⟨"PHONE", "010-1234-5678".toList, 7, 20, 65 / 100, "regex"⟩] := by decide +kernel
  have hnew : ∀ e ∈ (renderAll .sample 2026 contactContext (fun _ => ⟨.zero, 0, fun _ => 0⟩)
      contactContext.spanActions (.empty 0)).1, Replacement e.new := by
    have hedits : (renderAll .sample 2026 contactContext (fun _ => ⟨.zero, 0, fun _ => 0⟩)
        contactContext.spanActions (.empty 0)).1 =
        [⟨0, 6, redactText⟩, ⟨7, 20, Vault.tokenLabel "PHONE" 1⟩] := by decide +kernel
    rw [hedits]
    intro e he
    rcases List.mem_pair.mp he with rfl | rfl
    · exact Or.inl rfl
    · exact Or.inr ⟨"PHONE", 1, Or.inl (by decide), by decide, by decide, rfl⟩
  obtain ⟨text, hturns, hempty, -⟩ := second_pass_empty .ascii .sample 2026
    (fun _ => ⟨.zero, 0, fun _ => 0⟩) contactContext (.empty 0) []
    ⟨"user", "a@b.co 010-1234-5678".toList⟩ rfl hmerged.symm (by decide +kernel) hnew
  refine ⟨text, hturns, hempty.mpr ?_⟩
  -- What stays are the blank and the two ends.
  intro lo hi hstretch
  change Stretch "a@b.co 010-1234-5678".toList
    (mergeSpans (detect .ascii "a@b.co 010-1234-5678".toList) none none) lo hi at hstretch
  rw [hmerged] at hstretch
  obtain ⟨hleft, hright, hle, hapart⟩ := hstretch
  simp only [List.mem_cons, List.not_mem_nil, or_false, exists_eq_or_imp, exists_eq_left,
    forall_eq_or_imp, forall_eq] at hleft hright hapart
  have hlength : "a@b.co 010-1234-5678".toList.length = 20 := by decide
  have hplaces : lo = 0 ∧ hi = 0 ∨ lo = 6 ∧ hi = 7 ∨ lo = 20 ∧ hi = 20 := by omega
  rcases hplaces with ⟨rfl, rfl⟩ | ⟨rfl, rfl⟩ | ⟨rfl, rfl⟩
  · decide +kernel
  · decide +kernel
  · decide +kernel

/-- The address takes the card number for a part of its domain, and the card number, of
greater confidence, is the one that stays. -/
def crossedContext : AnalysisContext :=
  { contactContext with
    turns := [⟨"user", "a@b.co-4111-1111-1111-1111".toList⟩]
    spanActions := [(⟨"CARD", "4111-1111-1111-1111".toList, 7, 26, 97 / 100, "regex"⟩, .redact)] }

/-- What is left of the address is one itself. -/
theorem address_comes_to_light :
    crossedContext.spanActions.map Prod.fst =
        mergeSpans (detect .ascii "a@b.co-4111-1111-1111-1111".toList) none none ∧
      (Transform.transformStage .sample 2026 (fun _ => ⟨.zero, 0, fun _ => 0⟩) crossedContext
        (.empty 0)).1.turns = [⟨"user", "a@b.co-[삭제됨]".toList⟩] ∧
      (mergeSpans (detect .ascii "a@b.co-[삭제됨]".toList) none none).map
        (fun s => (s.type, s.value)) = [("EMAIL", "a@b.co".toList)] := by
  decide +kernel

end DlpServer.Pipeline
