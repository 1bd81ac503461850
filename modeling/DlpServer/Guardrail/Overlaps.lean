import DlpServer.Detect.Candidates
import DlpServer.Detect.Surroundings
import DlpServer.Guardrail.OutputCheck
import DlpServer.Lib.Overlay
import DlpServer.Transform.MaskOrigins

/-!
# Masks over one another

`_rescan_and_mask` does not merge its spans. `rescanOrigins` follows it character by
character: which places of the response are shown in the result, and where. Masking is
right exactly when over every place the mask made last hides what any mask hides, and
no mask that is longer than its value meets another span (`rescan_masked_iff`).
-/

namespace DlpServer.Guardrail

open Regex Splice Transform Detect.RegexRules

section Definitions

variable (u : Unicode)

/-- The spans that `_rescan_and_mask` masks. -/
def qualifying (text : Text) (minConfidence : ℚ) : List Span := (rescanAndMask u text minConfidence).2

/-- The mask of a span, as the places of the response from which it copies. -/
def originEdit (s : Span) : Edit (Option ℕ) :=
  ⟨s.start, s.stop, (maskOrigins u s).map (Option.map (s.start + ·))⟩

/-- `_rescan_and_mask` on the places of the characters. -/
def rescanOrigins (text : Text) (minConfidence : ℚ) : List (Option ℕ) :=
  rightToLeft ((List.range text.length).map some)
    ((qualifying u text minConfidence).map (originEdit u))

/-- The span covers the place. -/
def Covering (s : Span) (i : ℕ) : Prop := s.start ≤ i ∧ i < s.stop

instance (s : Span) (i : ℕ) : Decidable (Covering s i) := inferInstanceAs (Decidable (_ ∧ _))

/-- The mask of the span hides a digit or letter at the place. -/
def Hides (s : Span) (i : ℕ) : Prop :=
  Covering s i ∧ (∃ c, s.value[i - s.start]? = some c ∧ u.isAlnum c = true) ∧
    some (i - s.start) ∉ maskOrigins u s

/-- What masking is meant to do. -/
structure MaskedRight (text : Text) (minConfidence : ℚ) : Prop where
  outside : List.Sublist (((List.range text.length).filter fun i =>
    decide (∀ s ∈ qualifying u text minConfidence, ¬ Covering s i)).map some)
      (rescanOrigins u text minConfidence)
  once : ((rescanOrigins u text minConfidence).filterMap id).Nodup
  hidden : ∀ s ∈ qualifying u text minConfidence, ∀ i, Hides u s i →
    some i ∉ rescanOrigins u text minConfidence
  disjoint : (qualifying u text minConfidence).Pairwise
      (fun a b => a.stop ≤ b.start ∨ b.stop ≤ a.start) →
    (rescanAndMask u text minConfidence).1 =
      onePass text ((qualifying u text minConfidence).map (maskEdit u))

/-- Of the spans over a place, the one that is masked last: the leftmost, and of those
that start together the one detected last. -/
def outermost (spans : List Span) (i : ℕ) : Option Span :=
  (spans.filter fun s => decide (Covering s i)).reverse.argmin Span.start

/-- The masks do not undo one another. -/
structure MasksAgree (text : Text) (minConfidence : ℚ) : Prop where
  covered : ∀ s ∈ qualifying u text minConfidence, ∀ i, Hides u s i →
    ∀ y ∈ outermost (qualifying u text minConfidence) i, Hides u y i
  apart : ∀ r ∈ qualifying u text minConfidence, r.type = "RRN" → r.value.length = 13 →
    ∀ s ∈ qualifying u text minConfidence, s ≠ r → s.stop ≤ r.start ∨ r.stop ≤ s.start

end Definitions

/-! ## The spans -/

variable {u : PyUnicode} {text : Text} {minConfidence : ℚ}

/-- What holds of a span and a later one in the order of detection: resident numbers come
first, and spans of one type follow one another. -/
def Earlier (a b : Span) : Prop :=
  (b.type = "RRN" → a.type = "RRN") ∧ (a.type = b.type → a.stop ≤ b.start)

theorem detect_earlier (u : Unicode) (text : Text) : (detect u text).Pairwise Earlier := by
  have hlayer : ∀ type r confidence, 
      (detectBy type r confidence text).Pairwise Earlier := by
    intro type r confidence
    refine List.pairwise_map.mpr ((Pattern.finditer_follow r text).imp fun h => ?_)
    exact ⟨fun htype => htype, fun _ => h⟩
  have htype : ∀ {type r confidence s}, s ∈ detectBy type r confidence text → s.type = type := by
    intro type r confidence s h
    obtain ⟨m, -, rfl⟩ := List.mem_map.mp h
    rfl
  -- A further layer of another type comes behind.
  have hjoin : ∀ {l l' : List Span} {types : List String} {type : String},
      l.Pairwise Earlier ∧ (∀ a ∈ l, a.type ∈ types) → l'.Pairwise Earlier →
      (∀ b ∈ l', b.type = type) → type ≠ "RRN" → type ∉ types →
      (l ++ l').Pairwise Earlier ∧ ∀ a ∈ l ++ l', a.type ∈ type :: types := by
    rintro l l' types type ⟨hl, htypes⟩ hl' htype' hne hnot
    refine ⟨List.pairwise_append.mpr ⟨hl, hl', fun a ha b hb => ⟨fun h => ?_, fun h => ?_⟩⟩, ?_⟩
    · exact absurd ((htype' b hb).symm.trans h) hne
    · rw [htype' b hb] at h
      exact absurd (h ▸ htypes a ha) hnot
    · intro a ha
      rcases List.mem_append.mp ha with ha | ha
      · exact List.mem_cons_of_mem _ (htypes a ha)
      · rw [htype' a ha]
        exact List.mem_cons_self
  have hrrn : ∀ a ∈ detectRrn u text, a.type ∈ ["RRN"] := by
    intro a ha
    rw [htype ha]
    exact List.mem_cons_self
  exact (hjoin (hjoin (hjoin (hjoin (hjoin ⟨hlayer _ _ _, hrrn⟩
    (hlayer _ _ _) (fun b hb => htype hb) (by decide) (by decide))
    (hlayer _ _ _) (fun b hb => htype hb) (by decide) (by decide))
    (hlayer _ _ _) (fun b hb => htype hb) (by decide) (by decide))
    (hlayer _ _ _) (fun b hb => htype hb) (by decide) (by decide))
    ((hlayer _ _ _).filter _) (fun b hb => htype (List.mem_filter.mp hb).1) (by decide)
    (by decide)).1

theorem mem_qualifying {s : Span} (h : s ∈ qualifying u.toUnicode text minConfidence) :
    Found u.toUnicode text s :=
  detect_found (List.mem_filter.mp h).1

/-- The text under a span. -/
theorem value_at {s : Span} (h : Found u.toUnicode text s) {i : ℕ} (hi : Covering s i) :
    s.value[i - s.start]? = text[i]? := by
  obtain ⟨b, t, rfl, hstart, hstop, -⟩ := h.split
  obtain ⟨hle, hlt⟩ := hi
  rw [List.getElem?_append_right (by omega), List.getElem?_append_left (by omega), hstart]

theorem value_length {s : Span} (h : Found u.toUnicode text s) :
    s.value.length = s.stop - s.start := by
  obtain ⟨b, t, -, hstart, hstop, -⟩ := h.split
  omega

/-! ## The masks -/

theorem length_maskOrigins (u : Unicode) (s : Span) :
    (maskOrigins u s).length = (mask u s).length :=
  (forall₂_mask u s).length_eq

/-- A resident number shows its first six digits. -/
theorem rrn_shape {s : Span} (h : Found u.toUnicode text s) (htype : s.type = "RRN") :
    maskOrigins u.toUnicode s = (List.range 6).map some ++ List.replicate 8 none ∧
      13 ≤ s.value.length ∧ s.value.length ≤ 14 ∧
      (s.value.length = 13 → ∀ c ∈ s.value, u.isDecimal c = true) := by
  obtain ⟨b, t, -, -, -, r, hr, hacc⟩ := h.split
  simp only [patterns, List.mem_cons, Prod.mk.injEq, List.not_mem_nil, or_false] at hr
  rw [htype] at hr
  rcases hr with ⟨-, rfl⟩ | ⟨h, -⟩ | ⟨h, -⟩ | ⟨h, -⟩ | ⟨h, -⟩ | ⟨h, -⟩
  · obtain ⟨x, sep, y, hvalue, hx, ⟨hsep, hsepdec⟩, hy⟩ := rrn_split hacc
    have hlen : s.value.length = 13 + sep.length := by
      rw [hvalue, List.length_append, List.length_append, hx.1, hy.1]
      omega
    refine ⟨?_, by omega, by omega, fun h13 c hc => ?_⟩
    · rw [maskOrigins, if_pos htype, hvalue]
      exact rrnOrigins_split u.toUnicode hx hsepdec hy
    · rw [hvalue, List.eq_nil_of_length_eq_zero (l := sep) (by omega), List.nil_append] at hc
      exact (List.mem_append.mp hc).elim (hx.2 c) (hy.2 c)
  all_goals exact absurd h (by decide)

theorem inPlace_mask {s : Span} (h : Found u.toUnicode text s) :
    InPlace (maskOrigins u.toUnicode s) := by
  by_cases htype : s.type = "RRN"
  · rw [(rrn_shape h htype).1]
    exact inPlace_shown 6 8
  · unfold maskOrigins
    rw [if_neg htype]
    split
    · exact inPlace_keepLast _ _ _
    · split
      · exact inPlace_email _
      · exact inPlace_middle _

/-- The masks that are longer than what they replace. -/
def Longer (s : Span) : Prop := s.type = "RRN" ∧ s.value.length = 13

theorem length_even {s : Span} (h : Found u.toUnicode text s) (hnot : ¬ Longer s) :
    (maskOrigins u.toUnicode s).length = s.value.length := by
  by_cases htype : s.type = "RRN"
  · obtain ⟨hshape, hlow, hhigh, -⟩ := rrn_shape h htype
    have hne : s.value.length ≠ 13 := fun h13 => hnot ⟨htype, h13⟩
    rw [hshape]
    show 14 = s.value.length
    omega
  · rw [length_maskOrigins, mask, if_neg htype]
    split
    · exact length_maskKeepLastDigits _ _
    · split
      · exact length_maskEmail _
      · split <;> exact length_maskMiddle _

/-- Behind the end of what it replaces a mask shows nothing. -/
theorem overhang {s : Span} (h : Found u.toUnicode text s) :
    ∀ o ∈ (maskOrigins u.toUnicode s).drop s.value.length, o = none := by
  intro o ho
  by_cases hlong : Longer s
  · rw [(rrn_shape h hlong.1).1, hlong.2] at ho
    exact List.eq_of_mem_replicate (n := 1) ho
  · rw [List.drop_of_length_le (length_even h hlong).le] at ho
    cases ho

/-- All masks but those of resident numbers show the last place. -/
theorem last_shown {s : Span} (h : Found u.toUnicode text s) (htype : s.type ≠ "RRN") :
    (maskOrigins u.toUnicode s).getLast? = some (some (s.value.length - 1)) := by
  obtain ⟨b, t, -, -, -, r, hr, hacc⟩ := h.split
  rw [maskOrigins, if_neg htype]
  rcases number_or_email hr with ⟨hnum, hne⟩ | ⟨hmail, rfl⟩
  · split
    · have hlast := hnum.ends _ _ _ hacc
      obtain ⟨front, c, hvalue⟩ : ∃ front c, s.value = front ++ [c] :=
        ⟨_, _, (List.dropLast_append_getLast h.value_ne).symm⟩
      rw [hvalue, List.getLast?_concat] at hlast
      rw [hvalue, List.length_append, List.length_singleton, Nat.add_sub_cancel]
      exact keepLast_last _ (u.digit_of_decimal c hlast) (by decide)
    · exact middle_last (hnum.least.trans (Pattern.leastLength_le hacc))
  · rw [hmail, if_neg (by decide), if_pos rfl]
    exact email_last (email_word hacc).at_mem

theorem originEdit_grows {s : Span} (h : Found u.toUnicode text s) :
    (originEdit u.toUnicode s).Grows := by
  obtain ⟨hlt, hle⟩ := maskEdit_grows h
  refine ⟨hlt, ?_⟩
  show s.stop ≤ s.start + ((maskOrigins u.toUnicode s).map _).length
  rw [List.length_map, length_maskOrigins]
  exact hle

theorem originEdit_puts {s : Span} {i : ℕ} (hi : Covering s i)
    (hshown : (maskOrigins u.toUnicode s)[i - s.start]? = some (some (i - s.start))) :
    (originEdit u.toUnicode s).Puts i (some i) := by
  refine ⟨hi.1, ?_⟩
  show ((maskOrigins u.toUnicode s).map _)[i - s.start]? = _
  rw [List.getElem?_map, hshown]
  show some (some (s.start + (i - s.start))) = _
  rw [Nat.add_sub_cancel' hi.1]

/-- A digit or letter that the mask does not hide is shown where it stood. -/
theorem puts_of_not_hides {s : Span} (h : Found u.toUnicode text s) {i : ℕ} (hi : Covering s i)
    {c : Char} (hc : text[i]? = some c) (halnum : u.isAlnum c = true)
    (hnot : ¬ Hides u.toUnicode s i) : (originEdit u.toUnicode s).Puts i (some i) := by
  refine originEdit_puts hi ?_
  have hmem : some (i - s.start) ∈ maskOrigins u.toUnicode s := by
    by_contra hno
    exact hnot ⟨hi, ⟨c, (value_at h hi).trans hc, halnum⟩, hno⟩
  obtain ⟨k, hk⟩ := List.mem_iff_getElem?.mp hmem
  rcases inPlace_mask h k _ hk with hnone | hsome
  · cases hnone
  · rw [Option.some.inj hsome] at hk ⊢
    exact hk

/-! ## The order of the masks -/

/-- The spans in the order in which they are masked. -/
def maskOrder (spans : List Span) : List Span :=
  spans.insertionSort fun a b => b.start ≤ a.start

theorem mem_maskOrder {spans : List Span} {s : Span} : s ∈ maskOrder spans ↔ s ∈ spans :=
  (List.perm_insertionSort _ spans).mem_iff

theorem rescanOrigins_eq (u : Unicode) (text : Text) (minConfidence : ℚ) :
    rescanOrigins u text minConfidence =
      ((maskOrder (qualifying u text minConfidence)).map (originEdit u)).foldl Edit.apply
        ((List.range text.length).map some) := by
  have hstart : ∀ s : Span, (originEdit u s).start = Span.start s := fun _ => rfl
  rw [rescanOrigins, rightToLeft, descending_map hstart]
  rfl

theorem maskOrder_earlier (u : Unicode) (text : Text) (minConfidence : ℚ) :
    (maskOrder (qualifying u text minConfidence)).Pairwise fun a b =>
      b.start < a.start ∨ b.start = a.start ∧ Earlier a b :=
  pairwise_insertionSort_stable Span.start ((detect_earlier u text).filter _)

/-- Over a place, the outermost span is masked last. -/
theorem outermost_split {spans : List Span} {i : ℕ} {y : Span} (h : y ∈ outermost spans i) :
    Covering y i ∧ ∃ pre post, maskOrder spans = pre ++ y :: post ∧ ∀ s ∈ post, ¬ Covering s i := by
  have hfind : (maskOrder spans).reverse.find? (fun s => decide (Covering s i)) = some y := by
    rw [maskOrder, find?_reverse_insertionSort]
    exact h
  obtain ⟨hcover, as, bs, heq, hno⟩ := List.find?_eq_some_iff_append.mp hfind
  refine ⟨of_decide_eq_true hcover, bs.reverse, as.reverse, ?_, fun s hs => ?_⟩
  · have hrev := congrArg List.reverse heq
    rw [List.reverse_reverse, List.reverse_append, List.reverse_cons] at hrev
    rw [hrev, List.append_assoc]
    rfl
  · have := hno s (List.mem_reverse.mp hs)
    simpa using this

/-! ## What wrong masks show -/

section Wrong

variable {pre post : List Span} {y : Span}

/-- What a mask shows is in the result, if the later ones end before it. -/
theorem shown_of_puts {i : ℕ}
    (horder : maskOrder (qualifying u.toUnicode text minConfidence) = pre ++ y :: post)
    (hi : i ≤ text.length) (hputs : (originEdit u.toUnicode y).Puts i (some i))
    (hafter : ∀ s ∈ post, s.stop ≤ i) :
    some i ∈ rescanOrigins u.toUnicode text minConfidence := by
  have hfound : ∀ s ∈ pre ++ y :: post, Found u.toUnicode text s := fun s hs =>
    mem_qualifying (mem_maskOrder.mp (horder ▸ hs))
  rw [rescanOrigins_eq, horder, List.map_append, List.map_cons]
  refine mem_of_puts (fun e he => ?_) ?_ hputs fun e he => ?_
  · obtain ⟨s, hs, rfl⟩ := List.mem_map.mp he
    have h := hfound s (List.mem_append_left _ hs)
    refine ⟨originEdit_grows h, ?_⟩
    rw [List.length_map, List.length_range]
    exact h.within.2
  · rw [List.length_map, List.length_range]
    exact hi
  · obtain ⟨s, hs, rfl⟩ := List.mem_map.mp he
    have h := hfound s (List.mem_append_right _ (List.mem_cons_of_mem _ hs))
    exact ⟨originEdit_grows h, hafter s hs⟩

/-- If the mask made last over a place shows it, it is shown. -/
theorem covered_of_right (h : MaskedRight u.toUnicode text minConfidence) :
    ∀ s ∈ qualifying u.toUnicode text minConfidence, ∀ i, Hides u.toUnicode s i →
      ∀ y ∈ outermost (qualifying u.toUnicode text minConfidence) i, Hides u.toUnicode y i := by
  intro s hs i hhide y hy
  obtain ⟨hcover, pre, post, horder, hpost⟩ := outermost_split hy
  have hmem : ∀ q ∈ pre ++ y :: post, q ∈ qualifying u.toUnicode text minConfidence :=
    fun q hq => mem_maskOrder.mp (horder ▸ hq)
  have hyfound := mem_qualifying (hmem y (List.mem_append_right _ List.mem_cons_self))
  obtain ⟨hsi, ⟨c, hc, halnum⟩, -⟩ := id hhide
  rw [value_at (mem_qualifying hs) hsi] at hc
  by_contra hno
  refine h.hidden s hs i hhide ?_
  refine shown_of_puts horder (hcover.2.trans_le hyfound.within.2).le
    (puts_of_not_hides hyfound hcover hc halnum hno) fun q hq => ?_
  have hsorted := maskOrder_earlier u.toUnicode text minConfidence
  rw [horder] at hsorted
  have hqy := List.rel_of_pairwise_cons (List.pairwise_append.mp hsorted).2.1 hq
  have hstart : q.start ≤ y.start := hqy.elim le_of_lt fun h => h.1.le
  have hnot := hpost q hq
  by_contra hlt
  exact hnot ⟨hstart.trans hcover.1, not_le.mp hlt⟩

/-- The mask of a span that is no resident number shows the last place under it. -/
theorem puts_last {s : Span} (h : Found u.toUnicode text s) (htype : s.type ≠ "RRN") {p : ℕ}
    (hp : p + 1 = s.stop) :
    (originEdit u.toUnicode s).Puts p (some p) ∧
      (originEdit u.toUnicode s).new.getLast? = some (some p) ∧
      (originEdit u.toUnicode s).new.length = s.stop - s.start := by
  have hwithin := h.within
  have hlen := length_even h fun hlong => htype hlong.1
  have hvalue := value_length h
  have hlast := last_shown h htype
  have hplace : s.start + (s.value.length - 1) = p := by omega
  refine ⟨originEdit_puts ⟨by omega, by omega⟩ ?_, ?_, ?_⟩
  · rw [List.getLast?_eq_getElem?, hlen] at hlast
    have : p - s.start = s.value.length - 1 := by omega
    rw [this]
    exact hlast
  · show ((maskOrigins u.toUnicode s).map _).getLast? = _
    rw [List.getLast?_map, hlast]
    exact congrArg (fun i => some (some i)) hplace
  · show ((maskOrigins u.toUnicode s).map _).length = _
    rw [List.length_map, hlen, hvalue]

/-- The last character of a span is a digit or letter, or the span is an address. -/
theorem last_char {s : Span} (hs : s ∈ detect u.toUnicode text) {p : ℕ} (hp : p + 1 = s.stop) :
    ∃ c, text[p]? = some c ∧ (u.isAlnum c = true ∨ s.type = "EMAIL" ∧ c = '_') := by
  have hfound := detect_found hs
  obtain ⟨b, t, -, -, -, r, hr, hacc⟩ := hfound.split
  have hwithin := hfound.within
  obtain ⟨c, hc⟩ : ∃ c, s.value.getLast? = some c :=
    ⟨_, List.getLast?_eq_some_getLast hfound.value_ne⟩
  have hplace : text[p]? = some c := by
    have hlen := value_length hfound
    rw [← value_at hfound ⟨by omega, by omega⟩, ← hc, List.getLast?_eq_getElem?]
    congr 1
    omega
  refine ⟨c, hplace, ?_⟩
  rcases number_or_email hr with ⟨hnum, -⟩ | ⟨hmail, -⟩
  · have hdec := hnum.ends _ _ _ hacc
    rw [hc] at hdec
    exact Or.inl (u.alnum_of_digit c (u.digit_of_decimal c hdec))
  · obtain ⟨_, _, -, -, -, hword, -⟩ := detect_email hs hmail
    rw [hc] at hword
    have hword : u.isWord c = true := hword
    rw [Unicode.isWord, Bool.or_eq_true, beq_iff_eq] at hword
    exact hword.imp_right fun h => ⟨hmail, h⟩

/-- Two spans of one type do not overlap. -/
theorem apart_of_type {a b : Span} (ha : a ∈ detect u.toUnicode text)
    (hb : b ∈ detect u.toUnicode text) (hne : a ≠ b) (htype : a.type = b.type) :
    a.stop ≤ b.start ∨ b.stop ≤ a.start := by
  have hpair : (detect u.toUnicode text).Pairwise fun a b =>
      a.type = b.type → a.stop ≤ b.start ∨ b.stop ≤ a.start :=
    (detect_earlier u.toUnicode text).imp fun h htype => Or.inl (h.2 htype)
  have : Std.Symm fun a b : Span => a.type = b.type → a.stop ≤ b.start ∨ b.stop ≤ a.start :=
    ⟨fun _ _ h htype => (h htype.symm).symm⟩
  exact hpair.forall ha hb hne htype

/-- Under the last place of a span, every other span that is not hidden shows it. -/
theorem puts_at_last {e q : Span} (he : e ∈ detect u.toUnicode text)
    (hq : q ∈ detect u.toUnicode text) {p : ℕ} (hp : p + 1 = e.stop) (hcover : Covering q p)
    (htype : e.type ≠ "RRN") (hnot : ¬ Hides u.toUnicode q p) :
    (originEdit u.toUnicode q).Puts p (some p) := by
  have hefound := detect_found he
  have hwithin := hefound.within
  by_cases heq : q = e
  · rw [heq]
    exact (puts_last hefound htype hp).1
  · obtain ⟨c, hc, halnum | ⟨hmail, rfl⟩⟩ := last_char he hp
    · exact puts_of_not_hides (detect_found hq) hcover hc halnum hnot
    · -- No number has an underscore, and addresses do not overlap.
      exfalso
      have hqfound := detect_found hq
      obtain ⟨b, t, -, -, -, r, hr, hacc⟩ := hqfound.split
      by_cases hqmail : q.type = "EMAIL"
      · have hapart := apart_of_type hq he heq (hqmail.trans hmail.symm)
        obtain ⟨hle, hlt⟩ := hcover
        omega
      · have hmem : '_' ∈ q.value := List.mem_of_getElem? ((value_at hqfound hcover).trans hc)
        have hno : numericChar u.toUnicode '_' = false := not_numericChar (by decide) (by decide)
        rw [(number_word hr hqmail hacc).chars '_' hmem] at hno
        cases hno

/-- A resident number without separator is a run of digits. -/
theorem longer_run {r : Span} (h : Found u.toUnicode text r) (hlong : Longer r) :
    r.stop = r.start + 13 ∧
      ∀ k, r.start ≤ k → k < r.stop → ∃ c, text[k]? = some c ∧ u.isDecimal c = true := by
  have hlen := value_length h
  have hwithin := h.within
  have h13 := hlong.2
  refine ⟨by omega, fun k hk hlt => ?_⟩
  have hc : r.value[k - r.start]? = some r.value[k - r.start] :=
    List.getElem?_eq_getElem (by omega)
  refine ⟨_, (value_at h ⟨hk, hlt⟩).symm.trans hc, ?_⟩
  exact (rrn_shape h hlong.1).2.2.2 h13 _ (List.getElem_mem _)

/-- Its last seven digits are hidden. -/
theorem longer_hides {r : Span} (h : Found u.toUnicode text r) (hlong : Longer r) {p : ℕ}
    (hp : p + 1 = r.stop) : Hides u.toUnicode r p := by
  obtain ⟨hstop, hrun⟩ := longer_run h hlong
  have hcover : Covering r p := ⟨by omega, by omega⟩
  obtain ⟨c, hc, hdec⟩ := hrun p hcover.1 hcover.2
  refine ⟨hcover, ⟨c, (value_at h hcover).trans hc,
    u.alnum_of_digit c (u.digit_of_decimal c hdec)⟩, ?_⟩
  have hplace : p - r.start = 12 := by omega
  rw [(rrn_shape h hlong.1).1, hplace]
  decide

/-- What overlaps such a number contains it, and is no resident number. -/
theorem longer_contained {r : Span} (hr : r ∈ qualifying u.toUnicode text minConfidence)
    (hlong : Longer r) :
    ∀ q ∈ qualifying u.toUnicode text minConfidence, q ≠ r → r.start < q.stop →
      q.start < r.stop → q.start ≤ r.start ∧ r.stop ≤ q.stop ∧ q.type ≠ "RRN" := by
  intro q hq hne hleft hright
  obtain ⟨-, hrun⟩ := longer_run (mem_qualifying hr) hlong
  obtain ⟨hle, hge⟩ := (mem_qualifying hq).whole_run hrun hright hleft
  refine ⟨hle, hge, fun htype => ?_⟩
  have := apart_of_type (List.mem_filter.mp hq).1 (List.mem_filter.mp hr).1 hne
    (htype.trans hlong.1.symm)
  omega

/-- What is masked before such a number lies behind it; what is masked later starts no
later. -/
theorem longer_order {r : Span} (hr : r ∈ qualifying u.toUnicode text minConfidence)
    (hlong : Longer r)
    (horder : maskOrder (qualifying u.toUnicode text minConfidence) = pre ++ r :: post) :
    (∀ q ∈ pre, r.stop ≤ q.start) ∧ ∀ q ∈ post, q.start ≤ r.start ∧ q ≠ r := by
  have hsorted := maskOrder_earlier u.toUnicode text minConfidence
  rw [horder] at hsorted
  obtain ⟨-, hpostsort, hcross⟩ := List.pairwise_append.mp hsorted
  have hproper : ∀ q ∈ pre ++ r :: post, q.start < q.stop := fun q hq =>
    (mem_qualifying (mem_maskOrder.mp (horder ▸ hq))).within.1
  have hnotself : ¬ (r.start < r.start ∨ r.start = r.start ∧ Earlier r r) := by
    rintro (hlt | ⟨-, -, hstop⟩)
    · exact lt_irrefl _ hlt
    · have := hproper r (List.mem_append_right _ List.mem_cons_self)
      have := hstop rfl
      omega
  constructor
  · intro q hq
    have hqmem : q ∈ pre ++ r :: post := List.mem_append_left _ hq
    have hqproper := hproper q hqmem
    have hrel := hcross q hq r List.mem_cons_self
    have hne : q ≠ r := fun heq => hnotself (heq ▸ hrel)
    have hstart : r.start ≤ q.start := hrel.elim le_of_lt fun h => h.1.le
    by_contra hlt
    obtain ⟨hle, -, htype⟩ := longer_contained hr hlong q
      (mem_maskOrder.mp (horder ▸ hqmem)) hne (by omega) (by omega)
    rcases hrel with hlt' | ⟨-, hearlier, -⟩
    · omega
    · exact htype (hearlier hlong.1)
  · intro q hq
    have hrel := List.rel_of_pairwise_cons hpostsort hq
    refine ⟨hrel.elim le_of_lt fun h => h.1.le, ?_⟩
    rintro rfl
    exact hnotself hrel

/-- The last place of a later span that ends behind such a number is shown twice, if no
mask hides it. -/
theorem shown_twice {r e : Span} {l₁ l₂ : List Span} {p : ℕ}
    (hr : r ∈ qualifying u.toUnicode text minConfidence) (hlong : Longer r)
    (he : e ∈ qualifying u.toUnicode text minConfidence) (hetype : e.type ≠ "RRN")
    (horder : maskOrder (qualifying u.toUnicode text minConfidence) = pre ++ r :: (l₁ ++ e :: l₂))
    (hp : p + 1 = e.stop) (hbehind : r.stop ≤ p) (hl₁ : ∀ q ∈ l₁, q.stop ≤ p + 1)
    (hl₂ : ∀ q ∈ l₂, q.stop ≤ p)
    (hshown : ∀ q ∈ qualifying u.toUnicode text minConfidence, ¬ Hides u.toUnicode q p) :
    [some p, some p].Sublist (rescanOrigins u.toUnicode text minConfidence) := by
  have hmem : ∀ q ∈ pre ++ r :: (l₁ ++ e :: l₂), q ∈ qualifying u.toUnicode text minConfidence :=
    fun q hq => mem_maskOrder.mp (horder ▸ hq)
  have hgrows : ∀ q ∈ pre ++ r :: (l₁ ++ e :: l₂), (originEdit u.toUnicode q).Grows :=
    fun q hq => originEdit_grows (mem_qualifying (hmem q hq))
  have hefound := mem_qualifying he
  obtain ⟨-, hlast, hlen⟩ := puts_last hefound hetype hp
  have hsorted := maskOrder_earlier u.toUnicode text minConfidence
  rw [horder] at hsorted
  -- Before the number is masked, the place is shown where it was or behind it,
  have hplace : some p ∈ ((pre.map (originEdit u.toUnicode)).foldl Edit.apply
      ((List.range text.length).map some)).drop p := by
    refine mem_drop_sorted (List.pairwise_map.mpr ((List.pairwise_append.mp hsorted).1.imp
      fun h => h.elim le_of_lt fun h => h.1.le)) (fun edit hedit => ?_) ?_
    · obtain ⟨q, hq, rfl⟩ := List.mem_map.mp hedit
      have hqmem : q ∈ pre ++ r :: (l₁ ++ e :: l₂) := List.mem_append_left _ hq
      refine ⟨hgrows q hqmem, ?_⟩
      by_cases hlt : p < q.start
      · exact Or.inl hlt
      · by_cases hle : q.stop ≤ p
        · exact Or.inr (Or.inl hle)
        · have hcover : Covering q p := ⟨not_lt.mp hlt, not_le.mp hle⟩
          exact Or.inr (Or.inr (puts_at_last (List.mem_filter.mp he).1
            (List.mem_filter.mp (hmem q hqmem)).1 hp hcover hetype (hshown q (hmem q hqmem))))
    · have hlt : p < text.length := by
        have := hefound.within.2
        omega
      rw [List.getElem?_map, List.getElem?_range hlt]
      rfl
  -- and its mask pushes it one place on.
  have hpushed : some p ∈ ((originEdit u.toUnicode r).apply ((pre.map
      (originEdit u.toUnicode)).foldl Edit.apply ((List.range text.length).map some))).drop
        (p + 1) := by
    have hrfound := mem_qualifying hr
    have hstop := (longer_run hrfound hlong).1
    refine (drop_suffix_apply hrfound.within.1.le ?_ hbehind).subset hplace
    show r.stop + 1 ≤ r.start + ((maskOrigins u.toUnicode r).map _).length
    rw [List.length_map, (rrn_shape hrfound hlong.1).1, hstop]
    rfl
  rw [rescanOrigins_eq, horder, List.map_append, List.map_cons, List.map_append, List.map_cons,
    List.foldl_append, List.foldl_cons]
  refine twice (fun edit hedit => ?_) hefound.within.1.le hlen hp.symm hlast
    (fun edit hedit => ?_) hpushed
  · obtain ⟨q, hq, rfl⟩ := List.mem_map.mp hedit
    exact ⟨hgrows q (List.mem_append_right _ (List.mem_cons_of_mem _ (List.mem_append_left _ hq))),
      hl₁ q hq⟩
  · obtain ⟨q, hq, rfl⟩ := List.mem_map.mp hedit
    exact ⟨hgrows q (List.mem_append_right _ (List.mem_cons_of_mem _ (List.mem_append_right _
      (List.mem_cons_of_mem _ hq)))), hl₂ q hq⟩

/-- **A mask that is longer than its value may meet no other span.** At the last place
that the spans around it reach, the result shows what a mask hides, or shows it twice. -/
theorem apart_of_right (h : MaskedRight u.toUnicode text minConfidence) :
    ∀ r ∈ qualifying u.toUnicode text minConfidence, r.type = "RRN" → r.value.length = 13 →
      ∀ s ∈ qualifying u.toUnicode text minConfidence, s ≠ r →
        s.stop ≤ r.start ∨ r.stop ≤ s.start := by
  intro r hr htype h13 s hs hne
  by_contra hover
  rw [not_or, not_le, not_le] at hover
  have hlong : Longer r := ⟨htype, h13⟩
  have hrfound := mem_qualifying hr
  obtain ⟨hrstop, -⟩ := longer_run hrfound hlong
  obtain ⟨pre, post, horder⟩ := List.append_of_mem (mem_maskOrder.mpr hr)
  have hmem : ∀ q ∈ pre ++ r :: post, q ∈ qualifying u.toUnicode text minConfidence :=
    fun q hq => mem_maskOrder.mp (horder ▸ hq)
  obtain ⟨hpre, hpost⟩ := longer_order hr hlong horder
  obtain ⟨-, hsreach, -⟩ := longer_contained hr hlong s hs hne hover.1 hover.2
  have hspost : s ∈ post := by
    have hin : s ∈ pre ++ r :: post := horder ▸ mem_maskOrder.mpr hs
    rcases List.mem_append.mp hin with hin | hin
    · have := hpre s hin
      omega
    · exact (List.mem_cons.mp hin).resolve_left hne
  -- The last of those that reach farthest.
  obtain ⟨l₁, e, l₂, rfl, hl₁, hl₂⟩ :=
    Best.exists_last_best Span.stop (List.ne_nil_of_mem hspost)
  have hepost : e ∈ l₁ ++ e :: l₂ := List.mem_append_right _ List.mem_cons_self
  have he := hmem e (List.mem_append_right _ (List.mem_cons_of_mem _ hepost))
  have hefound := mem_qualifying he
  have hreach : r.stop ≤ e.stop := by
    rcases List.mem_append.mp hspost with hin | hin
    · exact hsreach.trans (hl₁ s hin)
    · rcases List.mem_cons.mp hin with rfl | hin
      · exact hsreach
      · exact hsreach.trans (hl₂ s hin).le
  obtain ⟨hestart, hene⟩ := hpost e hepost
  obtain ⟨-, -, hetype⟩ := longer_contained hr hlong e he hene (by omega) (by omega)
  obtain ⟨p, hp⟩ : ∃ p, p + 1 = e.stop := ⟨e.stop - 1, by omega⟩
  have hin : p ≤ text.length := by
    have := hefound.within.2
    omega
  have hafter : ∀ q ∈ l₂, q.stop ≤ p := by
    intro q hq
    have := hl₂ q hq
    omega
  have hshown : some p ∈ rescanOrigins u.toUnicode text minConfidence := by
    have horder' : maskOrder (qualifying u.toUnicode text minConfidence) =
        (pre ++ r :: l₁) ++ e :: l₂ := by
      rw [horder, List.append_assoc, List.cons_append]
    exact shown_of_puts horder' hin (puts_last hefound hetype hp).1 hafter
  by_cases hend : r.stop = e.stop
  · exact h.hidden r hr p (longer_hides hrfound hlong (hp.trans hend.symm)) hshown
  · have htwice := shown_twice hr hlong he hetype horder hp (by omega)
      (fun q hq => (hl₁ q hq).trans hp.ge) hafter fun q hq hhides =>
        h.hidden q hq p hhides hshown
    have hnodup := h.once.sublist (htwice.filterMap id)
    exact (List.nodup_cons.mp hnodup).1 List.mem_cons_self

end Wrong

/-! ## What right masks show

In blocks, one for each place of the response, no mask changes the length: the overhang
of a longer mask goes into the block of its last place.
-/

theorem shown_sublist {B : List (List (Option ℕ))}
    (h : ∀ (i : ℕ) (b : List (Option ℕ)), B[i]? = some b → (b.filterMap id).Sublist [i]) :
    (B.flatten.filterMap id).Sublist (List.range B.length) := by
  induction B using List.reverseRecOn with
  | nil => exact List.Sublist.refl []
  | append_singleton B b ih =>
      have hlast : (b.filterMap id).Sublist [B.length] := by
        refine h B.length b ?_
        rw [List.getElem?_append_right le_rfl, Nat.sub_self]
        rfl
      rw [List.flatten_append, List.flatten_singleton, List.filterMap_append, List.length_append,
        List.length_singleton, List.range_succ]
      refine (ih fun i b' hb' => h i b' ?_).append hlast
      obtain ⟨hlt, -⟩ := List.getElem?_eq_some_iff.mp hb'
      rw [List.getElem?_append_left hlt, hb']

theorem sublist_shown {B : List (List (Option ℕ))} {p : ℕ → Bool}
    (h : ∀ i, i < B.length → p i = true → B[i]? = some [some i]) :
    (((List.range B.length).filter p).map some).Sublist B.flatten := by
  induction B using List.reverseRecOn with
  | nil => exact List.Sublist.refl []
  | append_singleton B b ih =>
      have hfront : (((List.range B.length).filter p).map some).Sublist B.flatten := by
        refine ih fun i hi hp => ?_
        rw [← h i (by rw [List.length_append]; omega) hp, List.getElem?_append_left hi]
      have hlast : ((([B.length] : List ℕ).filter p).map some).Sublist b := by
        by_cases hp : p B.length = true
        · have hb := h B.length (by rw [List.length_append]; exact Nat.lt_succ_self _) hp
          rw [List.getElem?_append_right le_rfl, Nat.sub_self] at hb
          obtain rfl : b = [some B.length] := Option.some.inj hb
          rw [List.filter_cons_of_pos hp]
          exact List.Sublist.refl _
        · rw [List.filter_cons_of_neg hp]
          exact List.nil_sublist b
      rw [List.length_append, List.length_singleton, List.range_succ, List.filter_append,
        List.map_append, List.flatten_append, List.flatten_singleton]
      exact hfront.append hlast

/-- The mask in blocks. -/
def blockEdit (u : Unicode) (s : Span) : Edit (List (Option ℕ)) :=
  ⟨s.start, s.stop, blocks (s.stop - s.start) (originEdit u s).new⟩

/-- `rescanOrigins` in blocks. -/
def rescanBlocks (u : Unicode) (text : Text) (minConfidence : ℚ) : List (List (Option ℕ)) :=
  ((maskOrder (qualifying u text minConfidence)).map (blockEdit u)).foldl Edit.apply
    ((List.range text.length).map fun i => [some i])

theorem length_originEdit {s : Span} (h : Found u.toUnicode text s) :
    s.stop - s.start ≤ (originEdit u.toUnicode s).new.length := by
  have hgrows : s.stop ≤ s.start + (originEdit u.toUnicode s).new.length := (originEdit_grows h).2
  omega

theorem blockEdit_even {s : Span} (h : Found u.toUnicode text s) :
    (blockEdit u.toUnicode s).Even text.length := by
  obtain ⟨hlt, hle⟩ := h.within
  exact ⟨hlt.le, hle, length_blocks (by omega) (length_originEdit h)⟩

/-- What a mask has in its own block of a place. -/
theorem block_shows {s : Span} (h : Found u.toUnicode text s) {i : ℕ} (hi : Covering s i)
    {b : List (Option ℕ)} (hb : (blockEdit u.toUnicode s).new[i - s.start]? = some b) :
    (b.filterMap id).Sublist [i] ∧ (some i ∈ b → some (i - s.start) ∈ maskOrigins u.toUnicode s) := by
  have hvalue := value_length h
  have hplace : ∀ {k : ℕ} {a : Option ℕ}, (originEdit u.toUnicode s).new[k]? = some a →
      a = none ∨ a = some (s.start + k) := by
    intro k a ha
    have ha : ((maskOrigins u.toUnicode s).map _)[k]? = some a := ha
    rw [List.getElem?_map] at ha
    obtain ⟨o, ho, rfl⟩ := Option.map_eq_some_iff.mp ha
    rcases inPlace_mask h k o ho with rfl | rfl
    · exact Or.inl rfl
    · exact Or.inr rfl
  have hone : ∀ {a : Option ℕ}, a = none ∨ a = some (s.start + (i - s.start)) →
      ([a].filterMap id).Sublist [i] := by
    rintro a (rfl | rfl)
    · exact List.nil_sublist _
    · rw [Nat.add_sub_cancel' hi.1]
      exact List.Sublist.refl _
  constructor
  · rcases blocks_getElem? (length_originEdit h) hb with ⟨-, a, rfl, ha⟩ | ⟨hle, rfl⟩
    · exact hone (hplace ha)
    · have hindex : s.stop - s.start - 1 = i - s.start := by
        have := hi.2
        omega
      have hlt : i - s.start < (originEdit u.toUnicode s).new.length := by
        have := length_originEdit h
        have := hi.2
        have := h.within.1
        omega
      have hrest : ((originEdit u.toUnicode s).new.drop (i - s.start + 1)).filterMap id = [] := by
        refine List.filterMap_eq_nil_iff.mpr fun a ha => ?_
        have hstop : i - s.start + 1 = s.value.length := by
          have := h.within.1
          omega
        have ha : a ∈ ((maskOrigins u.toUnicode s).map _).drop (i - s.start + 1) := ha
        rw [hstop, ← List.map_drop] at ha
        obtain ⟨o, ho, rfl⟩ := List.mem_map.mp ha
        rw [overhang h o ho]
        rfl
      rw [hindex, List.drop_eq_getElem_cons hlt, ← List.singleton_append, List.filterMap_append,
        hrest, List.append_nil]
      exact hone (hplace (List.getElem?_eq_getElem hlt))
  · intro hmem
    have hin : some i ∈ (originEdit u.toUnicode s).new := by
      rw [← flatten_blocks (s.stop - s.start) (originEdit u.toUnicode s).new]
      exact List.mem_flatten.mpr ⟨b, List.mem_of_getElem? hb, hmem⟩
    obtain ⟨o, ho, heq⟩ := List.mem_map.mp hin
    obtain ⟨k, rfl, hk⟩ := Option.map_eq_some_iff.mp heq
    rw [← hk, Nat.add_sub_cancel_left]
    exact ho

/-- The block of a place is that of the outermost span over it. -/
theorem rescanBlocks_at {i : ℕ} (hi : i < text.length) :
    (rescanBlocks u.toUnicode text minConfidence)[i]? =
      match outermost (qualifying u.toUnicode text minConfidence) i with
      | some y => (blockEdit u.toUnicode y).new[i - y.start]?
      | none => some [some i] := by
  have htop : topmost ((maskOrder (qualifying u.toUnicode text minConfidence)).map
      (blockEdit u.toUnicode)) i =
      (outermost (qualifying u.toUnicode text minConfidence) i).map (blockEdit u.toUnicode) := by
    rw [topmost, ← List.map_reverse, List.find?_map, maskOrder]
    exact congrArg (Option.map _) (find?_reverse_insertionSort _ _ _)
  have hlen : ((List.range text.length).map fun i => [some i]).length = text.length := by
    rw [List.length_map, List.length_range]
  rw [rescanBlocks, getElem?_foldl hlen (fun e he => ?_), htop]
  · cases outermost (qualifying u.toUnicode text minConfidence) i with
    | some y => rfl
    | none =>
        show ((List.range text.length).map fun i => [some i])[i]? = _
        rw [List.getElem?_map, List.getElem?_range hi]
        rfl
  · obtain ⟨s, hs, rfl⟩ := List.mem_map.mp he
    exact blockEdit_even (mem_qualifying (mem_maskOrder.mp hs))

theorem length_rescanBlocks :
    (rescanBlocks u.toUnicode text minConfidence).length = text.length := by
  refine length_foldl (by rw [List.length_map, List.length_range]) fun e he => ?_
  obtain ⟨s, hs, rfl⟩ := List.mem_map.mp he
  exact blockEdit_even (mem_qualifying (mem_maskOrder.mp hs))

/-- As long as no longer mask meets another span, the blocks hold what is shown. -/
theorem flatten_rescanBlocks (h : MasksAgree u.toUnicode text minConfidence) :
    (rescanBlocks u.toUnicode text minConfidence).flatten =
      rescanOrigins u.toUnicode text minConfidence := by
  have hfound : ∀ s ∈ maskOrder (qualifying u.toUnicode text minConfidence),
      Found u.toUnicode text s := fun s hs => mem_qualifying (mem_maskOrder.mp hs)
  have hlen : ((List.range text.length).map fun i => [some i]).length = text.length := by
    rw [List.length_map, List.length_range]
  have hstart : ((List.range text.length).map fun i => [some i]).flatten =
      (List.range text.length).map some := by
    have h := flatten_singletons ((List.range text.length).map some)
    rwa [List.map_map] at h
  have hflat : ((maskOrder (qualifying u.toUnicode text minConfidence)).map
      (blockEdit u.toUnicode)).map Edit.flat =
      (maskOrder (qualifying u.toUnicode text minConfidence)).map (originEdit u.toUnicode) := by
    rw [List.map_map]
    refine List.map_congr_left fun s _ => ?_
    show (⟨s.start, s.stop, (blocks _ _).flatten⟩ : Edit (Option ℕ)) = originEdit u.toUnicode s
    rw [flatten_blocks]
    rfl
  have heven : ∀ e ∈ (maskOrder (qualifying u.toUnicode text minConfidence)).map
      (blockEdit u.toUnicode), e.Even ((List.range text.length).map fun i => [some i]).length := by
    intro e he
    obtain ⟨s, hs, rfl⟩ := List.mem_map.mp he
    rw [hlen]
    exact blockEdit_even (hfound s hs)
  have hpair : ((maskOrder (qualifying u.toUnicode text minConfidence)).map
      (blockEdit u.toUnicode)).Pairwise fun a b =>
        (∀ x ∈ a.new, x.length = 1) ∨ b.stop ≤ a.start := by
    refine List.pairwise_map.mpr ((maskOrder_earlier u.toUnicode text minConfidence).imp_of_mem ?_)
    intro a b ha hb hab
    have hproper := (hfound a ha).within.1
    by_cases hlong : Longer a
    · have hproper' := (hfound b hb).within.1
      have hne : b ≠ a := by
        rintro rfl
        rcases hab with hlt | ⟨-, -, hstop⟩
        · exact lt_irrefl _ hlt
        · have := hstop rfl
          omega
      have hle : b.start ≤ a.start := hab.elim le_of_lt fun h => h.1.le
      refine Or.inr ((h.apart a (mem_maskOrder.mp ha) hlong.1 hlong.2 b
        (mem_maskOrder.mp hb) hne).resolve_right fun hstop => ?_)
      omega
    · refine Or.inl (blocks_single (by omega) ?_)
      show ((maskOrigins u.toUnicode a).map _).length = _
      rw [List.length_map, length_even (hfound a ha) hlong, value_length (hfound a ha)]
  have hsingle : ∀ e ∈ (maskOrder (qualifying u.toUnicode text minConfidence)).map
      (blockEdit u.toUnicode), ∀ b ∈ ((List.range text.length).map fun i => [some i]).take e.stop,
        b.length = 1 := by
    intro e _ b hb
    obtain ⟨i, -, rfl⟩ := List.mem_map.mp (List.mem_of_mem_take hb)
    rfl
  rw [rescanBlocks, flatten_foldl heven hpair hsingle, hflat, hstart, rescanOrigins_eq]

/-- Where no span starts or ends inside another, masking is one pass. -/
theorem masked_in_one_pass (hpair : (qualifying u.toUnicode text minConfidence).Pairwise
    fun a b => a.stop ≤ b.start ∨ b.stop ≤ a.start) :
    (rescanAndMask u.toUnicode text minConfidence).1 =
      onePass text ((qualifying u.toUnicode text minConfidence).map (maskEdit u.toUnicode)) := by
  refine rightToLeft_eq_onePass ⟨fun e he => ?_, List.pairwise_map.mpr hpair⟩
  obtain ⟨s, hs, rfl⟩ := List.mem_map.mp he
  exact (mem_qualifying hs).within

/-- Masks that agree are right. -/
theorem right_of_agree (h : MasksAgree u.toUnicode text minConfidence) :
    MaskedRight u.toUnicode text minConfidence := by
  have hflat := flatten_rescanBlocks h
  have hblock : ∀ (i : ℕ) (b : List (Option ℕ)),
      (rescanBlocks u.toUnicode text minConfidence)[i]? = some b →
        (b.filterMap id).Sublist [i] ∧ (some i ∈ b → ∀ y ∈ outermost
          (qualifying u.toUnicode text minConfidence) i, ¬ Hides u.toUnicode y i) := by
    intro i b hb
    obtain ⟨hlt, -⟩ := List.getElem?_eq_some_iff.mp hb
    rw [length_rescanBlocks] at hlt
    rw [rescanBlocks_at hlt] at hb
    cases htop : outermost (qualifying u.toUnicode text minConfidence) i with
    | none =>
        rw [htop] at hb
        obtain rfl : [some i] = b := Option.some.inj hb
        exact ⟨List.Sublist.refl _, fun _ y hy => absurd hy (Option.not_mem_none y)⟩
    | some y =>
        rw [htop] at hb
        obtain ⟨hcover, pre, post, horder, -⟩ := outermost_split htop
        have hy : y ∈ qualifying u.toUnicode text minConfidence :=
          mem_maskOrder.mp (horder ▸ List.mem_append_right _ List.mem_cons_self)
        obtain ⟨hsub, hshow⟩ := block_shows (mem_qualifying hy) hcover hb
        refine ⟨hsub, fun hmem y' hy' hhides => ?_⟩
        obtain rfl : y = y' := Option.some.inj hy'
        exact hhides.2.2 (hshow hmem)
  constructor
  · have hlength : (rescanBlocks u.toUnicode text minConfidence).length = text.length :=
      length_rescanBlocks
    rw [← hflat, ← hlength]
    refine sublist_shown fun i hi hp => ?_
    rw [length_rescanBlocks] at hi
    have hfree := of_decide_eq_true hp
    have hnone : outermost (qualifying u.toUnicode text minConfidence) i = none := by
      rw [outermost, List.filter_eq_nil_iff.mpr fun s hs => by
        rw [decide_eq_true_eq]
        exact hfree s hs]
      rfl
    rw [rescanBlocks_at hi, hnone]
  · rw [← hflat]
    exact List.nodup_range.sublist (shown_sublist fun i b hb => (hblock i b hb).1)
  · intro s hs i hhides hmem
    rw [← hflat] at hmem
    obtain ⟨b, hb, hib⟩ := List.mem_flatten.mp hmem
    obtain ⟨j, hj⟩ := List.mem_iff_getElem?.mp hb
    obtain ⟨hsub, hshow⟩ := hblock j b hj
    obtain rfl : i = j := List.mem_singleton.mp
      (hsub.subset (List.mem_filterMap.mpr ⟨some i, hib, rfl⟩))
    obtain ⟨y, hy⟩ : ∃ y, outermost (qualifying u.toUnicode text minConfidence) i = some y := by
      refine Option.ne_none_iff_exists'.mp fun hnone => ?_
      have hnil := List.argmin_eq_none.mp hnone
      have hin : s ∈ ((qualifying u.toUnicode text minConfidence).filter
          fun s => decide (Covering s i)).reverse :=
        List.mem_reverse.mpr (List.mem_filter.mpr ⟨hs, decide_eq_true hhides.1⟩)
      rw [hnil] at hin
      cases hin
    exact hshow hib y hy (h.covered s hs i hhides y hy)
  · exact masked_in_one_pass

/-- Every character of the result is a character of the response, or made by a mask. -/
theorem forall₂_rescan (u : PyUnicode) (text : Text) (minConfidence : ℚ) :
    List.Forall₂ (Comes text) (rescanOrigins u.toUnicode text minConfidence)
      (rescanAndMask u.toUnicode text minConfidence).1 := by
  refine forall₂_rightToLeft ?_ (fun _ => rfl) (fun _ => rfl) fun s hs => ?_
  · have h := forall₂_copied [] text []
    rwa [List.append_nil, List.nil_append, List.length_nil, ← List.range_eq_range'] at h
  · obtain ⟨b, t, htext, hstart, -⟩ := (mem_qualifying hs).split
    show List.Forall₂ (Comes text) ((maskOrigins u.toUnicode s).map _) (mask u.toUnicode s)
    rw [List.forall₂_map_left_iff]
    refine (forall₂_mask u.toUnicode s).imp fun o c h => ?_
    cases o with
    | none => exact h
    | some i =>
        have h : s.value[i]? = some c := h
        obtain ⟨hlt, -⟩ := List.getElem?_eq_some_iff.mp h
        show text[s.start + i]? = some c
        rw [htext, hstart, List.getElem?_append_right (Nat.le_add_right _ _),
          Nat.add_sub_cancel_left, List.getElem?_append_left hlt, h]

/-- **When overlapping masks are right.** Every character of the result is copied from
the place of the response that `rescanOrigins` tells, or is a star or a hyphen of a mask.
By that account what lies outside all spans is shown in order, nothing is shown twice
and nothing hidden is shown, exactly when the masks agree. -/
theorem rescan_masked_iff (u : PyUnicode) (text : Text) (minConfidence : ℚ) :
    List.Forall₂ (Comes text) (rescanOrigins u.toUnicode text minConfidence)
        (rescanAndMask u.toUnicode text minConfidence).1 ∧
      (MaskedRight u.toUnicode text minConfidence ↔
        MasksAgree u.toUnicode text minConfidence) :=
  ⟨forall₂_rescan u text minConfidence,
    fun h => ⟨covered_of_right h, apart_of_right h⟩, right_of_agree⟩

/-- A card number in the domain of an address: the mask of the address, made last, copies
it back in clear. -/
theorem masked_card_shown :
    (rescanAndMask .ascii "a@4111-1111-1111-1111.com".toList (1 / 2)).1 =
        "*@4111-1111-1111-1111.com".toList ∧
      ¬ MaskedRight .ascii "a@4111-1111-1111-1111.com".toList (1 / 2) := by
  refine ⟨by decide +kernel, fun h => ?_⟩
  refine h.hidden ⟨"CARD", "4111-1111-1111-1111".toList, 2, 21, 97 / 100, "regex"⟩
    (by decide +kernel) 2 ⟨by decide, ⟨'4', by decide +kernel, by decide⟩, by decide +kernel⟩ ?_
  decide +kernel

end DlpServer.Guardrail
