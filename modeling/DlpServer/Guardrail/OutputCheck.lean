import DlpServer.Detect.RegexRules
import DlpServer.Transform.MaskSpec

/-!
# The output guard (`app/guardrail/output_check.py`)

A response is scanned again and what is found is masked, before the labels in it
are restored. The scan must leave the labels alone: `rescan_keeps_labels`.
-/

namespace DlpServer.Guardrail

open Regex Splice Detect.RegexRules Vault

/-! ## The stage -/

/-- `GuardrailConfig`. -/
structure GuardrailConfig where
  injectionThreshold : ℚ
  outputPiiMinConfidence : ℚ
  outputInjectionCheck : Bool

/-- An entry of `_OUTPUT_RULES`, known by its search; `none` is an exception. -/
structure OutputRule where
  name : String
  search : Text → Option Bool

section Stage

variable (u : Unicode)

/-- The edit that masks a span. -/
def maskEdit (s : Span) : Edit Char := ⟨s.start, s.stop, Transform.mask u s⟩

/-- `_rescan_and_mask`. -/
def rescanAndMask (text : Text) (minConfidence : ℚ) : Text × List Span :=
  let spans := (detect u text).filter fun s => minConfidence ≤ s.confidence
  (rightToLeft text (spans.map (maskEdit u)), spans)

/-- `_injection_compliance`: the first rule that is found. -/
def injectionCompliance (rules : List OutputRule) (text : Text) : Option String :=
  (rules.find? fun rule => rule.search text == some true).map OutputRule.name

/-- `output_guard`. `cfg` is `none` when the configuration cannot be loaded, which
blocks. -/
def outputGuard (cfg : Option GuardrailConfig) (rules : List OutputRule)
    (ctx : AnalysisContext) : AnalysisContext :=
  if ctx.direction ≠ "output" then ctx
  else
    match ctx.turns with
    | [] => ctx
    | turn :: rest =>
        match cfg with
        | none =>
            { ctx with
              blocked := true
              blockReason := some [("type", some "output_guard"), ("note", some "stage_error")] }
        | some cfg =>
            let (text, spans) := rescanAndMask u turn.text cfg.outputPiiMinConfidence
            let ctx :=
              { ctx with newTurnSpans := spans, spanActions := spans.map fun s => (s, .mask) }
            match (if cfg.outputInjectionCheck then injectionCompliance rules text else none) with
            | some hit =>
                { ctx with
                  blocked := true
                  blockReason := some
                    [("type", some "output_guard"), ("note", some "injection_compliance"),
                     ("pattern", some hit)] }
            | none => { ctx with turns := { turn with text := text } :: rest }

/-- Where the guard does not block, the first turn was scanned and masked. -/
theorem outputGuard_open {u : Unicode} {cfg : Option GuardrailConfig} {rules : List OutputRule}
    {ctx : AnalysisContext} {turn : Turn} {rest : List Turn} (hdirection : ctx.direction = "output")
    (hturns : ctx.turns = turn :: rest) (hopen : (outputGuard u cfg rules ctx).blocked = false) :
    ∃ c, cfg = some c ∧ ∃ spans actions, outputGuard u cfg rules ctx =
      { ctx with
        newTurnSpans := spans
        spanActions := actions
        turns := { turn with
          text := (rescanAndMask u turn.text c.outputPiiMinConfidence).1 } :: rest } := by
  unfold outputGuard at hopen ⊢
  have hno : ¬ ctx.direction ≠ "output" := not_not.mpr hdirection
  rw [if_neg hno, hturns] at hopen ⊢
  dsimp only at hopen ⊢
  cases cfg with
  | none => cases hopen
  | some c =>
      refine ⟨c, rfl, ?_⟩
      dsimp only at hopen ⊢
      split at hopen
      · cases hopen
      · exact ⟨_, _, rfl⟩

end Stage

/-! ## Characters -/

variable {u : Unicode}

/-- A digit, a space or a hyphen. -/
def numericChar (u : Unicode) (c : Char) : Bool := u.isDecimal c || u.isSpace c || c == '-'

theorem labelTypeChar_range {c : Char} (h : labelTypeChar c = true) :
    65 ≤ c.toNat ∧ c.toNat ≤ 95 := by
  rw [labelTypeChar, Bool.or_eq_true, beq_iff_eq] at h
  rcases h with h | rfl
  · rw [Char.isUpper, decide_eq_true_eq] at h
    have hlow : 65 ≤ c.val.toNat := h.1
    have hhigh : c.val.toNat ≤ 90 := h.2
    show 65 ≤ c.val.toNat ∧ c.val.toNat ≤ 95
    omega
  · decide

/-- Between the digits and the small letters, nothing is numeric. -/
theorem not_numericChar {c : Char} (hlow : 58 ≤ c.toNat) (hhigh : c.toNat ≤ 95) :
    numericChar u c = false := by
  have hascii : c.val < 128 := by
    show c.val.toNat < 128
    have : c.val.toNat ≤ 95 := hhigh
    omega
  have hdigit : c.isDigit = false := by
    rw [Char.isDigit, Bool.and_eq_false_iff]
    refine Or.inr (decide_eq_false fun hle => ?_)
    have hle : c.val.toNat ≤ 57 := hle
    have : 58 ≤ c.val.toNat := hlow
    omega
  have hne : ∀ d : Char, d.toNat < 58 → (c == d) = false := by
    intro d hd
    refine beq_eq_false_iff_ne.mpr fun heq => ?_
    rw [heq] at hlow
    omega
  rw [numericChar, not_decimal_ascii u hascii hdigit, u.space_ascii c hascii,
    hne ' ' (by decide), hne '-' (by decide)]
  simp only [Bool.false_or, Bool.or_false, Bool.or_eq_false_iff, Bool.and_eq_false_iff,
    decide_eq_false_iff_not]
  omega

/-! ## Words of the six patterns -/

/-- A word of digits, spaces and hyphens that no number of nine digits without
leading zero contains. -/
structure NumericWord (u : Unicode) (b w : Text) : Prop where
  chars : ∀ c ∈ w, numericChar u c = true
  outside : 10 ≤ w.length ∨ '-' ∈ w ∨ w.head? = some '0' ∧ b.head?.any u.isDecimal = false

/-- A word around an `@`. -/
structure MailWord (w : Text) : Prop where
  at_mem : '@' ∈ w
  chars : ∀ c ∈ w, c ∉ ['<', ':', '>']

theorem numeric_decimal {c : Char} (h : u.isDecimal c = true) : numericChar u c = true := by
  rw [numericChar, h, Bool.true_or, Bool.true_or]

theorem numeric_separator {c : Char} (h : (c == '-' || u.isSpace c) = true) :
    numericChar u c = true := by
  rw [numericChar, Bool.or_assoc, Bool.or_comm (u.isSpace c), h, Bool.or_true]

theorem chars_of_classes {r : Pattern Char} {b w t : Text}
    (hclass : ∀ p ∈ r.classes, ∀ c, p c = true → numericChar u c = true)
    (h : r.Accepts b w t) : ∀ c ∈ w, numericChar u c = true := by
  intro c hc
  obtain ⟨p, hp, hpc⟩ := Pattern.accepts_classes h c hc
  exact hclass p hp c hpc

theorem rrn_word {b w t : Text} (h : (rrnPattern u).Accepts b w t) : NumericWord u b w where
  chars := by
    refine chars_of_classes ?_ h
    simp only [rrnPattern, notAfterDigit, digit, separator, notBeforeDigit, Pattern.times,
      Pattern.opt, Pattern.classes, List.nil_append, List.append_nil, List.mem_append,
      List.mem_singleton]
    rintro p (rfl | rfl | rfl | rfl) c hc
    · exact numeric_decimal hc
    · exact numeric_separator hc
    · have hrange := of_decide_eq_true hc
      exact numeric_decimal
        (u.isDecimal_range ⟨le_trans (by decide) hrange.1, le_trans hrange.2 (by decide)⟩)
    · exact numeric_decimal hc
  outside := by
    have hlen : 13 ≤ w.length := Pattern.leastLength_le h
    exact Or.inl (by omega)

theorem card_word {b w t : Text} (h : (cardPattern u).Accepts b w t) : NumericWord u b w where
  chars := by
    refine chars_of_classes ?_ h
    simp only [cardPattern, notAfterDigit, afterDigit, digit, notBeforeDigit, Pattern.opt,
      Pattern.classes, List.nil_append, List.append_nil, List.mem_append, List.mem_singleton]
    rintro p (rfl | rfl) c hc
    · exact numeric_decimal hc
    · refine numeric_separator ?_
      rw [Bool.or_eq_true, beq_iff_eq, beq_iff_eq] at hc
      rcases hc with rfl | rfl
      · rw [u.space_ascii ' ' (by decide)]
        rfl
      · rfl
  outside := by
    have hlen : 13 ≤ w.length := Pattern.leastLength_le h
    exact Or.inl (by omega)

theorem bizno_word {b w t : Text} (h : (biznoPattern u).Accepts b w t) : NumericWord u b w where
  chars := by
    refine chars_of_classes ?_ h
    simp only [biznoPattern, notAfterDigit, digit, separator, notBeforeDigit, Pattern.times,
      Pattern.opt, Pattern.classes, List.nil_append, List.append_nil, List.mem_append,
      List.mem_singleton]
    rintro p (rfl | rfl | rfl | rfl | rfl) c hc
    · exact numeric_decimal hc
    · exact numeric_separator hc
    · exact numeric_decimal hc
    · exact numeric_separator hc
    · exact numeric_decimal hc
  outside := Or.inl (Pattern.leastLength_le h)

theorem areaCode_zero {b w t : Text} (h : (areaCode u).Accepts b w t) :
    ∃ rest, w = '0' :: rest := by
  rcases h with ⟨x, y, rfl, hx, -⟩ | h | ⟨x, y, rfl, hx, -⟩
  · exact ⟨'1' :: y, by rw [Pattern.accepts_lit.mp hx]; rfl⟩
  · exact ⟨['2'], Pattern.accepts_lit.mp h⟩
  · exact ⟨y, by rw [Pattern.accepts_lit.mp hx]; rfl⟩

theorem areaCode_classes : ∀ p ∈ (areaCode u).classes, ∀ c, p c = true →
    numericChar u c = true := by
  have hrange : ∀ c : Char, '0' ≤ c ∧ c ≤ '9' → numericChar u c = true :=
    fun c hc => numeric_decimal (u.isDecimal_range hc)
  simp only [areaCode, Pattern.lit, List.foldr, digit, Pattern.classes, List.append_nil,
    List.mem_append, List.mem_singleton]
  rintro p (((rfl | rfl) | rfl) | (rfl | rfl) | rfl | rfl | rfl) c hc
  · exact hrange c (by rw [of_decide_eq_true hc]; decide)
  · exact hrange c (by rw [of_decide_eq_true hc]; decide)
  · have hmem : c ∈ ['0', '1', '6', '7', '8', '9'] := of_decide_eq_true hc
    have hall : ['0', '1', '6', '7', '8', '9'].all fun d => decide ('0' ≤ d ∧ d ≤ '9') := by
      decide
    exact hrange c (of_decide_eq_true (List.all_eq_true.mp hall c hmem))
  · exact hrange c (by rw [of_decide_eq_true hc]; decide)
  · exact hrange c (by rw [of_decide_eq_true hc]; decide)
  · exact hrange c (by rw [of_decide_eq_true hc]; decide)
  · have hc := of_decide_eq_true hc
    exact hrange c ⟨le_trans (by decide) hc.1, le_trans hc.2 (by decide)⟩
  · exact numeric_decimal hc

theorem phone_word {b w t : Text} (h : (phonePattern u).Accepts b w t) : NumericWord u b w where
  chars := by
    refine chars_of_classes ?_ h
    simp only [phonePattern, notAfterDigit, digit, separator, notBeforeDigit, Pattern.times,
      Pattern.opt, Pattern.classes, List.nil_append, List.append_nil, List.mem_append,
      List.mem_singleton]
    rintro p (hp | rfl | rfl | rfl | rfl) c hc
    · exact areaCode_classes p hp c hc
    · exact numeric_separator hc
    · exact numeric_decimal hc
    · exact numeric_separator hc
    · exact numeric_decimal hc
  outside := by
    obtain ⟨_, v, rfl, ⟨rfl, hbefore⟩, area, rest, rfl, harea, -⟩ := h
    obtain ⟨tail, rfl⟩ := areaCode_zero harea
    exact Or.inr (Or.inr ⟨rfl, by simpa using hbefore⟩)

theorem account_word {b w t : Text} (h : (accountPattern u).Accepts b w t) :
    NumericWord u b w where
  chars := by
    refine chars_of_classes ?_ h
    simp only [accountPattern, notAfterDigit, digit, notBeforeDigit, Pattern.lit, List.foldr,
      Pattern.classes, List.nil_append, List.append_nil, List.mem_append, List.mem_singleton]
    rintro p (rfl | rfl | rfl | rfl | rfl) c hc
    · exact numeric_decimal hc
    · exact numeric_separator (by rw [of_decide_eq_true hc]; rfl)
    · exact numeric_decimal hc
    · exact numeric_separator (by rw [of_decide_eq_true hc]; rfl)
    · exact numeric_decimal hc
  outside := by
    obtain ⟨_, v, rfl, -, x, v, rfl, -, y, v, rfl, hy, -⟩ := h
    rw [Pattern.accepts_lit.mp hy]
    refine Or.inr (Or.inl ?_)
    exact List.mem_append_right _ (List.mem_append_right _ List.mem_cons_self)

theorem email_word {b w t : Text} (h : (emailPattern u).Accepts b w t) : MailWord w where
  at_mem := by
    obtain ⟨_, v, rfl, -, x, v, rfl, -, y, v, rfl, hy, -⟩ := h
    rw [Pattern.accepts_lit.mp hy]
    exact List.mem_append_right _ (List.mem_append_right _ List.mem_cons_self)
  chars := by
    have hclass : ∀ c ∈ ['<', ':', '>'],
        (u.isWord c || decide (c ∈ ['.', '+', '-', '@'])) ≠ true := by
      have hascii : ['<', ':', '>'].all fun d => decide (d.val < 128) && !d.isAlphanum &&
          d != '_' && !decide (d ∈ ['.', '+', '-', '@']) := by decide
      intro c hc
      have hno := List.all_eq_true.mp hascii c hc
      simp only [Bool.and_eq_true, decide_eq_true_eq, Bool.not_eq_true', bne_iff_ne] at hno
      obtain ⟨⟨⟨hval, halnum⟩, hunder⟩, hother⟩ := hno
      rw [Unicode.isWord, u.alnum_ascii c hval, halnum, hother, beq_eq_false_iff_ne.mpr hunder]
      exact Bool.false_ne_true
    have hpattern : ∀ p ∈ (emailPattern u).classes, ∀ c, p c = true →
        (u.isWord c || decide (c ∈ ['.', '+', '-', '@'])) = true := by
      simp only [emailPattern, wordBoundary, Pattern.some1, Pattern.lit, List.foldr,
        Pattern.classes, List.nil_append, List.append_nil, List.mem_append, List.mem_singleton]
      rintro p (rfl | rfl | rfl | rfl | rfl) c hc
      all_goals
        simp only [Bool.or_eq_true, decide_eq_true_eq, beq_iff_eq, List.mem_cons] at hc ⊢
        tauto
    intro c hc hdelim
    obtain ⟨p, hp, hpc⟩ := Pattern.accepts_classes h c hc
    exact hclass c hdelim (hpattern p hp c hpc)

/-- A word that is no address is a number. -/
theorem number_word {type : String} {r : Pattern Char} (hr : (type, r) ∈ patterns u)
    (hne : type ≠ "EMAIL") {b w t : Text} (h : r.Accepts b w t) : NumericWord u b w := by
  simp only [patterns, List.mem_cons, Prod.mk.injEq, List.not_mem_nil, or_false] at hr
  rcases hr with ⟨-, rfl⟩ | ⟨-, rfl⟩ | ⟨-, rfl⟩ | ⟨-, rfl⟩ | ⟨htype, -⟩ | ⟨-, rfl⟩
  · exact rrn_word h
  · exact card_word h
  · exact bizno_word h
  · exact phone_word h
  · exact absurd htype hne
  · exact account_word h

/-- **What is found** is a number or an address. -/
theorem word_of_pattern {type : String} {r : Pattern Char} (hr : (type, r) ∈ patterns u)
    {b w t : Text} (h : r.Accepts b w t) : NumericWord u b w ∨ MailWord w := by
  by_cases htype : type = "EMAIL"
  · rw [htype] at hr
    have hmail : r = emailPattern u := by simpa [patterns] using hr
    exact Or.inr (email_word (hmail ▸ h))
  · exact Or.inl (number_word hr htype h)

/-! ## Words beside a label -/

/-- The labels the vault hands out, up to the number 999999999. -/
def RescanLabel (label : Text) : Prop :=
  ∃ etype n, LabelType etype ∧ 0 < n ∧ n < 10 ^ 9 ∧ label = tokenLabel etype n

theorem toDigits_head {n : ℕ} (hn : 0 < n) : (Nat.toDigits 10 n).head? ≠ some '0' := by
  induction n using Nat.strong_induction_on with
  | _ n ih =>
      rw [Nat.toDigits_eq_if (by decide)]
      split
      · rename_i hlt
        interval_cases n <;> decide
      · rename_i hge
        have hpos : 0 < n / 10 := by omega
        obtain ⟨c, rest, hc⟩ :=
          List.exists_cons_of_ne_nil (Nat.toDigits_ne_nil (n := n / 10) (b := 10))
        have hhead := ih (n / 10) (by omega) hpos
        rw [hc] at hhead ⊢
        exact hhead

section Beside

variable {b w t : Text}

theorem delimiter_not_mem (hw : NumericWord u b w ∨ MailWord w) {c : Char}
    (hc : c ∈ ['<', ':', '>']) : c ∉ w := by
  intro hmem
  rcases hw with hw | hw
  · have hrange : ['<', ':', '>'].all fun d => decide (58 ≤ d.toNat ∧ d.toNat ≤ 95) := by decide
    obtain ⟨hlow, hhigh⟩ := of_decide_eq_true (List.all_eq_true.mp hrange c hc)
    have hnumeric := hw.chars c hmem
    rw [not_numericChar hlow hhigh] at hnumeric
    cases hnumeric
  · exact hw.chars c hmem hc

/-- No word lies in the type of a label. -/
theorem not_in_letters (hw : NumericWord u b w ∨ MailWord w) (hne : w ≠ [])
    (hall : ∀ c ∈ w, labelTypeChar c = true) : False := by
  rcases hw with hw | hw
  · obtain ⟨c, rest, rfl⟩ := List.exists_cons_of_ne_nil hne
    obtain ⟨hlow, hhigh⟩ := labelTypeChar_range (hall c List.mem_cons_self)
    have hnumeric := hw.chars c List.mem_cons_self
    rw [not_numericChar (by omega) hhigh] at hnumeric
    cases hnumeric
  · exact absurd (hall '@' hw.at_mem) (by decide)

/-- No word lies in the number of a label. -/
theorem not_in_digits {x y digits : Text} (hw : NumericWord u b w ∨ MailWord w)
    (hdigits : digits = x ++ (w ++ y)) (hall : ∀ c ∈ digits, u.isDecimal c = true)
    (hlen : digits.length ≤ 9) (hhead : digits.head? ≠ some '0')
    (hbefore : ∃ rest, b = x.reverse ++ ':' :: rest) : False := by
  have hmem : ∀ c ∈ w, c ∈ digits := by
    intro c hc
    rw [hdigits]
    exact List.mem_append_right _ (List.mem_append_left _ hc)
  have hno : ∀ c : Char, c.val < 128 → c.isDigit = false → c ∉ w := by
    intro c hascii hdigit hc
    have hdec := hall c (hmem c hc)
    rw [not_decimal_ascii u hascii hdigit] at hdec
    cases hdec
  rcases hw with hw | hw
  · rcases hw.outside with hlong | hhyphen | ⟨hzero, hfirst⟩
    · have hsum := congrArg List.length hdigits
      simp only [List.length_append] at hsum
      omega
    · exact hno '-' (by decide) (by decide) hhyphen
    · obtain ⟨rest, rfl⟩ := hbefore
      rcases List.eq_nil_or_concat x with rfl | ⟨x', c, rfl⟩
      · rw [hdigits, List.nil_append, List.head?_append, hzero] at hhead
        exact hhead rfl
      · -- The character before the word would be a digit.
        have hc : u.isDecimal c = true := by
          refine hall c ?_
          rw [hdigits, List.concat_eq_append]
          exact List.mem_append_left _ (List.mem_append_right _ List.mem_cons_self)
        rw [List.concat_eq_append, List.reverse_append] at hfirst
        have hfirst : u.isDecimal c = false := hfirst
        rw [hc] at hfirst
        cases hfirst
  · exact hno '@' (by decide) (by decide) hw.at_mem

/-- **A word and a label do not overlap.** -/
theorem clear_of_label {label a z : Text} (hw : NumericWord u b.reverse w ∨ MailWord w)
    (hne : w ≠ []) (hlabel : RescanLabel label) (h : b ++ (w ++ t) = a ++ (label ++ z)) :
    b.length + w.length ≤ a.length ∨ a.length + label.length ≤ b.length := by
  obtain ⟨etype, n, htype, hpos, hlt, rfl⟩ := hlabel
  obtain ⟨-, hchars⟩ := htype.toList_chars
  let digits := Nat.toDigits 10 n
  let letters := etype.toList
  have htext : tokenLabel etype n ++ z =
      '<' :: (['P', 'I', 'I'] ++ ':' :: (letters ++ ':' :: (digits ++ '>' :: z))) := by
    simp [tokenLabel, letters, digits]
  have hlength : (tokenLabel etype n).length = 7 + letters.length + digits.length := by
    simp [tokenLabel, letters, digits]
    omega
  rw [htext] at h
  rw [hlength]
  have hsum := congrArg List.length h
  simp only [List.length_append, List.length_cons, List.length_nil] at hsum
  rcases beside h (delimiter_not_mem hw (by decide)) with hleft | h₁
  · exact Or.inl hleft
  have hcolon : b ++ (w ++ t) = (a ++ ['<', 'P', 'I', 'I']) ++
      ':' :: (letters ++ ':' :: (digits ++ '>' :: z)) := by
    rw [h]
    simp
  rcases beside hcolon (delimiter_not_mem hw (by decide)) with hin | h₂
  · -- between `<` and `:`
    obtain ⟨x, y, hx, -⟩ := inside (a := a ++ ['<']) (s := ['P', 'I', 'I'])
      (b := ':' :: (letters ++ ':' :: (digits ++ '>' :: z))) (by rw [h]; simp)
      (by simp only [List.length_append, List.length_cons, List.length_nil] at h₁ ⊢; omega)
      (by simp only [List.length_append, List.length_cons, List.length_nil] at hin ⊢; omega)
    refine (not_in_letters hw hne fun c hc => ?_).elim
    have hmem : c ∈ ['P', 'I', 'I'] := by
      rw [hx]
      exact List.mem_append_right _ (List.mem_append_left _ hc)
    have hupper : ['P', 'I', 'I'].all labelTypeChar := by decide
    exact List.all_eq_true.mp hupper c hmem
  have hcolon' : b ++ (w ++ t) = (a ++ ['<', 'P', 'I', 'I', ':'] ++ letters) ++
      ':' :: (digits ++ '>' :: z) := by
    rw [h]
    simp
  rcases beside hcolon' (delimiter_not_mem hw (by decide)) with hin | h₃
  · -- in the type
    obtain ⟨x, y, hx, -⟩ := inside (a := a ++ ['<', 'P', 'I', 'I', ':']) (s := letters)
      (b := ':' :: (digits ++ '>' :: z)) (by rw [h]; simp)
      (by simp only [List.length_append, List.length_cons, List.length_nil] at h₂ ⊢; omega)
      (by simp only [List.length_append, List.length_cons, List.length_nil] at hin ⊢; omega)
    refine (not_in_letters hw hne fun c hc => ?_).elim
    have hmem : c ∈ letters := by
      rw [hx]
      exact List.mem_append_right _ (List.mem_append_left _ hc)
    rw [labelTypeChar, Bool.or_eq_true, beq_iff_eq]
    exact hchars c hmem
  have hend : b ++ (w ++ t) = (a ++ ['<', 'P', 'I', 'I', ':'] ++ letters ++ [':'] ++ digits) ++
      '>' :: z := by
    rw [h]
    simp
  rcases beside hend (delimiter_not_mem hw (by decide)) with hin | hright
  · -- in the number
    obtain ⟨x, y, hx, hb⟩ := inside (a := a ++ ['<', 'P', 'I', 'I', ':'] ++ letters ++ [':'])
      (s := digits) (b := '>' :: z) (by rw [h]; simp)
      (by simp only [List.length_append, List.length_cons, List.length_nil] at h₃ ⊢; omega)
      (by simp only [List.length_append, List.length_cons, List.length_nil] at hin ⊢; omega)
    refine (not_in_digits hw hx (toDigits_decimal u n) ?_ (toDigits_head hpos) ?_).elim
    · exact (Nat.length_toDigits_le_iff (by decide) (by decide)).mpr hlt
    · exact ⟨(a ++ ['<', 'P', 'I', 'I', ':'] ++ letters).reverse, by rw [hb]; simp⟩
  · refine Or.inr ?_
    simp only [List.length_append, List.length_cons, List.length_nil] at hright
    omega

end Beside

/-! ## What the masks put in -/

/-- As many digits as rounds, where every round reads one. -/
theorem rep_digits {r : Pattern Char} {least : ℕ} {most : Option ℕ} {b w t : Text}
    (hr : ∀ b w t, r.Accepts b w t → ∃ c ∈ w, u.isDecimal c = true)
    (h : (Pattern.rep r least most).Accepts b w t) :
    least ≤ (w.filter u.isDigit).length := by
  obtain ⟨n, hn, -, hrounds⟩ := h
  obtain ⟨v, hsub, hlen, hall⟩ := Pattern.rounds_sublist hr hrounds
  have hself : v.filter u.isDigit = v :=
    List.filter_eq_self.mpr fun c hc => u.digit_of_decimal c (hall c hc)
  have hfilter := (hsub.filter u.isDigit).length_le
  rw [hself, hlen] at hfilter
  exact hn.trans hfilter

theorem digit_mem (b w t : Text) (h : (digit u).Accepts b w t) :
    ∃ c ∈ w, u.isDecimal c = true := by
  obtain ⟨c, rfl, hc⟩ := h
  exact ⟨c, List.mem_singleton.mpr rfl, hc⟩

theorem card_digits {b w t : Text} (h : (cardPattern u).Accepts b w t) :
    4 < (w.filter u.isDigit).length := by
  obtain ⟨_, _, rfl, -, x, y, rfl, hx, -⟩ := h
  have hlen : 13 ≤ (x.filter u.isDigit).length := rep_digits (by
    rintro b _ t ⟨w, _, rfl, hdigit, -⟩
    obtain ⟨c, hc, hdec⟩ := digit_mem b w _ hdigit
    exact ⟨c, List.mem_append_left _ hc, hdec⟩) hx
  simp only [List.filter_append, List.length_append]
  omega

theorem phone_digits {b w t : Text} (h : (phonePattern u).Accepts b w t) :
    4 < (w.filter u.isDigit).length := by
  obtain ⟨_, _, rfl, -, _, _, rfl, -, _, _, rfl, -, x, _, rfl, hx, _, _, rfl, -, y, _, rfl, hy, -⟩ := h
  have hlen : 3 ≤ (x.filter u.isDigit).length := rep_digits digit_mem hx
  have hlen' : 4 ≤ (y.filter u.isDigit).length := rep_digits digit_mem hy
  simp only [List.filter_append, List.length_append]
  omega

theorem account_digits {b w t : Text} (h : (accountPattern u).Accepts b w t) :
    4 < (w.filter u.isDigit).length := by
  obtain ⟨_, _, rfl, -, x, _, rfl, hx, _, _, rfl, -, y, _, rfl, hy, _, _, rfl, -, z, _, rfl, hz, -⟩ := h
  have hx : 2 ≤ (x.filter u.isDigit).length := rep_digits digit_mem hx
  have hy : 2 ≤ (y.filter u.isDigit).length := rep_digits digit_mem hy
  have hz : 2 ≤ (z.filter u.isDigit).length := rep_digits digit_mem hz
  simp only [List.filter_append, List.length_append]
  omega

/-- A mask shows a star, a hyphen or an `@`, which no label has. -/
theorem mask_mark {text : Text} {s : Span} (h : Found u text s) :
    ∃ c ∈ Transform.mask u s, c ∈ ['*', '-', '@'] := by
  obtain ⟨b, t, -, -, -, r, hr, hacc⟩ := h.split
  have hdigits : 4 < (s.value.filter u.isDigit).length →
      '*' ∈ Transform.maskKeepLastDigits u s.value Transform.maskKeepLastN :=
    fun hlt => Transform.star_mem_maskKeepLastDigits hlt
  simp only [patterns, List.mem_cons, Prod.mk.injEq, List.not_mem_nil, or_false] at hr
  unfold Transform.mask
  rcases hr with ⟨htype, rfl⟩ | ⟨htype, rfl⟩ | ⟨htype, rfl⟩ | ⟨htype, rfl⟩ | ⟨htype, rfl⟩ |
    ⟨htype, rfl⟩
  · -- RRN
    have hlen : 13 ≤ s.value.length := Pattern.leastLength_le hacc
    rw [htype, if_pos rfl, Transform.maskRrn]
    split
    · exact ⟨'*', Transform.star_mem_maskMiddle (by omega), List.mem_cons_self⟩
    · exact ⟨'-', List.mem_append_right _ List.mem_cons_self, by decide⟩
  · rw [htype, if_neg (by decide), if_pos (by decide)]
    exact ⟨'*', hdigits (card_digits hacc), List.mem_cons_self⟩
  · -- BIZNO
    have hlen : 10 ≤ s.value.length := Pattern.leastLength_le hacc
    rw [htype, if_neg (by decide), if_neg (by decide), if_neg (by decide), if_neg (by decide)]
    exact ⟨'*', Transform.star_mem_maskMiddle (by omega), List.mem_cons_self⟩
  · rw [htype, if_neg (by decide), if_pos (by decide)]
    exact ⟨'*', hdigits (phone_digits hacc), List.mem_cons_self⟩
  · rw [htype, if_neg (by decide), if_neg (by decide), if_pos rfl, Transform.maskEmail]
    rcases Transform.partition_at s.value with ⟨domain, hdrop, -⟩ | ⟨-, hno⟩
    · rw [hdrop]
      exact ⟨'@', List.mem_append_right _ List.mem_cons_self, by decide⟩
    · exact absurd (email_word hacc).at_mem hno
  · rw [htype, if_neg (by decide), if_pos (by decide)]
    exact ⟨'*', hdigits (account_digits hacc), List.mem_cons_self⟩

theorem times_length {n : ℕ} {b w t : Text} (h : ((digit u).times n).Accepts b w t) :
    w.length = n := by
  obtain ⟨m, hle, hge, hrounds⟩ := h
  rw [(Pattern.rounds_one.mp hrounds).1]
  exact le_antisymm hge hle

theorem separator_length {b w t : Text} (h : (separator u).Accepts b w t) : w.length ≤ 1 := by
  obtain ⟨m, -, hle, hrounds⟩ := h
  rw [(Pattern.rounds_one.mp hrounds).1]
  exact hle

/-- A resident number has at most one character between its digits. -/
theorem rrn_length {b w t : Text} (h : (rrnPattern u).Accepts b w t) : w.length ≤ 14 := by
  obtain ⟨_, _, rfl, ⟨rfl, -⟩, x, _, rfl, hx, y, _, rfl, hy, z, _, rfl,
    ⟨c, z', rfl, ⟨c', rfl, -⟩, hz⟩, ⟨rfl, -⟩⟩ := h
  have hx : x.length = 6 := times_length hx
  have hy : y.length ≤ 1 := separator_length hy
  have hz : z'.length = 6 := times_length hz
  simp only [List.length_append, List.length_cons, List.length_nil]
  omega

/-! ## The rescan -/

variable {text : Text}

/-- Made from the right, the masks never reach past what they replace. -/
theorem maskEdit_grows {s : Span} (h : Found u text s) : (maskEdit u s).Grows := by
  obtain ⟨b, t, -, hstart, hstop, r, hr, hacc⟩ := h.split
  have hmask : s.value.length ≤ (Transform.mask u s).length := by
    refine Transform.length_le_mask s fun htype => ?_
    simp only [patterns, List.mem_cons, Prod.mk.injEq, List.not_mem_nil, or_false] at hr
    rw [htype] at hr
    rcases hr with ⟨-, rfl⟩ | ⟨h, -⟩ | ⟨h, -⟩ | ⟨h, -⟩ | ⟨h, -⟩ | ⟨h, -⟩
    · exact rrn_length hacc
    all_goals exact absurd h (by decide)
  refine ⟨h.within.1, ?_⟩
  show s.stop ≤ s.start + (Transform.mask u s).length
  omega

/-- A text in which no label begins or ends, and that is part of none. -/
def Inert (new : Text) : Prop :=
  '<' ∉ new ∧ '>' ∉ new ∧ ∃ c ∈ new, c ∈ ['*', '-', '@']

theorem mask_inert {s : Span} (h : Found u text s) : Inert (Transform.mask u s) := by
  obtain ⟨b, t, -, -, -, r, hr, hacc⟩ := h.split
  have hno : ∀ c ∈ ['<', ':', '>'], c ∉ s.value := fun c hc =>
    delimiter_not_mem (word_of_pattern hr hacc) hc
  have hout : ∀ c ∈ ['<', ':', '>'], c ≠ '*' → c ≠ '-' → c ∉ Transform.mask u s := by
    intro c hc hstar hhyphen hmem
    rcases Transform.mem_mask hmem with h | h | h
    · exact hno c hc h
    · exact hstar h
    · exact hhyphen h
  exact ⟨hout '<' (by decide) (by decide) (by decide),
    hout '>' (by decide) (by decide) (by decide), mask_mark h⟩

theorem mark_not_mem {c : Char} (hc : c ∈ ['*', '-', '@']) {b w t : Text}
    (h : (tokenLabelRe u).Accepts b w t) : c ∉ w := by
  obtain ⟨etype, digits, rfl, ⟨-, htype⟩, ⟨-, hdigits⟩⟩ := tokenLabelRe_accepts.mp h
  have hmark : ['*', '-', '@'].all fun d => decide (d.val < 128) && !d.isDigit &&
      !labelTypeChar d && !decide (d ∈ ['<', 'P', 'I', 'I', ':', '>']) := by decide
  have hno := List.all_eq_true.mp hmark c hc
  simp only [Bool.and_eq_true, decide_eq_true_eq, Bool.not_eq_true', decide_eq_false_iff_not,
    List.mem_cons, List.not_mem_nil, or_false, not_or] at hno
  obtain ⟨⟨⟨hascii, hdigit⟩, hletter⟩, hother⟩ := hno
  intro hmem
  simp only [List.mem_append, List.mem_cons, List.not_mem_nil, or_false] at hmem
  rcases hmem with hmem | hmem | hmem | hmem | hmem
  · tauto
  · rw [htype c hmem] at hletter
    cases hletter
  · tauto
  · have hdec := hdigits c hmem
    rw [not_decimal_ascii u hascii hdigit] at hdec
    cases hdec
  · tauto

/-- Masking in a text without labels makes no label. -/
theorem misses_apply {e : Edit Char} (hnew : Inert e.new) (h : Misses (tokenLabelRe u) text) :
    Misses (tokenLabelRe u) (e.apply text) := by
  obtain ⟨hopen, hclose, c, hc, hmark⟩ := hnew
  rw [Edit.apply]
  exact (tokenLabelRe_delimited u).misses_around
    (h.part (List.take_prefix e.start text).isInfix) (h.part (List.drop_suffix e.stop text).isInfix)
    hopen hclose hc (mark_not_mem hmark)

/-- **Nothing found overlaps a label.** -/
theorem detect_clear {a label z : Text} (hlabel : RescanLabel label) {s : Span}
    (hs : s ∈ detect u (a ++ (label ++ z))) :
    s.stop ≤ a.length ∨ a.length + label.length ≤ s.start := by
  have hfound := detect_found hs
  obtain ⟨b, t, htext, hstart, hstop, r, hr, hacc⟩ := hfound.split
  have hword := word_of_pattern hr hacc
  rw [hstart, hstop]
  exact clear_of_label hword hfound.value_ne hlabel htext.symm

/-- **The rescan keeps the labels.** Nothing that is found overlaps a label, and
the masked text has the labels of the response in their order. Where these are
all the labels of the response, `detokenize_text` finds them and no other, and
what it restores stands in the result as it is. -/
theorem rescan_keeps_labels (env : Vault.Env) (minConfidence : ℚ) :
    (∀ a label z, RescanLabel label → ∀ s ∈ detect env.unicode (a ++ (label ++ z)),
      s.stop ≤ a.length ∨ a.length + label.length ≤ s.start) ∧
    ∀ (tiles : List (Text × Text)) (last : Text), (∀ p ∈ tiles, RescanLabel p.2) →
      ∃ (tiles' : List (Text × Text)) (last' : Text),
        (rescanAndMask env.unicode (tiles.flatMap (fun p => p.1 ++ p.2) ++ last)
          minConfidence).1 = tiles'.flatMap (fun p => p.1 ++ p.2) ++ last' ∧
        tiles'.map Prod.snd = tiles.map Prod.snd ∧
        ((∀ p ∈ tiles, Misses (tokenLabelRe env.unicode) p.1) →
          Misses (tokenLabelRe env.unicode) last →
          ((tokenLabelRe env.unicode).finditer
              (tiles'.flatMap (fun p => p.1 ++ p.2) ++ last')).map Match.text =
            tiles.map Prod.snd ∧
          ∀ fetch v sid role purpose (answer : Text → Option Text),
            (∀ p ∈ tiles, Answers env v sid role purpose p.2 (answer p.2)) →
            (detokenizeText env fetch v sid (tiles'.flatMap (fun p => p.1 ++ p.2) ++ last') role
              purpose).1 = tiles'.flatMap (fun p => p.1 ++ (answer p.2).getD p.2) ++ last') := by
  refine ⟨fun a label z hlabel s hs => detect_clear hlabel hs, ?_⟩
  intro tiles last hlabels
  let text := tiles.flatMap (fun p => p.1 ++ p.2) ++ last
  let spans := (detect env.unicode text).filter fun s => minConfidence ≤ s.confidence
  have hspans : ∀ e ∈ spans.map (maskEdit env.unicode),
      ∃ s ∈ detect env.unicode text, e = maskEdit env.unicode s := by
    intro e he
    obtain ⟨s, hs, rfl⟩ := List.mem_map.mp he
    exact ⟨s, (List.mem_filter.mp hs).1, rfl⟩
  have hclear : ∀ e ∈ spans.map (maskEdit env.unicode), ∀ pre p post, tiles = pre ++ p :: post →
      e.stop ≤ (pre.flatMap (fun p => p.1 ++ p.2) ++ p.1).length ∨
        (pre.flatMap (fun p => p.1 ++ p.2) ++ p.1).length + p.2.length ≤ e.start := by
    intro e he pre p post htiles
    obtain ⟨s, hs, rfl⟩ := hspans e he
    have hp : RescanLabel p.2 := hlabels p (by
      rw [htiles]
      exact List.mem_append_right _ List.mem_cons_self)
    have htext : text = (pre.flatMap (fun p => p.1 ++ p.2) ++ p.1) ++
        (p.2 ++ (post.flatMap (fun p => p.1 ++ p.2) ++ last)) := by
      simp only [text, htiles, List.flatMap_append, List.flatMap_cons, List.append_assoc]
    rw [htext] at hs
    exact detect_clear hp hs
  have hmasks : ∀ e ∈ spans.map (maskEdit env.unicode), e.Grows ∧ Inert e.new := by
    intro e he
    obtain ⟨s, hs, rfl⟩ := hspans e he
    exact ⟨maskEdit_grows (detect_found hs), mask_inert (detect_found hs)⟩
  have hedit : ∀ (text : Text) (e : Edit Char), Inert e.new →
      Misses (tokenLabelRe env.unicode) text → Misses (tokenLabelRe env.unicode) (e.apply text) :=
    fun text e hnew h => misses_apply hnew h
  obtain ⟨tiles', last', heq, hparts, hgaps, hlast⟩ := rightToLeft_tiles hedit hmasks hclear
  have hlabels' : ∀ p ∈ tiles', ∃ q ∈ tiles, p.2 = q.2 := by
    intro p hp
    have hmem : p.2 ∈ tiles.map Prod.snd := by
      rw [← hparts]
      exact List.mem_map_of_mem hp
    obtain ⟨q, hq, hpq⟩ := List.mem_map.mp hmem
    exact ⟨q, hq, hpq.symm⟩
  have hmasked : (rescanAndMask env.unicode text minConfidence).1 =
      rightToLeft text (spans.map (maskEdit env.unicode)) := by
    rw [rescanAndMask]
  refine ⟨tiles', last', hmasked.trans heq, hparts, fun hclean hcleanLast => ⟨?_, ?_⟩⟩
  · rw [← hparts]
    refine (tokenLabelRe_delimited env.unicode).finditer_tiles (hgaps hclean) (hlast hcleanLast) ?_
    intro p hp
    obtain ⟨q, hq, hpq⟩ := hlabels' p hp
    obtain ⟨etype, n, htype, -, -, hlabel⟩ := hlabels q hq
    exact ⟨[], [], by rw [hpq, hlabel]; exact tokenLabel_accepts env.unicode htype n [] []⟩
  · intro fetch v sid role purpose answer hanswer
    refine detokenizeText_tiles ?_ (hgaps hclean) (hlast hcleanLast) ?_
    · intro p hp
      obtain ⟨q, hq, hpq⟩ := hlabels' p hp
      rw [hpq]
      exact hanswer q hq
    · intro p hp
      obtain ⟨q, hq, hpq⟩ := hlabels' p hp
      obtain ⟨etype, n, htype, -, -, hlabel⟩ := hlabels q hq
      exact ⟨etype, n, htype, hpq.trans hlabel⟩

/-- A response with an address before a label and a phone number behind it. -/
def sampleTiles : List (Text × Text) := [("a@b.co".toList, tokenLabel "RRN" 1)]

/-- The vault that gave out the label. -/
def sampleVault : Db :=
  runFrom .sample 0 [.tokenize .zero "s" "RRN" "900101-1234567".toList
    (some ⟨some ["*"], some ["*"]⟩)]

theorem sampleVault_answers : Answers .sample sampleVault "s" (some "agent_l1") none
    (tokenLabel "RRN" 1) (some "900101-1234567".toList) := by
  have hdenotes : Denotes .sample sampleVault "s" (some "agent_l1") none (tokenLabel "RRN" 1)
      "900101-1234567".toList := ⟨by decide +kernel, by decide +kernel⟩
  have hlog : Loggable (some "agent_l1") none :=
    ⟨⟨"agent_l1".toList, by decide +kernel⟩, ⟨none, rfl⟩⟩
  exact hdenotes.answers (by decide +kernel) hlog

theorem rescan_keeps_labels_sample :
    RescanLabel (tokenLabel "RRN" 1) ∧
    (rescanAndMask .ascii (sampleTiles.flatMap (fun p => p.1 ++ p.2) ++ " 02-123-4567".toList)
      (1 / 2)).1 = "*@b.co<PII:RRN:1> **-***-4567".toList ∧
    ∃ (tiles' : List (Text × Text)) (last' : Text),
      (rescanAndMask .ascii (sampleTiles.flatMap (fun p => p.1 ++ p.2) ++ " 02-123-4567".toList)
        (1 / 2)).1 = tiles'.flatMap (fun p => p.1 ++ p.2) ++ last' ∧
      tiles'.map Prod.snd = [tokenLabel "RRN" 1] ∧
      ((tokenLabelRe .ascii).finditer (tiles'.flatMap (fun p => p.1 ++ p.2) ++ last')).map
        Match.text = [tokenLabel "RRN" 1] ∧
      ∀ fetch, (detokenizeText .sample fetch sampleVault "s"
        (tiles'.flatMap (fun p => p.1 ++ p.2) ++ last') (some "agent_l1") none).1 =
          tiles'.flatMap (fun p => p.1 ++ "900101-1234567".toList) ++ last' := by
  have hlabel : RescanLabel (tokenLabel "RRN" 1) :=
    ⟨"RRN", 1, Or.inl (by decide), by decide, by decide, rfl⟩
  have honly : ∀ p ∈ sampleTiles, p = ("a@b.co".toList, tokenLabel "RRN" 1) :=
    fun p hp => List.mem_singleton.mp hp
  refine ⟨hlabel, by decide +kernel, ?_⟩
  obtain ⟨tiles', last', heq, hparts, hrest⟩ :=
    (rescan_keeps_labels .sample (1 / 2)).2 sampleTiles " 02-123-4567".toList
      fun p hp => honly p hp ▸ hlabel
  have hmisses : ∀ p ∈ sampleTiles, Misses (tokenLabelRe .ascii) p.1 := fun p hp =>
    honly p hp ▸ (tokenLabelRe_delimited .ascii).misses_of_finditer (by decide +kernel)
  obtain ⟨hfound, hback⟩ :=
    hrest hmisses ((tokenLabelRe_delimited .ascii).misses_of_finditer (by decide +kernel))
  refine ⟨tiles', last', heq, hparts, hfound, fun fetch => ?_⟩
  exact hback fetch sampleVault "s" (some "agent_l1") none
    (fun _ => some "900101-1234567".toList) fun p hp => honly p hp ▸ sampleVault_answers

end DlpServer.Guardrail
