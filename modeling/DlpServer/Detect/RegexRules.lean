import DlpServer.Lib.Regex
import DlpServer.Models

/-!
# Regular expressions and checksums (`app/detect/regex_rules.py`)

The patterns, the checksums that set the confidence, and `detect`. The confidences
of the source are floats and rationals here.
-/

namespace DlpServer.Detect.RegexRules

open Regex Pattern

variable (u : Unicode)

/-! ## Patterns -/

/-- `(?<!\d)`. -/
def notAfterDigit : Pattern Char := .look fun b _ => !b.head?.any u.isDecimal

/-- `(?<=\d)`. -/
def afterDigit : Pattern Char := .look fun b _ => b.head?.any u.isDecimal

/-- `(?!\d)`. -/
def notBeforeDigit : Pattern Char := .look fun _ t => !t.head?.any u.isDecimal

/-- `\b`. -/
def wordBoundary : Pattern Char :=
  .look fun b t => b.head?.any u.isWord != t.head?.any u.isWord

/-- `\d`. -/
def digit : Pattern Char := .one u.isDecimal

/-- `[-\s]?`. -/
def separator : Pattern Char := .opt (.one fun c => c == '-' || u.isSpace c)

/-- `_RRN_PATTERN`. -/
def rrnPattern : Pattern Char :=
  .seq (notAfterDigit u) <| .seq (.group 1 ((digit u).times 6)) <| .seq (separator u) <|
    .seq (.group 2 (.seq (.one fun c => decide ('1' ≤ c ∧ c ≤ '4')) ((digit u).times 6)))
      (notBeforeDigit u)

/-- `_CARD_PATTERN`. -/
def cardPattern : Pattern Char :=
  .seq (notAfterDigit u) <|
    .seq (.rep (.seq (digit u) (.opt (.one fun c => c == ' ' || c == '-'))) 13 (some 19)) <|
      .seq (afterDigit u) (notBeforeDigit u)

/-- `_BIZNO_PATTERN`. -/
def biznoPattern : Pattern Char :=
  .seq (notAfterDigit u) <| .seq (.group 1 ((digit u).times 3)) <| .seq (separator u) <|
    .seq (.group 2 ((digit u).times 2)) <| .seq (separator u) <|
      .seq (.group 3 ((digit u).times 5)) (notBeforeDigit u)

/-- `01[016789]|02|0[3-6]\d`. -/
def areaCode : Pattern Char :=
  .alt (.seq (.lit ['0', '1']) (.one fun c => decide (c ∈ ['0', '1', '6', '7', '8', '9'])))
    (.alt (.lit ['0', '2'])
      (.seq (.lit ['0']) (.seq (.one fun c => decide ('3' ≤ c ∧ c ≤ '6')) (digit u))))

/-- `_PHONE_PATTERN`. -/
def phonePattern : Pattern Char :=
  .seq (notAfterDigit u) <| .seq (.group 1 (areaCode u)) <| .seq (separator u) <|
    .seq (.rep (digit u) 3 (some 4)) <| .seq (separator u) <|
      .seq ((digit u).times 4) (notBeforeDigit u)

/-- `_EMAIL_PATTERN`. -/
def emailPattern : Pattern Char :=
  .seq (wordBoundary u) <| .seq (.some1 fun c => u.isWord c || decide (c ∈ ['.', '+', '-'])) <|
    .seq (.lit ['@']) <| .seq (.some1 fun c => u.isWord c || c == '-') <|
      .seq (.lit ['.']) <| .seq (.some1 fun c => u.isWord c || decide (c ∈ ['.', '-']))
        (wordBoundary u)

/-- `_ACCOUNT_PATTERN`. -/
def accountPattern : Pattern Char :=
  .seq (notAfterDigit u) <| .seq (.rep (digit u) 2 (some 6)) <| .seq (.lit ['-']) <|
    .seq (.rep (digit u) 2 (some 6)) <| .seq (.lit ['-']) <|
      .seq (.rep (digit u) 2 (some 6)) (notBeforeDigit u)

/-! ## Checksums -/

/-- `_CHECKSUM_PASS_CONFIDENCE` and `_CHECKSUM_FAIL_CONFIDENCE`. -/
def checksumConfidence (passed : Bool) : ℚ := if passed then 97 / 100 else 4 / 10

/-- `_NO_CHECKSUM_CONFIDENCE`. -/
def noChecksumConfidence : ℚ := 65 / 100

/-- The confidence of `_detect_email`. -/
def emailConfidence : ℚ := 9 / 10

/-- `int(digits[i])`. -/
def digitAt (digits : Text) (i : ℕ) : ℕ := u.digitVal (digits.getD i '0')

/-- `sum(int(d) * w for d, w in zip(digits, weights))`. -/
def weightedSum (digits : Text) (weights : List ℕ) : ℕ :=
  (List.zipWith (fun d w => u.digitVal d * w) digits weights).sum

/-- `_verify_rrn_checksum`. -/
def verifyRrnChecksum (digits : Text) : Bool :=
  if digits.length ≠ 13 ∨ !digits.all u.isDigit then false
  else
    let total := weightedSum u (digits.take 12) [2, 3, 4, 5, 6, 7, 8, 9, 2, 3, 4, 5]
    (11 - total % 11) % 10 == digitAt u digits 12

/-- What the digit `n` at place `i` from the right counts. -/
def luhnDigit (i n : ℕ) : ℕ :=
  if i % 2 = 1 then (if n * 2 > 9 then n * 2 - 9 else n * 2) else n

/-- `_verify_luhn`. -/
def verifyLuhn (digits : Text) : Bool :=
  if !digits.all u.isDigit ∨ ¬ (13 ≤ digits.length ∧ digits.length ≤ 19) then false
  else (digits.reverse.zipIdx.map fun p => luhnDigit p.2 (u.digitVal p.1)).sum % 10 == 0

/-- `_verify_bizno_checksum`. -/
def verifyBiznoChecksum (digits : Text) : Bool :=
  if digits.length ≠ 10 ∨ !digits.all u.isDigit then false
  else
    let total := weightedSum u (digits.take 9) [1, 3, 7, 1, 3, 7, 1, 3, 5] +
      digitAt u digits 8 * 5 / 10
    (10 - total % 10) % 10 == digitAt u digits 9

/-! ## Detection -/

/-- The span of a match. -/
def spanOf (type : String) (confidence : ℚ) (m : Match Char) : Span :=
  ⟨type, m.text, m.start, m.start + m.text.length, confidence, "regex"⟩

/-- A layer: the spans of all matches of a pattern. -/
def detectBy (type : String) (pattern : Pattern Char) (confidence : Match Char → ℚ)
    (text : Text) : List Span :=
  (pattern.finditer text).map fun m => spanOf type (confidence m) m

def detectRrn : Text → List Span :=
  detectBy "RRN" (rrnPattern u) fun m =>
    checksumConfidence (verifyRrnChecksum u (m.group 1 ++ m.group 2))

def detectCard : Text → List Span :=
  detectBy "CARD" (cardPattern u) fun m =>
    checksumConfidence (verifyLuhn u (m.text.filter fun c => c ≠ ' ' ∧ c ≠ '-'))

def detectBizno : Text → List Span :=
  detectBy "BIZNO" (biznoPattern u) fun m =>
    checksumConfidence (verifyBiznoChecksum u (m.group 1 ++ m.group 2 ++ m.group 3))

def detectPhone : Text → List Span :=
  detectBy "PHONE" (phonePattern u) fun _ => noChecksumConfidence

def detectEmail : Text → List Span :=
  detectBy "EMAIL" (emailPattern u) fun _ => emailConfidence

def detectAccount : Text → List Span :=
  detectBy "ACCOUNT" (accountPattern u) fun _ => noChecksumConfidence

/-- `_spans_overlap`. -/
def spansOverlap (a b : Span) : Bool := decide (a.start < b.stop ∧ b.start < a.stop)

/-- `detect`: an account number gives way to a card or phone number. -/
def detect (text : Text) : List Span :=
  let cardSpans := detectCard u text
  let phoneSpans := detectPhone u text
  let higherPriority := cardSpans ++ phoneSpans
  detectRrn u text ++ cardSpans ++ detectBizno u text ++ phoneSpans ++ detectEmail u text ++
    (detectAccount u text).filter fun s => !higherPriority.any (spansOverlap s)

/-! ## What is found -/

/-- The patterns with their types. -/
def patterns : List (String × Pattern Char) :=
  [("RRN", rrnPattern u), ("CARD", cardPattern u), ("BIZNO", biznoPattern u),
   ("PHONE", phonePattern u), ("EMAIL", emailPattern u), ("ACCOUNT", accountPattern u)]

/-- The span is a word of one of the patterns, where it stands. -/
structure Found (text : Text) (s : Span) : Prop where
  split : ∃ b t, text = b ++ (s.value ++ t) ∧ s.start = b.length ∧
    s.stop = b.length + s.value.length ∧ ∃ r, (s.type, r) ∈ patterns u ∧
      r.Accepts b.reverse s.value t
  value_ne : s.value ≠ []

variable {u}

theorem detectBy_found {type : String} {r : Pattern Char} {confidence : Match Char → ℚ}
    {text : Text} {s : Span} (hr : (type, r) ∈ patterns u)
    (h : s ∈ detectBy type r confidence text) : Found u text s := by
  obtain ⟨m, hm, rfl⟩ := List.mem_map.mp h
  obtain ⟨b, t, htext, hstart, hne, hacc⟩ := mem_finditer hm
  refine ⟨⟨b, t, htext, hstart, ?_, r, hr, hacc⟩, hne⟩
  show m.start + m.text.length = b.length + m.text.length
  rw [hstart]

theorem detect_found {text : Text} {s : Span} (h : s ∈ detect u text) : Found u text s := by
  simp only [detect, List.mem_append] at h
  rcases h with ((((h | h) | h) | h) | h) | h
  · exact detectBy_found (by simp [patterns]) h
  · exact detectBy_found (by simp [patterns]) h
  · exact detectBy_found (by simp [patterns]) h
  · exact detectBy_found (by simp [patterns]) h
  · exact detectBy_found (by simp [patterns]) h
  · exact detectBy_found (by simp [patterns]) (List.mem_filter.mp h).1

theorem Found.within {text : Text} {s : Span} (h : Found u text s) :
    s.start < s.stop ∧ s.stop ≤ text.length := by
  obtain ⟨b, t, rfl, hstart, hstop, -⟩ := h.split
  have hpos := List.length_pos_iff.mpr h.value_ne
  simp only [List.length_append]
  omega

end DlpServer.Detect.RegexRules
