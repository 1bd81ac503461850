import Mathlib

/-!
# Python strings over a Unicode database

A Python `str` is a sequence of code points. Which of them are digits, word
characters or white space is answered by the Unicode database of the
interpreter, so the database is a parameter here: a structure with the queries
that the modelled code makes, together with what every database answers on
ASCII. `Unicode.ascii` is the smallest instance; it is used to evaluate.
-/

namespace DlpServer

/-- A Python `str`, as its code points. -/
abbrev Text : Type := List Char

/-- The queries to the Unicode database. -/
structure Unicode where
  /-- Decimal value of a character of category `Nd` (`\d`, `int(c)`). -/
  decimal : Char → Option ℕ
  /-- `c.isdigit()`: decimal digits and others, such as superscripts. -/
  isDigit : Char → Bool
  /-- `c.isalnum()`. -/
  isAlnum : Char → Bool
  /-- `c.isspace()` (`\s`). -/
  isSpace : Char → Bool
  /-- `c.isprintable()`, which decides what `repr` escapes. -/
  isPrintable : Char → Bool
  /-- `c.upper()`, which may have several characters. -/
  upper : Char → Text
  /-- `s.lower()`. -/
  lower : Text → Text
  decimal_ascii : ∀ c : Char, c.val < 128 →
    decimal c = if c.isDigit then some (c.toNat - 48) else none
  digit_ascii : ∀ c : Char, c.val < 128 → isDigit c = c.isDigit
  digit_of_decimal : ∀ c : Char, (decimal c).isSome → isDigit c = true
  alnum_ascii : ∀ c : Char, c.val < 128 → isAlnum c = c.isAlphanum
  space_ascii : ∀ c : Char, c.val < 128 →
    isSpace c = (c == ' ' || (9 ≤ c.toNat && c.toNat ≤ 13) || (28 ≤ c.toNat && c.toNat ≤ 31))
  printable_ascii : ∀ c : Char, c.val < 128 →
    isPrintable c = (32 ≤ c.toNat && c.toNat ≤ 126)
  upper_ascii : ∀ c : Char, c.val < 128 → upper c = [c.toUpper]
  lower_ascii : ∀ s : Text, (∀ c ∈ s, c.val < 128) → lower s = s.map Char.toLower

namespace Unicode

variable (u : Unicode)

/-- `\d`. -/
def isDecimal (c : Char) : Bool := (u.decimal c).isSome

theorem isDecimal_ascii {c : Char} (h : c.val < 128) : u.isDecimal c = c.isDigit := by
  rw [isDecimal, u.decimal_ascii c h]
  cases c.isDigit <;> rfl

theorem isDigit_range {c : Char} (h : '0' ≤ c ∧ c ≤ '9') : c.isDigit = true := by
  rw [Char.isDigit, Bool.and_eq_true]
  exact ⟨decide_eq_true h.1, decide_eq_true h.2⟩

theorem decimal_range {c : Char} (h : '0' ≤ c ∧ c ≤ '9') :
    u.decimal c = some (c.toNat - 48) := by
  have hval : c.val ≤ 57 := h.2
  rw [u.decimal_ascii c (UInt32.lt_of_le_of_lt hval (by decide)), isDigit_range h]
  rfl

theorem isDecimal_range {c : Char} (h : '0' ≤ c ∧ c ≤ '9') : u.isDecimal c = true := by
  rw [isDecimal, u.decimal_range h, Option.isSome_some]

/-- `int(c)`. A character that is no decimal digit, for which Python raises,
counts nothing: the callers have matched `\d` before. -/
def digitVal (c : Char) : ℕ := (u.decimal c).getD 0

theorem digitVal_range {c : Char} (h : '0' ≤ c ∧ c ≤ '9') : u.digitVal c = c.toNat - 48 := by
  rw [digitVal, u.decimal_range h, Option.getD_some]

/-- `int(s)` for decimal digits. -/
def intOf (digits : Text) : ℕ := digits.foldl (fun n c => n * 10 + u.digitVal c) 0

/-- `\w`. -/
def isWord (c : Char) : Bool := u.isAlnum c || c == '_'

/-- `s.rstrip()`. -/
def rstrip (s : Text) : Text := (s.reverse.dropWhile u.isSpace).reverse

/-- `s.strip()`. -/
def strip (s : Text) : Text :=
  ((s.dropWhile u.isSpace).reverse.dropWhile u.isSpace).reverse

/-- `s.upper()`. -/
def upperStr (s : Text) : Text := s.flatMap u.upper

/-- The database that knows ASCII only. -/
def ascii : Unicode where
  decimal c := if c.isDigit then some (c.toNat - 48) else none
  isDigit c := c.isDigit
  isAlnum c := c.isAlphanum
  isSpace c := c == ' ' || (9 ≤ c.toNat && c.toNat ≤ 13) || (28 ≤ c.toNat && c.toNat ≤ 31)
  isPrintable c := 32 ≤ c.toNat && c.toNat ≤ 126
  upper c := [c.toUpper]
  lower s := s.map Char.toLower
  decimal_ascii _ _ := rfl
  digit_ascii _ _ := rfl
  digit_of_decimal c h := by
    by_contra hc
    rw [if_neg hc] at h
    cases h
  alnum_ascii _ _ := rfl
  space_ascii _ _ := rfl
  printable_ascii _ _ := rfl
  upper_ascii _ _ := rfl
  lower_ascii _ _ := rfl

end Unicode

/-- The database of an interpreter, where moreover digits are alphanumeric and nothing
alphanumeric is white space. -/
structure PyUnicode extends Unicode where
  alnum_of_digit : ∀ c : Char, isDigit c = true → isAlnum c = true
  alnum_not_space : ∀ c : Char, isAlnum c = true → isSpace c = false

namespace PyUnicode

variable (u : PyUnicode)

theorem word_of_decimal {c : Char} (h : u.isDecimal c = true) : u.isWord c = true := by
  rw [Unicode.isWord, u.alnum_of_digit c (u.digit_of_decimal c h), Bool.true_or]

theorem decimal_not_space {c : Char} (h : u.isDecimal c = true) : u.isSpace c = false :=
  u.alnum_not_space c (u.alnum_of_digit c (u.digit_of_decimal c h))

/-- The database that knows ASCII only. -/
def ascii : PyUnicode where
  toUnicode := .ascii
  alnum_of_digit c h := by
    show c.isAlphanum = true
    rw [Char.isAlphanum, show c.isDigit = true from h, Bool.or_true]
  alnum_not_space c h := by
    have h : c.isAlphanum = true := h
    have hlow : 48 ≤ c.toNat := by
      rw [Char.isAlphanum, Char.isAlpha, Char.isUpper, Char.isLower, Char.isDigit] at h
      simp only [Bool.or_eq_true, Bool.and_eq_true, decide_eq_true_eq] at h
      rcases h with (⟨h, -⟩ | ⟨h, -⟩) | ⟨h, -⟩
      · exact le_trans (by decide) (show 65 ≤ c.val.toNat from h)
      · exact le_trans (by decide) (show 97 ≤ c.val.toNat from h)
      · exact h
    have hspace : c ≠ ' ' := by
      rintro rfl
      exact absurd hlow (by decide)
    show (c == ' ' || _ || _) = false
    simp only [beq_eq_false_iff_ne.mpr hspace, Bool.false_or, Bool.or_eq_false_iff,
      Bool.and_eq_false_iff, decide_eq_false_iff_not]
    omega

end PyUnicode

/-! ## Replacement -/

/-- `s.replace(pat, "")` for a non-empty `pat`, left to right and without
overlap; `skip` counts the characters left of a match already recognised. -/
def removeAll (pat : Text) (skip : ℕ) : Text → Text
  | [] => []
  | c :: cs =>
      match skip with
      | n + 1 => removeAll pat n cs
      | 0 =>
          if pat.isPrefixOf (c :: cs) then removeAll pat (pat.length - 1) cs
          else c :: removeAll pat 0 cs

end DlpServer
