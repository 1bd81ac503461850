import DlpServer.Lib.Unicode

/-!
# Session identifiers (`app/ids.py`)

The wire `session_id` is free text; the storage layer keys its rows by a UUID.
`coerceSessionUuid` reads the text as a UUID the way `uuid.UUID(hex)` does and
falls back to `uuid5` in the URL namespace. `uuid5` is SHA-1 of the standard
library and stays a parameter; the reading is spelled out, because different
spellings of one UUID meet there.
-/

namespace DlpServer.Ids

/-- A UUID, as its 128-bit integer. -/
abbrev Uuid : Type := BitVec 128

variable (u : Unicode)

/-- Value of a base-16 digit for `int(s, 16)`; decimal digits of every script
count. -/
def hexDigit (c : Char) : Option ℕ :=
  match u.decimal c with
  | some d => some d
  | none =>
      if 'a' ≤ c ∧ c ≤ 'f' then some (c.toNat - 'a'.toNat + 10)
      else if 'A' ≤ c ∧ c ≤ 'F' then some (c.toNat - 'A'.toNat + 10)
      else none

/-- The digits of `int(s, 16)`: at least one, single underscores between
digits only. `after` says that the last character read was a digit. -/
def hexDigits (after : Bool) (acc : ℕ) : Text → Option ℕ
  | [] => if after then some acc else none
  | c :: cs =>
      if c = '_' then (if after then hexDigits false acc cs else none)
      else match hexDigit u c with
        | some d => hexDigits true (acc * 16 + d) cs
        | none => none

/-- What `int` strips: in ASCII fewer characters than `str.strip`, which takes the
separators `\x1c` to `\x1f` too. -/
def intSpace (c : Char) : Bool :=
  if c.toNat < 128 then c == ' ' || (9 ≤ c.toNat && c.toNat ≤ 13) else u.isSpace c

/-- `int(s, 16)`: white space around, an optional sign, an optional `0x` that
one underscore may follow, digits. `none` is `ValueError`. -/
def int16 (s : Text) : Option ℤ :=
  let body : Text → Option ℕ
    | '0' :: 'x' :: '_' :: cs | '0' :: 'X' :: '_' :: cs => hexDigits u false 0 cs
    | '0' :: 'x' :: cs | '0' :: 'X' :: cs => hexDigits u false 0 cs
    | cs => hexDigits u false 0 cs
  match ((s.dropWhile (intSpace u)).reverse.dropWhile (intSpace u)).reverse with
  | '-' :: cs => (body cs).map fun n => -(n : ℤ)
  | '+' :: cs => (body cs).map fun n => (n : ℤ)
  | cs => (body cs).map fun n => (n : ℤ)

/-- `s.strip("{}")`. -/
def stripBraces (s : Text) : Text :=
  let brace := fun c : Char => c == '\x7b' || c == '\x7d'
  ((s.dropWhile brace).reverse.dropWhile brace).reverse

/-- `uuid.UUID(s)`: the prefixes `urn:` and `uuid:` are removed, then braces
around and all hyphens; 32 characters must remain and read as an integer below
`2^128`. `none` is `ValueError`. -/
def parseUuid (s : Text) : Option Uuid :=
  let hex := removeAll ['u', 'u', 'i', 'd', ':'] 0 (removeAll ['u', 'r', 'n', ':'] 0 s)
  let hex := (stripBraces hex).filter (· ≠ '-')
  if hex.length ≠ 32 then none
  else match int16 u hex with
    | some n => if 0 ≤ n ∧ n < 2 ^ 128 then some (BitVec.ofNat 128 n.toNat) else none
    | none => none

/-- `coerce_session_uuid`. -/
def coerceSessionUuid (uuid5 : String → Uuid) (sessionId : String) : Uuid :=
  match parseUuid u sessionId.toList with
  | some id => id
  | none => uuid5 sessionId

/-- A UUID reads the same without its hyphens and in upper case. -/
example : parseUuid .ascii "11111111-1111-1111-1111-1111111111ab".toList =
    parseUuid .ascii "111111111111111111111111111111AB".toList := by
  decide +kernel

end DlpServer.Ids
