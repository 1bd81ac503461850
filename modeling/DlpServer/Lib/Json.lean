import DlpServer.Lib.Unicode
import DlpServer.Lib.Dict

/-!
# JSON values as Python reads them

What `json.loads` returns: objects are insertion-ordered dictionaries, and a float is
known by its `repr`, since it is only ever printed. A string is a sequence of code
points, surrogates among them: `json.loads` makes one of an unpaired `\ud800`, and
`encode("utf-8")` raises for it.

`pyStr` is `str(value)`, with the quoting and escaping that `repr` applies
inside lists and dictionaries.
-/

namespace DlpServer

/-! ## Strings -/

/-- A code point: a character, or the surrogate `0xD800 + n`. -/
inductive PyChar where
  | scalar (c : Char)
  | surrogate (n : Fin 2048)
deriving DecidableEq

abbrev PyStr : Type := List PyChar

namespace PyStr

def ofText (t : Text) : PyStr := t.map .scalar

/-- The string of a literal. -/
def lit (s : String) : PyStr := ofText s.toList

/-- `s.encode("utf-8")` does not raise. -/
def encodable : PyStr → Bool
  | [] => true
  | .scalar _ :: s => encodable s
  | .surrogate _ :: _ => false

/-- The text that a string is, but for its surrogates. -/
def toText (s : PyStr) : Text :=
  s.filterMap fun
    | .scalar c => some c
    | .surrogate _ => none

theorem encodable_ofText (t : Text) : encodable (ofText t) = true := by
  induction t with
  | nil => rfl
  | cons c t ih => exact ih

theorem encodable_lit (s : String) : encodable (lit s) = true := encodable_ofText s.toList

theorem encodable_append (s s' : PyStr) :
    encodable (s ++ s') = (encodable s && encodable s') := by
  induction s with
  | nil => rfl
  | cons c s ih =>
      cases c with
      | scalar c => exact ih
      | surrogate n => rfl

theorem ofText_injective : Function.Injective ofText :=
  List.map_injective_iff.mpr fun _ _ h => PyChar.scalar.inj h

theorem lit_injective : Function.Injective lit :=
  fun _ _ h => String.toList_inj.mp (ofText_injective h)

@[simp] theorem toText_ofText (t : Text) : toText (ofText t) = t := by
  induction t with
  | nil => rfl
  | cons c t ih => exact congrArg (c :: ·) ih

/-- A string that can be encoded is a text. -/
theorem ofText_toText {s : PyStr} (h : encodable s = true) : ofText (toText s) = s := by
  induction s with
  | nil => rfl
  | cons c s ih =>
      cases c with
      | scalar c => exact congrArg (PyChar.scalar c :: ·) (ih h)
      | surrogate n => cases h

end PyStr

/-! ## Values -/

inductive Json where
  | null
  | bool (b : Bool)
  | int (n : ℤ)
  | float (repr : Text)
  | str (s : PyStr)
  | arr (items : List Json)
  | obj (fields : List (PyStr × Json))

namespace Json

/-- `value` when `isinstance(value, dict)`. -/
def asObj : Json → Option (Dict PyStr Json)
  | obj fields => some fields
  | _ => none

/-- `isinstance(value, dict)`. -/
def isObj (value : Json) : Bool := value.asObj.isSome

/-- `isinstance(value, list)`. -/
def isArr : Json → Bool
  | arr _ => true
  | _ => false

/-- What `for x in value` goes through; `none` is `TypeError`. -/
def iterate : Json → Option (List Json)
  | arr items => some items
  | str s => some (s.map fun c => str [c])
  | obj fields => some (fields.map fun field => str field.1)
  | _ => none

/-- `hash(value)` does not raise. -/
def hashable : Json → Bool
  | arr _ | obj _ => false
  | _ => true

@[simp] theorem asObj_obj (fields : Dict PyStr Json) : (obj fields).asObj = some fields := rfl

theorem eq_obj_of_asObj {value : Json} {fields : Dict PyStr Json} (h : value.asObj = some fields) :
    value = obj fields := by
  cases value with
  | obj fields' =>
      cases h
      rfl
  | _ => cases h

/-! ## Printing -/

/-- The `width` lower-case hexadecimal digits of `n`. -/
def hex (width n : ℕ) : Text :=
  let digits := Nat.toDigits 16 n
  List.replicate (width - digits.length) '0' ++ digits

/-- One code point inside the quotes of `repr(s)`; a surrogate is not printable. -/
def reprChar (u : Unicode) (quote : Char) : PyChar → Text
  | .scalar c =>
      if c = quote ∨ c = '\\' then ['\\', c]
      else if c = '\t' then ['\\', 't']
      else if c = '\n' then ['\\', 'n']
      else if c = '\r' then ['\\', 'r']
      else if u.isPrintable c then [c]
      else if c.toNat < 0x100 then '\\' :: 'x' :: hex 2 c.toNat
      else if c.toNat < 0x10000 then '\\' :: 'u' :: hex 4 c.toNat
      else '\\' :: 'U' :: hex 8 c.toNat
  | .surrogate n => '\\' :: 'u' :: hex 4 (0xD800 + n)

/-- `repr(s)` of a string: double quotes only around a text that has single
quotes and no double ones. -/
def reprStr (u : Unicode) (s : PyStr) : Text :=
  let quote := if .scalar '\'' ∈ s ∧ .scalar '"' ∉ s then '"' else '\''
  quote :: s.flatMap (reprChar u quote) ++ [quote]

/-- `", ".join(parts)`. -/
def commas (parts : List Text) : Text := (parts.intersperse [',', ' ']).flatten

mutual

/-- `repr(value)`. -/
def repr (u : Unicode) : Json → Text
  | null => "None".toList
  | bool b => if b then "True".toList else "False".toList
  | int n => (toString n).toList
  | float r => r
  | str s => reprStr u s
  | arr items => '[' :: commas (reprItems u items) ++ [']']
  | obj fields => '\x7b' :: commas (reprFields u fields) ++ ['\x7d']

def reprItems (u : Unicode) : List Json → List Text
  | [] => []
  | item :: items => repr u item :: reprItems u items

def reprFields (u : Unicode) : List (PyStr × Json) → List Text
  | [] => []
  | (key, value) :: fields =>
      (reprStr u key ++ [':', ' '] ++ repr u value) :: reprFields u fields

end

/-- `str(value)`. -/
def pyStr (u : Unicode) : Json → PyStr
  | str s => s
  | value => .ofText (repr u value)

@[simp] theorem pyStr_str (u : Unicode) (s : PyStr) : (str s).pyStr u = s := rfl

example : (obj [(.lit "a", arr [int (-3), null, str (.lit "i's")])]).pyStr .ascii =
    .ofText ('\x7b' :: "'a': [-3, None, \"i's\"]".toList ++ ['\x7d']) := by
  decide +kernel

/-! ## Encoding -/

mutual

/-- `json.dumps(value, ensure_ascii=False).encode("utf-8")` does not raise. -/
def encodable : Json → Bool
  | str s => s.encodable
  | arr items => encodableItems items
  | obj fields => encodableFields fields
  | _ => true

def encodableItems : List Json → Bool
  | [] => true
  | item :: items => encodable item && encodableItems items

def encodableFields : List (PyStr × Json) → Bool
  | [] => true
  | (key, value) :: fields => key.encodable && encodable value && encodableFields fields

end

/-- The value that those bytes are read back as. -/
def encode (value : Json) : Option Json := if value.encodable then some value else none

theorem encode_eq_some {value value' : Json} :
    value.encode = some value' ↔ value.encodable = true ∧ value' = value := by
  rw [encode]
  split
  · rename_i h
    simp [h, eq_comm]
  · rename_i h
    simp [h]

@[simp] theorem encodable_str (s : PyStr) : (str s).encodable = s.encodable := rfl

theorem encodable_arr (items : List Json) : (arr items).encodable = items.all encodable := by
  show encodableItems items = _
  induction items with
  | nil => rfl
  | cons item items ih => rw [encodableItems, List.all_cons, ih]

theorem encodable_obj (fields : List (PyStr × Json)) :
    (obj fields).encodable = fields.all fun field => field.1.encodable && field.2.encodable := by
  show encodableFields fields = _
  induction fields with
  | nil => rfl
  | cons field fields ih => rw [encodableFields, List.all_cons, ih]

/-- What is under a key of an object that can be encoded can be. -/
theorem encodable_get? {key : PyStr} {fields : Dict PyStr Json} {value : Json}
    (h : (obj fields).encodable = true) (hget : Dict.get? key fields = some value) :
    value.encodable = true := by
  obtain ⟨front, back, hfields, -⟩ := Dict.set_split hget
  rw [encodable_obj, hfields, List.all_append, List.all_cons] at h
  simp only [Bool.and_eq_true] at h
  exact h.2.1.2

/-- What an object with another value under a key takes to be encoded. -/
theorem encodable_set {key : PyStr} (hkey : key.encodable = true) (fields : Dict PyStr Json)
    (value : Json) :
    (obj (Dict.set key value fields)).encodable =
      ((obj (Dict.set key null fields)).encodable && value.encodable) := by
  simp only [encodable_obj]
  induction fields with
  | nil =>
      simp only [Dict.set, List.all_cons, List.all_nil, hkey, encodable, Bool.true_and,
        Bool.and_true]
  | cons field fields ih =>
      obtain ⟨key', value'⟩ := field
      simp only [Dict.set]
      split
      · simp only [List.all_cons, encodable, Bool.and_true]
        ac_rfl
      · simp only [List.all_cons, ih]
        ac_rfl

theorem encodable_set_null {key : PyStr} (hkey : key.encodable = true) {fields : Dict PyStr Json}
    (h : (obj fields).encodable = true) : (obj (Dict.set key null fields)).encodable = true := by
  rw [encodable_obj] at h ⊢
  induction fields with
  | nil => simp only [Dict.set, List.all_cons, List.all_nil, hkey, encodable, Bool.and_self]
  | cons field fields ih =>
      rw [List.all_cons, Bool.and_eq_true] at h
      simp only [Dict.set]
      split
      · simp only [List.all_cons, hkey, encodable, h.2, Bool.and_self]
      · rw [List.all_cons, h.1, ih h.2, Bool.and_self]

/-- Likewise where it was put there before another key. -/
theorem encodable_set_set {key key' : PyStr} (hkey' : key'.encodable = true) (hne : key ≠ key')
    (fields : Dict PyStr Json) (value value' : Json) :
    (obj (Dict.set key value (Dict.set key' value' fields))).encodable =
      ((obj (Dict.set key value (Dict.set key' null fields))).encodable && value'.encodable) := by
  have hset := encodable_set hkey'
  simp only [encodable_obj] at hset ⊢
  induction fields with
  | nil =>
      simp only [Dict.set, if_neg hne.symm, List.all_cons, encodable, hkey', Bool.true_and]
      ac_rfl
  | cons field fields ih =>
      obtain ⟨key'', value''⟩ := field
      by_cases hthere : key'' = key'
      · simp only [Dict.set, if_pos hthere, if_neg hne.symm, List.all_cons, encodable,
          Bool.and_true]
        ac_rfl
      · by_cases hother : key'' = key
        · simp only [Dict.set, if_neg hthere, if_pos hother, List.all_cons]
          rw [hset fields value']
          ac_rfl
        · simp only [Dict.set, if_neg hthere, if_neg hother, List.all_cons]
          rw [ih]
          ac_rfl

/-! ## Places in a value -/

/-- A key of an object or an index of an array. -/
inductive Step where
  | field (name : String)
  | item (i : ℕ)
deriving DecidableEq

/-- What stands at a path. -/
def get : List Step → Json → Option Json
  | [], value => some value
  | .field name :: path, obj fields => (Dict.get? (.lit name) fields).bind (get path)
  | .item i :: path, arr items => items[i]?.bind (get path)
  | _ :: _, _ => none

/-- The value with another in the place of what stands at a path. -/
def put : List Step → Json → Json → Json
  | [], _, new => new
  | .field name :: path, obj fields, new =>
      match Dict.get? (.lit name) fields with
      | some value => obj (Dict.set (.lit name) (put path value new) fields)
      | none => obj fields
  | .item i :: path, arr items, new => arr (items.modify i fun value => put path value new)
  | _ :: _, value, _ => value

theorem put_field {name : String} {fields : Dict PyStr Json} {value : Json}
    (h : Dict.get? (.lit name) fields = some value) (path : List Step) (new : Json) :
    (obj fields).put (.field name :: path) new =
      obj (Dict.set (.lit name) (value.put path new) fields) := by
  rw [put, h]

/-- **A value with something put at a path can be encoded** when the rest of it can
and what is put there can. -/
theorem encodable_put {path : List Step} {value old : Json} (h : value.get path = some old)
    (new : Json) :
    (value.put path new).encodable = ((value.put path null).encodable && new.encodable) := by
  induction path generalizing value with
  | nil => rfl
  | cons step path ih =>
      cases step with
      | field name =>
          cases value with
          | obj fields =>
              obtain ⟨inner, hinner, hget⟩ := Option.bind_eq_some_iff.mp h
              rw [put_field hinner, put_field hinner, encodable_set (PyStr.encodable_lit name),
                encodable_set (PyStr.encodable_lit name) fields (inner.put path null), ih hget,
                Bool.and_assoc]
          | _ => cases h
      | item i =>
          cases value with
          | arr items =>
              obtain ⟨inner, hinner, hget⟩ := Option.bind_eq_some_iff.mp h
              obtain ⟨hlt, rfl⟩ := List.getElem?_eq_some_iff.mp hinner
              simp only [put, encodable_arr,
                List.modify_eq_take_cons_drop hlt, List.all_append, List.all_cons, ih hget]
              ac_rfl
          | _ => cases h

end Json

end DlpServer
