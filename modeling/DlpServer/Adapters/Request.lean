import DlpServer.Lib.Json
import DlpServer.Lib.Traversal
import DlpServer.Models

/-!
# Adapters (`app/adapters/`)

A body is the JSON value that `json.loads` returns for its bytes (an empty
object for no bytes), and a rebuilt body the value that its bytes are read back
as. `none` is an exception; a body with a surrogate left in it cannot be encoded.

Both adapters walk over an array of items and treat those that are objects;
an item is a cell of `Traversal`, and its `read` and `write` are the bodies of
the loops of `extract_turns` and `rebuild`. A response is read and written in
one place, the object that holds the assistant's text.
-/

namespace DlpServer.Adapters

open Json Traversal

variable (u : Unicode)

/-- `Turn`, with strings as an adapter finds them. -/
structure PyTurn where
  role : PyStr
  text : PyStr
deriving DecidableEq

def PyTurn.ofTurn (turn : Turn) : PyTurn := ⟨.lit turn.role, .ofText turn.text⟩

/-- `data.get(key, default)`. -/
def getD (data : Dict PyStr Json) (key : String) (default : Json) : Json :=
  (Dict.get? (.lit key) data).getD default

/-- `data[key] = value`. -/
def setKey (data : Dict PyStr Json) (key : String) (value : Json) : Dict PyStr Json :=
  Dict.set (.lit key) value data

theorem getD_setKey (data : Dict PyStr Json) (key : String) (value default : Json) :
    getD (setKey data key value) key default = value := by
  rw [getD, setKey, Dict.get?_set, if_pos rfl]
  rfl

theorem get?_setKey {key key' : String} (h : key ≠ key') (data : Dict PyStr Json) (value : Json) :
    Dict.get? (.lit key') (setKey data key value) = Dict.get? (.lit key') data := by
  rw [setKey, Dict.get?_set, if_neg fun heq => h (PyStr.lit_injective heq)]

theorem getD_setKey_ne {key key' : String} (h : key ≠ key') (data : Dict PyStr Json)
    (value default : Json) :
    getD (setKey data key value) key' default = getD data key' default := by
  rw [getD, getD, get?_setKey h]

theorem encodable_setKey (data : Dict PyStr Json) (key : String) (value : Json) :
    (obj (setKey data key value)).encodable =
      ((obj (setKey data key null)).encodable && value.encodable) :=
  encodable_set (PyStr.encodable_lit key) data value

/-- `for item, turn in zip(value, turns): ...` on the value of a key of the
body; strings and dictionaries can be iterated over but hold no objects. -/
def zipAssign (C : Cell Json PyStr PyStr) (value : Json) (texts : List PyStr) : Option Json :=
  match value with
  | arr items => some (arr (C.writeAll items texts))
  | str _ | obj _ => some value
  | _ => none

/-- The adapter interface (`base.py`). -/
structure Adapter where
  name : String
  matchesBody : Json → Bool
  extractTurns : Json → Option (List PyTurn)
  rebuild : Json → List PyTurn → Option Json
  parseResponse : Json → Option PyStr
  rebuildResponse : Json → PyStr → Option Json

def turnOf (cell : PyStr × PyStr) : PyTurn := ⟨cell.1, cell.2⟩

/-! ## The gateway (`gateway.py`) -/

namespace Gateway

def readMessage (msg : Json) : Option (PyStr × PyStr) := do
  let msg ← msg.asObj
  some ((getD msg "role" (str (.lit "user"))).pyStr u, (getD msg "content" (str [])).pyStr u)

/-- `msg["content"] = turn.text`. -/
def writeMessage (msg : Json) (text : PyStr) : Json :=
  match msg with
  | obj msg => obj (setKey msg "content" (str text))
  | msg => msg

def messageCell : Cell Json PyStr PyStr where
  isCell := Json.isObj
  read := readMessage u
  write := writeMessage
  isCell_write msg t := by cases msg <;> rfl
  read_write msg role t t' hobj hread := by
    cases msg with
    | obj msg =>
        cases hread
        show some (_, _) = some (_, _)
        rw [getD_setKey_ne (by decide), getD_setKey, pyStr_str]
    | _ => cases hobj

/-- `GatewayAdapter.matches`. -/
def matchesBody (body : Json) : Bool :=
  match body.asObj with
  | some data => ((Dict.get? (.lit "messages") data).map isArr).getD false
  | none => false

/-- `GatewayAdapter.extract_turns`. -/
def extractTurns (body : Json) : Option (List PyTurn) := do
  let data ← body.asObj
  let messages ← (getD data "messages" (arr [])).iterate
  let cells ← (messageCell u).readAll messages
  some (cells.map turnOf)

/-- `GatewayAdapter.rebuild`, up to `json.dumps`. -/
def rewrite (body : Json) (turns : List PyTurn) : Option Json := do
  let data ← body.asObj
  let messages ← zipAssign (messageCell u) (getD data "messages" (arr []))
    (turns.map PyTurn.text)
  some (obj (setKey data "messages" messages))

/-- `str(holder.get("content", ""))`. -/
def contentOf (holder : Dict PyStr Json) : PyStr := (getD holder "content" (str [])).pyStr u

/-- `holder["content"] = text`. -/
def setContent (holder : Dict PyStr Json) (text : PyStr) : Json :=
  obj (setKey holder "content" (str text))

/-- `messages[-1]`, if `messages` is a list and that is an object; with it the
messages before it. -/
def lastMessage (data : Dict PyStr Json) : Option (List Json × Dict PyStr Json) :=
  match getD data "messages" null with
  | arr items => (items.getLast?.bind asObj).map fun last => (items.dropLast, last)
  | _ => none

/-- `choices[0]`, likewise, with the choices after it. -/
def firstChoice (data : Dict PyStr Json) : Option (Dict PyStr Json × List Json) :=
  match getD data "choices" null with
  | arr items => (items.head?.bind asObj).map fun choice => (choice, items.tail)
  | _ => none

/-- `GatewayAdapter.parse_response`: the last of `messages`, else the first of
`choices`, else `message`. -/
def parseResponse (body : Json) : Option PyStr := do
  let data ← body.asObj
  match lastMessage data with
  | some (_, last) => some (contentOf u last)
  | none =>
      match firstChoice data with
      | some (choice, _) => do
          let message ← (getD choice "message" (obj [])).asObj
          some (contentOf u message)
      | none =>
          match (getD data "message" null).asObj with
          | some message => some (contentOf u message)
          | none => some []

/-- `GatewayAdapter.rebuild_response`, up to `json.dumps`, in the same place; a body
without one is left as it is. -/
def rewriteResponse (body : Json) (text : PyStr) : Option Json := do
  let data ← body.asObj
  match lastMessage data with
  | some (earlier, last) =>
      some (obj (setKey data "messages" (arr (earlier ++ [setContent last text]))))
  | none =>
      match firstChoice data with
      | some (choice, rest) => do
          let message ← (getD choice "message" (obj [])).asObj
          some (obj (setKey data "choices"
            (arr (obj (setKey choice "message" (setContent message text)) :: rest))))
      | none =>
          match (getD data "message" null).asObj with
          | some message => some (obj (setKey data "message" (setContent message text)))
          | none => some (obj data)

end Gateway

/-- `GatewayAdapter`. -/
def gateway : Adapter where
  name := "gateway"
  matchesBody := Gateway.matchesBody
  extractTurns := Gateway.extractTurns u
  rebuild body turns := (Gateway.rewrite u body turns).bind encode
  parseResponse := Gateway.parseResponse u
  rebuildResponse body text := (Gateway.rewriteResponse body text).bind encode

/-! ## Gemini (`gemini.py`) -/

namespace Gemini

/-- `_ROLE_TO_INTERNAL.get(item.get("role"), item.get("role", "user"))`, as a
string; a list or a dictionary is no key. -/
def roleOf (item : Dict PyStr Json) : Option PyStr :=
  let role := getD item "role" null
  if role.hashable then
    match role with
    | str s => some (if s = .lit "model" then .lit "assistant" else s)
    | _ => some ((getD item "role" (str (.lit "user"))).pyStr u)
  else none

/-- `"".join(str(p.get("text", "")) for p in parts if isinstance(p, dict))`. -/
def joinParts (parts : Json) : Option PyStr := do
  let parts ← parts.iterate
  some (parts.flatMap fun p =>
    match p.asObj with
    | some p => (getD p "text" (str [])).pyStr u
    | none => [])

/-- Likewise for the `parts` of an object. -/
def partsText (holder : Dict PyStr Json) : Option PyStr := joinParts u (getD holder "parts" (arr []))

/-- `[{"text": text}]`. -/
def textParts (text : PyStr) : Json := arr [obj [(.lit "text", str text)]]

theorem joinParts_textParts (text : PyStr) : joinParts u (textParts text) = some text := by
  show some (text ++ []) = some text
  rw [List.append_nil]

theorem partsText_textParts (holder : Dict PyStr Json) (text : PyStr) :
    partsText u (setKey holder "parts" (textParts text)) = some text := by
  rw [partsText, getD_setKey, joinParts_textParts]

def readContent (item : Json) : Option (PyStr × PyStr) := do
  let item ← item.asObj
  let role ← roleOf u item
  let text ← partsText u item
  some (role, text)

/-- `item["parts"] = [{"text": turn.text}]`. -/
def writeContent (item : Json) (text : PyStr) : Json :=
  match item with
  | obj item => obj (setKey item "parts" (textParts text))
  | item => item

theorem roleOf_setParts (item : Dict PyStr Json) (value : Json) :
    roleOf u (setKey item "parts" value) = roleOf u item := by
  have hne : "parts" ≠ "role" := by decide
  rw [roleOf, roleOf, getD_setKey_ne hne, getD_setKey_ne hne]

def contentCell : Cell Json PyStr PyStr where
  isCell := Json.isObj
  read := readContent u
  write := writeContent
  isCell_write item t := by cases item <;> rfl
  read_write item role t t' hobj hread := by
    cases item with
    | obj item =>
        show (roleOf u _).bind _ = _
        rw [roleOf_setParts]
        change (roleOf u item).bind _ = _ at hread
        cases hrole : roleOf u item with
        | none =>
            rw [hrole] at hread
            cases hread
        | some r =>
            rw [hrole] at hread
            change (partsText u item).bind _ = _ at hread
            obtain ⟨text, -, heq⟩ := Option.bind_eq_some_iff.mp hread
            cases heq
            show (partsText u _).bind _ = _
            rw [partsText_textParts]
            rfl
    | _ => cases hobj

/-- `GeminiAdapter.matches`: a request has `contents`, a response
`candidates`. -/
def matchesBody (body : Json) : Bool :=
  match body.asObj with
  | some data =>
      ((Dict.get? (.lit "contents") data).map isArr).getD false ||
        ((Dict.get? (.lit "candidates") data).map isArr).getD false
  | none => false

/-- `isinstance(data.get("system_instruction"), dict)`. -/
def hasSystem (data : Dict PyStr Json) : Bool := (getD data "system_instruction" null).isObj

/-- The turn that `system_instruction` becomes, if it has a text. -/
def systemTurns (data : Dict PyStr Json) : Option (List PyTurn) :=
  match (getD data "system_instruction" null).asObj with
  | some instruction => do
      let text ← partsText u instruction
      some (if text = [] then [] else [⟨.lit "system", text⟩])
  | none => some []

/-- `GeminiAdapter.extract_turns`. -/
def extractTurns (body : Json) : Option (List PyTurn) := do
  let data ← body.asObj
  let system ← systemTurns u data
  let contents ← (getD data "contents" (arr [])).iterate
  let cells ← (contentCell u).readAll contents
  some (system ++ cells.map turnOf)

/-- The first half of `GeminiAdapter.rebuild`: a first turn of role system goes
to a `system_instruction` that is there. -/
def takeSystem (data : Dict PyStr Json) (turns : List PyTurn) : Dict PyStr Json × List PyTurn :=
  match turns with
  | [] => (data, [])
  | turn :: remaining =>
      if hasSystem data ∧ turn.role = .lit "system" then
        (setKey data "system_instruction" (obj [(.lit "parts", textParts turn.text)]), remaining)
      else (data, turns)

/-- `GeminiAdapter.rebuild`, up to `json.dumps`. -/
def rewrite (body : Json) (turns : List PyTurn) : Option Json := do
  let data ← body.asObj
  let (data, remaining) := takeSystem data turns
  let contents ← zipAssign (contentCell u) (getD data "contents" (arr []))
    (remaining.map PyTurn.text)
  some (obj (setKey data "contents" contents))

/-- `candidates[0]`, if `candidates` is a list and that is an object, with the
candidates after it. -/
def firstCandidate (data : Dict PyStr Json) : Option (Dict PyStr Json × List Json) :=
  match getD data "candidates" null with
  | arr items => (items.head?.bind asObj).map fun first => (first, items.tail)
  | _ => none

/-- `GeminiAdapter.parse_response`: the parts of the first candidate, joined. -/
def parseResponse (body : Json) : Option PyStr := do
  let data ← body.asObj
  match firstCandidate data with
  | some (first, _) =>
      match (getD first "content" (obj [])).asObj with
      | some content => partsText u content
      | none => some []
  | none => some []

/-- `GeminiAdapter.rebuild_response`, up to `json.dumps`: one part in the same place. -/
def rewriteResponse (body : Json) (text : PyStr) : Option Json := do
  let data ← body.asObj
  match firstCandidate data with
  | some (first, rest) => do
      let content ← (getD first "content" (obj [])).asObj
      some (obj (setKey data "candidates"
        (arr (obj (setKey first "content" (obj (setKey content "parts" (textParts text)))) ::
          rest))))
  | none => some (obj data)

end Gemini

/-- `GeminiAdapter`. -/
def gemini : Adapter where
  name := "gemini"
  matchesBody := Gemini.matchesBody
  extractTurns := Gemini.extractTurns u
  rebuild body turns := (Gemini.rewrite u body turns).bind encode
  parseResponse := Gemini.parseResponse u
  rebuildResponse body text := (Gemini.rewriteResponse body text).bind encode

/-- `select_adapter`: the first of the registry that matches, else the
gateway. Neither adapter looks at the path or the headers. -/
def selectAdapter (body : Json) : Adapter :=
  (([gemini u, gateway u].find? fun adapter => adapter.matchesBody body)).getD (gateway u)

end DlpServer.Adapters
