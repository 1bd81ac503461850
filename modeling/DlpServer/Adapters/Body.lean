import DlpServer.Adapters.Request

/-!
# Bodies whose turns are text

The stages work on texts. Of a body they see what its adapter reads, the turns of a
request or the text of a response; in a `Body` these are text, and whatever else it
holds may be no UTF-8. Every value that can be encoded is such a body.
-/

namespace DlpServer.Adapters

open Json Traversal

/-! ## What is read of a value that can be encoded -/

section Encodable

variable {u : Unicode}

theorem encodable_getD {data : Dict PyStr Json} {key : String} {default : Json}
    (h : (obj data).encodable = true) (hdefault : default.encodable = true) :
    (getD data key default).encodable = true := by
  rw [getD]
  cases hget : Dict.get? (.lit key) data with
  | none => exact hdefault
  | some value => exact encodable_get? h hget

theorem encodable_pyStr {value : Json} (h : value.encodable = true) :
    (value.pyStr u).encodable = true := by
  cases value with
  | str s => exact h
  | _ => exact PyStr.encodable_ofText _

theorem encodable_iterate {value : Json} {items : List Json} (h : value.encodable = true)
    (hitems : value.iterate = some items) : ∀ item ∈ items, item.encodable = true := by
  cases value with
  | arr items' =>
      cases hitems
      rw [encodable_arr, List.all_eq_true] at h
      exact h
  | str s =>
      cases hitems
      intro item hitem
      obtain ⟨c, hc, rfl⟩ := List.mem_map.mp hitem
      obtain ⟨front, back, rfl⟩ := List.append_of_mem hc
      have hs : PyStr.encodable (front ++ c :: back) = true := h
      rw [PyStr.encodable_append, Bool.and_eq_true] at hs
      cases c with
      | scalar c => rfl
      | surrogate n => exact hs.2
  | obj fields =>
      cases hitems
      rw [encodable_obj, List.all_eq_true] at h
      intro item hitem
      obtain ⟨field, hfield, rfl⟩ := List.mem_map.mp hitem
      exact (Bool.and_eq_true_iff.mp (h field hfield)).1
  | _ => cases hitems

theorem encodable_joinParts {parts : Json} {text : PyStr} (h : parts.encodable = true)
    (htext : Gemini.joinParts u parts = some text) : text.encodable = true := by
  obtain ⟨items, hitems, heq⟩ := Option.bind_eq_some_iff.mp htext
  obtain rfl := Option.some.inj heq
  have hall := encodable_iterate h hitems
  clear hitems heq htext
  induction items with
  | nil => rfl
  | cons item items ih =>
      obtain ⟨hitem, hitems⟩ := List.forall_mem_cons.mp hall
      rw [List.flatMap_cons, PyStr.encodable_append, ih hitems, Bool.and_true]
      cases item with
      | obj fields => exact encodable_pyStr (encodable_getD hitem rfl)
      | _ => rfl

/-- What a reader makes of items that can be encoded can be. -/
theorem encodable_readAll {C : Cell Json PyStr PyStr} (hC : ∀ item r t, item.encodable = true →
      C.read item = some (r, t) → r.encodable = true ∧ t.encodable = true)
    {items : List Json} (hall : ∀ item ∈ items, item.encodable = true)
    {cells : List (PyStr × PyStr)} (hread : C.readAll items = some cells) :
    ∀ cell ∈ cells, cell.1.encodable = true ∧ cell.2.encodable = true := by
  induction items generalizing cells with
  | nil =>
      cases hread
      exact fun _ hcell => absurd hcell List.not_mem_nil
  | cons item items ih =>
      obtain ⟨hitem, hitems⟩ := List.forall_mem_cons.mp hall
      cases hcell : C.isCell item with
      | true =>
          obtain ⟨⟨r, t⟩, rest, hfirst, hrest, rfl⟩ := (Cell.readAll_cell hcell).mp hread
          exact List.forall_mem_cons.mpr ⟨hC item r t hitem hfirst, ih hitems hrest⟩
      | false => exact ih hitems (Cell.readAll_skip items hcell ▸ hread)

/-- Role and text of each turn are text. -/
def Legible (ts : List PyTurn) : Prop :=
  ∀ turn ∈ ts, turn.role.encodable = true ∧ turn.text.encodable = true

theorem legible_map_turnOf {cells : List (PyStr × PyStr)}
    (h : ∀ cell ∈ cells, cell.1.encodable = true ∧ cell.2.encodable = true) :
    Legible (cells.map turnOf) := by
  intro turn hturn
  obtain ⟨cell, hcell, rfl⟩ := List.mem_map.mp hturn
  exact h cell hcell

namespace Gateway

theorem legible_extractTurns {body : Json} {ts : List PyTurn} (h : body.encodable = true)
    (hread : extractTurns u body = some ts) : Legible ts := by
  obtain ⟨data, hdata, hread⟩ := Option.bind_eq_some_iff.mp hread
  obtain ⟨items, hitems, hread⟩ := Option.bind_eq_some_iff.mp hread
  obtain ⟨cells, hcells, heq⟩ := Option.bind_eq_some_iff.mp hread
  obtain rfl := Option.some.inj heq
  obtain rfl := eq_obj_of_asObj hdata
  apply legible_map_turnOf
  refine encodable_readAll ?_ (encodable_iterate (encodable_getD h rfl) hitems) hcells
  intro item r t hitem hcell
  obtain ⟨msg, hmsg, hcell⟩ := Option.bind_eq_some_iff.mp hcell
  cases hcell
  obtain rfl := eq_obj_of_asObj hmsg
  exact ⟨encodable_pyStr (encodable_getD hitem rfl), encodable_pyStr (encodable_getD hitem rfl)⟩

theorem encodable_parseResponse {body : Json} {text : PyStr} (h : body.encodable = true)
    (htext : parseResponse u body = some text) : text.encodable = true := by
  obtain ⟨data, hdata, hread⟩ := Option.bind_eq_some_iff.mp htext
  obtain rfl := eq_obj_of_asObj hdata
  have hcontent : ∀ holder, (obj holder).encodable = true →
      (contentOf u holder).encodable = true := fun holder hholder =>
    encodable_pyStr (encodable_getD hholder rfl)
  have hitems : ∀ {key items}, getD data key null = arr items →
      ∀ item ∈ items, item.encodable = true := fun hkey =>
    encodable_iterate (hkey ▸ encodable_getD h rfl) rfl
  split at hread
  · rename_i last hlast
    obtain rfl := Option.some.inj hread
    unfold lastMessage at hlast
    split at hlast
    · rename_i items hmessages
      obtain ⟨last', hlast', heq⟩ := Option.map_eq_some_iff.mp hlast
      cases heq
      obtain ⟨item, hitem, hobj⟩ := Option.bind_eq_some_iff.mp hlast'
      have hencodable := hitems hmessages item (List.mem_of_getLast? hitem)
      rw [eq_obj_of_asObj hobj] at hencodable
      exact hcontent _ hencodable
    · cases hlast
  · split at hread
    · rename_i choice _ hchoice
      obtain ⟨message, hmessage, heq⟩ := Option.bind_eq_some_iff.mp hread
      obtain rfl := Option.some.inj heq
      unfold firstChoice at hchoice
      split at hchoice
      · rename_i items hchoices
        obtain ⟨choice', hfirst, heq⟩ := Option.map_eq_some_iff.mp hchoice
        cases heq
        obtain ⟨item, hitem, hobj⟩ := Option.bind_eq_some_iff.mp hfirst
        have hencodable := hitems hchoices item (List.mem_of_head? hitem)
        rw [eq_obj_of_asObj hobj] at hencodable
        have hholder : (getD choice "message" (obj [])).encodable = true :=
          encodable_getD hencodable rfl
        rw [eq_obj_of_asObj hmessage] at hholder
        exact hcontent _ hholder
      · cases hchoice
    · split at hread
      · rename_i message hmessage
        obtain rfl := Option.some.inj hread
        have hholder : (getD data "message" null).encodable = true := encodable_getD h rfl
        rw [eq_obj_of_asObj hmessage] at hholder
        exact hcontent _ hholder
      · cases hread
        rfl

end Gateway

namespace Gemini

theorem encodable_roleOf {item : Dict PyStr Json} {role : PyStr}
    (h : (obj item).encodable = true) (hrole : roleOf u item = some role) :
    role.encodable = true := by
  unfold roleOf at hrole
  dsimp only at hrole
  split at hrole
  · split at hrole
    · rename_i s hs
      have hrole' : s.encodable = true := by
        have hvalue : (getD item "role" null).encodable = true := encodable_getD h rfl
        rw [hs] at hvalue
        exact hvalue
      obtain rfl := Option.some.inj hrole
      split
      · rfl
      · exact hrole'
    · obtain rfl := Option.some.inj hrole
      exact encodable_pyStr (encodable_getD h rfl)
  · cases hrole

theorem legible_extractTurns {body : Json} {ts : List PyTurn} (h : body.encodable = true)
    (hread : extractTurns u body = some ts) : Legible ts := by
  obtain ⟨data, hdata, hread⟩ := Option.bind_eq_some_iff.mp hread
  obtain ⟨system, hsystem, hread⟩ := Option.bind_eq_some_iff.mp hread
  obtain ⟨items, hitems, hread⟩ := Option.bind_eq_some_iff.mp hread
  obtain ⟨cells, hcells, heq⟩ := Option.bind_eq_some_iff.mp hread
  obtain rfl := Option.some.inj heq
  obtain rfl := eq_obj_of_asObj hdata
  have hinstruction : (getD data "system_instruction" null).encodable = true :=
    encodable_getD h rfl
  have hfirst : Legible system := by
    unfold systemTurns at hsystem
    split at hsystem
    · rename_i instruction hobj
      rw [eq_obj_of_asObj hobj] at hinstruction
      obtain ⟨text, htext, heq⟩ := Option.bind_eq_some_iff.mp hsystem
      obtain rfl := Option.some.inj heq
      split
      · exact fun _ hturn => absurd hturn List.not_mem_nil
      · intro turn hturn
        rw [List.mem_singleton.mp hturn]
        exact ⟨rfl, encodable_joinParts (encodable_getD hinstruction rfl) htext⟩
    · cases hsystem
      exact fun _ hturn => absurd hturn List.not_mem_nil
  have hrest : Legible (cells.map turnOf) := by
    apply legible_map_turnOf
    refine encodable_readAll ?_ (encodable_iterate (encodable_getD h rfl) hitems) hcells
    intro item r t hitem hcell
    obtain ⟨content, hcontent, hcell⟩ := Option.bind_eq_some_iff.mp hcell
    obtain ⟨role, hrole, hcell⟩ := Option.bind_eq_some_iff.mp hcell
    obtain ⟨text, htext, hcell⟩ := Option.bind_eq_some_iff.mp hcell
    cases hcell
    obtain rfl := eq_obj_of_asObj hcontent
    exact ⟨encodable_roleOf hitem hrole, encodable_joinParts (encodable_getD hitem rfl) htext⟩
  intro turn hturn
  rcases List.mem_append.mp hturn with hturn | hturn
  · exact hfirst turn hturn
  · exact hrest turn hturn

theorem encodable_parseResponse {body : Json} {text : PyStr} (h : body.encodable = true)
    (htext : parseResponse u body = some text) : text.encodable = true := by
  obtain ⟨data, hdata, hread⟩ := Option.bind_eq_some_iff.mp htext
  obtain rfl := eq_obj_of_asObj hdata
  split at hread
  · rename_i first _ hfirst
    unfold firstCandidate at hfirst
    split at hfirst
    · rename_i items hcandidates
      obtain ⟨first', hhead, heq⟩ := Option.map_eq_some_iff.mp hfirst
      cases heq
      obtain ⟨item, hitem, hobj⟩ := Option.bind_eq_some_iff.mp hhead
      have hvalue : (getD data "candidates" null).encodable = true := encodable_getD h rfl
      rw [hcandidates] at hvalue
      have hencodable := encodable_iterate hvalue rfl item (List.mem_of_head? hitem)
      rw [eq_obj_of_asObj hobj] at hencodable
      split at hread
      · rename_i content hcontent
        have hholder : (getD first "content" (obj [])).encodable = true :=
          encodable_getD hencodable rfl
        rw [eq_obj_of_asObj hcontent] at hholder
        exact encodable_joinParts (encodable_getD hholder rfl) hread
      · cases hread
        rfl
    · cases hfirst
  · cases hread
    rfl

end Gemini

end Encodable

/-! ## Bodies -/

/-- A body of which the adapter that is selected for it reads text. -/
structure Body where
  value : Json
  legible : ∀ u ts, (selectAdapter u value).extractTurns value = some ts → Legible ts
  response_encodable : ∀ u text, (selectAdapter u value).parseResponse value = some text →
    text.encodable = true

/-- A value that can be encoded, as a body. -/
def Body.ofEncodable (value : Json) (h : value.encodable = true) : Body where
  value := value
  legible u ts hread := by
    unfold selectAdapter at hread
    cases hfind : [gemini u, gateway u].find? fun adapter => adapter.matchesBody value with
    | none =>
        rw [hfind] at hread
        exact Gateway.legible_extractTurns h hread
    | some adapter =>
        rw [hfind] at hread
        have hmem := List.mem_of_find?_eq_some hfind
        rcases List.mem_pair.mp hmem with rfl | rfl
        · exact Gemini.legible_extractTurns h hread
        · exact Gateway.legible_extractTurns h hread
  response_encodable u text hread := by
    unfold selectAdapter at hread
    cases hfind : [gemini u, gateway u].find? fun adapter => adapter.matchesBody value with
    | none =>
        rw [hfind] at hread
        exact Gateway.encodable_parseResponse h hread
    | some adapter =>
        rw [hfind] at hread
        have hmem := List.mem_of_find?_eq_some hfind
        rcases List.mem_pair.mp hmem with rfl | rfl
        · exact Gemini.encodable_parseResponse h hread
        · exact Gateway.encodable_parseResponse h hread

/-- A turn whose strings are text. -/
def PyTurn.toTurn (turn : PyTurn) : Turn := ⟨String.ofList turn.role.toText, turn.text.toText⟩

theorem PyTurn.ofTurn_toTurn {turn : PyTurn} (hrole : turn.role.encodable = true)
    (htext : turn.text.encodable = true) : ofTurn turn.toTurn = turn := by
  rw [ofTurn, toTurn, PyStr.lit, String.toList_ofList, PyStr.ofText_toText hrole,
    PyStr.ofText_toText htext]

@[simp] theorem PyTurn.toTurn_ofTurn (turn : Turn) : (ofTurn turn).toTurn = turn := by
  obtain ⟨role, text⟩ := turn
  show (⟨String.ofList (PyStr.ofText role.toList).toText, (PyStr.ofText text).toText⟩ : Turn) = _
  rw [PyStr.toText_ofText, PyStr.toText_ofText, String.ofList_toList]

namespace Body

variable (u : Unicode) (body : Body)

/-- `adapter.extract_turns(body)`. -/
def extractTurns : Option (List Turn) :=
  ((selectAdapter u body.value).extractTurns body.value).map (List.map PyTurn.toTurn)

/-- `adapter.parse_response(body)`. -/
def parseResponse : Option Text :=
  ((selectAdapter u body.value).parseResponse body.value).map PyStr.toText

/-- `adapter.rebuild(body, turns)`. -/
def rebuild (turns : List Turn) : Option Json :=
  (selectAdapter u body.value).rebuild body.value (turns.map PyTurn.ofTurn)

/-- `adapter.rebuild_response(body, text)`. -/
def rebuildResponse (text : Text) : Option Json :=
  (selectAdapter u body.value).rebuildResponse body.value (.ofText text)

variable {u body}

/-- Nothing of the turns is lost. -/
theorem extractTurns_iff {turns : List Turn} :
    body.extractTurns u = some turns ↔
      (selectAdapter u body.value).extractTurns body.value = some (turns.map PyTurn.ofTurn) := by
  constructor
  · intro h
    obtain ⟨ts, hread, rfl⟩ := Option.map_eq_some_iff.mp h
    have hback : (ts.map PyTurn.toTurn).map PyTurn.ofTurn = ts.map id := by
      rw [List.map_map]
      refine List.map_congr_left fun turn hturn => ?_
      obtain ⟨hrole, htext⟩ := body.legible u ts hread turn hturn
      exact PyTurn.ofTurn_toTurn hrole htext
    rw [hback, List.map_id, hread]
  · intro h
    rw [extractTurns, h, Option.map_some, List.map_map]
    congr 1
    exact List.map_id'' (fun turn => PyTurn.toTurn_ofTurn turn) turns

theorem parseResponse_iff {text : Text} :
    body.parseResponse u = some text ↔
      (selectAdapter u body.value).parseResponse body.value = some (.ofText text) := by
  constructor
  · intro h
    obtain ⟨s, hread, rfl⟩ := Option.map_eq_some_iff.mp h
    rw [PyStr.ofText_toText (body.response_encodable u s hread), hread]
  · intro h
    rw [parseResponse, h, Option.map_some, PyStr.toText_ofText]

end Body

end DlpServer.Adapters
