import DlpServer.Adapters.Body

/-!
# What is written is what is read back

`rebuild` pairs turns with the items of the array by position. `extract_turns`
skips the items that are no objects, so the two walks agree as long as the
objects come first (`Cell.put_get_iff`). The Gemini adapter has a second way to
drift: `extract_turns` makes a turn of `system_instruction` when it has a text,
`rebuild` gives it a turn when the first one has the role system. And what `rebuild`
leaves of a body has to be UTF-8.
-/

namespace DlpServer.Adapters

open Json Traversal

variable (u : Unicode)

/-- The same number of turns, with the same roles. -/
def SameRoles (ts ts' : List PyTurn) : Prop := ts'.map PyTurn.role = ts.map PyTurn.role

/-- The texts are UTF-8. -/
def Sendable (ts' : List PyTurn) : Prop := ∀ turn ∈ ts', turn.text.encodable = true

/-- `extract_turns(rebuild(body, ts')) = ts'`. -/
def PutGet (A : Adapter) (body : Json) (ts' : List PyTurn) : Prop :=
  (A.rebuild body ts').bind A.extractTurns = some ts'

/-- In the array under the key, no object stands behind another item. -/
def ObjectsFirst (key : String) (body : Json) : Prop :=
  ∀ data items, body.asObj = some data → (getD data key (arr [])).iterate = some items →
    items.Pairwise fun a b => b.isObj = true → a.isObj = true

/-! ## Turns and cells -/

def cellOf (turn : PyTurn) : PyStr × PyStr := (turn.role, turn.text)

theorem map_turnOf_map_cellOf (ts : List PyTurn) : (ts.map cellOf).map turnOf = ts := by
  rw [List.map_map]
  exact List.map_id ts

theorem map_cellOf_map_turnOf (cells : List (PyStr × PyStr)) :
    (cells.map turnOf).map cellOf = cells := by
  rw [List.map_map]
  exact List.map_id cells

theorem map_fst_cellOf (ts : List PyTurn) : (ts.map cellOf).map Prod.fst = ts.map PyTurn.role := by
  rw [List.map_map]
  rfl

theorem map_snd_cellOf (ts : List PyTurn) : (ts.map cellOf).map Prod.snd = ts.map PyTurn.text := by
  rw [List.map_map]
  rfl

theorem map_role_turnOf (cells : List (PyStr × PyStr)) :
    (cells.map turnOf).map PyTurn.role = cells.map Prod.fst := by
  rw [List.map_map]
  rfl

theorem objectsFirst_iff {key : String} {body : Json} {data : Dict PyStr Json}
    {items : List Json} (hdata : body.asObj = some data)
    (hitems : (getD data key (arr [])).iterate = some items) :
    ObjectsFirst key body ↔ items.Pairwise fun a b => b.isObj = true → a.isObj = true := by
  constructor
  · intro hfirst
    exact hfirst data items hdata hitems
  · intro hlead data' items' hdata' hitems'
    rw [hdata] at hdata'
    cases hdata'
    rw [hitems] at hitems'
    cases hitems'
    exact hlead

/-- What `rebuild` puts back under the key is walked over as the items written
by position, whether they came from an array or from a string. -/
theorem iterate_zipAssign {C : Cell Json PyStr PyStr} (hC : C.isCell = Json.isObj)
    {value : Json} {items : List Json} (hitems : value.iterate = some items)
    (texts : List PyStr) :
    ∃ value', zipAssign C value texts = some value' ∧
      value'.iterate = some (C.writeAll items texts) := by
  have hkeep : ∀ {β : Type} (f : β → PyStr) (keys : List β),
      C.writeAll (keys.map fun key => str (f key)) texts = keys.map fun key => str (f key) := by
    intro β f keys
    apply Cell.writeAll_none
    intro item hitem
    obtain ⟨key, -, rfl⟩ := List.mem_map.mp hitem
    rw [hC]
    rfl
  cases value with
  | arr items' =>
      cases hitems
      exact ⟨_, rfl, rfl⟩
  | str s =>
      cases hitems
      exact ⟨str s, rfl, congrArg some (hkeep (fun c => [c]) s).symm⟩
  | obj fields =>
      cases hitems
      exact ⟨obj fields, rfl, congrArg some (hkeep Prod.fst fields).symm⟩
  | null | bool | int | float => cases hitems

/-- There are different texts that are UTF-8. -/
theorem varied_encodable : Cell.Varied fun text : PyStr => text.encodable = true := by
  intro t
  by_cases ht : t = []
  · exact ⟨.lit ".", [], rfl, rfl, by rw [ht]; decide, by decide⟩
  · exact ⟨[], .lit ".", rfl, rfl, Ne.symm ht, by decide⟩

/-- The law for the array alone: it holds for all texts exactly when the
objects come first. -/
theorem array_put_get_iff {C : Cell Json PyStr PyStr} {items : List Json} {ts : List PyTurn}
    (hread : C.readAll items = some (ts.map cellOf)) :
    (∀ ts', SameRoles ts ts' → Sendable ts' →
      C.readAll (C.writeAll items (ts'.map PyTurn.text)) = some (ts'.map cellOf)) ↔
        C.Leading items := by
  rw [← Cell.put_get_iff varied_encodable hread]
  constructor
  · intro h cells hroles hcontents
    have := h (cells.map turnOf) (by
      rw [SameRoles, map_role_turnOf, hroles, map_fst_cellOf]) (by
      intro turn hturn
      obtain ⟨cell, hcell, rfl⟩ := List.mem_map.mp hturn
      exact hcontents cell hcell)
    rwa [← map_snd_cellOf, map_cellOf_map_turnOf] at this
  · intro h ts' hroles hsend
    rw [← map_snd_cellOf]
    apply h
    · rw [map_fst_cellOf, map_fst_cellOf]
      exact hroles
    · intro cell hcell
      obtain ⟨turn, hturn, rfl⟩ := List.mem_map.mp hcell
      exact hsend turn hturn

theorem array_reads {C : Cell Json PyStr PyStr} {items : List Json} {ts ts' : List PyTurn}
    (hlead : C.Leading items) (hread : C.readAll items = some (ts.map cellOf))
    (hroles : SameRoles ts ts') :
    C.readAll (C.writeAll items (ts'.map PyTurn.text)) = some (ts'.map cellOf) := by
  rw [← map_snd_cellOf]
  apply Cell.readAll_writeAll hlead hread
  rw [map_fst_cellOf, map_fst_cellOf]
  exact hroles

/-- The turns with a point for each text. -/
def pointed (ts : List PyTurn) : List PyTurn := ts.map fun turn => { turn with text := .lit "." }

theorem sameRoles_pointed (ts : List PyTurn) : SameRoles ts (pointed ts) := by
  rw [SameRoles, pointed, List.map_map]
  rfl

theorem sendable_pointed (ts : List PyTurn) : Sendable (pointed ts) := by
  intro turn hturn
  obtain ⟨_, -, rfl⟩ := List.mem_map.mp hturn
  rfl

theorem SameRoles.length_eq {ts ts' : List PyTurn} (h : SameRoles ts ts') :
    ts'.length = ts.length := by
  rw [← List.length_map (f := PyTurn.role), h, List.length_map]

/-! ## What is left of a body -/

/-- The item with null in the place of the texts, where it is an object. -/
def blank (part : String) : Json → Json
  | obj fields => obj (setKey fields part null)
  | item => item

/-- The value with null in the place of the texts of all items. -/
def blankItems (part : String) : Json → Json
  | arr items => arr (items.map (blank part))
  | value => value

/-- A cell whose text is all that is under `part`. -/
def Fills (C : Cell Json PyStr PyStr) (part : String) : Prop :=
  C.isCell = Json.isObj ∧ ∀ item text, C.isCell item = true →
    (C.write item text).encodable = ((blank part item).encodable && text.encodable)

theorem encodable_zipAssign {C : Cell Json PyStr PyStr} {part : String} (hC : Fills C part)
    {value value' : Json} {items : List Json} (hitems : value.iterate = some items)
    (hlead : C.Leading items) {texts : List PyStr} (hlength : texts.length = items.countP C.isCell)
    (hzip : zipAssign C value texts = some value') :
    value'.encodable = ((blankItems part value).encodable && texts.all PyStr.encodable) := by
  have hnone : ∀ {β : Type} (f : β → PyStr) (keys : List β),
      items = (keys.map fun key => str (f key)) → texts = [] := by
    intro β f keys heq
    have hzero : items.countP C.isCell = 0 := by
      rw [List.countP_eq_zero, heq, hC.1]
      intro item hitem
      obtain ⟨key, -, rfl⟩ := List.mem_map.mp hitem
      exact Bool.false_ne_true
    exact List.eq_nil_of_length_eq_zero (hlength.trans hzero)
  cases value with
  | arr items' =>
      cases hitems
      cases hzip
      have hskip : ∀ item, C.isCell item = false →
          item.encodable = (blank part item).encodable := by
        intro item hitem
        rw [hC.1] at hitem
        cases item with
        | obj fields => cases hitem
        | _ => rfl
      rw [encodable_arr, Cell.all_writeAll hC.2 hskip hlead hlength, blankItems, encodable_arr,
        List.all_map]
      rfl
  | str s =>
      cases hitems
      cases hzip
      rw [hnone (fun c => [c]) s rfl, List.all_nil, Bool.and_true]
      rfl
  | obj fields =>
      cases hitems
      cases hzip
      rw [hnone Prod.fst fields rfl, List.all_nil, Bool.and_true]
      rfl
  | null | bool | int | float => cases hitems

theorem encodable_blank {part : String} {item : Json} (h : item.encodable = true) :
    (blank part item).encodable = true := by
  cases item with
  | obj fields => exact encodable_set_null (PyStr.encodable_lit part) h
  | _ => exact h

/-- A value that can be encoded can be with new texts. -/
theorem encodable_zipAssign_of {C : Cell Json PyStr PyStr} {part : String} (hC : Fills C part)
    {value value' : Json} (hvalue : value.encodable = true) {texts : List PyStr}
    (htexts : ∀ text ∈ texts, text.encodable = true) (hzip : zipAssign C value texts = some value') :
    value'.encodable = true := by
  cases value with
  | arr items =>
      cases hzip
      rw [encodable_arr, List.all_eq_true] at hvalue ⊢
      intro item hitem
      rcases Cell.mem_writeAll hitem with hmem | ⟨a, ha, text, htext, hcell, rfl⟩
      · exact hvalue item hmem
      · rw [hC.2 a text hcell, encodable_blank (hvalue a ha), htexts text htext, Bool.and_self]
  | str | obj =>
      cases hzip
      exact hvalue
  | null | bool | int | float => cases hzip

theorem sendable_iff {ts' : List PyTurn} :
    (ts'.map PyTurn.text).all PyStr.encodable = true ↔ Sendable ts' := by
  rw [List.all_map, List.all_eq_true]
  rfl

theorem countP_eq_length {C : Cell Json PyStr PyStr} {items : List Json} {ts ts' : List PyTurn}
    (hread : C.readAll items = some (ts.map cellOf)) (hroles : SameRoles ts ts') :
    (ts'.map PyTurn.text).length = items.countP C.isCell := by
  rw [← Cell.length_of_readAll hread, List.length_map, List.length_map, hroles.length_eq]

/-- A body that is read back was encoded before. -/
theorem putGet_iff {A : Adapter} (rewrite : Json → List PyTurn → Option Json)
    (hrebuild : ∀ body ts', A.rebuild body ts' = (rewrite body ts').bind encode) {body : Json}
    {ts' : List PyTurn} :
    PutGet A body ts' ↔ (rewrite body ts').bind A.extractTurns = some ts' ∧
      ∃ value, rewrite body ts' = some value ∧ value.encodable = true := by
  rw [PutGet, hrebuild]
  cases rewrite body ts' with
  | none =>
      refine iff_of_false (fun h => ?_) (fun h => ?_)
      · cases h
      · cases h.1
  | some value =>
      simp only [Option.bind_some]
      rw [encode]
      split
      · rename_i hvalue
        exact ⟨fun h => ⟨h, value, rfl, hvalue⟩, And.left⟩
      · rename_i hvalue
        refine iff_of_false (fun h => ?_) (fun h => ?_)
        · cases h
        · obtain ⟨-, value', heq, hvalue'⟩ := h
          cases heq
          exact hvalue hvalue'

/-- Where what is left of the body and the new texts decide whether it can be encoded. -/
theorem putGet_iff_of_encodable {A : Adapter} (rewrite : Json → List PyTurn → Option Json)
    (hrebuild : ∀ body ts', A.rebuild body ts' = (rewrite body ts').bind encode) {body : Json}
    {ts' : List PyTurn} {left : Bool}
    (hwhole : ∃ value, rewrite body ts' = some value ∧
      value.encodable = (left && (ts'.map PyTurn.text).all PyStr.encodable)) :
    PutGet A body ts' ↔ (rewrite body ts').bind A.extractTurns = some ts' ∧
      left = true ∧ Sendable ts' := by
  obtain ⟨value, hvalue, hencodable⟩ := hwhole
  rw [putGet_iff rewrite hrebuild, hvalue]
  simp only [Option.some.injEq, exists_eq_left', hencodable, Bool.and_eq_true, sendable_iff]

/-! ## The gateway -/

namespace Gateway

variable {u}

/-- What `extract_turns` went through when it succeeded. -/
theorem of_extractTurns {body : Json} {ts : List PyTurn} (h : extractTurns u body = some ts) :
    ∃ data items, body.asObj = some data ∧
      (getD data "messages" (arr [])).iterate = some items ∧
      (messageCell u).readAll items = some (ts.map cellOf) := by
  obtain ⟨data, hdata, h⟩ := Option.bind_eq_some_iff.mp h
  obtain ⟨items, hitems, h⟩ := Option.bind_eq_some_iff.mp h
  obtain ⟨cells, hcells, h⟩ := Option.bind_eq_some_iff.mp h
  refine ⟨data, items, hdata, hitems, ?_⟩
  cases h
  rw [map_cellOf_map_turnOf, hcells]

/-- What `rebuild` leaves of a body: all but the `content` of its messages. -/
def kept : Json → Json
  | obj data => obj (setKey data "messages" (blankItems "content" (getD data "messages" (arr []))))
  | body => body

theorem fills : Fills (messageCell u) "content" := by
  refine ⟨rfl, fun item text hitem => ?_⟩
  cases item with
  | obj fields => exact encodable_setKey fields "content" (str text)
  | _ => cases hitem

section Law

variable {body : Json} {data : Dict PyStr Json} {items : List Json} {ts ts' : List PyTurn}

theorem rewrite_eq (hdata : body.asObj = some data)
    (hitems : (getD data "messages" (arr [])).iterate = some items) (ts' : List PyTurn) :
    ∃ messages, zipAssign (messageCell u) (getD data "messages" (arr []))
        (ts'.map PyTurn.text) = some messages ∧
      messages.iterate = some ((messageCell u).writeAll items (ts'.map PyTurn.text)) ∧
      rewrite u body ts' = some (obj (setKey data "messages" messages)) := by
  obtain ⟨messages, hzip, hiterate⟩ :=
    iterate_zipAssign (C := messageCell u) rfl hitems (ts'.map PyTurn.text)
  refine ⟨messages, hzip, hiterate, ?_⟩
  show body.asObj.bind _ = _
  rw [hdata]
  show (zipAssign _ _ _).bind _ = _
  rw [hzip]
  rfl

/-- Reading a rebuilt body is reading the items written by position. -/
theorem extractTurns_rewrite (hdata : body.asObj = some data)
    (hitems : (getD data "messages" (arr [])).iterate = some items) (ts' : List PyTurn) :
    (rewrite u body ts').bind (extractTurns u) = some ts' ↔
      (messageCell u).readAll ((messageCell u).writeAll items (ts'.map PyTurn.text)) =
        some (ts'.map cellOf) := by
  obtain ⟨messages, -, hiterate, hrewrite⟩ := rewrite_eq (u := u) hdata hitems ts'
  rw [hrewrite]
  show ((getD _ "messages" (arr [])).iterate.bind _) = _ ↔ _
  rw [getD_setKey, hiterate]
  show ((messageCell u).readAll _).bind _ = _ ↔ _
  constructor
  · intro h
    obtain ⟨cells, hcells, heq⟩ := Option.bind_eq_some_iff.mp h
    cases heq
    rw [hcells, map_cellOf_map_turnOf]
  · intro h
    rw [h]
    show some ((ts'.map cellOf).map turnOf) = _
    rw [map_turnOf_map_cellOf]

/-- Where the objects come first, what is written is read. -/
theorem reads (h : extractTurns u body = some ts) (hfirst : ObjectsFirst "messages" body)
    (hroles : SameRoles ts ts') : (rewrite u body ts').bind (extractTurns u) = some ts' := by
  obtain ⟨data, items, hdata, hitems, hread⟩ := of_extractTurns h
  have hlead : (messageCell u).Leading items := (objectsFirst_iff hdata hitems).mp hfirst
  exact (extractTurns_rewrite hdata hitems ts').mpr (array_reads hlead hread hroles)

/-- Where the objects come first, a body is encoded when what is left of it and the new
texts can be. -/
theorem encodable_rewrite (h : extractTurns u body = some ts)
    (hfirst : ObjectsFirst "messages" body) (hroles : SameRoles ts ts') :
    ∃ value, rewrite u body ts' = some value ∧ value.encodable =
      ((kept body).encodable && (ts'.map PyTurn.text).all PyStr.encodable) := by
  obtain ⟨data, items, hdata, hitems, hread⟩ := of_extractTurns h
  obtain rfl := eq_obj_of_asObj hdata
  have hlead : (messageCell u).Leading items := (objectsFirst_iff hdata hitems).mp hfirst
  obtain ⟨messages, hzip, -, hrewrite⟩ := rewrite_eq (u := u) hdata hitems ts'
  refine ⟨_, hrewrite, ?_⟩
  rw [encodable_setKey, kept, encodable_setKey data "messages" (blankItems _ _),
    encodable_zipAssign fills hitems hlead (countP_eq_length hread hroles) hzip, Bool.and_assoc]

/-- Nothing keeps a body from being rebuilt that can be encoded, and its texts as well. -/
theorem rebuild_isSome (h : extractTurns u body = some ts) (hbody : body.encodable = true)
    (hsend : Sendable ts') : ((gateway u).rebuild body ts').isSome = true := by
  obtain ⟨data, items, hdata, hitems, -⟩ := of_extractTurns h
  obtain rfl := eq_obj_of_asObj hdata
  obtain ⟨messages, hzip, -, hrewrite⟩ := rewrite_eq (u := u) hdata hitems ts'
  have hencodable : (obj (setKey data "messages" messages)).encodable = true := by
    have hrest := encodable_set_null (PyStr.encodable_lit "messages") hbody
    rw [encodable_setKey, setKey, hrest, Bool.true_and]
    refine encodable_zipAssign_of fills (encodable_getD hbody rfl) ?_ hzip
    exact List.all_eq_true.mp (sendable_iff.mpr hsend)
  show ((rewrite u _ ts').bind encode).isSome = true
  rw [hrewrite, Option.bind_some, encode, if_pos hencodable]
  rfl

/-- Where the objects come first, the law holds of the texts that are UTF-8 if what is left
of the body is. -/
theorem put_get_of_first (h : extractTurns u body = some ts)
    (hfirst : ObjectsFirst "messages" body) (hroles : SameRoles ts ts') :
    PutGet (gateway u) body ts' ↔ (kept body).encodable = true ∧ Sendable ts' := by
  rw [putGet_iff_of_encodable (rewrite u) (fun _ _ => rfl) (encodable_rewrite h hfirst hroles)]
  exact and_iff_right (reads h hfirst hroles)

/-- The law holds for all texts that are UTF-8 exactly when the objects come first and
what is left of the body is UTF-8. -/
theorem put_get_iff (h : extractTurns u body = some ts) :
    (∀ ts', SameRoles ts ts' → Sendable ts' → PutGet (gateway u) body ts') ↔
      ObjectsFirst "messages" body ∧ (kept body).encodable = true := by
  constructor
  · intro hall
    have hfirst : ObjectsFirst "messages" body := by
      obtain ⟨data, items, hdata, hitems, hread⟩ := of_extractTurns h
      refine (objectsFirst_iff hdata hitems).mpr ((array_put_get_iff hread).mp ?_)
      intro ts' hroles hsend
      have hlaw := (putGet_iff (rewrite u) fun _ _ => rfl).mp (hall ts' hroles hsend)
      exact (extractTurns_rewrite hdata hitems ts').mp hlaw.1
    have hpointed := hall (pointed ts) (sameRoles_pointed ts) (sendable_pointed ts)
    exact ⟨hfirst, ((put_get_of_first h hfirst (sameRoles_pointed ts)).mp hpointed).1⟩
  · rintro ⟨hfirst, hkept⟩ ts' hroles hsend
    exact (put_get_of_first h hfirst hroles).mpr ⟨hkept, hsend⟩

end Law

end Gateway

/-! ## Gemini -/

namespace Gemini

variable {u}

/-- What `extract_turns` went through when it succeeded. -/
theorem of_extractTurns {body : Json} {ts : List PyTurn} (h : extractTurns u body = some ts) :
    ∃ data system items rest, body.asObj = some data ∧ systemTurns u data = some system ∧
      (getD data "contents" (arr [])).iterate = some items ∧
      (contentCell u).readAll items = some (rest.map cellOf) ∧ ts = system ++ rest := by
  obtain ⟨data, hdata, h⟩ := Option.bind_eq_some_iff.mp h
  obtain ⟨system, hsystem, h⟩ := Option.bind_eq_some_iff.mp h
  obtain ⟨items, hitems, h⟩ := Option.bind_eq_some_iff.mp h
  obtain ⟨cells, hcells, h⟩ := Option.bind_eq_some_iff.mp h
  refine ⟨data, system, items, cells.map turnOf, hdata, hsystem, hitems, ?_, ?_⟩
  · rw [map_cellOf_map_turnOf, hcells]
  · cases h
    rfl

theorem getD_contents_takeSystem (data : Dict PyStr Json) (ts : List PyTurn) :
    getD (takeSystem data ts).1 "contents" (arr []) = getD data "contents" (arr []) := by
  cases ts with
  | nil => rfl
  | cons turn remaining =>
      simp only [takeSystem]
      split
      · show getD (setKey _ _ _) _ _ = _
        rw [getD_setKey_ne (by decide)]
      · rfl

/-- What `rebuild` leaves of a body: all but the `parts` of its contents, and the
`system_instruction` that a turn is made of. -/
def kept (u : Unicode) : Json → Json
  | obj data =>
      let rest := if systemTurns u data = some [] then data
        else setKey data "system_instruction" null
      obj (setKey rest "contents" (blankItems "parts" (getD data "contents" (arr []))))
  | body => body

theorem encodable_textParts (text : PyStr) : (textParts text).encodable = text.encodable := by
  simp [textParts, encodable, encodableItems, encodableFields, PyStr.encodable_lit]

theorem fills : Fills (contentCell u) "parts" := by
  refine ⟨rfl, fun item text hitem => ?_⟩
  cases item with
  | obj fields =>
      rw [← encodable_textParts]
      exact encodable_setKey fields "parts" (textParts text)
  | _ => cases hitem

theorem rewrite_eq {body : Json} {data data' : Dict PyStr Json} {items : List Json}
    {ts' remaining : List PyTurn} (hdata : body.asObj = some data)
    (hitems : (getD data "contents" (arr [])).iterate = some items)
    (htake : takeSystem data ts' = (data', remaining)) :
    ∃ contents, zipAssign (contentCell u) (getD data "contents" (arr []))
        (remaining.map PyTurn.text) = some contents ∧
      contents.iterate = some ((contentCell u).writeAll items (remaining.map PyTurn.text)) ∧
      rewrite u body ts' = some (obj (setKey data' "contents" contents)) := by
  have hcontents := getD_contents_takeSystem data ts'
  rw [htake] at hcontents
  change getD data' _ _ = _ at hcontents
  obtain ⟨contents, hzip, hiterate⟩ :=
    iterate_zipAssign (C := contentCell u) rfl hitems (remaining.map PyTurn.text)
  refine ⟨contents, hzip, hiterate, ?_⟩
  rw [rewrite, hdata]
  simp only [Option.bind_eq_bind, Option.bind_some, htake, hcontents, hzip]

/-- Reading a rebuilt body: the system turn of what `rebuild` left as
`system_instruction`, then the items with the remaining turns by position. -/
theorem extractTurns_rewrite {body : Json} {data data' : Dict PyStr Json} {items : List Json}
    {ts' remaining : List PyTurn} (hdata : body.asObj = some data)
    (hitems : (getD data "contents" (arr [])).iterate = some items)
    (htake : takeSystem data ts' = (data', remaining)) :
    (rewrite u body ts').bind (extractTurns u) =
      (systemTurns u data').bind fun system =>
        ((contentCell u).readAll ((contentCell u).writeAll items
          (remaining.map PyTurn.text))).map fun cells => system ++ cells.map turnOf := by
  obtain ⟨contents, -, hiterate, hrewrite⟩ := rewrite_eq (u := u) hdata hitems htake
  rw [hrewrite]
  show (systemTurns u (setKey _ "contents" contents)).bind _ = _
  rw [systemTurns, getD_setKey_ne (by decide), ← systemTurns]
  apply Option.bind_congr
  intro system _
  show ((getD _ "contents" (arr [])).iterate.bind _) = _
  rw [getD_setKey, hiterate]
  show ((contentCell u).readAll _).bind _ = _
  rw [Option.map_eq_bind]
  rfl

/-- The role of the first object among the items. -/
def firstRole (u : Unicode) (items : List Json) : Option PyStr :=
  (items.find? Json.isObj).bind fun item => item.asObj.bind (roleOf u)

theorem firstRole_of_readAll {items : List Json} {rest : List PyTurn}
    (hread : (contentCell u).readAll items = some (rest.map cellOf)) :
    firstRole u items = rest.head?.map PyTurn.role := by
  induction items with
  | nil =>
      cases rest with
      | nil => rfl
      | cons turn rest => cases hread
  | cons item items ih =>
      cases hitem : item.isObj with
      | true =>
          obtain ⟨⟨role, text⟩, cells, hcell, -, heq⟩ :=
            (Cell.readAll_cell (C := contentCell u) hitem).mp hread
          cases rest with
          | nil => cases heq
          | cons turn rest =>
              obtain ⟨hhead, -⟩ := List.cons.inj heq
              obtain ⟨fields, hfields, hcell⟩ := Option.bind_eq_some_iff.mp hcell
              obtain ⟨role', hrole, hcell⟩ := Option.bind_eq_some_iff.mp hcell
              obtain ⟨text', -, hcell⟩ := Option.bind_eq_some_iff.mp hcell
              rw [firstRole, List.find?_cons_of_pos hitem]
              show item.asObj.bind (roleOf u) = some turn.role
              rw [hfields]
              show roleOf u fields = some turn.role
              rw [hrole]
              cases hcell
              cases hhead
              rfl
      | false =>
          rw [firstRole, List.find?_cons_of_neg (by simp [hitem])]
          exact ih (Cell.readAll_skip (C := contentCell u) items hitem ▸ hread)

theorem systemTurns_setSystem (data : Dict PyStr Json) (text : PyStr) :
    systemTurns u (setKey data "system_instruction" (obj [(.lit "parts", textParts text)])) =
      some (if text = [] then [] else [⟨.lit "system", text⟩]) := by
  rw [systemTurns, getD_setKey]
  show (partsText u (setKey [] "parts" (textParts text))).bind _ = _
  rw [partsText_textParts]
  rfl

theorem systemTurns_cases {data : Dict PyStr Json} {system : List PyTurn}
    (h : systemTurns u data = some system) :
    system = [] ∨ hasSystem data = true ∧ ∃ text, text ≠ [] ∧ system = [⟨.lit "system", text⟩] := by
  rw [systemTurns] at h
  cases hobj : (getD data "system_instruction" null).asObj with
  | none =>
      rw [hobj] at h
      cases h
      exact Or.inl rfl
  | some instruction =>
      rw [hobj] at h
      obtain ⟨text, -, h⟩ := Option.bind_eq_some_iff.mp h
      by_cases htext : text = []
      · rw [if_pos htext] at h
        cases h
        exact Or.inl rfl
      · rw [if_neg htext] at h
        cases h
        refine Or.inr ⟨?_, text, htext, rfl⟩
        rw [hasSystem, isObj, hobj]
        rfl

theorem takeSystem_keep {data : Dict PyStr Json} {ts : List PyTurn}
    (h : ¬ (hasSystem data = true ∧ ts.head?.map PyTurn.role = some (.lit "system"))) :
    takeSystem data ts = (data, ts) := by
  cases ts with
  | nil => rfl
  | cons turn remaining =>
      rw [takeSystem, if_neg]
      rintro ⟨hsystem, hrole⟩
      exact h ⟨hsystem, congrArg some hrole⟩

theorem takeSystem_take {data : Dict PyStr Json} {turn : PyTurn}
    (hsystem : hasSystem data = true) (hrole : turn.role = .lit "system")
    (remaining : List PyTurn) :
    takeSystem data (turn :: remaining) =
      (setKey data "system_instruction" (obj [(.lit "parts", textParts turn.text)]),
        remaining) := by
  rw [takeSystem, if_pos ⟨hsystem, hrole⟩]

/-- What is written is read. -/
def Reads (u : Unicode) (body : Json) (ts' : List PyTurn) : Prop :=
  (rewrite u body ts').bind (extractTurns u) = some ts'

section Law

variable {body : Json} {data data' : Dict PyStr Json} {items : List Json}
  {ts' system remaining : List PyTurn}

/-- Where the walk of `rebuild` takes as system turn what the next
`extract_turns` returns as one, the law is that of the array. -/
theorem reads_of_aligned (hdata : body.asObj = some data)
    (hitems : (getD data "contents" (arr [])).iterate = some items)
    (htake : takeSystem data ts' = (data', remaining))
    (hsystem : systemTurns u data' = some system) (haligned : ts' = system ++ remaining) :
    Reads u body ts' ↔
      (contentCell u).readAll ((contentCell u).writeAll items (remaining.map PyTurn.text)) =
        some (remaining.map cellOf) := by
  rw [Reads, extractTurns_rewrite hdata hitems htake, hsystem, Option.bind_some,
    Option.map_eq_some_iff]
  constructor
  · rintro ⟨cells, hcells, heq⟩
    have : cells.map turnOf = remaining := List.append_cancel_left (heq.trans haligned)
    rw [hcells, ← this, map_cellOf_map_turnOf]
  · intro h
    refine ⟨_, h, ?_⟩
    rw [map_turnOf_map_cellOf, haligned]

/-- Where one walk has a system turn and the other has none, the law fails: the
number of turns is not the same. -/
theorem not_reads_of_misaligned {rest : List PyTurn} (hdata : body.asObj = some data)
    (hitems : (getD data "contents" (arr [])).iterate = some items)
    (hread : (contentCell u).readAll items = some (rest.map cellOf))
    (htake : takeSystem data ts' = (data', remaining))
    (hsystem : systemTurns u data' = some system)
    (hlength : system.length + rest.length ≠ ts'.length) : ¬ Reads u body ts' := by
  rw [Reads, extractTurns_rewrite hdata hitems htake, hsystem, Option.bind_some]
  obtain ⟨cells, hcells, hlabels⟩ :=
    Cell.readAll_writeAll_labels hread (remaining.map PyTurn.text)
  rw [hcells]
  intro heq
  have hturns : system ++ cells.map turnOf = ts' := Option.some.inj heq
  apply hlength
  have hcount : cells.length = rest.length := by
    have := congrArg List.length hlabels
    simpa using this
  rw [← hturns, List.length_append, List.length_map, hcount]

end Law

/-- `ts'` gives the turn made of `system_instruction` the empty text. -/
def EmptiesSystem (u : Unicode) (body : Json) (ts' : List PyTurn) : Prop :=
  ∃ data turn, body.asObj = some data ∧ systemTurns u data = some [turn] ∧
    ts'.head?.map PyTurn.text = some []

/-- `system_instruction` is an object without text, so no turn is made of it,
and the first object of `contents` has the role system, so `rebuild` gives it
the turn of that object. -/
def TakesTurn (u : Unicode) (body : Json) : Prop :=
  ∃ data items, body.asObj = some data ∧ hasSystem data = true ∧
    systemTurns u data = some [] ∧ (getD data "contents" (arr [])).iterate = some items ∧
    firstRole u items = some (.lit "system")

section Cases

variable {body : Json} {data : Dict PyStr Json} {items : List Json} {rest ts' : List PyTurn}

theorem takesTurn_iff {system : List PyTurn} (hdata : body.asObj = some data)
    (hsystem : systemTurns u data = some system)
    (hitems : (getD data "contents" (arr [])).iterate = some items) :
    TakesTurn u body ↔
      hasSystem data = true ∧ system = [] ∧ firstRole u items = some (.lit "system") := by
  constructor
  · rintro ⟨data', items', hdata', hobj, hsystem', hitems', hrole⟩
    rw [hdata] at hdata'
    cases hdata'
    rw [hitems] at hitems'
    cases hitems'
    rw [hsystem] at hsystem'
    exact ⟨hobj, Option.some.inj hsystem', hrole⟩
  · rintro ⟨hobj, rfl, hrole⟩
    exact ⟨data, items, hdata, hobj, hsystem, hitems, hrole⟩

/-- No turn is given to `system_instruction` where none is made of it. -/
theorem takeSystem_plain (hread : (contentCell u).readAll items = some (rest.map cellOf))
    (hkeep : ¬ (hasSystem data = true ∧ firstRole u items = some (.lit "system")))
    (hroles : SameRoles rest ts') : takeSystem data ts' = (data, ts') := by
  apply takeSystem_keep
  rwa [← List.head?_map, hroles, List.head?_map, ← firstRole_of_readAll hread]

/-- No turn of `system_instruction`, and none given to it. -/
theorem reads_iff_plain (hdata : body.asObj = some data)
    (hitems : (getD data "contents" (arr [])).iterate = some items)
    (hread : (contentCell u).readAll items = some (rest.map cellOf))
    (hsystem : systemTurns u data = some [])
    (hkeep : ¬ (hasSystem data = true ∧ firstRole u items = some (.lit "system")))
    (hroles : SameRoles rest ts') :
    Reads u body ts' ↔ (contentCell u).readAll
      ((contentCell u).writeAll items (ts'.map PyTurn.text)) = some (ts'.map cellOf) :=
  reads_of_aligned hdata hitems (takeSystem_plain hread hkeep hroles) hsystem rfl

/-- A turn of `system_instruction` that keeps some text. -/
theorem reads_iff_system {turn : PyTurn} {rest' : List PyTurn} (hdata : body.asObj = some data)
    (hitems : (getD data "contents" (arr [])).iterate = some items)
    (hobj : hasSystem data = true) (hrole : turn.role = .lit "system") (htext : turn.text ≠ []) :
    Reads u body (turn :: rest') ↔ (contentCell u).readAll
      ((contentCell u).writeAll items (rest'.map PyTurn.text)) = some (rest'.map cellOf) := by
  have hsystem' := systemTurns_setSystem (u := u) data turn.text
  rw [if_neg htext] at hsystem'
  refine reads_of_aligned hdata hitems (takeSystem_take hobj hrole _) hsystem' ?_
  have hturn : turn = ⟨.lit "system", turn.text⟩ := congrArg (PyTurn.mk · turn.text) hrole
  exact congrArg (· :: rest') hturn

/-- A turn of `contents` given to a `system_instruction` without text. -/
theorem exists_not_reads (hdata : body.asObj = some data)
    (hitems : (getD data "contents" (arr [])).iterate = some items)
    (hread : (contentCell u).readAll items = some (rest.map cellOf))
    (hobj : hasSystem data = true) (hfirst : firstRole u items = some (.lit "system")) :
    ∃ ts', SameRoles rest ts' ∧ Sendable ts' ∧ ¬ EmptiesSystem u body ts' ∧ ¬ Reads u body ts' := by
  rw [firstRole_of_readAll hread] at hfirst
  cases rest with
  | nil => cases hfirst
  | cons turn rest =>
      have hrole : turn.role = .lit "system" := Option.some.inj hfirst
      refine ⟨⟨.lit "system", .lit "."⟩ :: pointed rest, ?_, ?_, ?_, ?_⟩
      · exact congrArg₂ List.cons hrole.symm (sameRoles_pointed rest)
      · exact List.forall_mem_cons.mpr ⟨rfl, sendable_pointed rest⟩
      · rintro ⟨_, _, _, _, hempty⟩
        cases hempty
      · apply not_reads_of_misaligned hdata hitems hread (takeSystem_take hobj rfl _)
          (systemTurns_setSystem data _)
        simp [pointed, PyStr.lit, PyStr.ofText]

end Cases

/-- An emptied `system_instruction` yields no turn any more. -/
theorem not_reads_of_emptied {body : Json} {ts ts' : List PyTurn}
    (h : extractTurns u body = some ts) (hroles : SameRoles ts ts')
    (hempty : EmptiesSystem u body ts') : ¬ Reads u body ts' := by
  obtain ⟨data, system, items, rest, hdata, hsystem, hitems, hread, rfl⟩ := of_extractTurns h
  obtain ⟨data', turn, hdata', hsystem', htext⟩ := hempty
  rw [hdata] at hdata'
  cases hdata'
  rw [hsystem] at hsystem'
  cases hsystem'
  rcases systemTurns_cases hsystem with hnil | ⟨hobj, text, -, heq⟩
  · cases hnil
  · cases heq
    cases ts' with
    | nil => cases htext
    | cons turn' rest' =>
        obtain ⟨hrole, hroles⟩ := List.cons.inj hroles
        have hsystem' := systemTurns_setSystem (u := u) data turn'.text
        rw [if_pos (Option.some.inj htext)] at hsystem'
        apply not_reads_of_misaligned hdata hitems hread (takeSystem_take hobj hrole _) hsystem'
        have hlength := congrArg List.length hroles
        rw [List.length_map] at hlength
        rw [List.length_map] at hlength
        simp [hlength]

section Whole

variable {body : Json} {ts ts' : List PyTurn}

/-- Where the objects come first and no turn of `contents` is taken for the system's,
what is written is read, unless it empties the system turn. -/
theorem reads (h : extractTurns u body = some ts) (hfirst : ObjectsFirst "contents" body)
    (htakes : ¬ TakesTurn u body) (hroles : SameRoles ts ts') (hnot : ¬ EmptiesSystem u body ts') :
    Reads u body ts' := by
  obtain ⟨data, system, items, rest, hdata, hsystem, hitems, hread, rfl⟩ := of_extractTurns h
  have hlead : (contentCell u).Leading items := (objectsFirst_iff hdata hitems).mp hfirst
  rw [takesTurn_iff hdata hsystem hitems] at htakes
  rcases systemTurns_cases hsystem with rfl | ⟨hobj, text, -, rfl⟩
  · have hkeep := fun hrole : hasSystem data = true ∧ firstRole u items = some (.lit "system") =>
      htakes ⟨hrole.1, rfl, hrole.2⟩
    exact (reads_iff_plain hdata hitems hread hsystem hkeep hroles).mpr
      (array_reads hlead hread hroles)
  · cases ts' with
    | nil => cases hroles
    | cons turn rest' =>
        obtain ⟨hrole, hroles⟩ := List.cons.inj hroles
        have htext : turn.text ≠ [] := fun htext =>
          hnot ⟨data, _, hdata, hsystem, congrArg some htext⟩
        exact (reads_iff_system hdata hitems hobj hrole htext).mpr
          (array_reads hlead hread hroles)

/-- What is written is read for all texts that are UTF-8 only there. -/
theorem aligned_of_reads (h : extractTurns u body = some ts)
    (hall : ∀ ts', SameRoles ts ts' → Sendable ts' → ¬ EmptiesSystem u body ts' →
      Reads u body ts') : ObjectsFirst "contents" body ∧ ¬ TakesTurn u body := by
  obtain ⟨data, system, items, rest, hdata, hsystem, hitems, hread, rfl⟩ := of_extractTurns h
  have hfirst : ObjectsFirst "contents" body ↔ (contentCell u).Leading items :=
    objectsFirst_iff hdata hitems
  rw [hfirst, takesTurn_iff hdata hsystem hitems, ← array_put_get_iff hread]
  rcases systemTurns_cases hsystem with rfl | ⟨hobj, text, -, rfl⟩
  · have hkeep : ¬ (hasSystem data = true ∧ firstRole u items = some (.lit "system")) := by
      rintro ⟨hobj, hrole⟩
      obtain ⟨ts', hroles, hsend, hnot, hfail⟩ := exists_not_reads hdata hitems hread hobj hrole
      exact hfail (hall ts' hroles hsend hnot)
    refine ⟨fun ts' hroles hsend => ?_, fun ⟨hobj, _, hrole⟩ => hkeep ⟨hobj, hrole⟩⟩
    refine (reads_iff_plain hdata hitems hread hsystem hkeep hroles).mp (hall ts' hroles hsend ?_)
    rintro ⟨data', turn, hdata', hsystem', -⟩
    rw [hdata] at hdata'
    cases hdata'
    rw [hsystem] at hsystem'
    cases hsystem'
  · have hrole : (⟨.lit "system", .lit "."⟩ : PyTurn).role = .lit "system" := rfl
    have hpoint : (⟨.lit "system", .lit "."⟩ : PyTurn).text ≠ [] := by decide
    refine ⟨fun rest' hroles hsend => ?_, fun ⟨_, hnil, _⟩ => by cases hnil⟩
    refine (reads_iff_system hdata hitems hobj hrole hpoint).mp (hall _ ?_ ?_ ?_)
    · exact congrArg (PyStr.lit "system" :: ·) hroles
    · exact List.forall_mem_cons.mpr ⟨rfl, hsend⟩
    · rintro ⟨_, _, _, _, hempty⟩
      cases hempty

/-- There a body is encoded when what is left of it and the new texts can be. -/
theorem encodable_rewrite (h : extractTurns u body = some ts)
    (hfirst : ObjectsFirst "contents" body) (htakes : ¬ TakesTurn u body)
    (hroles : SameRoles ts ts') :
    ∃ value, rewrite u body ts' = some value ∧ value.encodable =
      ((kept u body).encodable && (ts'.map PyTurn.text).all PyStr.encodable) := by
  obtain ⟨data, system, items, rest, hdata, hsystem, hitems, hread, rfl⟩ := of_extractTurns h
  obtain rfl := eq_obj_of_asObj hdata
  have hlead : (contentCell u).Leading items := (objectsFirst_iff hdata hitems).mp hfirst
  rw [takesTurn_iff hdata hsystem hitems] at htakes
  rcases systemTurns_cases hsystem with rfl | ⟨hobj, text, -, rfl⟩
  · have hkeep := fun hrole : hasSystem data = true ∧ firstRole u items = some (.lit "system") =>
      htakes ⟨hrole.1, rfl, hrole.2⟩
    obtain ⟨contents, hzip, -, hrewrite⟩ :=
      rewrite_eq (u := u) hdata hitems (takeSystem_plain hread hkeep hroles)
    refine ⟨_, hrewrite, ?_⟩
    rw [kept, if_pos hsystem, encodable_setKey, encodable_setKey data "contents" (blankItems _ _),
      encodable_zipAssign fills hitems hlead (countP_eq_length hread hroles) hzip, Bool.and_assoc]
  · cases ts' with
    | nil => cases hroles
    | cons turn rest' =>
        obtain ⟨hrole, hroles⟩ := List.cons.inj hroles
        obtain ⟨contents, hzip, -, hrewrite⟩ :=
          rewrite_eq (u := u) hdata hitems (takeSystem_take hobj hrole rest')
        refine ⟨_, hrewrite, ?_⟩
        have hsome : systemTurns u data ≠ some [] := by
          rw [hsystem]
          exact fun heq => by cases heq
        have hinstruction : (obj [(.lit "parts", textParts turn.text)]).encodable =
            turn.text.encodable := by
          simp only [encodable_obj, List.all_cons, List.all_nil, PyStr.encodable_lit,
            encodable_textParts, Bool.true_and, Bool.and_true]
        have hne : PyStr.lit "contents" ≠ PyStr.lit "system_instruction" := by decide
        rw [kept, if_neg hsome, encodable_setKey, setKey, setKey,
          encodable_set_set (PyStr.encodable_lit _) hne, hinstruction,
          encodable_setKey (setKey data "system_instruction" null) "contents" (blankItems _ _),
          encodable_zipAssign fills hitems hlead (countP_eq_length hread hroles) hzip,
          List.map_cons, List.all_cons, setKey, setKey]
        ac_rfl

/-- Nothing keeps a body from being rebuilt that can be encoded, and its texts as well. -/
theorem rebuild_isSome (h : extractTurns u body = some ts) (hbody : body.encodable = true)
    (hsend : Sendable ts') : ((gemini u).rebuild body ts').isSome = true := by
  obtain ⟨data, system, items, rest, hdata, -, hitems, -, -⟩ := of_extractTurns h
  obtain rfl := eq_obj_of_asObj hdata
  cases htake : takeSystem data ts' with
  | mk data' remaining =>
      obtain ⟨contents, hzip, -, hrewrite⟩ := rewrite_eq (u := u) hdata hitems htake
      have hleft : (obj data').encodable = true ∧ Sendable remaining := by
        unfold takeSystem at htake
        split at htake
        · cases htake
          exact ⟨hbody, hsend⟩
        · obtain ⟨hturn, hremaining⟩ := List.forall_mem_cons.mp hsend
          split at htake
          · cases htake
            refine ⟨?_, hremaining⟩
            have hrest := encodable_set_null (PyStr.encodable_lit "system_instruction") hbody
            rw [encodable_setKey, setKey, hrest, encodable_obj, List.all_cons,
              encodable_textParts, hturn]
            rfl
          · cases htake
            exact ⟨hbody, hsend⟩
      have hencodable : (obj (setKey data' "contents" contents)).encodable = true := by
        have hrest := encodable_set_null (PyStr.encodable_lit "contents") hleft.1
        rw [encodable_setKey, setKey, hrest, Bool.true_and]
        refine encodable_zipAssign_of fills (encodable_getD hbody rfl) ?_ hzip
        exact List.all_eq_true.mp (sendable_iff.mpr hleft.2)
      show ((rewrite u _ ts').bind encode).isSome = true
      rw [hrewrite, Option.bind_some, encode, if_pos hencodable]
      rfl

/-- Where the objects come first and no turn of `contents` is taken for the system's, the law
holds of the texts that are UTF-8 and leave the system turn some text, if what is left of the
body is UTF-8. -/
theorem put_get_of_first (h : extractTurns u body = some ts)
    (hfirst : ObjectsFirst "contents" body) (htakes : ¬ TakesTurn u body)
    (hroles : SameRoles ts ts') :
    PutGet (gemini u) body ts' ↔
      (kept u body).encodable = true ∧ Sendable ts' ∧ ¬ EmptiesSystem u body ts' := by
  rw [putGet_iff_of_encodable (rewrite u) (fun _ _ => rfl)
    (encodable_rewrite h hfirst htakes hroles)]
  constructor
  · rintro ⟨hreads, hkept, hsend⟩
    exact ⟨hkept, hsend, fun hempty => not_reads_of_emptied h hroles hempty hreads⟩
  · rintro ⟨hkept, hsend, hnot⟩
    exact ⟨reads h hfirst htakes hroles hnot, hkept, hsend⟩

/-- The law holds for all texts that are UTF-8 and leave the system turn some text,
exactly when the objects come first, no turn of `contents` is taken for the system's
and what is left of the body is UTF-8. -/
theorem put_get_iff (h : extractTurns u body = some ts) :
    (∀ ts', SameRoles ts ts' → Sendable ts' → ¬ EmptiesSystem u body ts' →
        PutGet (gemini u) body ts') ↔
      ObjectsFirst "contents" body ∧ ¬ TakesTurn u body ∧ (kept u body).encodable = true := by
  constructor
  · intro hall
    obtain ⟨hfirst, htakes⟩ := aligned_of_reads h fun ts' hroles hsend hnot =>
      ((putGet_iff (rewrite u) fun _ _ => rfl).mp (hall ts' hroles hsend hnot)).1
    have hnot : ¬ EmptiesSystem u body (pointed ts) := by
      rintro ⟨_, _, _, _, hempty⟩
      rw [pointed, List.head?_map] at hempty
      cases ts with
      | nil => cases hempty
      | cons turn ts => cases hempty
    have hpointed := hall (pointed ts) (sameRoles_pointed ts) (sendable_pointed ts) hnot
    exact ⟨hfirst, htakes, ((put_get_of_first h hfirst htakes (sameRoles_pointed ts)).mp
      hpointed).1⟩
  · rintro ⟨hfirst, htakes, hkept⟩ ts' hroles hsend hnot
    exact (put_get_of_first h hfirst htakes hroles).mpr ⟨hkept, hsend, hnot⟩

end Whole

end Gemini

/-! ## The law -/

/-- **When the stages' texts are what is sent.** The gateway adapter reads back
every list of turns that it is given for a body, with texts that are UTF-8, exactly
when no object stands behind another item in `messages` and what is left of the body
is UTF-8. The Gemini adapter reads back every such list that leaves the turn of
`system_instruction` some text, exactly when no object stands behind another item in
`contents`, no turn of `contents` is taken for a `system_instruction` without text,
and what is left of the body is UTF-8. Where the places are right, no other list is
read back, and one that empties the turn of `system_instruction` nowhere. -/
theorem rebuilt_turns_read_back_iff (body : Json) (ts : List PyTurn) :
    ((gateway u).extractTurns body = some ts →
      ((∀ ts', SameRoles ts ts' → Sendable ts' → PutGet (gateway u) body ts') ↔
        ObjectsFirst "messages" body ∧ (Gateway.kept body).encodable = true) ∧
      (ObjectsFirst "messages" body → ∀ ts', SameRoles ts ts' →
        (PutGet (gateway u) body ts' ↔ (Gateway.kept body).encodable = true ∧ Sendable ts'))) ∧
    ((gemini u).extractTurns body = some ts →
      ((∀ ts', SameRoles ts ts' → Sendable ts' → ¬ Gemini.EmptiesSystem u body ts' →
          PutGet (gemini u) body ts') ↔
        ObjectsFirst "contents" body ∧ ¬ Gemini.TakesTurn u body ∧
          (Gemini.kept u body).encodable = true) ∧
      (ObjectsFirst "contents" body → ¬ Gemini.TakesTurn u body → ∀ ts', SameRoles ts ts' →
        (PutGet (gemini u) body ts' ↔ (Gemini.kept u body).encodable = true ∧ Sendable ts' ∧
          ¬ Gemini.EmptiesSystem u body ts')) ∧
      ∀ ts', SameRoles ts ts' → Gemini.EmptiesSystem u body ts' →
        ¬ PutGet (gemini u) body ts') := by
  refine ⟨fun h => ⟨Gateway.put_get_iff h, ?_⟩, fun h => ⟨Gemini.put_get_iff h, ?_, ?_⟩⟩
  · exact fun hfirst _ hroles => Gateway.put_get_of_first h hfirst hroles
  · exact fun hfirst htakes _ hroles => Gemini.put_get_of_first h hfirst htakes hroles
  · intro ts' hroles hempty hputget
    have hreads := ((putGet_iff (Gemini.rewrite u) fun _ _ => rfl).mp hputget).1
    exact Gemini.not_reads_of_emptied h hroles hempty hreads

/-- `{"role": "user", "content": text}`. -/
def userMessage (text : PyStr) : Json :=
  obj [(.lit "role", str (.lit "user")), (.lit "content", str text)]

/-- `{"role": role, "parts": [{"text": text}]}`. -/
def content (role text : PyStr) : Json :=
  obj [(.lit "role", str role), (.lit "parts", Gemini.textParts text)]

/-- A message before and a string after. -/
theorem rebuilt_turns_read_back_sample :
    ∀ ts', SameRoles [⟨.lit "user", .lit "p"⟩] ts' → Sendable ts' →
      PutGet (gateway .ascii)
        (obj [(.lit "messages", arr [userMessage (.lit "p"), str (.lit "x")])]) ts' := by
  refine ((rebuilt_turns_read_back_iff .ascii _ [⟨.lit "user", .lit "p"⟩]).1 ?_).1.mpr ⟨?_, ?_⟩
  · decide +kernel
  · rw [objectsFirst_iff rfl rfl]
    simp [isObj, asObj, userMessage]
  · decide +kernel

/-- A string before the message: the message keeps its text and the text meant
for it is lost. A first content of role system under a `system_instruction`
without text: its text goes to both places and an extra turn comes back. A key
beside the messages with an unpaired surrogate: there is no body to send. -/
theorem rebuilt_turns_drift :
    (let body := obj [(.lit "messages", arr [str (.lit "x"), userMessage (.lit "p")])]
     (gateway .ascii).extractTurns body = some [⟨.lit "user", .lit "p"⟩] ∧
       SameRoles [⟨.lit "user", .lit "p"⟩] [⟨.lit "user", .lit "q"⟩] ∧
       ((gateway .ascii).rebuild body [⟨.lit "user", .lit "q"⟩]).bind
         (gateway .ascii).extractTurns = some [⟨.lit "user", .lit "p"⟩]) ∧
    (let body := obj [(.lit "system_instruction", obj []),
        (.lit "contents", arr [content (.lit "system") (.lit "p")])]
     (gemini .ascii).extractTurns body = some [⟨.lit "system", .lit "p"⟩] ∧
       SameRoles [⟨.lit "system", .lit "p"⟩] [⟨.lit "system", .lit "q"⟩] ∧
       ((gemini .ascii).rebuild body [⟨.lit "system", .lit "q"⟩]).bind
         (gemini .ascii).extractTurns =
         some [⟨.lit "system", .lit "q"⟩, ⟨.lit "system", .lit "p"⟩]) ∧
    (let body := obj [(.lit "x", str [.surrogate 0]),
        (.lit "messages", arr [userMessage (.lit "p")])]
     (gateway .ascii).extractTurns body = some [⟨.lit "user", .lit "p"⟩] ∧
       ((gateway .ascii).rebuild body [⟨.lit "user", .lit "q"⟩]).isNone) := by
  refine ⟨⟨?_, rfl, ?_⟩, ⟨?_, rfl, ?_⟩, ?_, ?_⟩ <;> decide +kernel

end DlpServer.Adapters
