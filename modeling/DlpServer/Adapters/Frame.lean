import DlpServer.Adapters.PutGet

/-!
# What a rebuilt body leaves alone

`rebuild` writes every turn back, changed or not. An unchanged turn is the same
JSON value again only where its text was all there was: a `content` that is a
string, `parts` that are one part with a text and nothing else. A `content` that
is `null`, missing or a list becomes a string. And the whole body has to be UTF-8.
-/

namespace DlpServer.Adapters

open Json Traversal

variable {u : Unicode}

/-! ## The frame law -/

/-- `value'` is `value`, or the same object with another value under `key`. -/
def OnlyAt (key : String) (value value' : Json) : Prop :=
  value' = value ∨ ∃ fields new, value = obj fields ∧ value' = obj (setKey fields key new)

/-- The text read and the text given, turn by turn. -/
def textPairs (ts ts' : List PyTurn) : List (PyStr × PyStr) :=
  (ts.map PyTurn.text).zip (ts'.map PyTurn.text)

/-- Each text is the one read, or UTF-8. -/
def Renewed (ts ts' : List PyTurn) : Prop := Cell.Allowed (·.encodable = true) (textPairs ts ts')

/-- Of the items under a key, only objects whose turn has a new text differ, and
only at `part`. -/
def ItemsKept (part : String) (pairs : List (PyStr × PyStr)) : Json → Json → Prop
  | arr items, arr items' => Frame Json.isObj (OnlyAt part) items pairs items'
  | value, value' => value' = value

/-- The dictionaries differ at most at `key`: a value that is there may be replaced
by one it is `kept` in, and no value is put where there was none. -/
def KeptAt (key : String) (kept : Json → Json → Prop) (data data' : Dict PyStr Json) : Prop :=
  match Dict.get? (.lit key) data with
  | some value => ∃ value', kept value value' ∧ data' = setKey data key value'
  | none => data' = data

/-- The objects that stand among the first items under the key, as many of them as
there are objects, come before other items, and each is `plain`. -/
def WrittenInPlace (key : String) (plain : Dict PyStr Json → Prop) (body : Json) : Prop :=
  ∃ data value items, body.asObj = some data ∧ Dict.get? (.lit key) data = some value ∧
    value.iterate = some items ∧
    ((items.take (items.countP isObj)).Pairwise fun a b => b.isObj = true → a.isObj = true) ∧
    ∀ fields, obj fields ∈ items.take (items.countP isObj) → plain fields

/-- The message that `rebuild` makes of an unchanged turn is the message. -/
def Gateway.Plain (msg : Dict PyStr Json) : Prop :=
  ∃ text, Dict.get? (.lit "content") msg = some (str text)

def Gemini.Plain (holder : Dict PyStr Json) : Prop :=
  ∃ text, Dict.get? (.lit "parts") holder = some (Gemini.textParts text)

/-- The frame law of the gateway adapter. -/
def Gateway.Framed (body : Json) (pairs : List (PyStr × PyStr)) (body' : Json) : Prop :=
  ∃ data data', body = obj data ∧ body' = obj data' ∧
    KeptAt "messages" (ItemsKept "content" pairs) data data'

/-- `system_instruction` differs at most at `parts`, if its turn has a new text. -/
def Gemini.SystemKept (pairs : List (PyStr × PyStr)) (value value' : Json) : Prop :=
  value' = value ∨ (∃ pair ∈ pairs, pair.1 ≠ pair.2) ∧ OnlyAt "parts" value value'

/-- The frame law of the Gemini adapter: the pairs of the turn made of
`system_instruction`, if there is one, come first. -/
def Gemini.Framed (u : Unicode) (body : Json) (pairs : List (PyStr × PyStr)) (body' : Json) : Prop :=
  ∃ data system between data', body = obj data ∧ body' = obj data' ∧
    Gemini.systemTurns u data = some system ∧
    KeptAt "system_instruction" (Gemini.SystemKept (pairs.take system.length)) data between ∧
    KeptAt "contents" (ItemsKept "parts" (pairs.drop system.length)) between data'

/-- `system_instruction` is `{"parts": [{"text": text}]}` when a turn is made of it. -/
def Gemini.PlainSystem (u : Unicode) (body : Json) : Prop :=
  ∀ data turn, body.asObj = some data → Gemini.systemTurns u data = some [turn] →
    Dict.get? (.lit "system_instruction") data =
      some (obj [(.lit "parts", Gemini.textParts turn.text)])

/-! ## One key -/

/-- Every list of new texts is the texts of some turns with the same roles. -/
theorem exists_turns {ts : List PyTurn} {texts : List PyStr} (h : texts.length = ts.length) :
    ∃ ts', SameRoles ts ts' ∧ ts'.map PyTurn.text = texts := by
  induction ts generalizing texts with
  | nil =>
      obtain rfl := List.eq_nil_of_length_eq_zero h
      exact ⟨[], rfl, rfl⟩
  | cons turn ts ih =>
      obtain ⟨text, texts, rfl⟩ := List.exists_cons_of_length_eq_add_one h
      obtain ⟨ts', hroles, rfl⟩ := ih (Nat.succ.inj h)
      exact ⟨⟨turn.role, text⟩ :: ts', congrArg (turn.role :: ·) hroles, rfl⟩

theorem OnlyAt.refl {key : String} (value : Json) : OnlyAt key value value := Or.inl rfl

theorem getD_of_get? {data : Dict PyStr Json} {key : String} {value : Json} (default : Json)
    (h : Dict.get? (.lit key) data = some value) : getD data key default = value := by
  rw [getD, h]
  rfl

theorem setKey_get? {data : Dict PyStr Json} {key : String} {value : Json}
    (h : Dict.get? (.lit key) data = some value) : setKey data key value = data :=
  Dict.set_get? h

theorem get?_setKey_self (data : Dict PyStr Json) (key : String) (value : Json) :
    Dict.get? (.lit key) (setKey data key value) = some value := by
  rw [setKey, Dict.get?_set, if_pos rfl]

theorem keptAt_setKey {key : String} {kept : Json → Json → Prop} {data : Dict PyStr Json}
    {value' : Json} :
    KeptAt key kept data (setKey data key value') ↔
      ∃ value, Dict.get? (.lit key) data = some value ∧ kept value value' := by
  rw [KeptAt]
  cases hget : Dict.get? (.lit key) data with
  | none =>
      refine ⟨fun h => ?_, fun ⟨_, hnone, _⟩ => by cases hnone⟩
      have := congrArg (Dict.get? (.lit key)) h
      rw [get?_setKey_self, hget] at this
      cases this
  | some value =>
      constructor
      · rintro ⟨new, hkept, heq⟩
        have := congrArg (Dict.get? (.lit key)) heq
        rw [get?_setKey_self, get?_setKey_self] at this
        cases this
        exact ⟨value, rfl, hkept⟩
      · rintro ⟨_, heq, hkept⟩
        cases heq
        exact ⟨value', hkept, rfl⟩

/-- A dictionary is kept at another key as it is. -/
theorem KeptAt.get?_eq {key key' : String} (hne : key ≠ key') {kept : Json → Json → Prop}
    {data data' : Dict PyStr Json} (h : KeptAt key kept data data') :
    Dict.get? (.lit key') data' = Dict.get? (.lit key') data := by
  rw [KeptAt] at h
  split at h
  · obtain ⟨value', -, rfl⟩ := h
    exact get?_setKey hne data value'
  · rw [h]

section Items

variable {C : Cell Json PyStr PyStr}

/-- What `rebuild` puts under the key keeps the items as the writer keeps them. -/
theorem itemsKept_zipAssign (hC : C.isCell = Json.isObj) {part : String} {value : Json}
    {items : List Json} (hitems : value.iterate = some items) {pairs : List (PyStr × PyStr)}
    (hlength : pairs.length = items.countP Json.isObj) (texts : List PyStr) :
    ∃ value', zipAssign C value texts = some value' ∧
      (ItemsKept part pairs value value' ↔
        Frame Json.isObj (OnlyAt part) items pairs (C.writeAll items texts)) := by
  have hkeep : ∀ {β : Type} (f : β → PyStr) (keys : List β),
      items = (keys.map fun key => str (f key)) →
      Frame Json.isObj (OnlyAt part) items pairs (C.writeAll items texts) := by
    intro β f keys heq
    rw [Cell.writeAll_none]
    · exact Frame.refl OnlyAt.refl hlength
    · intro item hitem
      rw [heq] at hitem
      obtain ⟨key, -, rfl⟩ := List.mem_map.mp hitem
      rw [hC]
      rfl
  cases value with
  | arr items' =>
      cases hitems
      exact ⟨_, rfl, Iff.rfl⟩
  | str s =>
      cases hitems
      exact ⟨_, rfl, fun _ => hkeep (fun c => [c]) s rfl, fun _ => rfl⟩
  | obj fields =>
      cases hitems
      exact ⟨_, rfl, fun _ => hkeep Prod.fst fields rfl, fun _ => rfl⟩
  | null | bool | int | float => cases hitems

/-- **One key.** For every list of new texts the rebuilt items are kept but for the
changed ones, exactly when the key is there and each object within reach comes
first and is the same after its own text is written to it. -/
theorem keptAt_iff (hC : C.isCell = Json.isObj) {key part : String}
    (hwrite : ∀ item text, OnlyAt part item (C.write item text)) {plain : Dict PyStr Json → Prop}
    (hplain : ∀ fields r t, C.read (obj fields) = some (r, t) →
      (C.write (obj fields) t = obj fields ↔ plain fields))
    {data : Dict PyStr Json} {items : List Json} {cells : List (PyStr × PyStr)}
    (hitems : (getD data key (arr [])).iterate = some items)
    (hread : C.readAll items = some cells) :
    (∀ texts, texts.length = cells.length →
        Cell.Allowed (·.encodable = true) ((cells.map Prod.snd).zip texts) →
      ∃ value', zipAssign C (getD data key (arr [])) texts = some value' ∧
        KeptAt key (ItemsKept part ((cells.map Prod.snd).zip texts)) data
          (setKey data key value')) ↔ WrittenInPlace key plain (obj data) := by
  have hcount : cells.length = items.countP Json.isObj := hC ▸ Cell.length_of_readAll hread
  have hzip : ∀ texts : List PyStr, texts.length = cells.length →
      ((cells.map Prod.snd).zip texts).length = items.countP Json.isObj := by
    intro texts hlength
    rw [List.length_zip, List.length_map, hlength, Nat.min_self, hcount]
  have hframe := Cell.frame_iff varied_encodable (OnlyAt part) OnlyAt.refl hwrite hread
  have hstable : (∀ item ∈ items.take cells.length, C.isCell item = true → C.Stable item) ↔
      ∀ fields, obj fields ∈ items.take cells.length → plain fields := by
    constructor
    · intro h fields hmem
      have hcell : C.isCell (obj fields) = true := by
        rw [hC]
        rfl
      obtain ⟨r, t, hfields⟩ := Cell.read_of_readAll hread (List.mem_of_mem_take hmem) hcell
      exact (hplain fields r t hfields).mp (h _ hmem hcell r t hfields)
    · intro h item hmem hcell r t hfields
      rw [hC] at hcell
      cases item with
      | obj fields => exact (hplain fields r t hfields).mpr (h fields hmem)
      | _ => cases hcell
  rw [hstable, hcount, hC] at hframe
  constructor
  · intro h
    obtain ⟨value', hvalue', hkept⟩ := h (cells.map Prod.snd) (List.length_map _)
      (Cell.allowed_same _)
    obtain ⟨value, hget, -⟩ := keptAt_setKey.mp hkept
    have hvalue := getD_of_get? (arr []) hget
    refine ⟨data, value, items, rfl, hget, hvalue ▸ hitems, ?_⟩
    have hlead := hframe.mp fun texts hlength hallowed => ?_
    · rw [Cell.Leading, hC] at hlead
      exact hlead
    · obtain ⟨value', hvalue', hkept⟩ := h texts (hcount ▸ hlength) hallowed
      obtain ⟨_, hget', hkept⟩ := keptAt_setKey.mp hkept
      obtain ⟨_, hvalue'', hiff⟩ := itemsKept_zipAssign hC hitems
        (hzip texts (hcount ▸ hlength)) texts
      rw [hvalue'] at hvalue''
      cases hvalue''
      rw [hget] at hget'
      cases hget'
      rw [hvalue] at hiff
      exact hiff.mp hkept
  · rintro ⟨data', value, items', hdata, hget, hitems', hlead, hall⟩ texts hlength hallowed
    cases hdata
    have hvalue := getD_of_get? (arr []) hget
    rw [hvalue] at hitems ⊢
    rw [hitems] at hitems'
    cases hitems'
    obtain ⟨value', hvalue', hiff⟩ := itemsKept_zipAssign hC hitems (hzip texts hlength) texts
    refine ⟨value', hvalue', keptAt_setKey.mpr ⟨value, hget, hiff.mpr ?_⟩⟩
    refine hframe.mpr ⟨?_, hall⟩ texts (hcount ▸ hlength) hallowed
    rw [Cell.Leading, hC]
    exact hlead

end Items

/-- New texts for turns that are text are text. -/
theorem Renewed.sendable {ts ts' : List PyTurn} (h : Renewed ts ts') (hlegible : Legible ts)
    (hroles : SameRoles ts ts') : Sendable ts' := by
  intro turn hturn
  obtain ⟨i, hi, rfl⟩ := List.getElem_of_mem hturn
  have hi' : i < ts.length := hroles.length_eq ▸ hi
  have hpair : (ts[i].text, ts'[i].text) ∈ textPairs ts ts' := by
    rw [textPairs, List.mem_iff_getElem]
    refine ⟨i, by simp [hi, hi'], by simp⟩
  rcases h _ hpair with heq | hencodable
  · rw [show ts'[i].text = ts[i].text from heq]
    exact (hlegible _ (List.getElem_mem hi')).2
  · exact hencodable

theorem renewed_self (ts : List PyTurn) : Renewed ts ts := Cell.allowed_same _

theorem textPairs_self {ts : List PyTurn} : ∀ pair ∈ textPairs ts ts, pair.1 = pair.2 := by
  intro pair hpair
  rw [textPairs, List.zip_eq_zipWith, List.zipWith_self] at hpair
  obtain ⟨text, -, rfl⟩ := List.mem_map.mp hpair
  rfl

/-- With no new text the items are kept only when they are the same. -/
theorem itemsKept_same {part : String} {pairs : List (PyStr × PyStr)}
    (hsame : ∀ pair ∈ pairs, pair.1 = pair.2) {value value' : Json}
    (h : ItemsKept part pairs value value') : value' = value := by
  cases value with
  | arr items =>
      cases value' with
      | arr items' => exact congrArg arr (Frame.eq_of_same h hsame)
      | _ => cases h
  | _ => cases value' <;> exact h

theorem KeptAt.eq {key : String} {kept : Json → Json → Prop}
    (hkept : ∀ value value', kept value value' → value' = value) {data data' : Dict PyStr Json}
    (h : KeptAt key kept data data') : data' = data := by
  rw [KeptAt] at h
  split at h
  · rename_i value hget
    obtain ⟨value', hvalue', rfl⟩ := h
    rw [hkept value value' hvalue', setKey_get? hget]
  · exact h

theorem keptAt_self {key : String} {kept : Json → Json → Prop} {data : Dict PyStr Json}
    (hrefl : ∀ value, kept value value) : KeptAt key kept data data := by
  rw [KeptAt]
  split
  · rename_i value hget
    exact ⟨value, hrefl value, (setKey_get? hget).symm⟩
  · rfl

/-- The law of an adapter from the law up to encoding, where unchanged texts leave one
body, the same. -/
theorem rebuilt_iff {A : Adapter} (rewrite : Json → List PyTurn → Option Json)
    (hrebuild : ∀ body ts', A.rebuild body ts' = (rewrite body ts').bind encode)
    {framed : Json → List (PyStr × PyStr) → Json → Prop} {body : Json} {ts : List PyTurn}
    (hsame : ∀ {body body' : Json} {pairs : List (PyStr × PyStr)},
      (∀ pair ∈ pairs, pair.1 = pair.2) → framed body pairs body' → body' = body)
    (hsome : body.encodable = true → ∀ ts', SameRoles ts ts' → Renewed ts ts' →
      (A.rebuild body ts').isSome = true) :
    (∀ ts', SameRoles ts ts' → Renewed ts ts' → ∃ body',
        A.rebuild body ts' = some body' ∧ framed body (textPairs ts ts') body') ↔
      (∀ ts', SameRoles ts ts' → Renewed ts ts' → ∃ body',
        rewrite body ts' = some body' ∧ framed body (textPairs ts ts') body') ∧
      body.encodable = true := by
  have hencoded : ∀ {ts' body'}, A.rebuild body ts' = some body' →
      rewrite body ts' = some body' ∧ body'.encodable = true := by
    intro ts' body' h
    rw [hrebuild] at h
    obtain ⟨value, hvalue, hencode⟩ := Option.bind_eq_some_iff.mp h
    obtain ⟨hencodable, rfl⟩ := encode_eq_some.mp hencode
    exact ⟨hvalue, hencodable⟩
  constructor
  · intro hall
    constructor
    · intro ts' hroles hrenewed
      obtain ⟨body', hbody', hframed⟩ := hall ts' hroles hrenewed
      exact ⟨body', (hencoded hbody').1, hframed⟩
    · obtain ⟨body', hbody', hframed⟩ := hall ts rfl (renewed_self ts)
      rw [← hsame textPairs_self hframed]
      exact (hencoded hbody').2
  · rintro ⟨hall, hbody⟩ ts' hroles hrenewed
    obtain ⟨value, hvalue, hframed⟩ := hall ts' hroles hrenewed
    obtain ⟨body', hbody'⟩ := Option.isSome_iff_exists.mp (hsome hbody ts' hroles hrenewed)
    have hsame := (hencoded hbody').1
    rw [hvalue] at hsame
    cases hsame
    exact ⟨value, hbody', hframed⟩

/-! ## The gateway -/

namespace Gateway

/-- With no new text the law leaves one body: the same. -/
theorem eq_of_framed {body body' : Json} {pairs : List (PyStr × PyStr)}
    (hsame : ∀ pair ∈ pairs, pair.1 = pair.2) (h : Framed body pairs body') : body' = body := by
  obtain ⟨data, data', rfl, rfl, hkept⟩ := h
  rw [hkept.eq fun _ _ => itemsKept_same hsame]

theorem onlyAt_writeMessage (msg : Json) (text : PyStr) :
    OnlyAt "content" msg (writeMessage msg text) := by
  cases msg with
  | obj fields => exact Or.inr ⟨fields, str text, rfl, rfl⟩
  | _ => exact OnlyAt.refl _

/-- A message is the same after its own text is written to it when `content` is a
string. -/
theorem writeMessage_eq_iff (msg : Dict PyStr Json) (r : PyStr) (t : PyStr)
    (hread : readMessage u (obj msg) = some (r, t)) :
    writeMessage (obj msg) t = obj msg ↔ Plain msg := by
  cases hread
  constructor
  · intro h
    have hkey := Json.obj.inj h
    refine ⟨(getD msg "content" (str [])).pyStr u, ?_⟩
    conv_lhs => rw [← hkey]
    exact get?_setKey_self msg "content" _
  · rintro ⟨text, hget⟩
    rw [getD_of_get? _ hget]
    exact congrArg obj (setKey_get? hget)

/-- The law up to encoding: it holds for all new texts exactly when every text is written
in place. -/
theorem frame_rewrite_iff {body : Json} {ts : List PyTurn} (h : extractTurns u body = some ts) :
    (∀ ts', SameRoles ts ts' → Renewed ts ts' →
      ∃ body', rewrite u body ts' = some body' ∧ Framed body (textPairs ts ts') body') ↔
      WrittenInPlace "messages" Plain body := by
  obtain ⟨data, items, hdata, hitems, hread⟩ := of_extractTurns h
  obtain rfl := eq_obj_of_asObj hdata
  rw [← keptAt_iff (C := messageCell u) rfl onlyAt_writeMessage writeMessage_eq_iff hitems hread]
  have hlaw : ∀ ts' : List PyTurn,
      (∃ body', rewrite u (obj data) ts' = some body' ∧
        Framed (obj data) (textPairs ts ts') body') ↔
      ∃ value', zipAssign (messageCell u) (getD data "messages" (arr [])) (ts'.map PyTurn.text) =
          some value' ∧
        KeptAt "messages" (ItemsKept "content" (((ts.map cellOf).map Prod.snd).zip
          (ts'.map PyTurn.text))) data (setKey data "messages" value') := by
    intro ts'
    rw [map_snd_cellOf]
    constructor
    · rintro ⟨body', hrewrite, data₀, data', heq, rfl, hkept⟩
      cases heq
      obtain ⟨value', hzip, heq⟩ := Option.bind_eq_some_iff.mp hrewrite
      cases heq
      exact ⟨value', hzip, hkept⟩
    · rintro ⟨value', hzip, hkept⟩
      refine ⟨_, ?_, data, _, rfl, rfl, hkept⟩
      show (zipAssign (messageCell u) (getD data "messages" (arr []))
        (ts'.map PyTurn.text)).bind _ = _
      rw [hzip]
      rfl
  constructor
  · intro hall texts hlength hallowed
    rw [List.length_map] at hlength
    obtain ⟨ts', hroles, rfl⟩ := exists_turns hlength
    rw [map_snd_cellOf] at hallowed
    exact (hlaw ts').mp (hall ts' hroles hallowed)
  · intro hall ts' hroles hrenewed
    refine (hlaw ts').mpr (hall (ts'.map PyTurn.text) ?_ ?_)
    · rw [List.length_map, List.length_map, hroles.length_eq]
    · rw [map_snd_cellOf]
      exact hrenewed

/-- The law holds for all new texts exactly when every text is written in place and the
body is UTF-8. -/
theorem frame_iff {body : Json} {ts : List PyTurn} (h : extractTurns u body = some ts) :
    (∀ ts', SameRoles ts ts' → Renewed ts ts' → ∃ body',
        (gateway u).rebuild body ts' = some body' ∧ Framed body (textPairs ts ts') body') ↔
      WrittenInPlace "messages" Plain body ∧ body.encodable = true := by
  rw [← frame_rewrite_iff h]
  exact rebuilt_iff (rewrite u) (fun _ _ => rfl) eq_of_framed fun hbody ts' hroles hrenewed =>
    rebuild_isSome h hbody (hrenewed.sendable (legible_extractTurns hbody h) hroles)

end Gateway

/-! ## Gemini -/

namespace Gemini

/-- With no new text the law leaves one body: the same. -/
theorem eq_of_framed {body body' : Json} {pairs : List (PyStr × PyStr)}
    (hsame : ∀ pair ∈ pairs, pair.1 = pair.2) (h : Framed u body pairs body') :
    body' = body := by
  obtain ⟨data, system, between, data', rfl, rfl, -, hsystem, hcontents⟩ := h
  have hbetween : between = data := by
    apply hsystem.eq
    rintro value value' (heq | ⟨⟨pair, hpair, hne⟩, -⟩)
    · exact heq
    · exact absurd (hsame pair (List.mem_of_mem_take hpair)) hne
  have hdata' : data' = between := hcontents.eq fun _ _ =>
    itemsKept_same fun pair hpair => hsame pair (List.mem_of_mem_drop hpair)
  rw [hdata', hbetween]

theorem onlyAt_writeContent (item : Json) (text : PyStr) :
    OnlyAt "parts" item (writeContent item text) := by
  cases item with
  | obj fields => exact Or.inr ⟨fields, textParts text, rfl, rfl⟩
  | _ => exact OnlyAt.refl _

theorem partsText_of_plain {holder : Dict PyStr Json} {text : PyStr}
    (h : Dict.get? (.lit "parts") holder = some (textParts text)) :
    partsText u holder = some text := by
  rw [← partsText_textParts (u := u) holder text, setKey_get? h]

/-- A content is the same after its own text is written to it when `parts` is one
part with nothing but a text. -/
theorem writeContent_eq_iff (item : Dict PyStr Json) (r : PyStr) (t : PyStr)
    (hread : readContent u (obj item) = some (r, t)) :
    writeContent (obj item) t = obj item ↔ Plain item := by
  obtain ⟨role, -, hread⟩ := Option.bind_eq_some_iff.mp hread
  obtain ⟨text, htext, heq⟩ := Option.bind_eq_some_iff.mp hread
  cases heq
  constructor
  · intro h
    have hkey := Json.obj.inj h
    refine ⟨t, ?_⟩
    conv_lhs => rw [← hkey]
    exact get?_setKey_self item "parts" _
  · rintro ⟨text', hget⟩
    rw [partsText_of_plain hget] at htext
    cases htext
    exact congrArg obj (setKey_get? hget)

section Law

variable {data between data' : Dict PyStr Json} {items : List Json} {rest rest' : List PyTurn}

/-- The law for `contents`, with the turns that are left for it. -/
theorem contents_iff (hitems : (getD data "contents" (arr [])).iterate = some items)
    (hread : (contentCell u).readAll items = some (rest.map cellOf)) :
    (∀ rest', SameRoles rest rest' → Renewed rest rest' →
      ∃ value', zipAssign (contentCell u) (getD data "contents" (arr []))
          (rest'.map PyTurn.text) = some value' ∧
        KeptAt "contents" (ItemsKept "parts" (textPairs rest rest')) data
          (setKey data "contents" value')) ↔
      WrittenInPlace "contents" Plain (obj data) := by
  rw [← keptAt_iff (C := contentCell u) rfl onlyAt_writeContent writeContent_eq_iff hitems hread]
  rw [map_snd_cellOf]
  constructor
  · intro hall texts hlength hallowed
    rw [List.length_map] at hlength
    obtain ⟨rest', hroles, rfl⟩ := exists_turns hlength
    exact hall rest' hroles hallowed
  · intro hall rest' hroles hrenewed
    refine hall (rest'.map PyTurn.text) ?_ hrenewed
    rw [List.length_map, List.length_map, hroles.length_eq]

/-- What `rebuild` makes of the body, in terms of the two keys. -/
theorem rewrite_obj (u : Unicode) {ts' : List PyTurn}
    (htake : takeSystem data ts' = (between, rest')) :
    rewrite u (obj data) ts' =
      (zipAssign (contentCell u) (getD between "contents" (arr [])) (rest'.map PyTurn.text)).map
        fun value' => obj (setKey between "contents" value') := by
  rw [Option.map_eq_bind, rewrite, asObj_obj]
  simp only [Option.bind_eq_bind, Option.bind_some, htake]
  rfl

theorem systemKept_nil (value value' : Json) : SystemKept [] value value' ↔ value' = value := by
  simp [SystemKept]

theorem systemKept_same {text : PyStr} (value value' : Json) :
    SystemKept [(text, text)] value value' ↔ value' = value := by
  simp [SystemKept]

/-- No turn is made of `system_instruction`: the law is that of `contents`. -/
theorem framed_of_no_system (hsystem : systemTurns u data = some [])
    (pairs : List (PyStr × PyStr)) (value' : Json) :
    Framed u (obj data) pairs (obj (setKey data "contents" value')) ↔
      KeptAt "contents" (ItemsKept "parts" pairs) data (setKey data "contents" value') := by
  constructor
  · rintro ⟨data₀, system, between, data', heq, heq', hsystem', hkept, hcontents⟩
    cases heq
    cases heq'
    rw [hsystem] at hsystem'
    cases hsystem'
    rwa [hkept.eq fun _ _ => (systemKept_nil _ _).mp] at hcontents
  · intro hcontents
    exact ⟨data, [], data, _, rfl, rfl, hsystem,
      keptAt_self fun value => (systemKept_nil value value).mpr rfl, hcontents⟩

/-- A turn of `contents` written to `system_instruction` breaks the law. -/
theorem not_framed_of_taken (hsystem : systemTurns u data = some []) {text : PyStr}
    (htext : text ≠ []) (pairs : List (PyStr × PyStr)) (value' : Json) :
    ¬ Framed u (obj data) pairs (obj (setKey (setKey data "system_instruction"
      (obj [(.lit "parts", textParts text)])) "contents" value')) := by
  rintro ⟨data₀, system, between, data', heq, heq', hsystem', hkept, hcontents⟩
  cases heq
  cases heq'
  rw [hsystem] at hsystem'
  cases hsystem'
  rw [hkept.eq fun _ _ => (systemKept_nil _ _).mp] at hcontents
  -- The system turn of the rebuilt body would be that of the body.
  have hsame := hcontents.get?_eq (show "contents" ≠ "system_instruction" by decide)
  rw [get?_setKey (by decide), get?_setKey_self] at hsame
  have hturns := systemTurns_setSystem (u := u) data text
  rw [setKey_get? hsame.symm, hsystem, if_neg htext] at hturns
  cases hturns

/-- The turn of `system_instruction` is written to it: the law is that of both keys. -/
theorem framed_of_system {text text' : PyStr}
    (hsystem : systemTurns u data = some [⟨.lit "system", text⟩]) (pairs : List (PyStr × PyStr))
    (value' : Json) :
    Framed u (obj data) ((text, text') :: pairs)
        (obj (setKey (setKey data "system_instruction"
          (obj [(.lit "parts", textParts text')])) "contents" value')) ↔
      (∃ value, Dict.get? (.lit "system_instruction") data = some value ∧
        SystemKept [(text, text')] value (obj [(.lit "parts", textParts text')])) ∧
      KeptAt "contents" (ItemsKept "parts" pairs)
        (setKey data "system_instruction" (obj [(.lit "parts", textParts text')]))
        (setKey (setKey data "system_instruction"
          (obj [(.lit "parts", textParts text')])) "contents" value') := by
  constructor
  · rintro ⟨data₀, system, between, data', heq, heq', hsystem', hkept, hcontents⟩
    cases heq
    cases heq'
    rw [hsystem] at hsystem'
    cases hsystem'
    have hsame := hcontents.get?_eq (show "contents" ≠ "system_instruction" by decide)
    rw [get?_setKey (by decide), get?_setKey_self] at hsame
    have hbetween : between =
        setKey data "system_instruction" (obj [(.lit "parts", textParts text')]) := by
      have hkept' := hkept
      rw [KeptAt] at hkept'
      split at hkept'
      · obtain ⟨new, -, rfl⟩ := hkept'
        rw [get?_setKey_self] at hsame
        rw [Option.some.inj hsame]
      · rw [hkept', setKey_get? (hkept' ▸ hsame.symm)]
    rw [hbetween] at hkept hcontents
    exact ⟨keptAt_setKey.mp hkept, hcontents⟩
  · rintro ⟨hkept, hcontents⟩
    exact ⟨data, _, _, _, rfl, rfl, hsystem, keptAt_setKey.mpr hkept, hcontents⟩

theorem frame_iff_plain (hitems : (getD data "contents" (arr [])).iterate = some items)
    (hread : (contentCell u).readAll items = some (rest.map cellOf))
    (hsystem : systemTurns u data = some [])
    (hkeep : ¬ (hasSystem data = true ∧ firstRole u items = some (.lit "system"))) :
    (∀ ts', SameRoles rest ts' → Renewed rest ts' → ∃ body',
        rewrite u (obj data) ts' = some body' ∧
          Framed u (obj data) (textPairs rest ts') body') ↔
      WrittenInPlace "contents" Plain (obj data) := by
  rw [← contents_iff hitems hread]
  apply forall_congr'
  intro ts'
  apply imp_congr_right
  intro hroles
  apply imp_congr_right
  intro _
  have htake : takeSystem data ts' = (data, ts') := by
    apply takeSystem_keep
    rwa [← List.head?_map, hroles, List.head?_map, ← firstRole_of_readAll hread]
  rw [rewrite_obj u htake]
  constructor
  · rintro ⟨body', hrewrite, hframed⟩
    obtain ⟨value', hzip, rfl⟩ := Option.map_eq_some_iff.mp hrewrite
    exact ⟨value', hzip, (framed_of_no_system hsystem _ _).mp hframed⟩
  · rintro ⟨value', hzip, hkept⟩
    rw [hzip]
    exact ⟨_, rfl, (framed_of_no_system hsystem _ _).mpr hkept⟩

theorem not_frame_of_taken (hread : (contentCell u).readAll items = some (rest.map cellOf))
    (hsystem : systemTurns u data = some []) (hobj : hasSystem data = true)
    (hfirst : firstRole u items = some (.lit "system")) :
    ¬ ∀ ts', SameRoles rest ts' → Renewed rest ts' → ∃ body',
      rewrite u (obj data) ts' = some body' ∧
        Framed u (obj data) (textPairs rest ts') body' := by
  intro hall
  rw [firstRole_of_readAll hread] at hfirst
  cases rest with
  | nil => cases hfirst
  | cons turn rest =>
      have hrole : turn.role = .lit "system" := Option.some.inj hfirst
      have hroles : SameRoles (turn :: rest) (⟨.lit "system", .lit "."⟩ :: rest) := by
        simp [SameRoles, hrole]
      have hrenewed : Renewed (turn :: rest) (⟨.lit "system", .lit "."⟩ :: rest) :=
        List.forall_mem_cons.mpr ⟨Or.inr rfl, renewed_self rest⟩
      obtain ⟨body', hrewrite, hframed⟩ := hall _ hroles hrenewed
      rw [rewrite_obj u (takeSystem_take hobj rfl _)] at hrewrite
      obtain ⟨value', -, rfl⟩ := Option.map_eq_some_iff.mp hrewrite
      exact not_framed_of_taken hsystem (by decide) _ value' hframed

theorem writtenInPlace_congr {key : String} {plain : Dict PyStr Json → Prop}
    (hget : Dict.get? (.lit key) data' = Dict.get? (.lit key) data)
    (h : WrittenInPlace key plain (obj data)) : WrittenInPlace key plain (obj data') := by
  obtain ⟨data₀, value, items, hdata, hvalue, hrest⟩ := h
  cases hdata
  exact ⟨data', value, items, rfl, hget.trans hvalue, hrest⟩

theorem frame_iff_system {text : PyStr}
    (hitems : (getD data "contents" (arr [])).iterate = some items)
    (hread : (contentCell u).readAll items = some (rest.map cellOf))
    (hobj : hasSystem data = true) (hsystem : systemTurns u data = some [⟨.lit "system", text⟩]) :
    (∀ ts', SameRoles (⟨.lit "system", text⟩ :: rest) ts' →
        Renewed (⟨.lit "system", text⟩ :: rest) ts' →
        ∃ body', rewrite u (obj data) ts' = some body' ∧
          Framed u (obj data) (textPairs (⟨.lit "system", text⟩ :: rest) ts') body') ↔
      Dict.get? (.lit "system_instruction") data =
          some (obj [(.lit "parts", textParts text)]) ∧
        WrittenInPlace "contents" Plain (obj data) := by
  constructor
  · intro hall
    -- With the turn of `system_instruction` unchanged.
    have hsame : ∀ rest', SameRoles rest rest' → Renewed rest rest' →
        Dict.get? (.lit "system_instruction") data =
          some (obj [(.lit "parts", textParts text)]) ∧
        ∃ value', zipAssign (contentCell u) (getD data "contents" (arr []))
            (rest'.map PyTurn.text) = some value' ∧
          KeptAt "contents" (ItemsKept "parts" (textPairs rest rest')) data
            (setKey data "contents" value') := by
      intro rest' hroles hrenewed
      obtain ⟨body', hrewrite, hframed⟩ := hall (⟨.lit "system", text⟩ :: rest')
        (congrArg (PyStr.lit "system" :: ·) hroles)
        (List.forall_mem_cons.mpr ⟨Or.inl rfl, hrenewed⟩)
      rw [rewrite_obj u (takeSystem_take hobj rfl _)] at hrewrite
      obtain ⟨value', hzip, rfl⟩ := Option.map_eq_some_iff.mp hrewrite
      obtain ⟨⟨value, hget, hkept⟩, hcontents⟩ :=
        (framed_of_system hsystem (textPairs rest rest') value').mp hframed
      rw [← (systemKept_same _ _).mp hkept] at hget
      rw [setKey_get? hget] at hzip hcontents
      exact ⟨hget, value', hzip, hcontents⟩
    exact ⟨(hsame rest rfl (renewed_self rest)).1, (contents_iff hitems hread).mp
      fun rest' hroles hrenewed => (hsame rest' hroles hrenewed).2⟩
  · rintro ⟨hget, hplace⟩ ts' hroles hrenewed
    cases ts' with
    | nil => cases hroles
    | cons turn rest' =>
        obtain ⟨hrole, hroles⟩ := List.cons.inj hroles
        have hrest : Renewed rest rest' := (List.forall_mem_cons.mp hrenewed).2
        rw [rewrite_obj u (takeSystem_take hobj hrole _)]
        have hne : "system_instruction" ≠ "contents" := by decide
        have hcontents := getD_setKey_ne hne data
          (obj [(.lit "parts", textParts turn.text)]) (arr [])
        obtain ⟨value', hzip, hkept⟩ := (contents_iff (hcontents ▸ hitems) hread).mpr
          (writtenInPlace_congr (get?_setKey hne _ _) hplace) rest' hroles hrest
        rw [hzip]
        refine ⟨_, rfl, (framed_of_system hsystem (textPairs rest rest') value').mpr
          ⟨⟨_, hget, ?_⟩, hkept⟩⟩
        by_cases htext : text = turn.text
        · rw [htext]
          exact (systemKept_same _ _).mpr rfl
        · refine Or.inr ⟨⟨_, List.mem_singleton_self _, htext⟩, Or.inr ⟨_, textParts turn.text,
            rfl, ?_⟩⟩
          simp [setKey, Dict.set]

end Law

/-- The law up to encoding: it holds for all new texts exactly when every text is written
in place, to `system_instruction` too, and no turn of `contents` is taken for it. -/
theorem frame_rewrite_iff {body : Json} {ts : List PyTurn} (h : extractTurns u body = some ts) :
    (∀ ts', SameRoles ts ts' → Renewed ts ts' →
      ∃ body', rewrite u body ts' = some body' ∧ Framed u body (textPairs ts ts') body') ↔
      WrittenInPlace "contents" Plain body ∧ PlainSystem u body ∧ ¬ TakesTurn u body := by
  obtain ⟨data, system, items, rest, hdata, hsystem, hitems, hread, rfl⟩ := of_extractTurns h
  obtain rfl := eq_obj_of_asObj hdata
  rw [takesTurn_iff rfl hsystem hitems]
  rcases systemTurns_cases hsystem with rfl | ⟨hobj, text, -, rfl⟩
  · have hplain : PlainSystem u (obj data) := by
      intro data' turn hdata' hsystem'
      cases hdata'
      rw [hsystem] at hsystem'
      cases hsystem'
    rw [List.nil_append]
    by_cases htaken : hasSystem data = true ∧ firstRole u items = some (.lit "system")
    · have hnot := not_frame_of_taken hread hsystem htaken.1 htaken.2
      exact ⟨fun hall => absurd hall hnot,
        fun hcond => absurd ⟨htaken.1, rfl, htaken.2⟩ hcond.2.2⟩
    · rw [frame_iff_plain hitems hread hsystem htaken]
      refine ⟨fun hplace => ⟨hplace, hplain, ?_⟩, And.left⟩
      rintro ⟨hobj, -, hfirst⟩
      exact htaken ⟨hobj, hfirst⟩
  · rw [List.singleton_append, frame_iff_system hitems hread hobj hsystem]
    constructor
    · rintro ⟨hget, hplace⟩
      refine ⟨hplace, ?_, ?_⟩
      · intro data' turn hdata' hsystem'
        cases hdata'
        rw [hsystem] at hsystem'
        cases hsystem'
        exact hget
      · rintro ⟨-, hnil, -⟩
        cases hnil
    · rintro ⟨hplace, hplain, -⟩
      exact ⟨hplain data _ rfl hsystem, hplace⟩

/-- The law holds for all new texts exactly when it holds up to encoding and the body is
UTF-8. -/
theorem frame_iff {body : Json} {ts : List PyTurn} (h : extractTurns u body = some ts) :
    (∀ ts', SameRoles ts ts' → Renewed ts ts' → ∃ body',
        (gemini u).rebuild body ts' = some body' ∧ Framed u body (textPairs ts ts') body') ↔
      (WrittenInPlace "contents" Plain body ∧ PlainSystem u body ∧ ¬ TakesTurn u body) ∧
        body.encodable = true := by
  rw [← frame_rewrite_iff h]
  exact rebuilt_iff (rewrite u) (fun _ _ => rfl) eq_of_framed fun hbody ts' hroles hrenewed =>
    rebuild_isSome h hbody (hrenewed.sendable (legible_extractTurns hbody h) hroles)

end Gemini

/-! ## The law -/

/-- Where the law holds, `rebuild(body, extract_turns(body))` is the body. -/
theorem rebuild_own_turns {body : Json} {ts : List PyTurn} (hbody : body.encodable = true) :
    ((gateway u).extractTurns body = some ts → WrittenInPlace "messages" Gateway.Plain body →
      (gateway u).rebuild body ts = some body) ∧
    ((gemini u).extractTurns body = some ts → WrittenInPlace "contents" Gemini.Plain body →
      Gemini.PlainSystem u body → ¬ Gemini.TakesTurn u body →
      (gemini u).rebuild body ts = some body) := by
  constructor
  · intro h hplace
    obtain ⟨body', hrebuild, hframed⟩ :=
      (Gateway.frame_iff h).mpr ⟨hplace, hbody⟩ ts rfl (renewed_self ts)
    rw [Gateway.eq_of_framed textPairs_self hframed] at hrebuild
    exact hrebuild
  · intro h hplace hsystem htakes
    obtain ⟨body', hrebuild, hframed⟩ :=
      (Gemini.frame_iff h).mpr ⟨⟨hplace, hsystem, htakes⟩, hbody⟩ ts rfl (renewed_self ts)
    rw [Gemini.eq_of_framed textPairs_self hframed] at hrebuild
    exact hrebuild

/-- **When only what changed is touched.** The gateway adapter rebuilds a body for
every list of turns with the same roles, and each text unchanged or UTF-8, so that
nothing differs but the `content` of messages with a new text, exactly when `messages`
is there, each message that a turn is written to has the place of that turn and a
string as `content`, and the body is UTF-8. The Gemini adapter likewise with `parts`,
which have to be one part with nothing but a text; and `system_instruction`, if a turn
is made of it, has to hold nothing else, and none may be taken from `contents` for it. -/
theorem rebuild_frame_iff (u : Unicode) (body : Json) (ts : List PyTurn) :
    ((gateway u).extractTurns body = some ts →
      ((∀ ts', SameRoles ts ts' → Renewed ts ts' → ∃ body',
          (gateway u).rebuild body ts' = some body' ∧
            Gateway.Framed body (textPairs ts ts') body') ↔
        WrittenInPlace "messages" Gateway.Plain body ∧ body.encodable = true)) ∧
    ((gemini u).extractTurns body = some ts →
      ((∀ ts', SameRoles ts ts' → Renewed ts ts' → ∃ body',
          (gemini u).rebuild body ts' = some body' ∧
            Gemini.Framed u body (textPairs ts ts') body') ↔
        (WrittenInPlace "contents" Gemini.Plain body ∧ Gemini.PlainSystem u body ∧
          ¬ Gemini.TakesTurn u body) ∧ body.encodable = true)) :=
  ⟨Gateway.frame_iff, Gemini.frame_iff⟩

theorem rebuild_frame_iff_sample :
    ∀ ts', SameRoles [⟨.lit "user", .lit "p"⟩] ts' → Renewed [⟨.lit "user", .lit "p"⟩] ts' →
      ∃ body', (gateway .ascii).rebuild
          (obj [(.lit "messages", arr [userMessage (.lit "p")])]) ts' = some body' ∧
        Gateway.Framed (obj [(.lit "messages", arr [userMessage (.lit "p")])])
          (textPairs [⟨.lit "user", .lit "p"⟩] ts') body' := by
  refine ((rebuild_frame_iff .ascii _ [⟨.lit "user", .lit "p"⟩]).1 (by decide +kernel)).mpr
    ⟨?_, by decide +kernel⟩
  refine ⟨_, _, [userMessage (.lit "p")], rfl, rfl, rfl, List.pairwise_singleton _ _, ?_⟩
  intro fields hmem
  cases List.mem_singleton.mp (List.mem_of_mem_take hmem)
  exact ⟨.lit "p", rfl⟩

/-- `{"role": "user", "content": null}`. -/
def nullMessage : Json :=
  obj [(.lit "role", str (.lit "user")), (.lit "content", null)]

/-- A content with a part that is no text. -/
def imageContent : Json :=
  obj [(.lit "parts", arr [obj [(.lit "inline_data", str (.lit "x"))],
    obj [(.lit "text", str (.lit "p"))]])]

/-- A `null` becomes the text `None`, and a part without text is dropped, when the
turn is unchanged and another one is, and when none is. -/
theorem rebuild_touches_unchanged :
    (let body := obj [(.lit "messages", arr [nullMessage, userMessage (.lit "p")])]
     let ts : List PyTurn := [⟨.lit "user", .lit "None"⟩, ⟨.lit "user", .lit "p"⟩]
     let ts' : List PyTurn := [⟨.lit "user", .lit "None"⟩, ⟨.lit "user", .lit "q"⟩]
     (gateway .ascii).extractTurns body = some ts ∧ SameRoles ts ts' ∧
       (¬ ∃ body', (gateway .ascii).rebuild body ts' = some body' ∧
         Gateway.Framed body (textPairs ts ts') body') ∧
       (gateway .ascii).rebuild body ts ≠ some body) ∧
    (let body := obj [(.lit "contents", arr [imageContent])]
     (gemini .ascii).extractTurns body = some [⟨.lit "user", .lit "p"⟩] ∧
       (gemini .ascii).rebuild body [⟨.lit "user", .lit "p"⟩] ≠ some body) := by
  refine ⟨⟨by decide +kernel, rfl, ?_, ?_⟩, by decide +kernel, ?_⟩
  · rintro ⟨body', hrebuild, data, data', hdata, hdata', hkept⟩
    cases hdata
    have hwritten : (gateway .ascii).rebuild
        (obj [(.lit "messages", arr [nullMessage, userMessage (.lit "p")])])
        [⟨.lit "user", .lit "None"⟩, ⟨.lit "user", .lit "q"⟩] =
      some (obj (setKey [(.lit "messages", arr [nullMessage, userMessage (.lit "p")])]
        "messages" (arr [userMessage (.lit "None"), userMessage (.lit "q")]))) := rfl
    rw [hwritten, hdata'] at hrebuild
    cases hrebuild
    obtain ⟨value, hget, hkept⟩ := keptAt_setKey.mp hkept
    cases hget
    have hsame : userMessage (.lit "None") = nullMessage := (Frame.of_cell rfl hkept).1 rfl
    have hprinted := congrArg (pyStr .ascii) hsame
    revert hprinted
    decide +kernel
  · intro h
    have hprinted := congrArg (Option.map (pyStr .ascii)) h
    revert hprinted
    decide +kernel
  · intro h
    have hprinted := congrArg (Option.map (pyStr .ascii)) h
    revert hprinted
    decide +kernel

end DlpServer.Adapters
