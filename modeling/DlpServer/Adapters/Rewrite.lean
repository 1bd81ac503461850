import DlpServer.Adapters.Request

/-!
# A response written again

`parse_response` and `rebuild_response` read and write in one place, whatever shapes a
body mixes; the bytes of the rebuilt body are UTF-8, so what the body keeps must be
text (`rebuild_undoes_parse_iff`).
-/

namespace DlpServer.Adapters.Rewrite

open Json

variable (u : Unicode)

/-! ## The place -/

namespace Gateway

open Adapters.Gateway

/-- The message content that `parse_response` reads. -/
def place (body : Json) : List Step :=
  match body.asObj with
  | some data =>
      match lastMessage data with
      | some (earlier, _) => [.field "messages", .item earlier.length, .field "content"]
      | none =>
          match firstChoice data with
          | some _ => [.field "choices", .item 0, .field "message", .field "content"]
          | none => [.field "message", .field "content"]
  | none => []

end Gateway

/-! ## Either adapter -/

inductive Provider where
  | gateway
  | gemini
deriving DecidableEq

namespace Provider

def adapter (u : Unicode) : Provider → Adapter
  | .gateway => Adapters.gateway u
  | .gemini => Adapters.gemini u

variable (A : Provider)

/-- Where `parse_response` reads. -/
def place (body : Json) : List Step :=
  match A with
  | .gateway => Gateway.place body
  | .gemini => [.field "candidates", .item 0, .field "content", .field "parts"]

/-- The text of what stands there. -/
def read (value : Json) : Option PyStr :=
  match A with
  | .gateway => some (value.pyStr u)
  | .gemini => Adapters.Gemini.joinParts u value

/-- What is put there for a text. -/
def written (text : PyStr) : Json :=
  match A with
  | .gateway => str text
  | .gemini => Adapters.Gemini.textParts text

end Provider

/-! ## The law -/

/-- The text of a body stands in one place; a rebuilt body is the body with another
text there, and nothing else changed, and reads as that text. -/
def Undoes (A : Provider) (body : Json) (text : PyStr) : Prop :=
  (∃ old, body.get (A.place body) = some old ∧ A.read u old = some text) ∧
    ∀ x : Text, ∃ body', (A.adapter u).rebuildResponse body (.ofText x) = some body' ∧
      body' = body.put (A.place body) (A.written (.ofText x)) ∧
      (A.adapter u).parseResponse body' = some (.ofText x)

/-! ### Keys and places -/

section Proof

variable {u} {data : Dict PyStr Json} {key : String} {value : Json}

theorem get?_of_getD {default : Json} (h : getD data key default = value)
    (hne : value ≠ default) : Dict.get? (.lit key) data = some value := by
  unfold getD at h
  cases hget : Dict.get? (.lit key) data with
  | none =>
      rw [hget] at h
      exact absurd h.symm hne
  | some found =>
      rw [hget] at h
      exact congrArg some h

theorem get_field {path : List Step}
    (h : Dict.get? (.lit key) data = some value) :
    (obj data).get (.field key :: path) = value.get path := by
  rw [Json.get, h]
  rfl

theorem put_setKey {path : List Step}
    (h : Dict.get? (.lit key) data = some value) (new : Json) :
    (obj data).put (.field key :: path) new = obj (setKey data key (value.put path new)) :=
  put_field h path new

theorem get_last {path : List Step} (earlier : List Json) (last : Json) :
    (arr (earlier ++ [last])).get (.item earlier.length :: path) = last.get path := by
  rw [Json.get, List.getElem?_concat_length]
  rfl

theorem put_last {path : List Step} (earlier : List Json) (last new : Json) :
    (arr (earlier ++ [last])).put (.item earlier.length :: path) new =
      arr (earlier ++ [last.put path new]) := by
  have hlt : earlier.length < (earlier ++ [last]).length := by simp
  rw [put, List.modify_eq_take_cons_drop hlt]
  simp

theorem put_head {path : List Step} (first : Json) (rest : List Json) (new : Json) :
    (arr (first :: rest)).put (.item 0 :: path) new = arr (first.put path new :: rest) := rfl

/-! ### The gateway -/

namespace Gateway

open Adapters.Gateway

variable {last choice : Dict PyStr Json} {earlier rest : List Json}

theorem lastMessage_some (h : lastMessage data = some (earlier, last)) :
    Dict.get? (.lit "messages") data = some (arr (earlier ++ [obj last])) := by
  unfold lastMessage at h
  split at h
  · rename_i items hitems
    obtain ⟨last', hlast, heq⟩ := Option.map_eq_some_iff.mp h
    cases heq
    obtain ⟨item, hitem, hobj⟩ := Option.bind_eq_some_iff.mp hlast
    have hconcat := List.dropLast_append_getLast? item hitem
    rw [eq_obj_of_asObj hobj] at hconcat
    rw [hconcat]
    exact get?_of_getD hitems (by simp)
  · cases h

theorem firstChoice_some (h : firstChoice data = some (choice, rest)) :
    Dict.get? (.lit "choices") data = some (arr (obj choice :: rest)) := by
  unfold firstChoice at h
  split at h
  · rename_i items hitems
    obtain ⟨choice', hfirst, heq⟩ := Option.map_eq_some_iff.mp h
    cases heq
    obtain ⟨item, hitem, hobj⟩ := Option.bind_eq_some_iff.mp hfirst
    obtain ⟨tail, rfl⟩ := List.head?_eq_some_iff.mp hitem
    rw [eq_obj_of_asObj hobj] at hitems
    exact get?_of_getD hitems (by simp)
  · cases h

theorem lastMessage_set (data : Dict PyStr Json) (earlier : List Json)
    (last : Dict PyStr Json) :
    lastMessage (setKey data "messages" (arr (earlier ++ [obj last]))) = some (earlier, last) := by
  rw [lastMessage, getD_setKey]
  simp

theorem lastMessage_setKey (hkey : key ≠ "messages") :
    lastMessage (setKey data key value) = lastMessage data := by
  rw [lastMessage, getD_setKey_ne hkey, lastMessage]

theorem firstChoice_set (data choice : Dict PyStr Json) (rest : List Json) :
    firstChoice (setKey data "choices" (arr (obj choice :: rest))) = some (choice, rest) := by
  rw [firstChoice, getD_setKey]
  rfl

theorem firstChoice_setKey (hkey : key ≠ "choices") :
    firstChoice (setKey data key value) = firstChoice data := by
  rw [firstChoice, getD_setKey_ne hkey, firstChoice]

theorem contentOf_setContent (holder : Dict PyStr Json) (text : PyStr) :
    contentOf u (setKey holder "content" (str text)) = text := by
  rw [contentOf, getD_setKey, pyStr_str]

/-- A text that is not empty is that of a `content` that is there. -/
theorem content_some {holder : Dict PyStr Json} (hne : contentOf u holder ≠ []) :
    ∃ old, Dict.get? (.lit "content") holder = some old ∧
      old.pyStr u = contentOf u holder := by
  cases hget : Dict.get? (.lit "content") holder with
  | none =>
      refine absurd ?_ hne
      rw [contentOf, getD, hget]
      rfl
  | some old =>
      refine ⟨old, rfl, ?_⟩
      rw [contentOf, getD, hget]
      rfl

/-- A key on the way to a `content` that is not empty is there. -/
theorem message_some {holder message : Dict PyStr Json}
    (hmessage : (getD holder "message" (obj [])).asObj = some message)
    (hne : contentOf u message ≠ []) :
    Dict.get? (.lit "message") holder = some (obj message) := by
  refine get?_of_getD (eq_obj_of_asObj hmessage) fun heq => hne ?_
  cases heq
  rfl

/-- **Parser and rebuilder are in the same place.** -/
theorem rewrite_eq_put {body : Json} {text : PyStr} (h : parseResponse u body = some text)
    (hne : text ≠ []) :
    (∃ old, body.get (place body) = some old ∧ old.pyStr u = text) ∧
      ∀ new : PyStr, rewriteResponse body new = some (body.put (place body) (str new)) ∧
        parseResponse u (body.put (place body) (str new)) = some new := by
  obtain ⟨data, hdata, hread⟩ := Option.bind_eq_some_iff.mp h
  obtain rfl := eq_obj_of_asObj hdata
  cases hlast : lastMessage data with
  | some found =>
      obtain ⟨earlier, last⟩ := found
      rw [hlast] at hread
      obtain rfl : contentOf u last = text := Option.some.inj hread
      obtain ⟨old, hold, htext⟩ := content_some hne
      have hmessages := lastMessage_some hlast
      have hplace : place (obj data) =
          [.field "messages", .item earlier.length, .field "content"] := by
        simp only [place, asObj_obj, hlast]
      have hput : ∀ new : PyStr, (obj data).put (place (obj data)) (str new) =
          obj (setKey data "messages" (arr (earlier ++ [setContent last new]))) := by
        intro new
        rw [hplace, put_setKey hmessages, put_last, put_setKey hold]
        rfl
      refine ⟨⟨old, ?_, htext⟩, fun new => ⟨?_, ?_⟩⟩
      · rw [hplace, get_field hmessages, get_last, get_field hold]
        rfl
      · rw [hput, rewriteResponse]
        simp only [asObj_obj, Option.bind_eq_bind, Option.bind_some, hlast]
      · rw [hput, parseResponse]
        simp only [asObj_obj, Option.bind_eq_bind, Option.bind_some, setContent, lastMessage_set,
          contentOf_setContent]
  | none =>
      rw [hlast] at hread
      dsimp only at hread
      cases hchoice : firstChoice data with
      | some found =>
          obtain ⟨choice, rest⟩ := found
          rw [hchoice] at hread
          obtain ⟨message, hmessage, htext⟩ := Option.bind_eq_some_iff.mp hread
          obtain rfl : contentOf u message = text := Option.some.inj htext
          obtain ⟨old, hold, htext⟩ := content_some hne
          have hchoices := firstChoice_some hchoice
          have hthere := message_some hmessage hne
          have hplace : place (obj data) =
              [.field "choices", .item 0, .field "message", .field "content"] := by
            simp only [place, asObj_obj, hlast, hchoice]
          have hput : ∀ new : PyStr, (obj data).put (place (obj data)) (str new) =
              obj (setKey data "choices"
                (arr (obj (setKey choice "message" (setContent message new)) :: rest))) := by
            intro new
            rw [hplace, put_setKey hchoices, put_head, put_setKey hthere, put_setKey hold]
            rfl
          refine ⟨⟨old, ?_, htext⟩, fun new => ⟨?_, ?_⟩⟩
          · rw [hplace, get_field hchoices]
            show (obj choice).get _ = _
            rw [get_field hthere, get_field hold]
            rfl
          · rw [hput, rewriteResponse]
            simp only [asObj_obj, Option.bind_eq_bind, Option.bind_some, hlast, hchoice, hmessage]
          · rw [hput, parseResponse]
            simp only [asObj_obj, Option.bind_eq_bind, Option.bind_some,
              lastMessage_setKey (show "choices" ≠ "messages" by decide), hlast, firstChoice_set,
              getD_setKey, setContent, contentOf_setContent]
      | none =>
          rw [hchoice] at hread
          dsimp only at hread
          cases hmessage : (getD data "message" null).asObj with
          | some message =>
              rw [hmessage] at hread
              obtain rfl : contentOf u message = text := Option.some.inj hread
              obtain ⟨old, hold, htext⟩ := content_some hne
              have hthere : Dict.get? (.lit "message") data = some (obj message) :=
                get?_of_getD (eq_obj_of_asObj hmessage) (by simp)
              have hplace : place (obj data) = [.field "message", .field "content"] := by
                simp only [place, asObj_obj, hlast, hchoice]
              have hput : ∀ new : PyStr, (obj data).put (place (obj data)) (str new) =
                  obj (setKey data "message" (setContent message new)) := by
                intro new
                rw [hplace, put_setKey hthere, put_setKey hold]
                rfl
              refine ⟨⟨old, ?_, htext⟩, fun new => ⟨?_, ?_⟩⟩
              · rw [hplace, get_field hthere, get_field hold]
                rfl
              · rw [hput, rewriteResponse]
                simp only [asObj_obj, Option.bind_eq_bind, Option.bind_some, hlast, hchoice,
                  hmessage]
              · rw [hput, parseResponse]
                simp only [asObj_obj, Option.bind_eq_bind, Option.bind_some,
                  lastMessage_setKey (show "message" ≠ "messages" by decide), hlast,
                  firstChoice_setKey (show "message" ≠ "choices" by decide), hchoice, getD_setKey,
                  setContent, contentOf_setContent]
          | none =>
              rw [hmessage] at hread
              exact absurd (Option.some.inj hread).symm hne

end Gateway

/-! ### Gemini -/

namespace Gemini

open Adapters.Gemini

variable {first : Dict PyStr Json} {rest : List Json}

theorem firstCandidate_some (h : firstCandidate data = some (first, rest)) :
    Dict.get? (.lit "candidates") data = some (arr (obj first :: rest)) := by
  unfold firstCandidate at h
  split at h
  · rename_i items hitems
    obtain ⟨first', hfirst, heq⟩ := Option.map_eq_some_iff.mp h
    cases heq
    obtain ⟨item, hitem, hobj⟩ := Option.bind_eq_some_iff.mp hfirst
    obtain ⟨tail, rfl⟩ := List.head?_eq_some_iff.mp hitem
    rw [eq_obj_of_asObj hobj] at hitems
    exact get?_of_getD hitems (by simp)
  · cases h

theorem firstCandidate_set (data first : Dict PyStr Json) (rest : List Json) :
    firstCandidate (setKey data "candidates" (arr (obj first :: rest))) = some (first, rest) := by
  rw [firstCandidate, getD_setKey]
  rfl

theorem rewrite_eq_put {body : Json} {text : PyStr} (h : parseResponse u body = some text)
    (hne : text ≠ []) :
    (∃ old, body.get (Provider.gemini.place body) = some old ∧ joinParts u old = some text) ∧
      ∀ new : PyStr, rewriteResponse body new =
          some (body.put (Provider.gemini.place body) (textParts new)) ∧
        parseResponse u (body.put (Provider.gemini.place body) (textParts new)) = some new := by
  obtain ⟨data, hdata, hread⟩ := Option.bind_eq_some_iff.mp h
  obtain rfl := eq_obj_of_asObj hdata
  cases hfirst : firstCandidate data with
  | some found =>
      obtain ⟨first, rest⟩ := found
      rw [hfirst] at hread
      dsimp only at hread
      cases hcontent : (getD first "content" (obj [])).asObj with
      | some content =>
          rw [hcontent] at hread
          dsimp only at hread
          have hcandidates := firstCandidate_some hfirst
          -- Without `parts`, and so without `content`, the text would be empty.
          obtain ⟨old, hold, htext⟩ : ∃ old,
              Dict.get? (.lit "parts") content = some old ∧
                joinParts u old = some text := by
            cases hget : Dict.get? (.lit "parts") content with
            | none =>
                rw [partsText, getD, hget] at hread
                exact absurd (Option.some.inj hread).symm hne
            | some old =>
                rw [partsText, getD, hget] at hread
                exact ⟨old, rfl, hread⟩
          have hthere : Dict.get? (.lit "content") first = some (obj content) := by
            refine get?_of_getD (eq_obj_of_asObj hcontent) fun heq => ?_
            cases heq
            cases hold
          have hput : ∀ new : PyStr,
              (obj data).put (Provider.gemini.place (obj data)) (textParts new) =
                obj (setKey data "candidates" (arr (obj (setKey first "content"
                  (obj (setKey content "parts" (textParts new)))) :: rest))) := by
            intro new
            rw [Provider.place, put_setKey hcandidates, put_head, put_setKey hthere,
              put_setKey hold]
            rfl
          refine ⟨⟨old, ?_, htext⟩, fun new => ⟨?_, ?_⟩⟩
          · rw [Provider.place, get_field hcandidates]
            show (obj first).get _ = _
            rw [get_field hthere, get_field hold]
            rfl
          · rw [hput, rewriteResponse]
            simp only [asObj_obj, Option.bind_eq_bind, Option.bind_some, hfirst, hcontent]
          · rw [hput, parseResponse]
            simp only [asObj_obj, Option.bind_eq_bind, Option.bind_some, firstCandidate_set,
              getD_setKey, partsText_textParts]
      | none =>
          rw [hcontent] at hread
          exact absurd (Option.some.inj hread).symm hne
  | none =>
      rw [hfirst] at hread
      exact absurd (Option.some.inj hread).symm hne

end Gemini

namespace Provider

theorem rewrite_eq_put {A : Provider} {body : Json} {text : PyStr}
    (h : (A.adapter u).parseResponse body = some text) (hne : text ≠ []) :
    (∃ old, body.get (A.place body) = some old ∧ A.read u old = some text) ∧
      ∀ new : PyStr,
        (A.adapter u).rebuildResponse body new =
          encode (body.put (A.place body) (A.written new)) ∧
        (A.adapter u).parseResponse (body.put (A.place body) (A.written new)) = some new := by
  cases A with
  | gateway =>
      obtain ⟨⟨old, hold, htext⟩, hall⟩ := Gateway.rewrite_eq_put h hne
      refine ⟨⟨old, hold, congrArg some htext⟩, fun new => ⟨?_, (hall new).2⟩⟩
      show (Adapters.Gateway.rewriteResponse body new).bind encode = _
      rw [(hall new).1]
      rfl
  | gemini =>
      obtain ⟨hold, hall⟩ := Gemini.rewrite_eq_put h hne
      refine ⟨hold, fun new => ⟨?_, (hall new).2⟩⟩
      show (Adapters.Gemini.rewriteResponse body new).bind encode = _
      rw [(hall new).1]
      rfl

theorem encodable_written (A : Provider) (text : PyStr) :
    (A.written text).encodable = text.encodable := by
  cases A with
  | gateway => rfl
  | gemini =>
      simp [written, Adapters.Gemini.textParts, encodable, encodableItems, encodableFields,
        PyStr.encodable_lit]

end Provider

end Proof

/-- **A rebuilt response reads as what was written, and is otherwise the response**,
exactly when what is kept of the response can be encoded. -/
theorem rebuild_undoes_parse_iff (u : Unicode) (A : Provider) (body : Json) (text : PyStr)
    (h : (A.adapter u).parseResponse body = some text) (hne : text ≠ []) :
    Undoes u A body text ↔ (body.put (A.place body) null).encodable = true := by
  obtain ⟨⟨old, hold, htext⟩, hall⟩ := Provider.rewrite_eq_put h hne
  constructor
  · rintro ⟨-, hundoes⟩
    obtain ⟨body', hrebuild, -, -⟩ := hundoes []
    rw [(hall _).1, encode_eq_some, encodable_put hold] at hrebuild
    exact (Bool.and_eq_true_iff.mp hrebuild.1).1
  · refine fun hkept => ⟨⟨old, hold, htext⟩, fun x => ⟨_, ?_, rfl, (hall _).2⟩⟩
    rw [(hall _).1, encode_eq_some, encodable_put hold, hkept, A.encodable_written,
      PyStr.encodable_ofText]
    exact ⟨rfl, rfl⟩

/-- The shapes mixed: a last message, choices of another type and a message. -/
def mixedBody : Json :=
  obj [(.lit "choices", null),
    (.lit "messages", arr [null,
      obj [(.lit "content", str (.lit "old"))]]),
    (.lit "message", obj [(.lit "content", str (.lit "other"))])]

theorem rebuild_undoes_parse_iff_mixed :
    Provider.gateway.place mixedBody = [.field "messages", .item 1, .field "content"] ∧
      Undoes .ascii .gateway mixedBody (.lit "old") :=
  ⟨by decide +kernel,
    (rebuild_undoes_parse_iff .ascii .gateway mixedBody (.lit "old") (by decide +kernel)
      (by decide +kernel)).mpr (by decide +kernel)⟩

/-- A response of Gemini whose id holds an unpaired `\ud800`. -/
def brokenId : Json :=
  obj [(.lit "responseId", str [.surrogate 0]),
    (.lit "candidates", arr [obj [(.lit "content",
      obj [(.lit "parts", Adapters.Gemini.textParts (.lit "old"))])]])]

/-- The text is read, but no body can be sent. -/
theorem broken_id_cannot_be_rebuilt :
    (gemini .ascii).parseResponse brokenId = some (.lit "old") ∧
      ((gemini .ascii).rebuildResponse brokenId (.lit "new")).isNone ∧
      ¬ Undoes .ascii .gemini brokenId (.lit "old") := by
  have hnone : ((gemini .ascii).rebuildResponse brokenId (.lit "new")).isNone = true := by
    decide +kernel
  refine ⟨by decide +kernel, hnone, fun hundoes => ?_⟩
  obtain ⟨body', hrebuild, -⟩ := hundoes.2 "new".toList
  have hsome : (gemini .ascii).rebuildResponse brokenId (.lit "new") = some body' := hrebuild
  rw [hsome] at hnone
  cases hnone

end DlpServer.Adapters.Rewrite
