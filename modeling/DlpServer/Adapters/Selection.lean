import DlpServer.Adapters.Request

/-!
# Which adapter reads a body

`select_adapter` goes by the shape of the body alone: a list under `contents` or
`candidates` makes it a body for Gemini, whatever else it holds. Other keys do not
matter to the gateway (`extra_keys_inspected`).
-/

namespace DlpServer.Adapters

open Json

theorem selectAdapter_eq (u : Unicode) (body : Json) :
    selectAdapter u body = if Gemini.matchesBody body then gemini u else gateway u := by
  have hgemini : (gemini u).matchesBody = Gemini.matchesBody := rfl
  have hgateway : (gateway u).matchesBody = Gateway.matchesBody := rfl
  unfold selectAdapter
  simp only [List.find?, hgemini, hgateway]
  cases Gemini.matchesBody body with
  | true => rfl
  | false => cases Gateway.matchesBody body <;> rfl

/-- `data'` has the keys of `data` with the same values, and maybe more. -/
def Extends (data data' : Dict PyStr Json) : Prop :=
  ∀ key value, data.get? key = some value → data'.get? key = some value

/-- **Extra keys do not switch inspection off**, unless they make the body one for
Gemini: the turns are those of the body without them. -/
theorem extra_keys_inspected (u : Unicode) (data data' : Dict PyStr Json)
    (hmessages : Gateway.matchesBody (obj data) = true) (hextends : Extends data data')
    (hshape : Gemini.matchesBody (obj data') = false) :
    selectAdapter u (obj data') = gateway u ∧
      (selectAdapter u (obj data')).extractTurns (obj data') =
        Gateway.extractTurns u (obj data) := by
  have hselect : selectAdapter u (obj data') = gateway u := by
    rw [selectAdapter_eq, hshape]
    rfl
  refine ⟨hselect, ?_⟩
  rw [hselect]
  -- The gateway reads nothing but `messages`.
  obtain ⟨items, hitems⟩ : ∃ items, data.get? (.lit "messages") = some items := by
    cases hget : data.get? (.lit "messages") with
    | some items => exact ⟨items, rfl⟩
    | none =>
        rw [Gateway.matchesBody, asObj_obj] at hmessages
        dsimp only at hmessages
        rw [hget] at hmessages
        cases hmessages
  have hsame : getD data' "messages" (arr []) = getD data "messages" (arr []) := by
    rw [getD, getD, hitems, hextends _ _ hitems]
  show Gateway.extractTurns u (obj data') = _
  rw [Gateway.extractTurns, Gateway.extractTurns, asObj_obj, asObj_obj]
  simp only [Option.bind_eq_bind, Option.bind_some, hsame]

/-- A body for the gateway with one message. -/
def mailData : Dict PyStr Json :=
  [(.lit "messages", .arr [.obj [(.lit "role", .str (.lit "user")),
    (.lit "content", .str (.lit "a@b.co"))]])]

theorem extra_keys_inspected_sample :
    (selectAdapter .ascii (obj (mailData ++ [(.lit "stream", .bool true)]))).extractTurns
        (obj (mailData ++ [(.lit "stream", .bool true)])) =
      Gateway.extractTurns .ascii (obj mailData) := by
  refine (extra_keys_inspected .ascii mailData (mailData ++ [(.lit "stream", .bool true)])
    (by decide +kernel) ?_ (by decide +kernel)).2
  intro key value h
  have hkey : key = .lit "messages" := by
    by_contra hne
    rw [mailData, Dict.get?, if_neg (Ne.symm hne)] at h
    cases h
  subst hkey
  exact h

/-- With an empty `contents` beside them, the messages are not looked at. -/
theorem contents_hide_messages :
    Gateway.matchesBody (obj mailData) = true ∧
      Gateway.extractTurns .ascii (obj mailData) = some [⟨.lit "user", .lit "a@b.co"⟩] ∧
      (selectAdapter .ascii (obj (mailData ++ [(.lit "contents", .arr [])]))).extractTurns
        (obj (mailData ++ [(.lit "contents", .arr [])])) = some [] := by
  decide +kernel

end DlpServer.Adapters
