import DlpServer.Adapters.Response
import DlpServer.Pipeline.Soundness
import DlpServer.Pipeline.Stages

/-!
# Mediation of the response

One text of a response is looked at, the one that `parse_response` reads. When the
response goes on, that text has been through the output guard and through
`detokenize_text` (`response_mediated`); the texts of the other choices and
candidates go on as they came.
-/

namespace DlpServer.Pipeline

open Adapters Context

section Guarded

variable (S : Setup) (D : Draws)

/-- `detokenize_text` of `_rescan_and_mask` of a text, for the purpose that
`get_last_purpose` reads. -/
def guardedText (minConfidence : ℚ) (sessionId : String) (role : Option String) (text : Text)
    (w : World) : Text :=
  let (purpose, w) := w.getLastPurpose S.env sessionId D.purposeReadAt
  (Vault.detokenizeText S.env D.fetch w.vault sessionId
    (Guardrail.rescanAndMask S.env.unicode text minConfidence).1 role purpose).1

variable {S D}

/-- There is nothing to guard in the empty text. -/
theorem guardedText_nil (minConfidence : ℚ) (sessionId : String) (role : Option String)
    (w : World) : guardedText S D minConfidence sessionId role [] w = [] := rfl

/-- The stage puts back the labels of the first turn. -/
theorem detokenizeStage_turns {ctx : AnalysisContext} {w : World} {turn : Turn} {rest : List Turn}
    (hdir : ctx.direction = "output") (hturns : ctx.turns = turn :: rest) :
    (detokenizeStage S D ctx w).1.turns =
      { turn with
        text := (Vault.detokenizeText S.env D.fetch
          (w.getLastPurpose S.env ctx.sessionId D.purposeReadAt).2.vault ctx.sessionId turn.text
          ctx.role (w.getLastPurpose S.env ctx.sessionId D.purposeReadAt).1).1 } :: rest := by
  rw [detokenizeStage, if_neg (not_not.mpr hdir), hturns]

/-- What the output stages leave when none blocks. -/
theorem run_outputStages {sessionId : String} {headers : Dict String String} {body : Option Body}
    {text : Text} {w w' : World} {ctx : AnalysisContext}
    (h : runStages (outputStages S D) (outputContext S.env.unicode sessionId headers body text) w =
      (some ctx, w')) (hopen : ctx.blocked = false) :
    ∃ cfg, S.guardrail = some cfg ∧
      ctx.turns = [⟨"assistant", guardedText S D cfg.outputPiiMinConfidence sessionId
        (Purpose.resolveRole S.env.unicode headers) text w⟩] := by
  have hcomp := completes_of_runStages h hopen
  rw [outputStages] at hcomp
  cases hcomp with
  | cons hguard hopen₁ hrest =>
      rename_i ctx₁ w₁
      cases hguard
      obtain ⟨cfg, hcfg, spans, actions, heq⟩ := Guardrail.outputGuard_open rfl rfl hopen₁
      rw [outputGuard, heq] at hrest
      cases hrest with
      | cons hdetok hopen₂ hnil =>
          cases hdetok
          cases hnil
          exact ⟨cfg, hcfg, (detokenizeStage_turns rfl rfl).trans rfl⟩

/-- **The text that is read is guarded.** When a response goes on, and not because
an exception was turned into an allow, then its adapter read a text, and reads in
the body that goes on what the output stages made of it. The texts of the other
choices and candidates are the same. -/
theorem response_mediated (S : Setup) (D : Draws) (sessionId : String)
    (headers : Dict String String) (body : Option Body) (w : World)
    (hgo : (analyzeRequest S D sessionId "output" headers body w).1.action ≠ .block)
    (hfail : S.config.failAction = .block ∨
      (analyzeRequest S D sessionId "output" headers body w).1.reason ≠ .failed) :
    ∃ b text cfg b', body = some b ∧
      b.parseResponse S.env.unicode = some text ∧ S.guardrail = some cfg ∧
      (analyzeRequest S D sessionId "output" headers body w).1.goesOn body = some b' ∧
      (selectAdapter S.env.unicode b.value).parseResponse b' =
        some (.ofText (guardedText S D cfg.outputPiiMinConfidence sessionId
          (Purpose.resolveRole S.env.unicode headers) text w)) ∧
      SameAlternatives S.env.unicode b.value b' := by
  unfold analyzeRequest at hgo hfail ⊢
  rw [analyze_output] at hgo hfail ⊢
  obtain ⟨d, w', hout, hdecision⟩ := orFail_goesOn hgo hfail
  rw [hdecision] at hgo ⊢
  show ∃ b text cfg b', _ ∧ _ ∧ _ ∧ d.goesOn body = some b' ∧ _ ∧ _
  unfold analyzeOutput at hout
  cases body with
  | none => cases hout
  | some b =>
      rw [Option.bind_some] at hout
      cases htext : b.parseResponse S.env.unicode with
      | none =>
          rw [htext] at hout
          cases hout
      | some text =>
          rw [htext] at hout
          have hread := Body.parseResponse_iff.mp htext
          obtain ⟨ctx, hrun, hclear, hbody⟩ := conclude_goesOn hout hgo
          obtain ⟨cfg, hcfg, hturns⟩ := run_outputStages hrun hclear.unblocked
          have hnew : newText text ctx = guardedText S D cfg.outputPiiMinConfidence sessionId
              (Purpose.resolveRole S.env.unicode headers) text w := by
            rw [newText, hturns, List.head?_cons, Option.map_some, Option.getD_some]
          rcases hbody with ⟨hsame, hnone⟩ | ⟨hne, new, hrebuilt, hsome⟩
          · -- No change: the body goes on as it came.
            have hsame : newText text ctx = text := (List.cons.inj hsame).1
            refine ⟨b, text, cfg, b.value, rfl, htext, hcfg, ?_, ?_, fun i => ⟨rfl, rfl⟩⟩
            · rw [Decision.goesOn, hnone]
              rfl
            · rw [hread, ← hnew, hsame]
          · have hne : PyStr.ofText text ≠ [] := by
              intro hnil
              obtain rfl : text = [] := List.map_eq_nil_iff.mp hnil
              rw [guardedText_nil] at hnew
              exact hne (by rw [hnew])
            have hback := parse_rebuild hread hne hrebuilt
            refine ⟨b, text, cfg, new, rfl, htext, hcfg, ?_, ?_, alternatives_rebuild hrebuilt⟩
            · rw [Decision.goesOn, hsome]
              rfl
            · rw [hback, hnew]

/-- `{"choices": [{"message": {"content": t}}, ...]}`. -/
def choicesBody (texts : List Text) : Body :=
  .ofEncodable (.obj [(.lit "choices", .arr (texts.map fun text =>
    .obj [(.lit "message", .obj [(.lit "content", .str (.ofText text))])]))]) (by
      simp [Json.encodable_obj, Json.encodable_arr, Json.encodable_str, PyStr.encodable_lit,
        PyStr.encodable_ofText])

/-- The sample address in the only choice is masked. -/
theorem response_mediated_sample :
    ∃ b', (analyzeRequest .sample .sample "s" "output" []
        (some (choicesBody ["a@b.co".toList])) .empty).1.goesOn
          (some (choicesBody ["a@b.co".toList])) = some b' ∧
      (selectAdapter .ascii (choicesBody ["a@b.co".toList]).value).parseResponse b' =
        some (.ofText (guardedText .sample .sample (5 / 10) "s" none "a@b.co".toList
          .empty)) := by
  obtain ⟨b, text, cfg, b', hb, htext, hcfg, hgoes, hread, -⟩ := response_mediated .sample .sample
    "s" [] (some (choicesBody ["a@b.co".toList])) .empty (by decide +kernel) (Or.inl rfl)
  cases hb
  cases htext
  cases hcfg
  exact ⟨b', hgoes, hread⟩

/-- A second choice goes on as it came: the response is allowed with the address
that the guard would have masked. -/
theorem second_choice_unguarded :
    (analyzeRequest .sample .sample "s" "output" []
        (some (choicesBody ["ok".toList, "a@b.co".toList])) .empty).1.action = .allow ∧
      (analyzeRequest .sample .sample "s" "output" []
        (some (choicesBody ["ok".toList, "a@b.co".toList])) .empty).1.transformedBody.isNone ∧
      choiceText .ascii (choicesBody ["ok".toList, "a@b.co".toList]).value 1 =
        some (.lit "a@b.co") ∧
      guardedText .sample .sample (5 / 10) "s" none "a@b.co".toList .empty = "*@b.co".toList := by
  decide +kernel

end Guarded

end DlpServer.Pipeline
