import DlpServer.Pipeline.Request

/-!
# What a blocked request leaves behind

A stage that blocks keeps the later ones from running, so neither a purpose nor a
token of the request is stored (`blocked_leaves_nothing`). The risk threshold is
compared when all stages have run, and a body that is not UTF-8 raises only when it
is rebuilt.
-/

namespace DlpServer.Pipeline

open Adapters Context

/-- `rebuild` fails on no body that is read and is UTF-8. -/
theorem rebuild_isSome {u : Unicode} {body : Body} {turns : List Turn}
    (h : body.extractTurns u = some turns) (hbody : body.value.encodable = true)
    (turns' : List Turn) : (body.rebuild u turns').isSome = true := by
  have hread := Body.extractTurns_iff.mp h
  have hsend : Sendable (turns'.map PyTurn.ofTurn) := by
    intro turn hturn
    obtain ⟨turn', -, rfl⟩ := List.mem_map.mp hturn
    exact PyStr.encodable_ofText turn'.text
  rw [Body.rebuild]
  rw [selectAdapter_eq] at hread ⊢
  split
  · rename_i hgemini
    rw [if_pos hgemini] at hread
    exact Gemini.rebuild_isSome hread hbody hsend
  · rename_i hgemini
    rw [if_neg hgemini] at hread
    exact Gateway.rebuild_isSome hread hbody hsend

/-- The verdict of the risk threshold. -/
def ReasonObj.riskBlocked : ReasonObj → Bool
  | .judged r => r.note == some "risk_hard_block"
  | .failed | .unknownDirection _ => false

section Blocked

variable (S : Setup) (D : Draws) (sessionId : String) (w w' : World)

/-- The vault as before, or with the tokens of the session revoked when its state
was found expired; and the same purpose remembered. -/
structure NothingLeft : Prop where
  vault : w'.vault = w.vault ∨ ∃ st, w.store.session sessionId = some st ∧
    st.isExpired D.loadedAt ∧ w'.vault = Vault.revokeSession S.env w.vault st.sessionId
  purpose : ∀ now, D.loadedAt ≤ now →
    getLastPurpose w'.store now sessionId = getLastPurpose w.store now sessionId

variable {S D sessionId w w'}

/-- The request was read and all stages let it through, and then `rebuild` raised. -/
def RebuildRaised (S : Setup) (D : Draws) (sessionId : String) (headers : Dict String String)
    (body : Option Body) (w : World) : Prop :=
  ∃ b turns ctx w', body = some b ∧ b.extractTurns S.env.unicode = some turns ∧
    Completes (inputStages S D) (inputContext S.env.unicode sessionId headers body turns) w
      ctx w' ∧ b.rebuild S.env.unicode ctx.turns = none

/-- What is raised is that the body is not UTF-8. -/
theorem RebuildRaised.not_encodable {headers : Dict String String} {body : Option Body}
    (h : RebuildRaised S D sessionId headers body w) :
    ∃ b, body = some b ∧ b.value.encodable = false := by
  obtain ⟨b, turns, ctx, w', hb, hread, -, hnone⟩ := h
  refine ⟨b, hb, Bool.eq_false_iff.mpr fun hbody => ?_⟩
  have hsome := rebuild_isSome hread hbody ctx.turns
  rw [hnone] at hsome
  cases hsome

theorem NothingLeft.refl : NothingLeft S D sessionId w w := ⟨Or.inl rfl, fun _ _ => rfl⟩

/-- What accumulation does to the world of the session. -/
theorem counted_nothingLeft (ctx : AnalysisContext) :
    NothingLeft S D ctx.sessionId w (counted S D ctx w) := by
  constructor
  · have hvault := vault_loadOrNew S.env ctx.sessionId (turnCall D (scanned S ctx)) w
    rw [← counted_vault] at hvault
    exact hvault
  · intro now hnow
    rw [counted_store]
    exact getLastPurpose_touch _ (fun _ => rfl) (fun _ => rfl) (fun _ => rfl) hnow

/-- **A request that a stage blocks leaves no tokens and no purpose behind**, nor
does one that cannot be read. It may find the state of its session expired, and
then the tokens of the session are revoked. What is left are the blocks that come
after all stages: by the risk, and by `fail_action` for a body that is not UTF-8. -/
theorem blocked_leaves_nothing (S : Setup) (D : Draws) (sessionId : String)
    (headers : Dict String String) (body : Option Body) (w : World)
    (hblock : (analyzeRequest S D sessionId "input" headers body w).1.action = .block)
    (hrisk : (analyzeRequest S D sessionId "input" headers body w).1.reason.riskBlocked = false) :
    NothingLeft S D sessionId w (analyzeRequest S D sessionId "input" headers body w).2 ∨
      RebuildRaised S D sessionId headers body w ∧
        ∃ b, body = some b ∧ b.value.encodable = false := by
  suffices h : NothingLeft S D sessionId w
      (analyzeRequest S D sessionId "input" headers body w).2 ∨
      RebuildRaised S D sessionId headers body w from
    h.imp_right fun hraised => ⟨hraised, hraised.not_encodable⟩
  unfold analyzeRequest at hblock hrisk ⊢
  rw [analyze_input] at hblock hrisk ⊢
  unfold analyzeInput at hblock hrisk ⊢
  cases hturns : body.bind (·.extractTurns S.env.unicode) with
  | none => exact Or.inl .refl
  | some turns =>
      rw [hturns] at hblock hrisk
      dsimp only at hblock hrisk ⊢
      have hrun := run_inputStages S D
        (inputContext S.env.unicode sessionId headers body turns) w rfl rfl
      generalize hout : runStages (inputStages S D)
        (inputContext S.env.unicode sessionId headers body turns) w = out at hblock hrisk ⊢ hrun
      cases hrun with
      | injection hblocked =>
          left
          rw [conclude, blockCheck, if_pos hblocked]
          exact .refl
      | policy hblocked =>
          left
          rw [conclude, blockCheck, if_pos hblocked]
          exact counted_nothingLeft (inputContext S.env.unicode sessionId headers body turns)
      | through hopen hhit =>
          -- Only the risk can still block, and `rebuild` raise.
          right
          have hclear := transformed_clear hopen hhit
          rw [conclude] at hblock hrisk
          cases hcheck : blockCheck S.env.unicode S.config true
              (transformed S D (inputContext S.env.unicode sessionId headers body turns) w).1 with
          | some decision =>
              exfalso
              rw [hcheck] at hrisk
              rw [blockCheck, hclear.1, hclear.2, if_neg Bool.false_ne_true,
                if_neg Bool.false_ne_true] at hcheck
              split at hcheck
              · cases hcheck
                cases hrisk
              · cases hcheck
          | none =>
              rw [hcheck] at hblock
              dsimp only at hblock
              split at hblock
              · cases hblock
              · obtain ⟨b, rfl, hread⟩ := Option.bind_eq_some_iff.mp hturns
                refine ⟨b, turns, _, _, rfl, hread, completes_of_runStages hout hclear.1, ?_⟩
                cases hnew : rebuildInput S.env.unicode (some b) (transformed S D
                    (inputContext S.env.unicode sessionId headers (some b) turns) w).1 with
                | none => exact hnew
                | some new =>
                    rw [hnew] at hblock
                    cases hblock

/-- A policy that blocks everything. -/
def Setup.strict : Setup :=
  { Setup.sample with ruleset := some ⟨[⟨none, none, none, .block, 0⟩], []⟩ }

/-- An address under that policy. -/
theorem blocked_leaves_nothing_sample :
    NothingLeft .strict .sample "s" .empty
      (analyzeRequest .strict .sample "s" "input" [] (some (messageBody "a@b.co".toList))
        .empty).2 := by
  rcases blocked_leaves_nothing .strict .sample "s" [] (some (messageBody "a@b.co".toList)) .empty
    (by decide +kernel) (by decide +kernel) with h | ⟨-, b, heq, hb⟩
  · exact h
  · cases heq
    cases hb

/-- An address in a body with an unpaired surrogate, the last one, beside the messages. -/
def surrogateBody : Body where
  value := .obj [(.lit "x", .str [.surrogate (Fin.last 2047)]), (.lit "messages", .arr
    [.obj [(.lit "role", .str (.lit "user")), (.lit "content", .str (.lit "a@b.co"))]])]
  legible u ts hread := by
    obtain rfl : [⟨.lit "user", .lit "a@b.co"⟩] = ts := Option.some.inj hread
    exact List.forall_mem_singleton.mpr ⟨rfl, rfl⟩
  response_encodable u text hread := by
    obtain rfl : .lit "a@b.co" = text := Option.some.inj hread
    rfl

/-- With the threshold at zero the address is tokenized and the purpose stored
before the request is blocked. The same is left behind, under a threshold that is not
reached, when `rebuild` raises. -/
theorem risk_leaves_token :
    ((analyzeRequest { Setup.sample with config := ⟨.block, 0⟩ } .sample "s" "input" []
        (some (messageBody "a@b.co".toList)) .empty).1.action = .block ∧
      World.empty.vault.rows = [] ∧
      (analyzeRequest { Setup.sample with config := ⟨.block, 0⟩ } .sample "s" "input" []
        (some (messageBody "a@b.co".toList)) .empty).2.vault.rows.length = 1 ∧
      getLastPurpose World.empty.store 1 "s" = none ∧
      (getLastPurpose (analyzeRequest { Setup.sample with config := ⟨.block, 0⟩ } .sample "s"
        "input" [] (some (messageBody "a@b.co".toList)) .empty).2.store 1 "s").isSome) ∧
    (let (decision, world) := analyzeRequest .sample .sample "s" "input" [] (some surrogateBody)
      .empty
     decision.action = .block ∧ decision.reason.riskBlocked = false ∧
       world.vault.rows.length = 1 ∧ (getLastPurpose world.store 1 "s").isSome) := by
  decide +kernel

end Blocked

end DlpServer.Pipeline
