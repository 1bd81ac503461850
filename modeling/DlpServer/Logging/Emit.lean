import DlpServer.Logging.Query
import DlpServer.Pipeline.Request

/-!
# From a decision to its event (`_emit_log` of `app/pipeline.py`)

The event repeats what the reason of the decision says, and has defaults for what it does
not say. No stage renames the provider, so it is the name of an adapter (`known_provider`)
and fits the column of the table.
-/

namespace DlpServer.Logging

open Pipeline

/-- `r.get("provider", "unknown")`. -/
def providerOf : ReasonObj → String
  | .judged r => r.provider
  | .failed | .unknownDirection _ => "unknown"

/-- `_emit_log`, up to the writing. -/
def emitLog (sessionId direction : String) (decision : Decision) (latencyMs : ℤ)
    (createdAt : Vault.Time) : LogEvent :=
  let event : LogEvent :=
    { sessionId := sessionId
      direction := direction
      provider := providerOf decision.reason
      verdictAction := decision.action
      latencyMs := latencyMs
      purpose := none
      transforms := []
      entitiesSummary := []
      guardrailHits := []
      failPolicyApplied := false
      reason := decision.reason
      createdAt := createdAt }
  match decision.reason with
  | .judged r =>
      { event with
        purpose := r.purpose
        transforms := r.transforms
        entitiesSummary := r.entitiesSummary
        guardrailHits := r.guardrailHits
        failPolicyApplied := r.failPolicyApplied }
  | .failed => { event with failPolicyApplied := true }
  | .unknownDirection _ => event

theorem emitLog_provider (sessionId direction : String) (decision : Decision) (latencyMs : ℤ)
    (createdAt : Vault.Time) :
    (emitLog sessionId direction decision latencyMs createdAt).provider =
      providerOf decision.reason := by
  unfold emitLog
  dsimp only
  cases decision.reason <;> rfl

/-! ## The provider -/

/-- The names of the adapters, and the default. -/
def providers : List String := ["gateway", "gemini", "unknown"]

/-- A stage that does not rename the provider. -/
def KeepsProvider {W : Type*} (stage : Stage W) : Prop :=
  ∀ ctx ctx' w, (stage ctx w).1 = some ctx' → ctx'.provider = ctx.provider

section Stages

variable {W : Type*} {S : Setup} {D : Draws}

theorem keepsProvider_pure {f : AnalysisContext → AnalysisContext}
    (hf : ∀ ctx, (f ctx).provider = ctx.provider) : KeepsProvider (W := W) (pureStage f) :=
  fun ctx _ _ h => Option.some.inj h ▸ hf ctx

theorem keepsProvider_total {f : AnalysisContext → W → AnalysisContext × W}
    (hf : ∀ ctx w, (f ctx w).1.provider = ctx.provider) : KeepsProvider (totalStage f) :=
  fun ctx _ w h => Option.some.inj h ▸ hf ctx w

theorem runStages_provider {stages : List (Stage W)} (h : ∀ stage ∈ stages, KeepsProvider stage)
    {ctx ctx' : AnalysisContext} {w : W} (hrun : (runStages stages ctx w).1 = some ctx') :
    ctx'.provider = ctx.provider := by
  induction stages generalizing ctx w with
  | nil =>
      cases hrun
      rfl
  | cons stage stages ih =>
      have hstage := h stage List.mem_cons_self ctx
      rw [runStages] at hrun
      cases hout : stage ctx w with
      | mk found w₁ =>
          rw [hout] at hrun
          cases found with
          | none => cases hrun
          | some ctx₁ =>
              have hkept := hstage ctx₁ w (congrArg Prod.fst hout)
              dsimp only at hrun
              split at hrun
              · cases hrun
                exact hkept
              · exact (ih (fun s hs => h s (List.mem_cons_of_mem _ hs)) hrun).trans hkept

theorem keepsProvider_inputStages : ∀ stage ∈ inputStages S D, KeepsProvider stage := by
  intro stage hstage
  simp only [inputStages, List.mem_cons, List.not_mem_nil, or_false] at hstage
  rcases hstage with rfl | rfl | rfl | rfl | rfl | rfl
  · refine keepsProvider_pure fun ctx => ?_
    obtain ⟨verdict, blocked, reason, hguard⟩ := Guardrail.Injection.injectionGuard_frame
      S.injectionRules (S.guardrail.map Guardrail.GuardrailConfig.injectionThreshold) ctx
    rw [injectionGuard, hguard]
  · refine keepsProvider_pure fun ctx => ?_
    obtain ⟨spans, hscanned⟩ := piiDetectStage_frame (S := S) ctx
    rw [hscanned]
  · exact keepsProvider_total fun ctx w => rfl
  · refine keepsProvider_pure fun ctx => ?_
    obtain ⟨purpose, confidence, actions, blocked, reason, hjudged⟩ :=
      purposePolicyStage_frame (S := S) ctx
    rw [hjudged]
  · refine keepsProvider_total fun ctx w => ?_
    rw [rememberPurposeStage_ctx]
  · refine keepsProvider_total fun ctx w => ?_
    obtain ⟨turns, htransformed⟩ := transformStage_frame (S := S) (D := D) ctx w
    rw [htransformed]

theorem keepsProvider_outputStages : ∀ stage ∈ outputStages S D, KeepsProvider stage := by
  intro stage hstage
  simp only [outputStages, List.mem_cons, List.not_mem_nil, or_false] at hstage
  rcases hstage with rfl | rfl
  · refine keepsProvider_pure fun ctx => ?_
    unfold outputGuard Guardrail.outputGuard
    split
    · rfl
    · split
      · rfl
      · split
        · rfl
        · dsimp only
          split <;> rfl
  · refine keepsProvider_total fun ctx w => ?_
    unfold detokenizeStage
    split
    · rfl
    · split <;> rfl

end Stages

section Provider

variable {W : Type*} {u : Unicode} {cfg : Config}

theorem blockCheck_provider {checkRisk : Bool} {ctx : AnalysisContext} {decision : Decision}
    (h : blockCheck u cfg checkRisk ctx = some decision) :
    providerOf decision.reason = ctx.provider := by
  unfold blockCheck at h
  split at h
  · cases h
    rfl
  · split at h
    · cases h
      rfl
    · split at h
      · cases h
        rfl
      · cases h

/-- What is concluded names the provider of the context, or none. -/
theorem conclude_provider {checkRisk : Bool} {before : List Text}
    {texts : AnalysisContext → List Text} {rebuilt : AnalysisContext → Option Json}
    {out : Option AnalysisContext × W} {provider : String}
    (h : ∀ ctx, out.1 = some ctx → ctx.provider = provider) :
    providerOf (orFail cfg (conclude u cfg checkRisk before texts rebuilt out)).1.reason ∈
      [provider, "unknown"] := by
  obtain ⟨found, w⟩ := out
  cases found with
  | none => exact List.mem_cons_of_mem _ List.mem_cons_self
  | some ctx =>
      have hctx := h ctx rfl
      rw [conclude]
      cases hblock : blockCheck u cfg checkRisk ctx with
      | some decision =>
          have hname : providerOf decision.reason = provider :=
            (blockCheck_provider hblock).trans hctx
          exact hname ▸ List.mem_cons_self
      | none =>
          dsimp only
          split
          · exact hctx ▸ List.mem_cons_self
          · cases rebuilt ctx with
            | none => exact List.mem_cons_of_mem _ List.mem_cons_self
            | some new => exact hctx ▸ List.mem_cons_self

theorem selectAdapter_name (body : Json) : (Adapters.selectAdapter u body).name ∈ providers := by
  unfold Adapters.selectAdapter
  cases hfind : [Adapters.gemini u, Adapters.gateway u].find?
    (fun adapter => adapter.matchesBody body) with
  | none => exact List.mem_cons_self
  | some adapter =>
      have hmem := List.mem_of_find?_eq_some hfind
      simp only [List.mem_cons, List.not_mem_nil, or_false] at hmem
      rcases hmem with rfl | rfl
      · exact List.mem_cons_of_mem _ List.mem_cons_self
      · exact List.mem_cons_self

theorem adapterFor_name (body : Option Adapters.Body) : (adapterFor u body).name ∈ providers := by
  cases body with
  | none => exact List.mem_cons_self
  | some body => exact selectAdapter_name body.value

end Provider

/-- Each decision names an adapter, or is without a provider. -/
theorem known_provider (S : Setup) (D : Draws) (sessionId direction : String)
    (headers : Dict String String) (body : Option Adapters.Body) (w : Pipeline.World) :
    providerOf (analyzeRequest S D sessionId direction headers body w).1.reason ∈ providers := by
  have hlast : "unknown" ∈ providers := by decide
  have hwiden : ∀ {p q : String}, p ∈ providers → q ∈ [p, "unknown"] → q ∈ providers := by
    intro p q hp hq
    rcases List.mem_pair.mp hq with rfl | rfl
    · exact hp
    · exact hlast
  unfold analyzeRequest analyze dispatch
  split
  · unfold analyzeInput
    split
    · exact hlast
    · have hname := adapterFor_name (u := S.env.unicode) body
      refine hwiden hname (conclude_provider fun ctx hctx => ?_)
      exact runStages_provider keepsProvider_inputStages hctx
  · split
    · unfold analyzeOutput
      split
      · exact hlast
      · have hname := adapterFor_name (u := S.env.unicode) body
        refine hwiden hname (conclude_provider fun ctx hctx => ?_)
        exact runStages_provider keepsProvider_outputStages hctx
    · exact hlast

/-! ## Emitted events -/

/-- An event that a decision ended in. -/
structure Emitted where
  event : LogEvent
  provider_mem : event.provider ∈ providers

/-- The event of a request, with the decision that `analyze` comes to. -/
def Emitted.ofRequest (S : Setup) (D : Draws) (sessionId direction : String)
    (headers : Dict String String) (body : Option Adapters.Body) (w : Pipeline.World) (latencyMs : ℤ)
    (createdAt : Vault.Time) : Emitted where
  event := emitLog sessionId direction
    (analyzeRequest S D sessionId direction headers body w).1 latencyMs createdAt
  provider_mem := by
    rw [emitLog_provider]
    exact known_provider S D sessionId direction headers body w

theorem Emitted.fits_provider (e : Emitted) : e.event.provider.toList.length ≤ 32 := by
  have hall : ∀ p ∈ providers, p.toList.length ≤ 32 := by decide
  exact hall _ e.provider_mem

end DlpServer.Logging
