import DlpServer.Context.Stage
import DlpServer.Detect.Layers
import DlpServer.Guardrail.OutputCheck
import DlpServer.Pipeline.Core
import DlpServer.Policy.Engine

/-!
# The stages and what they share

The stages of `_INPUT_STAGES` and `_OUTPUT_STAGES`, on a world that holds the
session store and the vault. The store calls `_default_on_expire`, which revokes
the tokens of a session in the vault when its state is found expired. The
database answers.
-/

namespace DlpServer.Pipeline

open Adapters Context

structure World where
  store : Store
  vault : Vault.Db

/-- What the process is set up with. What is `none` cannot be loaded. -/
structure Setup where
  env : Vault.Env
  config : Config
  layers : Detect.Layers
  injectionRules : List Guardrail.Injection.Rule
  accumulator : AccumulatorConfig
  purposeRules : List Purpose.Rule
  ruleset : Option Policy.Ruleset
  guardrail : Option Guardrail.GuardrailConfig
  outputRules : List Guardrail.OutputRule

/-- What a request meets: the year, the random draws, the rows that the database
picks, and the instants at which the session store reads the clock. -/
structure Draws where
  year : ℤ
  chance : ℕ → Transform.Chance
  fetch : ℕ → Vault.FetchOne
  loadedAt : ℚ
  createdAt : ℚ
  accumulatedAt : ℚ
  rememberLoadedAt : ℚ
  rememberCreatedAt : ℚ
  purposeReadAt : ℚ

/-! ## Expiry -/

/-- `_default_on_expire` for states that were taken out of the store. -/
def onExpire (env : Vault.Env) (store : Store) (fired : List Ref) (v : Vault.Db) : Vault.Db :=
  fired.foldl (fun v r =>
    match store.heap[r]? with
    | some st => Vault.revokeSession env v st.sessionId
    | none => v) v

/-- `load`, and `new_session` where there is no state. -/
def World.loadOrNew (env : Vault.Env) (sessionId : String) (w : World) (c : StageCall) :
    Ref × World :=
  let (r, fired, store) := Context.loadOrNew sessionId w.store c
  (r, ⟨store, onExpire env store fired w.vault⟩)

/-- `get_last_purpose`. -/
def World.getLastPurpose (env : Vault.Env) (sessionId : String) (now : ℚ) (w : World) :
    Option String × World :=
  let (r, fired, store) := w.store.load now sessionId
  ((r.bind fun r => store.heap[r]?).bind SessionState.purpose,
    ⟨store, onExpire env store fired w.vault⟩)

/-! ## Input -/

/-- A stage that shares nothing and does not raise. -/
def pureStage {W : Type*} (f : AnalysisContext → AnalysisContext) : Stage W :=
  fun ctx w => (some (f ctx), w)

/-- A stage that does not raise. -/
def totalStage {W : Type*} (f : AnalysisContext → W → AnalysisContext × W) : Stage W :=
  fun ctx w => (some (f ctx w).1, (f ctx w).2)

section Stages

variable (S : Setup) (D : Draws)

/-- `injection_guard`, with the threshold of the configuration. -/
def injectionGuard : AnalysisContext → AnalysisContext :=
  Guardrail.Injection.injectionGuard S.injectionRules
    (S.guardrail.map Guardrail.GuardrailConfig.injectionThreshold)

/-- `pii_detect_stage`. -/
def piiDetectStage : AnalysisContext → AnalysisContext :=
  S.layers.piiDetectStage S.env.unicode

/-- `_group_by_type`. -/
def groupByType (spans : List Span) : Dict String (List Span) :=
  spans.foldl (fun grouped span =>
    grouped.set span.type ((grouped.get? span.type).getD [] ++ [span])) []

/-- The call that `multiturn_stage` makes on the session. -/
def turnCall (ctx : AnalysisContext) : StageCall :=
  ⟨ctx.newTurnSpans, D.loadedAt, D.createdAt, D.accumulatedAt⟩

/-- `multiturn_stage`. -/
def multiturnStage (ctx : AnalysisContext) (w : World) : AnalysisContext × World :=
  let call := turnCall D ctx
  let (r, w) := w.loadOrNew S.env ctx.sessionId call
  let store := (accumulateStep S.env.sha256Hex S.accumulator w.store r call).save r
  let riskScore := ((store.heap[r]?).map SessionState.riskScore).getD 0
  ({ ctx with riskScore := riskScore, accumulated := groupByType ctx.newTurnSpans },
    { w with store := store })

/-- `purpose_policy_stage`. -/
def purposePolicyStage : AnalysisContext → AnalysisContext :=
  Policy.purposePolicyStage S.env.unicode S.purposeRules S.ruleset

/-- The call that `remember_purpose_stage` makes; it accumulates nothing. -/
def rememberCall : StageCall :=
  ⟨[], D.rememberLoadedAt, D.rememberCreatedAt, D.rememberCreatedAt⟩

/-- `remember_purpose_stage`. -/
def rememberPurposeStage (ctx : AnalysisContext) (w : World) : AnalysisContext × World :=
  if ctx.direction ≠ "input" ∨ ctx.purpose = none then (ctx, w)
  else
    let (r, w) := w.loadOrNew S.env ctx.sessionId (rememberCall D)
    let store := (w.store.modify r fun st => { st with purpose := ctx.purpose }).save r
    (ctx, { w with store := store })

/-- `transform_stage`. -/
def transformStage (ctx : AnalysisContext) (w : World) : AnalysisContext × World :=
  let (ctx, vault) := Transform.transformStage S.env D.year D.chance ctx w.vault
  (ctx, { w with vault := vault })

/-- `_INPUT_STAGES`. -/
def inputStages : List (Stage World) :=
  [pureStage (injectionGuard S), pureStage (piiDetectStage S), totalStage (multiturnStage S D),
   pureStage (purposePolicyStage S), totalStage (rememberPurposeStage S D),
   totalStage (transformStage S D)]

/-! ## Output -/

/-- `output_guard`. -/
def outputGuard : AnalysisContext → AnalysisContext :=
  Guardrail.outputGuard S.env.unicode S.guardrail S.outputRules

/-- `detokenize_stage`. -/
def detokenizeStage (ctx : AnalysisContext) (w : World) : AnalysisContext × World :=
  if ctx.direction ≠ "output" then (ctx, w)
  else
    match ctx.turns with
    | [] => (ctx, w)
    | turn :: rest =>
        let (purpose, w) := w.getLastPurpose S.env ctx.sessionId D.purposeReadAt
        let (text, vault) := Vault.detokenizeText S.env D.fetch w.vault ctx.sessionId turn.text
          ctx.role purpose
        ({ ctx with turns := { turn with text := text } :: rest }, { w with vault := vault })

/-- `_OUTPUT_STAGES`. -/
def outputStages : List (Stage World) :=
  [pureStage (outputGuard S), totalStage (detokenizeStage S D)]

/-! ## Requests -/

/-- `analyze` with the stages above. -/
def analyzeRequest (sessionId direction : String) (headers : Dict String String)
    (body : Option Body) (w : World) : Decision × World :=
  analyze S.env.unicode S.config (inputStages S D) (outputStages S D) sessionId direction headers
    body w

end Stages

/-! ## A setup -/

/-- The regex layer alone, no rules, and a policy that tokenizes. -/
def Setup.sample : Setup where
  env := .sample
  config := ⟨.block, (6 / 10 : ℚ)⟩
  layers := ⟨none, ⟨fun _ => none, fun _ _ h => by cases h⟩, none⟩
  injectionRules := []
  accumulator := defaultConfig
  purposeRules := []
  ruleset := some ⟨[], []⟩
  guardrail := some ⟨7 / 10, 5 / 10, true⟩
  outputRules := []

def Draws.sample : Draws where
  year := 2026
  chance _ := ⟨.zero, 0, fun _ => 0⟩
  fetch _ := .first
  loadedAt := 0
  createdAt := 0
  accumulatedAt := 0
  rememberLoadedAt := 0
  rememberCreatedAt := 0
  purposeReadAt := 0

def World.empty : World := ⟨⟨[], [], 1800⟩, .empty 0⟩

/-- `{"messages": [{"role": "user", "content": t}]}`. -/
def messageBody (text : Text) : Body :=
  .ofEncodable (.obj [(.lit "messages", .arr [.obj [(.lit "role", .str (.lit "user")),
    (.lit "content", .str (.ofText text))]])]) (by
    simp [Json.encodable, Json.encodableItems, Json.encodableFields, PyStr.encodable_lit,
      PyStr.encodable_ofText])

end DlpServer.Pipeline
