import DlpServer.Adapters.Body
import DlpServer.Purpose
import DlpServer.Transform.Apply

/-!
# The pipeline (`app/pipeline.py`)

`analyze` runs the stages of its direction on a context made from the body and
turns the outcome into a decision. The stages are arbitrary here: functions of
the context and of what they share (`W`: the session store, the vault), which
may raise. `verdict_sound` says what an allow or a transform rests on.

A body is `none` when `json.loads` rejects its bytes; of the others the turns are
text (`Adapters.Body`). Writing the audit event, which cannot change the decision, is
left out.
-/

namespace DlpServer.Pipeline

open Adapters

/-! ## Decisions -/

/-- `risk.hard_block` and `fail_action` of the configuration. -/
structure Config where
  failAction : WireAction
  hardBlock : PyFloat

/-- One entry of `entities_summary`. -/
structure EntitySummary where
  type : String
  confidence : ℚ
  maskedPreview : Text
deriving DecidableEq

/-- The dictionary that `_reason` makes. -/
structure Reason where
  verdict : String
  provider : String
  transforms : List (String × Action)
  entitiesSummary : List EntitySummary
  purpose : Option String
  riskScore : PyFloat
  guardrailHits : List BlockReason
  failPolicyApplied : Bool
  note : Option String
deriving DecidableEq

/-- `reason_obj`: that of a judgement, that of an exception, or the note on an
unknown direction. -/
inductive ReasonObj where
  | judged (reason : Reason)
  | failed
  | unknownDirection (direction : String)
deriving DecidableEq

structure Decision where
  action : WireAction
  transformedBody : Option Json
  reason : ReasonObj

variable (u : Unicode)

/-- `round(x, 4)`. -/
def round4 (x : ℚ) : ℚ := roundHalfEven (x * 10000) / 10000

/-- `_transforms_summary`. -/
def transformsSummary (ctx : AnalysisContext) : List (String × Action) :=
  (ctx.spanActions.filter fun p => p.2 ≠ .keep).map fun p => (p.1.type, p.2)

/-- `_entities_summary`: previews, never the value. -/
def entitiesSummary (ctx : AnalysisContext) : List EntitySummary :=
  ctx.newTurnSpans.map fun s => ⟨s.type, round4 s.confidence, Transform.mask u s⟩

/-- `_reason`, with what it may be given beside the context. -/
def reason (ctx : AnalysisContext) (verdict : String) (guardrailHits : List BlockReason)
    (note : Option String) : ReasonObj :=
  .judged
    { verdict := verdict
      provider := ctx.provider
      transforms := transformsSummary ctx
      entitiesSummary := entitiesSummary u ctx
      purpose := ctx.purpose
      riskScore := ctx.riskScore.map round4
      guardrailHits := guardrailHits
      failPolicyApplied := false
      note := note }

/-! ## Stages -/

/-- A stage; `none` is an exception. -/
abbrev Stage (W : Type*) : Type _ := AnalysisContext → W → Option AnalysisContext × W

variable {W : Type*}

/-- `_run_stages`: a stage that leaves `blocked` set is the last. -/
def runStages : List (Stage W) → AnalysisContext → W → Option AnalysisContext × W
  | [], ctx, w => (some ctx, w)
  | stage :: stages, ctx, w =>
      match stage ctx w with
      | (none, w) => (none, w)
      | (some ctx, w) => if ctx.blocked then (some ctx, w) else runStages stages ctx w

/-- `[ctx.block_reason] if ctx.block_reason else []`. -/
def blockHits (ctx : AnalysisContext) : List BlockReason :=
  match ctx.blockReason with
  | some r => if r = [] then [] else [r]
  | none => []

/-- `_block_check`: the three signals, in order. -/
def blockCheck (cfg : Config) (checkRisk : Bool) (ctx : AnalysisContext) : Option Decision :=
  if ctx.blocked then some ⟨.block, none, reason u ctx "block" (blockHits ctx) none⟩
  else if ctx.injection.hit then
    some ⟨.block, none, reason u ctx "block"
      [[("type", some "injection"), ("pattern", ctx.injection.pattern)]] none⟩
  else if checkRisk ∧ cfg.hardBlock ≤ ctx.riskScore then
    some ⟨.block, none, reason u ctx "block" [] (some "risk_hard_block")⟩
  else none

/-! ## `analyze` -/

/-- `select_adapter`; bytes that are no JSON match neither adapter. -/
def adapterFor (body : Option Body) : Adapter :=
  match body with
  | some body => selectAdapter u body.value
  | none => gateway u

/-- The context at the start; the fields not listed have their defaults. -/
def newContext (direction sessionId : String) (headers : Dict String String) (provider : String)
    (turns : List Turn) : AnalysisContext where
  sessionId := sessionId
  direction := direction
  provider := provider
  role := Purpose.resolveRole u headers
  turns := turns
  newTurnSpans := []
  riskScore := 0
  injection := ⟨false, 0, none⟩
  blocked := false
  blockReason := none
  purpose := none
  purposeConfidence := none
  spanActions := []

/-- The context that `_analyze_input` hands to the first stage. -/
def inputContext (sessionId : String) (headers : Dict String String) (body : Option Body)
    (turns : List Turn) : AnalysisContext :=
  newContext u "input" sessionId headers (adapterFor u body).name turns

/-- The context that `_analyze_output` hands to the first stage. -/
def outputContext (sessionId : String) (headers : Dict String String) (body : Option Body)
    (text : Text) : AnalysisContext :=
  newContext u "output" sessionId headers (adapterFor u body).name [⟨"assistant", text⟩]

/-- The end of `_analyze_input` and `_analyze_output`, from what the stages gave:
unchanged texts go on in the body as it came. -/
def conclude (cfg : Config) (checkRisk : Bool) (before : List Text)
    (texts : AnalysisContext → List Text) (rebuilt : AnalysisContext → Option Json)
    (out : Option AnalysisContext × W) : Option Decision × W :=
  match out with
  | (none, w) => (none, w)
  | (some ctx, w) =>
      match blockCheck u cfg checkRisk ctx with
      | some decision => (some decision, w)
      | none =>
          if texts ctx = before then (some ⟨.allow, none, reason u ctx "allow" [] none⟩, w)
          else
            ((rebuilt ctx).map fun new =>
              ⟨.transform, some new, reason u ctx "transform" [] none⟩, w)

/-- `adapter.rebuild(body, ctx.turns)`. -/
def rebuildInput (body : Option Body) (ctx : AnalysisContext) : Option Json :=
  body.bind fun body => body.rebuild u ctx.turns

/-- `_analyze_input`. -/
def analyzeInput (cfg : Config) (stages : List (Stage W)) (sessionId : String)
    (headers : Dict String String) (body : Option Body) (w : W) : Option Decision × W :=
  match body.bind (·.extractTurns u) with
  | none => (none, w)
  | some turns =>
      conclude u cfg true (turns.map Turn.text) (fun ctx => ctx.turns.map Turn.text)
        (rebuildInput u body) (runStages stages (inputContext u sessionId headers body turns) w)

/-- `ctx.turns[0].text if ctx.turns else text`. -/
def newText (text : Text) (ctx : AnalysisContext) : Text :=
  (ctx.turns.head?.map Turn.text).getD text

/-- `adapter.rebuild_response(body, new_text)`. -/
def rebuildOutput (body : Option Body) (text : Text) (ctx : AnalysisContext) : Option Json :=
  body.bind fun body => body.rebuildResponse u (newText text ctx)

/-- `_analyze_output`. -/
def analyzeOutput (cfg : Config) (stages : List (Stage W)) (sessionId : String)
    (headers : Dict String String) (body : Option Body) (w : W) : Option Decision × W :=
  match body.bind (·.parseResponse u) with
  | none => (none, w)
  | some text =>
      conclude u cfg false [text] (fun ctx => [newText text ctx]) (rebuildOutput u body text)
        (runStages stages (outputContext u sessionId headers body text) w)

/-- `_dispatch`. -/
def dispatch (cfg : Config) (inputStages outputStages : List (Stage W))
    (sessionId direction : String) (headers : Dict String String) (body : Option Body) (w : W) :
    Option Decision × W :=
  if direction = "input" then analyzeInput u cfg inputStages sessionId headers body w
  else if direction = "output" then analyzeOutput u cfg outputStages sessionId headers body w
  else (some ⟨.allow, none, .unknownDirection direction⟩, w)

/-- An exception gives `fail_action`. -/
def orFail (cfg : Config) : Option Decision × W → Decision × W
  | (some decision, w) => (decision, w)
  | (none, w) => (⟨cfg.failAction, none, .failed⟩, w)

/-- `analyze`. -/
def analyze (cfg : Config) (inputStages outputStages : List (Stage W))
    (sessionId direction : String) (headers : Dict String String) (body : Option Body) (w : W) :
    Decision × W :=
  orFail cfg (dispatch u cfg inputStages outputStages sessionId direction headers body w)

end DlpServer.Pipeline
