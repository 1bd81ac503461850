import DlpServer.Guardrail.Injection
import DlpServer.Lib.Regex
import DlpServer.Purpose

/-!
# The policy engine (`app/policy/engine.py`)

From purpose, role and entity type the rules give an action; risk overrides that
fire come first.
-/

namespace DlpServer.Policy

open Regex

/-- `_FALLBACK_ACTION`. -/
def fallbackAction : Action := .tokenize

/-- `_Rule`; `none` is a wildcard. -/
structure Rule where
  purpose : Option String
  role : Option String
  entityType : Option String
  action : Action
  priority : ℤ

/-- `_Override`. -/
structure Override where
  conditionExpr : Text
  action : Action
  priority : ℤ

structure Ruleset where
  rules : List Rule := []
  overrides : List Override := []

section Engine

variable (u : Unicode)

/-! ## Conditions -/

/-- `_RISK_SCORE_RE`: `risk_score\s*>=\s*(0(?:\.\d+)?|1(?:\.0+)?)`. -/
def riskScoreRe : Pattern Char :=
  .seq (.lit "risk_score".toList) <| .seq (.rep (.one u.isSpace) 0 none) <|
    .seq (.lit ['>', '=']) <| .seq (.rep (.one u.isSpace) 0 none) <|
      .group 1 <| .alt
        (.seq (.lit ['0']) (.opt (.seq (.lit ['.']) (.some1 u.isDecimal))))
        (.seq (.lit ['1']) (.opt (.seq (.lit ['.']) (.some1 fun c => c == '0'))))

/-- What decimal digits with at most one point stand for. -/
def numeralValue (s : Text) : ℚ :=
  let whole := s.takeWhile (· != '.')
  let fraction := (s.dropWhile (· != '.')).drop 1
  u.intOf (whole ++ fraction) / 10 ^ fraction.length

/-- `float(s)`, of a numeral of at most one. -/
def floatOf (s : Text) : PyFloat := toDouble (numeralValue u s)

/-- `eval_condition`. -/
def evalCondition (expr : Text) (riskScore : PyFloat) (injectionHit : Bool) : Bool :=
  let expr := u.strip expr
  if expr = "injection.hit".toList then injectionHit
  else
    match (riskScoreRe u).fullmatch expr with
    | some m => decide (floatOf u (m.group 1) ≤ riskScore)
    | none => false

/-! ## Rules -/

/-- A wildcard, or the value itself. -/
def axisMatches (axis : Option String) (value : Option String) : Bool :=
  axis.isNone || axis == value

/-- `matches`, local to `pick_action`. -/
def ruleMatches (purpose : String) (role : Option String) (entityType : String) (r : Rule) :
    Bool :=
  axisMatches r.purpose (some purpose) && axisMatches r.role role &&
    axisMatches r.entityType (some entityType)

/-- `specificity`, local to `pick_action`. -/
def specificity (r : Rule) : ℕ :=
  r.purpose.isSome.toNat + r.role.isSome.toNat + r.entityType.isSome.toNat

/-- The order in which overrides are compared. -/
def OverrideKey : Type := ℤ

instance : LinearOrder OverrideKey := Int.instLinearOrder

def overrideKey (o : Override) : OverrideKey := o.priority

/-- `(specificity(r), r.priority)`. -/
def RuleKey : Type := ℕ ×ₗ ℤ

instance : LinearOrder RuleKey := @Prod.Lex.instLinearOrder ℕ ℤ _ Int.instLinearOrder

def ruleKey (r : Rule) : RuleKey := (toLex (specificity r, r.priority) : ℕ ×ₗ ℤ)

/-- `pick_action`: the first override of the highest priority among those that
fire, else the most specific rule, else the fallback. -/
def pickAction (rs : Ruleset) (purpose : String) (role : Option String) (entityType : String)
    (riskScore : PyFloat) (injectionHit : Bool) : Action :=
  let fired := rs.overrides.filter fun o => evalCondition u o.conditionExpr riskScore injectionHit
  match fired.argmax overrideKey with
  | some o => o.action
  | none =>
      match (rs.rules.filter (ruleMatches purpose role entityType)).argmax ruleKey with
      | some r => r.action
      | none => fallbackAction

/-! ## The stage -/

/-- `decide`, for a span of the request in this context. -/
def spanAction (rs : Ruleset) (purpose : String) (ctx : AnalysisContext) (span : Span) : Action :=
  pickAction u rs purpose ctx.role span.type ctx.riskScore ctx.injection.hit

/-- One round of the loop of `purpose_policy_stage`. -/
def policyRound (rs : Ruleset) (purpose : String) (ctx : AnalysisContext) (span : Span) :
    AnalysisContext :=
  let action := spanAction u rs purpose ctx span
  let ctx := { ctx with spanActions := ctx.spanActions ++ [(span, action)] }
  if action = .block then
    { ctx with
      blocked := true
      blockReason := some
        [("type", some "policy"), ("entity", some span.type), ("purpose", some purpose)] }
  else ctx

/-- `purpose_policy_stage`. `rs` is `none` when the ruleset cannot be loaded,
which the first span finds out. -/
def purposePolicyStage (purposeRules : List Purpose.Rule) (rs : Option Ruleset)
    (ctx : AnalysisContext) : AnalysisContext :=
  if ctx.direction ≠ "input" then ctx
  else
    let (purpose, confidence) :=
      Purpose.classify purposeRules ((Guardrail.Injection.lastUserText ctx.turns).getD [])
    let ctx := { ctx with purpose := some purpose, purposeConfidence := some confidence }
    match rs with
    | some rs => ctx.newTurnSpans.foldl (policyRound u rs purpose) ctx
    | none =>
        if ctx.newTurnSpans = [] then ctx
        else
          { ctx with
            blocked := true
            blockReason := some [("type", some "policy"), ("note", some "stage_error")] }

end Engine

end DlpServer.Policy
