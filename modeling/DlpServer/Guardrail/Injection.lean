import DlpServer.Models

/-!
# The input guard (`app/guardrail/injection.py`)

The last text of the user is scanned for injection rules; the best score counts.
A compiled rule is known by its search; `none` is an exception.
-/

namespace DlpServer.Guardrail.Injection

structure Rule where
  name : String
  category : String
  score : ℚ
  search : Text → Option Bool

/-- One round of the loop of `RuleEngine.scan`: a rule that raises is passed
over, and only a better score counts. -/
def scanRound (text : Text) (best : ℚ × Option String) (rule : Rule) : ℚ × Option String :=
  if rule.search text = some true ∧ best.1 < rule.score then (rule.score, some rule.name)
  else best

/-- `RuleEngine.scan`. -/
def engineScan (rules : List Rule) (text : Text) (threshold : ℚ) : InjectionVerdict :=
  let best := rules.foldl (scanRound text) (0, none)
  { hit := decide (threshold ≤ best.1)
    score := best.1
    pattern := if threshold ≤ best.1 then best.2 else none }

/-- `scan` with the configured threshold; where it cannot be read, nothing hits. -/
def scan (rules : List Rule) (threshold : Option ℚ) (text : Text) : InjectionVerdict :=
  match threshold with
  | some threshold => engineScan rules text threshold
  | none => ⟨false, 0, none⟩

/-- `_last_user_text`, here and in `policy/engine.py`. -/
def lastUserText (turns : List Turn) : Option Text :=
  (turns.reverse.find? fun turn => turn.role == "user").map Turn.text

/-- `injection_guard`. -/
def injectionGuard (rules : List Rule) (threshold : Option ℚ) (ctx : AnalysisContext) :
    AnalysisContext :=
  match lastUserText ctx.turns with
  | none | some [] => ctx
  | some text =>
      let verdict := scan rules threshold text
      let ctx := { ctx with injection := verdict }
      if verdict.hit then
        { ctx with
          blocked := true
          blockReason := some [("type", some "injection"), ("pattern", verdict.pattern)] }
      else ctx

/-- The guard sets the verdict and the block, nothing else. -/
theorem injectionGuard_frame (rules : List Rule) (threshold : Option ℚ) (ctx : AnalysisContext) :
    ∃ verdict blocked reason, injectionGuard rules threshold ctx =
      { ctx with injection := verdict, blocked := blocked, blockReason := reason } := by
  unfold injectionGuard
  split
  · exact ⟨ctx.injection, ctx.blocked, ctx.blockReason, rfl⟩
  · exact ⟨ctx.injection, ctx.blocked, ctx.blockReason, rfl⟩
  · dsimp only
    split
    · exact ⟨_, _, _, rfl⟩
    · exact ⟨_, _, _, rfl⟩

end DlpServer.Guardrail.Injection
