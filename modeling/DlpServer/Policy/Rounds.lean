import DlpServer.Lib.Best
import DlpServer.Policy.Engine

/-!
# What the policy stage decides

The rounds of `purpose_policy_stage` give every span its action, in order, and one
action `block` blocks the request for good.
-/

namespace DlpServer.Policy

variable {u : Unicode} {rs : Ruleset} {purpose : String}

/-! ## Rounds -/

theorem policyRound_blocked {ctx : AnalysisContext} (h : ctx.blocked = true) (span : Span) :
    (policyRound u rs purpose ctx span).blocked = true := by
  unfold policyRound
  dsimp only
  split
  · rfl
  · exact h

theorem rounds_blocked {ctx : AnalysisContext} (h : ctx.blocked = true) (spans : List Span) :
    (spans.foldl (policyRound u rs purpose) ctx).blocked = true := by
  induction spans generalizing ctx with
  | nil => exact h
  | cons span spans ih => exact ih (policyRound_blocked h span)

/-- A round that does not block only records the action. -/
theorem policyRound_open {ctx : AnalysisContext} {span : Span}
    (h : (policyRound u rs purpose ctx span).blocked = false) :
    spanAction u rs purpose ctx span ≠ .block ∧ policyRound u rs purpose ctx span =
      { ctx with spanActions := ctx.spanActions ++ [(span, spanAction u rs purpose ctx span)] } := by
  unfold policyRound at h ⊢
  dsimp only at h ⊢
  split at h
  · cases h
  · rename_i hne
    exact ⟨hne, if_neg hne⟩

/-- **Rounds that do not block** record the action of each span. -/
theorem rounds_open {ctx : AnalysisContext} {spans : List Span}
    (h : (spans.foldl (policyRound u rs purpose) ctx).blocked = false) :
    (spans.foldl (policyRound u rs purpose) ctx).spanActions =
        ctx.spanActions ++ spans.map (fun s => (s, spanAction u rs purpose ctx s)) ∧
      ∀ s ∈ spans, spanAction u rs purpose ctx s ≠ .block := by
  induction spans generalizing ctx with
  | nil =>
      refine ⟨(List.append_nil _).symm, fun s hs => ?_⟩
      cases hs
  | cons span spans ih =>
      rw [List.foldl_cons] at h ⊢
      have hround : (policyRound u rs purpose ctx span).blocked = false := by
        cases hblocked : (policyRound u rs purpose ctx span).blocked with
        | false => rfl
        | true =>
            rw [rounds_blocked hblocked spans] at h
            cases h
      obtain ⟨hne, hrecord⟩ := policyRound_open hround
      obtain ⟨hactions, hrest⟩ := ih h
      -- Recording an action changes nothing that the next one depends on.
      have hsame : ∀ s, spanAction u rs purpose (policyRound u rs purpose ctx span) s =
          spanAction u rs purpose ctx s := by
        intro s
        rw [hrecord]
        rfl
      constructor
      · rw [hactions, hrecord, List.append_assoc, List.map_cons, List.singleton_append]
        rfl
      · intro s hs
        rcases List.mem_cons.mp hs with rfl | hs
        · exact hne
        · exact hsame s ▸ hrest s hs

/-! ## The stage -/

/-- The action that the stage gives to a span; none without a ruleset. -/
def stageAction (u : Unicode) (purposeRules : List Purpose.Rule) (rs : Option Ruleset)
    (ctx : AnalysisContext) (span : Span) : Option Action :=
  rs.map fun rs => spanAction u rs
    (Purpose.classify purposeRules ((Guardrail.Injection.lastUserText ctx.turns).getD [])).1 ctx span

/-- A request that is not blocked has an action for each of its spans. -/
theorem purposePolicyStage_open (u : Unicode) (purposeRules : List Purpose.Rule)
    (rs : Option Ruleset) (ctx : AnalysisContext) (hdir : ctx.direction = "input") (hactions : ctx.spanActions = [])
    (hopen : (purposePolicyStage u purposeRules rs ctx).blocked = false) :
    (purposePolicyStage u purposeRules rs ctx).spanActions.map Prod.fst = ctx.newTurnSpans ∧
      ∀ p ∈ (purposePolicyStage u purposeRules rs ctx).spanActions,
        stageAction u purposeRules rs ctx p.1 = some p.2 ∧ p.2 ≠ .block := by
  unfold purposePolicyStage at hopen ⊢
  rw [if_neg (not_not.mpr hdir)] at hopen ⊢
  cases rs with
  | some rs =>
      dsimp only at hopen ⊢
      obtain ⟨hspans, hblock⟩ := rounds_open hopen
      rw [hspans]
      dsimp only
      rw [hactions, List.nil_append, List.map_map]
      refine ⟨List.map_id _, fun p hp => ?_⟩
      obtain ⟨s, hs, rfl⟩ := List.mem_map.mp hp
      exact ⟨rfl, hblock s hs⟩
  | none =>
      dsimp only at hopen ⊢
      split at hopen
      · rename_i hspans
        rw [if_pos hspans]
        dsimp only
        rw [hactions, hspans]
        refine ⟨rfl, fun p hp => ?_⟩
        cases hp
      · cases hopen

/-! ## Overrides -/

/-- The override of the highest priority decides when it fires. -/
theorem pickAction_of_override {o : Override} {before after : List Override}
    (hsplit : rs.overrides = before ++ o :: after)
    (htop : ∀ o' ∈ before ++ after, o'.priority < o.priority) {riskScore : PyFloat}
    {injectionHit : Bool}
    (hfires : evalCondition u o.conditionExpr riskScore injectionHit = true)
    (purpose : String) (role : Option String) (entityType : String) :
    pickAction u rs purpose role entityType riskScore injectionHit = o.action := by
  have hlt : ∀ o' ∈ before ++ after, overrideKey o' < overrideKey o := htop
  have hfirst : (rs.overrides.filter fun o =>
      evalCondition u o.conditionExpr riskScore injectionHit).argmax overrideKey = some o := by
    have hfilter : (o :: after).filter (fun o => evalCondition u o.conditionExpr riskScore
        injectionHit) = o :: after.filter fun o => evalCondition u o.conditionExpr riskScore
        injectionHit := List.filter_cons_of_pos hfires
    rw [hsplit, List.filter_append, hfilter]
    refine Best.argmax_append_cons (fun o' ho' => ?_) fun o' ho' => ?_
    · exact hlt o' (List.mem_append_left _ (List.mem_of_mem_filter ho'))
    · exact (hlt o' (List.mem_append_right _ (List.mem_of_mem_filter ho'))).le
  unfold pickAction
  dsimp only
  rw [hfirst]

/-- One round with an action `block` blocks the request. -/
theorem rounds_blocked_of_mem {ctx : AnalysisContext} {spans : List Span} {span : Span}
    (hspan : span ∈ spans) (h : spanAction u rs purpose ctx span = .block) :
    (spans.foldl (policyRound u rs purpose) ctx).blocked = true := by
  cases hblocked : (spans.foldl (policyRound u rs purpose) ctx).blocked with
  | true => rfl
  | false => exact absurd h ((rounds_open hblocked).2 span hspan)

/-- **A block override of the highest priority that fires blocks a request with a
span.** Overrides are looked at for each span: a request without spans is blocked
only if it was blocked before. -/
theorem block_override_blocks (u : Unicode) (purposeRules : List Purpose.Rule) (rs : Ruleset)
    (ctx : AnalysisContext) (o : Override) (before after : List Override)
    (hsplit : rs.overrides = before ++ o :: after) (hblock : o.action = .block)
    (htop : ∀ o' ∈ before ++ after, o'.priority < o.priority) (hdir : ctx.direction = "input")
    (hfires : evalCondition u o.conditionExpr ctx.riskScore ctx.injection.hit = true) :
    (purposePolicyStage u purposeRules (some rs) ctx).blocked =
      (ctx.blocked || !ctx.newTurnSpans.isEmpty) := by
  unfold purposePolicyStage
  rw [if_neg (not_not.mpr hdir)]
  dsimp only
  cases hspans : ctx.newTurnSpans with
  | nil => rw [List.foldl_nil, List.isEmpty_nil, Bool.not_true, Bool.or_false]
  | cons span spans =>
      rw [List.isEmpty_cons, Bool.not_false, Bool.or_true]
      refine rounds_blocked_of_mem List.mem_cons_self ?_
      exact (pickAction_of_override hsplit htop hfires _ _ _).trans hblock

/-- The policy file: risk from 0.8 on blocks. -/
def riskRuleset : Ruleset := ⟨[], [⟨"risk_score >= 0.8".toList, .block, 100⟩]⟩

/-- A request of risk 0.9. -/
def riskyContext (spans : List Span) : AnalysisContext where
  sessionId := "s"
  direction := "input"
  provider := "gateway"
  role := none
  turns := [⟨"user", "a@b.co".toList⟩]
  newTurnSpans := spans
  riskScore := (9 / 10 : ℚ)
  injection := ⟨false, 0, none⟩
  blocked := false
  blockReason := none
  purpose := none
  purposeConfidence := none
  spanActions := []

theorem block_override_blocks_sample :
    (purposePolicyStage .ascii [] (some riskRuleset)
      (riskyContext [⟨"EMAIL", "a@b.co".toList, 0, 6, 9 / 10, "regex"⟩])).blocked = true :=
  (block_override_blocks .ascii [] riskRuleset (riskyContext _)
    ⟨"risk_score >= 0.8".toList, .block, 100⟩ [] [] rfl rfl (by simp) rfl
    (by decide +kernel)).trans rfl

/-- Without a span the same override does not block. -/
theorem override_without_spans :
    (∃ o ∈ riskRuleset.overrides, o.action = .block ∧ riskRuleset.overrides = [o] ∧
      evalCondition .ascii o.conditionExpr (riskyContext []).riskScore
        (riskyContext []).injection.hit = true) ∧
      (purposePolicyStage .ascii [] (some riskRuleset) (riskyContext [])).blocked = false :=
  ⟨⟨_, List.mem_singleton_self _, rfl, rfl, by decide +kernel⟩, by decide +kernel⟩

end DlpServer.Policy
