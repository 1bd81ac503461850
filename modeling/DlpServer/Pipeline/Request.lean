import DlpServer.Adapters.PutGet
import DlpServer.Adapters.Selection
import DlpServer.Context.LastPurpose
import DlpServer.Pipeline.Soundness
import DlpServer.Pipeline.Stages

/-!
# How a request runs

The input stages end in one of three places: the injection guard blocks before
anything shared is touched, the policy blocks after the session state was
accumulated, or all stages run and neither signal is left (`run_inputStages`).
-/

namespace DlpServer.Pipeline

open Adapters Context

section Run

variable (S : Setup) (D : Draws)

/-! ## The stages in a row -/

/-- The context that `multiturn_stage` is given. -/
def scanned (ctx : AnalysisContext) : AnalysisContext := piiDetectStage S (injectionGuard S ctx)

/-- The context after `purpose_policy_stage`. -/
def judged (ctx : AnalysisContext) (w : World) : AnalysisContext :=
  purposePolicyStage S (multiturnStage S D (scanned S ctx) w).1

/-- The world after `multiturn_stage`. -/
def counted (ctx : AnalysisContext) (w : World) : World :=
  (multiturnStage S D (scanned S ctx) w).2

/-- The world after `remember_purpose_stage`. -/
def remembered (ctx : AnalysisContext) (w : World) : World :=
  (rememberPurposeStage S D (judged S D ctx w) (counted S D ctx w)).2

/-- What `transform_stage` leaves. -/
def transformed (ctx : AnalysisContext) (w : World) : AnalysisContext × World :=
  transformStage S D (judged S D ctx w) (remembered S D ctx w)

variable {S D}

theorem runStages_open {W : Type*} {stage : Stage W} {stages : List (Stage W)}
    {ctx ctx' : AnalysisContext} {w w' : W} (hrun : stage ctx w = (some ctx', w'))
    (hopen : ctx'.blocked = false) :
    runStages (stage :: stages) ctx w = runStages stages ctx' w' := by
  rw [runStages, hrun]
  dsimp only
  rw [hopen, if_neg Bool.false_ne_true]

theorem runStages_stop {W : Type*} {stage : Stage W} {stages : List (Stage W)}
    {ctx ctx' : AnalysisContext} {w w' : W} (hrun : stage ctx w = (some ctx', w'))
    (hblocked : ctx'.blocked = true) :
    runStages (stage :: stages) ctx w = (some ctx', w') := by
  rw [runStages, hrun]
  dsimp only
  rw [if_pos hblocked]

/-! ## What the stages leave alone -/

theorem injectionGuard_blocked (ctx : AnalysisContext) (hopen : ctx.blocked = false)
    (hhit : ctx.injection.hit = false) :
    (injectionGuard S ctx).injection.hit = (injectionGuard S ctx).blocked := by
  unfold injectionGuard Guardrail.Injection.injectionGuard
  split
  · rw [hopen, hhit]
  · rw [hopen, hhit]
  · dsimp only
    split
    · rename_i hverdict
      exact hverdict
    · rename_i hverdict
      rw [Bool.not_eq_true] at hverdict
      rw [hverdict, hopen]

theorem piiDetectStage_frame (ctx : AnalysisContext) :
    ∃ spans, piiDetectStage S ctx = { ctx with newTurnSpans := spans } := by
  unfold piiDetectStage Detect.Layers.piiDetectStage Detect.Layers.analyzeTurn
  split
  · exact ⟨_, rfl⟩
  · exact ⟨_, rfl⟩

theorem multiturnStage_frame (ctx : AnalysisContext) (w : World) :
    ∃ risk grouped, (multiturnStage S D ctx w).1 =
      { ctx with riskScore := risk, accumulated := grouped } := ⟨_, _, rfl⟩

theorem rememberPurposeStage_ctx (ctx : AnalysisContext) (w : World) :
    (rememberPurposeStage S D ctx w).1 = ctx := by
  unfold rememberPurposeStage
  split <;> rfl

theorem transformTurns {env : Vault.Env} {year : ℤ} {chance : ℕ → Transform.Chance}
    (ctx : AnalysisContext) (v : Vault.Db) :
    ∃ turns, (Transform.transformStage env year chance ctx v).1 = { ctx with turns := turns } := by
  unfold Transform.transformStage
  split
  · exact ⟨ctx.turns, rfl⟩
  · split
    · exact ⟨ctx.turns, rfl⟩
    · exact ⟨_, rfl⟩

theorem transformStage_frame (ctx : AnalysisContext) (w : World) :
    ∃ turns, (transformStage S D ctx w).1 = { ctx with turns := turns } :=
  transformTurns ctx w.vault

/-- The policy adds actions and may block. -/
theorem policyRounds_frame (u : Unicode) (rs : Policy.Ruleset) (purpose : String)
    (spans : List Span) (ctx : AnalysisContext) :
    ∃ actions blocked reason, spans.foldl (Policy.policyRound u rs purpose) ctx =
      { ctx with spanActions := actions, blocked := blocked, blockReason := reason } := by
  induction spans generalizing ctx with
  | nil => exact ⟨_, _, _, rfl⟩
  | cons span spans ih =>
      obtain ⟨actions, blocked, reason, heq⟩ := ih (Policy.policyRound u rs purpose ctx span)
      rw [List.foldl_cons, heq]
      unfold Policy.policyRound
      dsimp only
      split
      · exact ⟨_, _, _, rfl⟩
      · exact ⟨_, _, _, rfl⟩

theorem purposePolicyStage_frame (ctx : AnalysisContext) :
    ∃ purpose confidence actions blocked reason, purposePolicyStage S ctx =
      { ctx with purpose := purpose, purposeConfidence := confidence, spanActions := actions,
                 blocked := blocked, blockReason := reason } := by
  unfold purposePolicyStage Policy.purposePolicyStage
  split
  · exact ⟨_, _, _, _, _, rfl⟩
  · dsimp only
    split
    · rename_i rs _
      obtain ⟨actions, blocked, reason, heq⟩ := policyRounds_frame S.env.unicode rs _
        ctx.newTurnSpans _
      exact ⟨_, _, actions, blocked, reason, heq⟩
    · split
      · exact ⟨_, _, _, _, _, rfl⟩
      · exact ⟨_, _, _, _, _, rfl⟩

/-- The policy names the purpose of the last user turn. -/
theorem purposePolicyStage_purpose {ctx : AnalysisContext} (hdir : ctx.direction = "input") :
    (purposePolicyStage S ctx).purpose = some (Purpose.classify S.purposeRules
      ((Guardrail.Injection.lastUserText ctx.turns).getD [])).1 := by
  unfold purposePolicyStage Policy.purposePolicyStage
  rw [if_neg (not_not.mpr hdir)]
  dsimp only
  split
  · rename_i rs _
    obtain ⟨actions, blocked, reason, heq⟩ := policyRounds_frame S.env.unicode rs _
      ctx.newTurnSpans _
    rw [heq]
  · split <;> rfl

theorem scanned_sessionId (ctx : AnalysisContext) :
    (scanned S ctx).sessionId = ctx.sessionId := by
  obtain ⟨spans, hscanned⟩ := piiDetectStage_frame (S := S) (injectionGuard S ctx)
  obtain ⟨verdict, blocked, reason, hguard⟩ := Guardrail.Injection.injectionGuard_frame
    S.injectionRules (S.guardrail.map Guardrail.GuardrailConfig.injectionThreshold) ctx
  rw [scanned, hscanned, injectionGuard, hguard]

/-- The policy judges the request that came. -/
theorem judged_frame (ctx : AnalysisContext) (w : World) :
    ∃ spans risk grouped verdict blocked reason purpose confidence actions,
      judged S D ctx w =
        { ctx with newTurnSpans := spans, riskScore := risk, accumulated := grouped,
                   injection := verdict, blocked := blocked, blockReason := reason,
                   purpose := purpose, purposeConfidence := confidence, spanActions := actions } := by
  obtain ⟨verdict, _, _, hguard⟩ := Guardrail.Injection.injectionGuard_frame
    S.injectionRules (S.guardrail.map Guardrail.GuardrailConfig.injectionThreshold) ctx
  obtain ⟨spans, hscanned⟩ := piiDetectStage_frame (S := S) (injectionGuard S ctx)
  obtain ⟨risk, grouped, hcounted⟩ := multiturnStage_frame (S := S) (D := D) (scanned S ctx) w
  obtain ⟨purpose, confidence, actions, blocked, reason, hjudged⟩ :=
    purposePolicyStage_frame (S := S) (multiturnStage S D (scanned S ctx) w).1
  rw [judged, hjudged, hcounted, scanned, hscanned, injectionGuard, hguard]
  exact ⟨_, _, _, _, _, _, _, _, _, rfl⟩

theorem judged_purpose {ctx : AnalysisContext} (hdir : ctx.direction = "input") (w : World) :
    (judged S D ctx w).purpose = some (Purpose.classify S.purposeRules
      ((Guardrail.Injection.lastUserText ctx.turns).getD [])).1 := by
  obtain ⟨verdict, _, _, hguard⟩ := Guardrail.Injection.injectionGuard_frame
    S.injectionRules (S.guardrail.map Guardrail.GuardrailConfig.injectionThreshold) ctx
  obtain ⟨spans, hscanned⟩ := piiDetectStage_frame (S := S) (injectionGuard S ctx)
  obtain ⟨risk, grouped, hcounted⟩ := multiturnStage_frame (S := S) (D := D) (scanned S ctx) w
  have hkept : (multiturnStage S D (scanned S ctx) w).1.direction = ctx.direction ∧
      (multiturnStage S D (scanned S ctx) w).1.turns = ctx.turns := by
    rw [hcounted, scanned, hscanned, injectionGuard, hguard]
    exact ⟨rfl, rfl⟩
  rw [judged, purposePolicyStage_purpose (hkept.1.trans hdir), hkept.2]

/-- Loading reports the expired state and no other. -/
theorem vault_loadOrNew (env : Vault.Env) (sessionId : String) (c : StageCall) (w : World) :
    (w.loadOrNew env sessionId c).2.vault = w.vault ∨ ∃ st, w.store.session sessionId = some st ∧
      st.isExpired c.loadedAt ∧
      (w.loadOrNew env sessionId c).2.vault = Vault.revokeSession env w.vault st.sessionId := by
  have hfound := load_found w.store c.loadedAt sessionId
  unfold World.loadOrNew Context.loadOrNew
  cases hload : w.store.load c.loadedAt sessionId with
  | mk found rest =>
      rw [hload] at hfound
      cases hfound with
      | missing hnone => exact Or.inl rfl
      | live r hr hlive => exact Or.inl rfl
      | expired r st hr hst hexp =>
          refine Or.inr ⟨st, (session_of_get? hr).trans hst, hexp, ?_⟩
          have hheap : ∀ fresh, (w.store.heap ++ [fresh])[r]? = some st := by
            intro fresh
            obtain ⟨hlt, -⟩ := List.getElem?_eq_some_iff.mp hst
            rw [List.getElem?_append_left hlt, hst]
          show onExpire env _ [r] w.vault = _
          rw [onExpire, List.foldl_cons, List.foldl_nil]
          dsimp only [Store.newSession]
          rw [hheap]

/-- Accumulation touches the session. -/
theorem counted_store (ctx : AnalysisContext) (w : World) :
    (counted S D ctx w).store = touch w.store ctx.sessionId (turnCall D (scanned S ctx)) fun st =>
      accumulate S.env.sha256Hex S.accumulator st (scanned S ctx).newTurnSpans (st.turnCount + 1)
        D.accumulatedAt := by
  rw [← scanned_sessionId (S := S) ctx]
  rfl

theorem counted_vault (ctx : AnalysisContext) (w : World) :
    (counted S D ctx w).vault =
      (w.loadOrNew S.env ctx.sessionId (turnCall D (scanned S ctx))).2.vault := by
  rw [← scanned_sessionId (S := S) ctx]
  rfl

/-- Storing the purpose touches the session. -/
theorem rememberPurposeStage_input {ctx : AnalysisContext} {p : String}
    (hdir : ctx.direction = "input") (hpurpose : ctx.purpose = some p) (w : World) :
    (rememberPurposeStage S D ctx w).2.store = touch w.store ctx.sessionId (rememberCall D)
        (fun st => { st with purpose := some p }) ∧
      (rememberPurposeStage S D ctx w).2.vault =
        (w.loadOrNew S.env ctx.sessionId (rememberCall D)).2.vault := by
  have hno : ¬ (ctx.direction ≠ "input" ∨ ctx.purpose = none) := by
    rw [hdir, hpurpose]
    rintro (h | h)
    · exact h rfl
    · cases h
  unfold rememberPurposeStage
  rw [if_neg hno, hpurpose]
  exact ⟨rfl, rfl⟩

/-- After all stages neither of the two signals is left. -/
theorem transformed_clear {ctx : AnalysisContext} (hopen : (judged S D ctx w).blocked = false)
    (hhit : (judged S D ctx w).injection.hit = false) :
    (transformed S D ctx w).1.blocked = false ∧ (transformed S D ctx w).1.injection.hit = false := by
  obtain ⟨turns, htransformed⟩ := transformStage_frame (S := S) (D := D) (judged S D ctx w)
    (remembered S D ctx w)
  rw [transformed, htransformed]
  exact ⟨hopen, hhit⟩

/-! ## The run -/

/-- The three ends of the input stages. -/
inductive InputRun (S : Setup) (D : Draws) (ctx : AnalysisContext) (w : World) :
    Option AnalysisContext × World → Prop
  | injection (hblocked : (injectionGuard S ctx).blocked = true) :
      InputRun S D ctx w (some (injectionGuard S ctx), w)
  | policy (hblocked : (judged S D ctx w).blocked = true) :
      InputRun S D ctx w (some (judged S D ctx w), counted S D ctx w)
  | through (hopen : (judged S D ctx w).blocked = false)
      (hhit : (judged S D ctx w).injection.hit = false) :
      InputRun S D ctx w (some (transformed S D ctx w).1, (transformed S D ctx w).2)

theorem run_inputStages (S : Setup) (D : Draws) (ctx : AnalysisContext) (w : World) (hopen : ctx.blocked = false)
    (hhit : ctx.injection.hit = false) :
    InputRun S D ctx w (runStages (inputStages S D) ctx w) := by
  have hguard := injectionGuard_blocked (S := S) ctx hopen hhit
  cases hinjection : (injectionGuard S ctx).blocked with
  | true =>
      have hrun : runStages (inputStages S D) ctx w = (some (injectionGuard S ctx), w) :=
        runStages_stop rfl hinjection
      rw [hrun]
      exact .injection hinjection
  | false =>
      -- Neither detection nor accumulation blocks.
      obtain ⟨spans, hscanned⟩ := piiDetectStage_frame (S := S) (injectionGuard S ctx)
      have hscan : (scanned S ctx).blocked = false := by
        rw [scanned, hscanned]
        exact hinjection
      obtain ⟨risk, grouped, hcounted⟩ := multiturnStage_frame (S := S) (D := D) (scanned S ctx) w
      have hcount : (multiturnStage S D (scanned S ctx) w).1.blocked = false := by
        rw [hcounted]
        exact hscan
      have hstart : runStages (inputStages S D) ctx w =
          runStages [pureStage (purposePolicyStage S), totalStage (rememberPurposeStage S D),
            totalStage (transformStage S D)] (multiturnStage S D (scanned S ctx) w).1
            (counted S D ctx w) := by
        rw [inputStages, runStages_open rfl hinjection, runStages_open rfl hscan,
          runStages_open rfl hcount]
        rfl
      rw [hstart]
      cases hpolicy : (judged S D ctx w).blocked with
      | true =>
          rw [runStages_stop rfl hpolicy]
          exact .policy hpolicy
      | false =>
          have hremember : (rememberPurposeStage S D (judged S D ctx w)
              (counted S D ctx w)).1.blocked = false := by
            rw [rememberPurposeStage_ctx]
            exact hpolicy
          obtain ⟨turns, htransformed⟩ := transformStage_frame (S := S) (D := D)
            (judged S D ctx w) (remembered S D ctx w)
          have htransform : (transformed S D ctx w).1.blocked = false := by
            rw [transformed, htransformed]
            exact hpolicy
          have hend : runStages [pureStage (purposePolicyStage S),
              totalStage (rememberPurposeStage S D), totalStage (transformStage S D)]
              (multiturnStage S D (scanned S ctx) w).1 (counted S D ctx w) =
              (some (transformed S D ctx w).1, (transformed S D ctx w).2) := by
            rw [runStages_open rfl hpolicy, runStages_open rfl hremember,
              rememberPurposeStage_ctx]
            exact runStages_open rfl htransform
          rw [hend]
          refine .through hpolicy ?_
          obtain ⟨purpose, confidence, actions, blocked, reason, hjudged⟩ :=
            purposePolicyStage_frame (S := S) (multiturnStage S D (scanned S ctx) w).1
          rw [judged, hjudged, hcounted, scanned, hscanned]
          show (injectionGuard S ctx).injection.hit = false
          rw [hguard, hinjection]

end Run

end DlpServer.Pipeline
