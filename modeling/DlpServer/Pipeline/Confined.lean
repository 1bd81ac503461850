import DlpServer.Context.Views
import DlpServer.Pipeline.Alike
import DlpServer.Pipeline.Expiry
import DlpServer.Pipeline.Request
import DlpServer.Transform.Views

/-!
# Stages keep to their session

Some sessions are picked by their UUID (`mine`). What they see of the world are their
states and what the vault shows them. Every stage answers a request of these sessions by
what they see, and leaves them alone when it works for another session (`Confined`).
-/

namespace DlpServer.Pipeline.Isolation

open Context Runs

/-! ## What some sessions see -/

/-- The states of the sessions of `mine` and what they see of the vault. -/
structure View where
  session : String → Option SessionState
  ttl : ℚ
  vault : Vault.View

/-- What the sessions of `mine` see of the world. -/
def view (env : Vault.Env) (mine : Ids.Uuid → Bool) (w : World) : View where
  session sid := if mine (env.coerce sid) then w.store.session sid else none
  ttl := w.store.defaultTtlSeconds
  vault := w.vault.view mine

section Load

variable {env : Vault.Env} {mine : Ids.Uuid → Bool} {w w' : World} {sid : String}

theorem session_same (h : view env mine w = view env mine w')
    (hmine : mine (env.coerce sid) = true) : w.store.session sid = w'.store.session sid := by
  have hsession := congrFun (congrArg View.session h) sid
  simp only [view, if_pos hmine] at hsession
  exact hsession

theorem ttl_same (h : view env mine w = view env mine w') :
    w.store.defaultTtlSeconds = w'.store.defaultTtlSeconds := congrArg View.ttl h

theorem vault_same (h : view env mine w = view env mine w') :
    w.vault.view mine = w'.vault.view mine := congrArg View.vault h

/-- Stores that file the same state under a session of `mine`, beside vaults that look
the same. -/
theorem view_filed {S T S' T' : Store} {v v' : Vault.Db} {r r' : Ref} {st : SessionState}
    (h : ∀ k, mine (env.coerce k) = true → S.session k = S'.session k)
    (httl : S.defaultTtlSeconds = S'.defaultTtlSeconds) (hT : Store.Filed S T sid r st)
    (hT' : Store.Filed S' T' sid r' st) (hv : v.view mine = v'.view mine) :
    view env mine ⟨T, v⟩ = view env mine ⟨T', v'⟩ := by
  unfold view
  rw [View.mk.injEq]
  refine ⟨funext fun k => ?_, by rw [hT.ttl, hT'.ttl, httl], hv⟩
  split
  · rename_i hk
    rw [hT.session, hT'.session, h k hk]
  · rfl

/-- A store that files a state under another session. -/
theorem view_filed_foreign {S T : Store} {v v' : Vault.Db} {r : Ref} {st : SessionState}
    (hforeign : mine (env.coerce sid) = false) (hT : Store.Filed S T sid r st)
    (hv : v'.view mine = v.view mine) : view env mine ⟨T, v'⟩ = view env mine ⟨S, v⟩ := by
  unfold view
  rw [View.mk.injEq]
  refine ⟨funext fun k => ?_, hT.ttl, hv⟩
  split
  · rename_i hk
    refine (hT.session k).trans (if_neg ?_)
    rintro rfl
    rw [hforeign] at hk
    cases hk
  · rfl

/-! ## Expiry on the way -/

/-- The vault after `load` has reported what it took out. -/
def expireOne (env : Vault.Env) (expired : Prop) [Decidable expired] (sid : String)
    (v : Vault.Db) : Vault.Db :=
  if expired then Vault.revokeSession env v sid else v

theorem expireOne_same {P P' : Prop} [Decidable P] [Decidable P'] (hP : P ↔ P')
    {v v' : Vault.Db} (h : v.view mine = v'.view mine) :
    (expireOne env P sid v).view mine = (expireOne env P' sid v').view mine := by
  unfold expireOne
  by_cases hp : P
  · rw [if_pos hp, if_pos (hP.mp hp), Vault.revokeSession_view, Vault.revokeSession_view, h]
  · rw [if_neg hp, if_neg (fun hp' => hp (hP.mpr hp'))]
    exact h

theorem expireOne_foreign {P : Prop} [Decidable P] (hforeign : mine (env.coerce sid) = false)
    (v : Vault.Db) : (expireOne env P sid v).view mine = v.view mine := by
  unfold expireOne
  split
  · exact Vault.revokeSession_foreign hforeign v
  · rfl

/-- `on_expire` is called for the session when its state is found expired. -/
theorem onExpire_load (h : w.store.Sound) (now : ℚ) (sid : String) (store : Store)
    (hheap : ∀ (r : Ref) (st : SessionState), w.store.heap[r]? = some st →
      store.heap[r]? = some st) :
    onExpire env store (w.store.load now sid).2.1 w.vault =
      expireOne env (w.store.expires sid now) sid w.vault := by
  have hfound := load_found w.store now sid
  unfold expireOne
  cases hload : w.store.load now sid with
  | mk found rest =>
      rw [hload] at hfound
      cases hfound with
      | missing hnone =>
          refine (if_neg ?_).symm
          rintro ⟨st, hst, -⟩
          rw [h.get?_none.mp hnone] at hst
          cases hst
      | live r hr hlive =>
          refine (if_neg ?_).symm
          rintro ⟨st, hst, hexp⟩
          exact hlive st ((session_of_get? hr).symm.trans hst) hexp
      | expired r st hr hst hexp =>
          rw [if_pos ⟨st, (session_of_get? hr).trans hst, hexp⟩]
          show onExpire env store [r] w.vault = _
          rw [onExpire, List.foldl_cons, List.foldl_nil, hheap r st hst]
          dsimp only
          rw [(h.of_session ((session_of_get? hr).trans hst)).1]

end Load

/-! ## Stages -/

/-- A stage answers a session of `mine` by what these sessions see, and leaves them
alone when it works for another one. -/
structure Confined (env : Vault.Env) (mine : Ids.Uuid → Bool) (stage : Stage World) : Prop where
  own : ∀ {ctx : AnalysisContext} {w w' : World}, w.store.Sound → w'.store.Sound →
    mine (env.coerce ctx.sessionId) = true → view env mine w = view env mine w' →
    (stage ctx w).1 = (stage ctx w').1 ∧ view env mine (stage ctx w).2 = view env mine (stage ctx w').2
  foreign : ∀ {ctx : AnalysisContext} {w : World}, w.store.Sound →
    mine (env.coerce ctx.sessionId) = false → view env mine (stage ctx w).2 = view env mine w
  sound : ∀ {ctx : AnalysisContext} {w : World}, w.store.Sound → (stage ctx w).2.store.Sound
  session : ∀ {ctx ctx' : AnalysisContext} {w : World}, (stage ctx w).1 = some ctx' →
    ctx'.sessionId = ctx.sessionId

section Stages

variable {S : Setup} {D : Draws} {mine : Ids.Uuid → Bool}

theorem confined_pure {f : AnalysisContext → AnalysisContext}
    (hf : ∀ ctx, (f ctx).sessionId = ctx.sessionId) : Confined S.env mine (pureStage f) where
  own _ _ _ h := ⟨rfl, h⟩
  foreign _ _ := rfl
  sound h := h
  session h := Option.some.inj h ▸ hf _

theorem injectionGuard_sessionId (ctx : AnalysisContext) :
    (injectionGuard S ctx).sessionId = ctx.sessionId := by
  obtain ⟨verdict, blocked, reason, hguard⟩ := Guardrail.Injection.injectionGuard_frame
    S.injectionRules (S.guardrail.map Guardrail.GuardrailConfig.injectionThreshold) ctx
  rw [injectionGuard, hguard]

theorem piiDetectStage_sessionId (ctx : AnalysisContext) :
    (piiDetectStage S ctx).sessionId = ctx.sessionId := by
  obtain ⟨spans, hscanned⟩ := piiDetectStage_frame (S := S) ctx
  rw [hscanned]

theorem purposePolicyStage_sessionId (ctx : AnalysisContext) :
    (purposePolicyStage S ctx).sessionId = ctx.sessionId := by
  obtain ⟨purpose, confidence, actions, blocked, reason, hjudged⟩ :=
    purposePolicyStage_frame (S := S) ctx
  rw [hjudged]

theorem outputGuard_sessionId (ctx : AnalysisContext) :
    (outputGuard S ctx).sessionId = ctx.sessionId := by
  unfold outputGuard Guardrail.outputGuard
  split
  · rfl
  · split
    · rfl
    · split
      · rfl
      · dsimp only
        split <;> rfl

/-! ### Stages on the session store -/

/-- What a stage does that loads or makes the state of its session, changes it and saves
it. -/
def touchStage (env : Vault.Env) (sid : String) (c : StageCall) (f : SessionState → SessionState)
    (w : World) : World :=
  ⟨touch w.store sid c f, (w.loadOrNew env sid c).2.vault⟩

section Touch

variable {env : Vault.Env} {sid : String} {c : StageCall} {f : SessionState → SessionState}
  {w w' : World}

theorem loadOrNew_vault (h : w.store.Sound) :
    (w.loadOrNew env sid c).2.vault =
      expireOne env (w.store.expires sid c.loadedAt) sid w.vault := by
  have hfound := load_found w.store c.loadedAt sid
  rw [← onExpire_load h c.loadedAt sid (Context.loadOrNew sid w.store c).2.2]
  · unfold World.loadOrNew Context.loadOrNew
    cases hload : w.store.load c.loadedAt sid with
    | mk found rest => cases found <;> rfl
  · intro r st hst
    unfold Context.loadOrNew
    cases hload : w.store.load c.loadedAt sid with
    | mk found rest =>
        rw [hload] at hfound
        obtain ⟨hlt, -⟩ := List.getElem?_eq_some_iff.mp hst
        cases hfound with
        | live r' hr hlive => exact hst
        | missing hnone => exact (List.getElem?_append_left hlt).trans hst
        | expired r' st' hr hst' hexp => exact (List.getElem?_append_left hlt).trans hst

theorem expires_same (h : view env mine w = view env mine w')
    (hmine : mine (env.coerce sid) = true) (now : ℚ) :
    w.store.expires sid now ↔ w'.store.expires sid now := by
  unfold Store.expires
  rw [session_same h hmine]

theorem current_same (h : view env mine w = view env mine w')
    (hmine : mine (env.coerce sid) = true) :
    w.store.current sid c = w'.store.current sid c := by
  unfold Store.current Store.freshState
  rw [session_same h hmine, ttl_same h]

theorem touchStage_same (hw : w.store.Sound) (hw' : w'.store.Sound)
    (hf : ∀ st, (f st).sessionId = st.sessionId) (hmine : mine (env.coerce sid) = true)
    (h : view env mine w = view env mine w') :
    view env mine (touchStage env sid c f w) = view env mine (touchStage env sid c f w') := by
  have hfiled := hw.filed_touch sid c hf
  have hfiled' := hw'.filed_touch sid c hf
  rw [← current_same h hmine] at hfiled'
  refine view_filed (fun k hk => session_same h hk) (ttl_same h) hfiled hfiled' ?_
  rw [loadOrNew_vault hw, loadOrNew_vault hw']
  exact expireOne_same (expires_same h hmine _) (vault_same h)

theorem touchStage_foreign (hw : w.store.Sound) (hf : ∀ st, (f st).sessionId = st.sessionId)
    (hforeign : mine (env.coerce sid) = false) :
    view env mine (touchStage env sid c f w) = view env mine w := by
  refine view_filed_foreign hforeign (hw.filed_touch sid c hf) ?_
  rw [loadOrNew_vault hw]
  exact expireOne_foreign hforeign _

end Touch

/-- What `multiturn_stage` does to a state. -/
def count (S : Setup) (D : Draws) (ctx : AnalysisContext) (st : SessionState) : SessionState :=
  accumulate S.env.sha256Hex S.accumulator st ctx.newTurnSpans (st.turnCount + 1) D.accumulatedAt

theorem multiturnStage_eq {w : World} (hw : w.store.Sound) (ctx : AnalysisContext) :
    multiturnStage S D ctx w =
      ({ ctx with
          riskScore :=
            (count S D ctx (w.store.current ctx.sessionId (turnCall D ctx))).riskScore
          accumulated := groupByType ctx.newTurnSpans },
        touchStage S.env ctx.sessionId (turnCall D ctx) (count S D ctx) w) := by
  have hobject := (hw.filed_touch ctx.sessionId (turnCall D ctx)
    (f := count S D ctx) fun _ => rfl).object
  have hrisk := congrArg (fun st : Option SessionState => (st.map SessionState.riskScore).getD 0)
    hobject
  exact congrArg₂ Prod.mk (congrArg (fun risk => { ctx with
    riskScore := risk, accumulated := groupByType ctx.newTurnSpans }) hrisk) rfl

theorem confined_multiturnStage : Confined S.env mine (totalStage (multiturnStage S D)) where
  own {ctx w w'} hw hw' hmine h := by
    have hsame := touchStage_same (c := turnCall D ctx) (f := count S D ctx) hw hw' (fun _ => rfl)
      hmine h
    unfold totalStage
    rw [multiturnStage_eq hw, multiturnStage_eq hw', current_same h hmine]
    exact ⟨rfl, hsame⟩
  foreign {ctx w} hw hforeign := by
    unfold totalStage
    rw [multiturnStage_eq hw]
    exact touchStage_foreign hw (fun _ => rfl) hforeign
  sound {ctx w} hw := by
    unfold totalStage
    rw [multiturnStage_eq hw]
    exact hw.touch _ fun _ => rfl
  session h := by
    cases h
    rfl

theorem rememberPurposeStage_eq (ctx : AnalysisContext) (w : World) :
    (rememberPurposeStage S D ctx w).2 =
      if ctx.direction ≠ "input" ∨ ctx.purpose = none then w
      else touchStage S.env ctx.sessionId (rememberCall D)
        (fun st => { st with purpose := ctx.purpose }) w := by
  unfold rememberPurposeStage
  split <;> rfl

theorem confined_rememberPurposeStage :
    Confined S.env mine (totalStage (rememberPurposeStage S D)) where
  own {ctx w w'} hw hw' hmine h := by
    unfold totalStage
    rw [rememberPurposeStage_ctx, rememberPurposeStage_ctx, rememberPurposeStage_eq,
      rememberPurposeStage_eq]
    refine ⟨rfl, ?_⟩
    split
    · exact h
    · exact touchStage_same hw hw' (fun _ => rfl) hmine h
  foreign {ctx w} hw hforeign := by
    unfold totalStage
    rw [rememberPurposeStage_eq]
    split
    · rfl
    · exact touchStage_foreign hw (fun _ => rfl) hforeign
  sound {ctx w} hw := by
    unfold totalStage
    rw [rememberPurposeStage_eq]
    split
    · exact hw
    · exact hw.touch _ fun _ => rfl
  session {ctx ctx' w} h := by
    unfold totalStage at h
    rw [rememberPurposeStage_ctx] at h
    cases h
    rfl

/-! ### Stages on the vault -/

/-- Worlds with the stores of two worlds that look the same. -/
theorem view_vault {env : Vault.Env} {w w' : World} (h : view env mine w = view env mine w')
    {v v' : Vault.Db} (hv : v.view mine = v'.view mine) :
    view env mine { w with vault := v } = view env mine { w' with vault := v' } := by
  unfold view
  rw [View.mk.injEq]
  exact ⟨congrArg View.session h,
    show w.store.defaultTtlSeconds = w'.store.defaultTtlSeconds from ttl_same h, hv⟩

theorem confined_transformStage : Confined S.env mine (totalStage (transformStage S D)) where
  own {ctx w w'} _ _ hmine h := by
    obtain ⟨hctx, hvault⟩ := Transform.transformStage_same S.env D.year (vault_same h) hmine
      D.chance
    exact ⟨congrArg some hctx, view_vault h hvault⟩
  foreign {ctx w} _ hforeign :=
    view_vault rfl (Transform.transformStage_foreign S.env D.year hforeign D.chance w.vault)
  sound hw := hw
  session {ctx ctx' w} h := by
    obtain ⟨turns, hctx⟩ := transformStage_frame (S := S) (D := D) ctx w
    unfold totalStage at h
    rw [hctx] at h
    cases h
    rfl

/-! ### Restoring -/

section LastPurpose

variable {env : Vault.Env} {sid : String} {now : ℚ} {w w' : World}

theorem getLastPurpose_spec (hw : w.store.Sound) :
    w.getLastPurpose env sid now =
      (((w.store.session sid).filter fun st => !decide (st.isExpired now)).bind
          SessionState.purpose,
        ⟨(w.store.load now sid).2.2,
          expireOne env (w.store.expires sid now) sid w.vault⟩) := by
  obtain ⟨-, -, hfound, -⟩ := hw.load now sid
  have hvault : onExpire env (w.store.load now sid).2.2 (w.store.load now sid).2.1 w.vault =
      expireOne env (w.store.expires sid now) sid w.vault :=
    onExpire_load hw now sid _ fun r st hst => by
      rw [Store.load_heap]
      exact hst
  rw [← hvault, ← hfound]
  rfl

theorem getLastPurpose_same (hw : w.store.Sound) (hw' : w'.store.Sound)
    (hmine : mine (env.coerce sid) = true) (h : view env mine w = view env mine w') (now : ℚ) :
    (w.getLastPurpose env sid now).1 = (w'.getLastPurpose env sid now).1 ∧
      view env mine (w.getLastPurpose env sid now).2 =
        view env mine (w'.getLastPurpose env sid now).2 := by
  obtain ⟨-, httl, -, hsession⟩ := hw.load now sid
  obtain ⟨-, httl', -, hsession'⟩ := hw'.load now sid
  rw [getLastPurpose_spec hw, getLastPurpose_spec hw', session_same h hmine]
  refine ⟨rfl, ?_⟩
  unfold view
  rw [View.mk.injEq]
  refine ⟨funext fun k => ?_, httl.trans ((ttl_same h).trans httl'.symm),
    expireOne_same (expires_same h hmine _) (vault_same h)⟩
  split
  · rename_i hk
    rw [hsession, hsession', session_same h hk]
  · rfl

theorem getLastPurpose_foreign (hw : w.store.Sound) (hforeign : mine (env.coerce sid) = false)
    (now : ℚ) :
    view env mine (w.getLastPurpose env sid now).2 = view env mine w := by
  obtain ⟨-, httl, -, hsession⟩ := hw.load now sid
  rw [getLastPurpose_spec hw]
  unfold view
  rw [View.mk.injEq]
  refine ⟨funext fun k => ?_, httl, expireOne_foreign hforeign _⟩
  split
  · rename_i hk
    refine (hsession k).trans (if_neg ?_)
    rintro rfl
    rw [hforeign] at hk
    cases hk
  · rfl

end LastPurpose

/-- `detokenize_stage` of an output that has a turn. -/
def restoreTurn (S : Setup) (D : Draws) (ctx : AnalysisContext) (turn : Turn) (rest : List Turn)
    (purpose : Option String) (w : World) : AnalysisContext × World :=
  let (text, vault) := Vault.detokenizeText S.env D.fetch w.vault ctx.sessionId turn.text
    ctx.role purpose
  ({ ctx with turns := { turn with text := text } :: rest }, { w with vault := vault })

theorem detokenizeStage_cases (ctx : AnalysisContext) :
    (∀ w, detokenizeStage S D ctx w = (ctx, w)) ∨
      ∃ turn rest, ∀ w, detokenizeStage S D ctx w = restoreTurn S D ctx turn rest
        (w.getLastPurpose S.env ctx.sessionId D.purposeReadAt).1
        (w.getLastPurpose S.env ctx.sessionId D.purposeReadAt).2 := by
  unfold detokenizeStage
  by_cases hdir : ctx.direction ≠ "output"
  · exact Or.inl fun w => if_pos hdir
  · cases hturns : ctx.turns with
    | nil => exact Or.inl fun w => if_neg hdir
    | cons turn rest => exact Or.inr ⟨turn, rest, fun w => if_neg hdir⟩

theorem confined_detokenizeStage (hblind : ∀ k, (D.fetch k).Blind) :
    Confined S.env mine (totalStage (detokenizeStage S D)) where
  own {ctx w w'} hw hw' hmine h := by
    unfold totalStage
    rcases detokenizeStage_cases (S := S) (D := D) ctx with hcase | ⟨turn, rest, hcase⟩
    · rw [hcase, hcase]
      exact ⟨rfl, h⟩
    · obtain ⟨hpurpose, hview⟩ := getLastPurpose_same hw hw' hmine h D.purposeReadAt
      rw [hcase, hcase, hpurpose]
      obtain ⟨htext, hvault⟩ := Vault.detokenizeText_same (vault_same hview) hmine hblind turn.text
        ctx.role (w'.getLastPurpose S.env ctx.sessionId D.purposeReadAt).1
      refine ⟨?_, view_vault hview hvault⟩
      exact congrArg (fun text => some { ctx with turns := { turn with text := text } :: rest })
        htext
  foreign {ctx w} hw hforeign := by
    unfold totalStage
    rcases detokenizeStage_cases (S := S) (D := D) ctx with hcase | ⟨turn, rest, hcase⟩
    · rw [hcase]
    · rw [hcase]
      refine Eq.trans ?_ (getLastPurpose_foreign hw hforeign D.purposeReadAt)
      exact view_vault rfl (Vault.detokenizeText_foreign hforeign _ _ _ _ _)
  sound {ctx w} hw := by
    unfold totalStage
    rcases detokenizeStage_cases (S := S) (D := D) ctx with hcase | ⟨turn, rest, hcase⟩
    · rw [hcase]
      exact hw
    · rw [hcase, getLastPurpose_spec hw]
      exact (hw.load D.purposeReadAt _).1
  session {ctx ctx' w} h := by
    unfold totalStage at h
    rcases detokenizeStage_cases (S := S) (D := D) ctx with hcase | ⟨turn, rest, hcase⟩
    · rw [hcase] at h
      cases h
      rfl
    · rw [hcase] at h
      cases h
      rfl

end Stages

end DlpServer.Pipeline.Isolation
