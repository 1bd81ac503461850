import DlpServer.Lib.Unwinding
import DlpServer.Pipeline.Confined

/-!
# Sessions do not interfere

Requests of any number of sessions run at the same time, stage by stage, while the store
is swept, the vault is purged and time passes. What the other sessions do cannot be told
from what the picked ones get: their requests are decided as they are when the others are
not there (`sessions_isolated`).
-/

namespace DlpServer.Pipeline.Isolation

open Context Runs

/-! ## Requests on their way -/

/-- A request: its session, its direction, and what it carries and meets. -/
structure Call where
  sessionId : String
  direction : String
  headers : Dict String String
  body : Option Adapters.Body
  draws : Draws

/-- How far a request is: the context and the stages that are left, or the decision. -/
inductive Flight where
  | running (ctx : AnalysisContext) (stages : List (Stage World))
  | done (decision : Decision)

section Flights

variable (S : Setup) (q : Call)

/-- The decision on what the stages gave; `none` is an exception. -/
def Call.decide (found : Option AnalysisContext) : Decision :=
  let u := S.env.unicode
  let out :=
    if q.direction = "input" then
      match q.body.bind (·.extractTurns u) with
      | none => (none, ())
      | some turns =>
          conclude u S.config true (turns.map Turn.text) (fun ctx => ctx.turns.map Turn.text)
            (rebuildInput u q.body) (found, ())
    else if q.direction = "output" then
      match q.body.bind (·.parseResponse u) with
      | none => (none, ())
      | some text =>
          conclude u S.config false [text] (fun ctx => [newText text ctx])
            (rebuildOutput u q.body text) (found, ())
    else (some ⟨.allow, none, .unknownDirection q.direction⟩, ())
  (orFail S.config out).1

/-- The request when it comes in. -/
def Call.start : Flight :=
  let u := S.env.unicode
  if q.direction = "input" then
    match q.body.bind (·.extractTurns u) with
    | none => .done (q.decide S none)
    | some turns =>
        .running (inputContext u q.sessionId q.headers q.body turns) (inputStages S q.draws)
  else if q.direction = "output" then
    match q.body.bind (·.parseResponse u) with
    | none => .done (q.decide S none)
    | some text =>
        .running (outputContext u q.sessionId q.headers q.body text) (outputStages S q.draws)
  else .done (q.decide S none)

/-- One stage of a request, or its decision when no stage is left. -/
def Flight.advance (flight : Flight) (w : World) : Flight × World :=
  match flight with
  | .done decision => (.done decision, w)
  | .running ctx [] => (.done (q.decide S (some ctx)), w)
  | .running ctx (stage :: stages) =>
      match stage ctx w with
      | (none, w) => (.done (q.decide S none), w)
      | (some ctx, w) => (.running ctx (if ctx.blocked then [] else stages), w)

end Flights

/-! ## The server -/

structure Server (ι : Type*) where
  world : World
  flight : ι → Flight

/-- What happens next: a stage of a request, a sweep of the store, a purge of the vault,
or time passes for the database. -/
inductive Move (ι : Type*) where
  | stage (i : ι)
  | sweep (now : ℚ)
  | purge
  | advance (elapsed : ℕ)

section Server

variable {ι : Type*} [DecidableEq ι] (S : Setup) (calls : ι → Call)

/-- `_sweep_once_sync`. -/
def sweep (env : Vault.Env) (now : ℚ) (w : World) : World :=
  let (fired, store) := Expiry.sweepOnce w.store now
  ⟨store, onExpire env store fired w.vault⟩

def step (s : Server ι) : Move ι → Server ι
  | .stage i =>
      let (flight, w) := (s.flight i).advance S (calls i) s.world
      ⟨w, Function.update s.flight i flight⟩
  | .sweep now => { s with world := sweep S.env now s.world }
  | .purge => { s with world := { s.world with vault := Vault.purgeExpired s.world.vault } }
  | .advance elapsed =>
      { s with world := { s.world with
        vault := { s.world.vault with now := s.world.vault.now + elapsed } } }

/-- All requests have come in. -/
def start (w : World) : Server ι := ⟨w, fun i => (calls i).start S⟩

/-- The request is one of a session of `mine`. -/
def ours (env : Vault.Env) (mine : Ids.Uuid → Bool) (i : ι) : Bool :=
  mine (env.coerce (calls i).sessionId)

/-- The moves that are left when only the sessions of `mine` are there. -/
def concerns (env : Vault.Env) (mine : Ids.Uuid → Bool) : Move ι → Bool
  | .stage i => ours calls env mine i
  | _ => true

end Server

/-! ## A request by itself -/

section Alone

variable {S : Setup} {q : Call}

/-- The first `n` steps of a request that nothing comes between. -/
def stepsOf (S : Setup) (q : Call) : ℕ → Flight × World → Flight × World
  | 0, s => s
  | n + 1, s => stepsOf S q n (s.1.advance S q s.2)

theorem stepsOf_done (n : ℕ) (decision : Decision) (w : World) :
    stepsOf S q n (.done decision, w) = (.done decision, w) := by
  induction n with
  | zero => rfl
  | succ n ih => exact ih

theorem stepsOf_running {stages : List (Stage World)} {ctx : AnalysisContext} {w : World} {n : ℕ}
    (hn : stages.length < n) :
    stepsOf S q n (.running ctx stages, w) =
      (.done (q.decide S (runStages stages ctx w).1), (runStages stages ctx w).2) := by
  induction stages generalizing ctx w n with
  | nil =>
      obtain ⟨n, rfl⟩ := Nat.exists_eq_add_of_lt hn
      rw [List.length_nil, Nat.zero_add]
      exact stepsOf_done n _ w
  | cons stage stages ih =>
      obtain ⟨n, rfl⟩ : ∃ m, n = m + 1 := ⟨n - 1, by rw [List.length_cons] at hn; omega⟩
      rw [List.length_cons] at hn
      have hrest := Nat.lt_of_succ_lt_succ hn
      rw [stepsOf, Flight.advance, runStages]
      cases hout : stage ctx w with
      | mk found w₁ =>
          cases found with
          | none => exact stepsOf_done n _ w₁
          | some ctx₁ =>
              dsimp only
              cases hblocked : ctx₁.blocked with
              | true =>
                  rw [if_pos rfl, if_pos rfl]
                  obtain ⟨n, rfl⟩ : ∃ m, n = m + 1 := ⟨n - 1, by omega⟩
                  exact stepsOf_done n _ w₁
              | false =>
                  rw [if_neg Bool.false_ne_true, if_neg Bool.false_ne_true]
                  exact ih hrest

theorem orFail_conclude {u : Unicode} {cfg : Config} {checkRisk : Bool} {before : List Text}
    {texts : AnalysisContext → List Text} {rebuilt : AnalysisContext → Option Json}
    (out : Option AnalysisContext × World) :
    (orFail cfg (conclude u cfg checkRisk before texts rebuilt (out.1, ()))).1 =
      (orFail cfg (conclude u cfg checkRisk before texts rebuilt out)).1 := by
  obtain ⟨found, w⟩ := out
  cases found with
  | none => rfl
  | some ctx =>
      rw [conclude, conclude]
      cases blockCheck u cfg checkRisk ctx with
      | some decision => rfl
      | none =>
          dsimp only
          split
          · rfl
          · cases rebuilt ctx <;> rfl

/-- **A request that nothing comes between is decided by `analyze`.** -/
theorem stepsOf_start (w : World) {n : ℕ} (hn : 6 < n) :
    stepsOf S q n (q.start S, w) =
      (.done (analyzeRequest S q.draws q.sessionId q.direction q.headers q.body w).1,
        (analyzeRequest S q.draws q.sessionId q.direction q.headers q.body w).2) := by
  unfold Call.start analyzeRequest analyze dispatch
  by_cases hin : q.direction = "input"
  · simp only [if_pos hin]
    unfold analyzeInput
    cases hturns : q.body.bind (·.extractTurns S.env.unicode) with
    | none =>
        dsimp only
        rw [stepsOf_done, Call.decide]
        simp only [if_pos hin, hturns]
        rfl
    | some turns =>
        dsimp only
        rw [stepsOf_running (show (inputStages S q.draws).length < n from hn), orFail_world,
          conclude_world, Call.decide]
        simp only [if_pos hin, hturns]
        rw [orFail_conclude]
  · by_cases hout : q.direction = "output"
    · simp only [if_neg hin, if_pos hout]
      unfold analyzeOutput
      cases htext : q.body.bind (·.parseResponse S.env.unicode) with
      | none =>
          dsimp only
          rw [stepsOf_done, Call.decide]
          simp only [if_neg hin, if_pos hout, htext]
          rfl
      | some text =>
          dsimp only
          rw [stepsOf_running (show (outputStages S q.draws).length < n from
            lt_trans (show 2 < 6 by decide) hn), orFail_world, conclude_world, Call.decide]
          simp only [if_neg hin, if_pos hout, htext]
          rw [orFail_conclude]
    · simp only [if_neg hin, if_neg hout]
      rw [stepsOf_done, Call.decide]
      simp only [if_neg hin, if_neg hout]
      rfl

end Alone

/-! ## What the picked sessions see -/

section Isolation

variable {ι : Type*} [DecidableEq ι] {S : Setup} {calls : ι → Call} {mine : Ids.Uuid → Bool}

/-- What the sessions of `mine` see of the world and of the requests. -/
def sees (S : Setup) (calls : ι → Call) (mine : Ids.Uuid → Bool) (s : Server ι) :
    View × (ι → Option Flight) :=
  (view S.env mine s.world, fun i => if ours calls S.env mine i then some (s.flight i) else none)

/-- A request works on its own session, and each stage that is left keeps to it. -/
def OnCourse (S : Setup) (mine : Ids.Uuid → Bool) (q : Call) : Flight → Prop
  | .running ctx stages =>
      ctx.sessionId = q.sessionId ∧ ∀ stage ∈ stages, Confined S.env mine stage
  | .done _ => True

structure Inv (S : Setup) (calls : ι → Call) (mine : Ids.Uuid → Bool) (s : Server ι) : Prop where
  sound : s.world.store.Sound
  course : ∀ i, OnCourse S mine (calls i) (s.flight i)

theorem confined_inputStages (S : Setup) (D : Draws) (mine : Ids.Uuid → Bool) :
    ∀ stage ∈ inputStages S D, Confined S.env mine stage := by
  intro stage hstage
  simp only [inputStages, List.mem_cons, List.not_mem_nil, or_false] at hstage
  rcases hstage with rfl | rfl | rfl | rfl | rfl | rfl
  · exact confined_pure injectionGuard_sessionId
  · exact confined_pure piiDetectStage_sessionId
  · exact confined_multiturnStage
  · exact confined_pure purposePolicyStage_sessionId
  · exact confined_rememberPurposeStage
  · exact confined_transformStage

theorem confined_outputStages (S : Setup) {D : Draws} (mine : Ids.Uuid → Bool)
    (hblind : ∀ k, (D.fetch k).Blind) : ∀ stage ∈ outputStages S D, Confined S.env mine stage := by
  intro stage hstage
  simp only [outputStages, List.mem_cons, List.not_mem_nil, or_false] at hstage
  rcases hstage with rfl | rfl
  · exact confined_pure outputGuard_sessionId
  · exact confined_detokenizeStage hblind

theorem onCourse_start {q : Call} (hblind : ∀ k, (q.draws.fetch k).Blind) :
    OnCourse S mine q (q.start S) := by
  unfold Call.start
  dsimp only
  by_cases hin : q.direction = "input"
  · rw [if_pos hin]
    cases q.body.bind (·.extractTurns S.env.unicode) with
    | none => trivial
    | some turns => exact ⟨rfl, confined_inputStages S q.draws mine⟩
  · rw [if_neg hin]
    by_cases hout : q.direction = "output"
    · rw [if_pos hout]
      cases q.body.bind (·.parseResponse S.env.unicode) with
      | none => trivial
      | some text => exact ⟨rfl, confined_outputStages S mine hblind⟩
    · rw [if_neg hout]
      trivial

/-! ### One stage -/

section Advance

variable {q : Call} {flight : Flight} {w w' : World}

theorem advance_own (h : OnCourse S mine q flight) (hw : w.store.Sound) (hw' : w'.store.Sound)
    (hmine : mine (S.env.coerce q.sessionId) = true)
    (hsame : view S.env mine w = view S.env mine w') :
    (flight.advance S q w).1 = (flight.advance S q w').1 ∧
      view S.env mine (flight.advance S q w).2 = view S.env mine (flight.advance S q w').2 := by
  cases flight with
  | done decision => exact ⟨rfl, hsame⟩
  | running ctx stages =>
      cases stages with
      | nil => exact ⟨rfl, hsame⟩
      | cons stage stages =>
          obtain ⟨hid, hconfined⟩ := h
          rw [← hid] at hmine
          obtain ⟨hctx, hview⟩ := (hconfined stage List.mem_cons_self).own hw hw' hmine hsame
          rw [Flight.advance, Flight.advance]
          generalize stage ctx w = out at hctx hview ⊢
          generalize stage ctx w' = out' at hctx hview ⊢
          obtain ⟨found, w₁⟩ := out
          obtain ⟨found', w₁'⟩ := out'
          obtain rfl : found = found' := hctx
          cases found with
          | none => exact ⟨rfl, hview⟩
          | some ctx₁ => exact ⟨rfl, hview⟩

theorem advance_foreign (h : OnCourse S mine q flight) (hw : w.store.Sound)
    (hforeign : mine (S.env.coerce q.sessionId) = false) :
    view S.env mine (flight.advance S q w).2 = view S.env mine w := by
  cases flight with
  | done decision => rfl
  | running ctx stages =>
      cases stages with
      | nil => rfl
      | cons stage stages =>
          obtain ⟨hid, hconfined⟩ := h
          rw [← hid] at hforeign
          have hview := (hconfined stage List.mem_cons_self).foreign hw hforeign
          rw [Flight.advance]
          generalize stage ctx w = out at hview ⊢
          obtain ⟨found, w₁⟩ := out
          cases found <;> exact hview

theorem advance_onCourse (h : OnCourse S mine q flight) (hw : w.store.Sound) :
    (flight.advance S q w).2.store.Sound ∧ OnCourse S mine q (flight.advance S q w).1 := by
  cases flight with
  | done decision => exact ⟨hw, trivial⟩
  | running ctx stages =>
      cases stages with
      | nil => exact ⟨hw, trivial⟩
      | cons stage stages =>
          obtain ⟨hid, hconfined⟩ := h
          have hstage := hconfined stage List.mem_cons_self
          have hsound : (stage ctx w).2.store.Sound := hstage.sound hw
          have hkept : ∀ ctx', (stage ctx w).1 = some ctx' → ctx'.sessionId = ctx.sessionId :=
            fun _ => hstage.session
          rw [Flight.advance]
          generalize stage ctx w = out at hsound hkept ⊢
          obtain ⟨found, w₁⟩ := out
          cases found with
          | none => exact ⟨hsound, trivial⟩
          | some ctx₁ =>
              refine ⟨hsound, (hkept ctx₁ rfl).trans hid, fun stage' hstage' => ?_⟩
              split at hstage'
              · cases hstage'
              · exact hconfined stage' (List.mem_cons_of_mem _ hstage')

end Advance

/-! ### Sweeps -/

section Sweep

variable {env : Vault.Env} {w w' : World}

/-- The row is one of the session of one of the objects. -/
def belongs (env : Vault.Env) (heap : List SessionState) (fired : List Ref) (r : Vault.Row) :
    Bool :=
  fired.any fun ref => (heap[ref]?).any fun st => r.sessionId == env.coerce st.sessionId

/-- `on_expire` for several states revokes the rows of their sessions. -/
theorem onExpire_view (store : Store) (fired : List Ref) (v : Vault.Db) :
    (onExpire env store fired v).view mine =
      (v.view mine).revoke (belongs env store.heap fired) := by
  induction fired generalizing v with
  | nil => exact (Vault.View.revoke_none fun _ _ => rfl).symm
  | cons ref fired ih =>
      rw [onExpire, List.foldl_cons]
      change (onExpire env store fired _).view mine = _
      rw [ih]
      cases hst : store.heap[ref]? with
      | none =>
          dsimp only
          refine Vault.View.revoke_congr fun r _ => ?_
          rw [belongs, belongs, List.any_cons, hst]
          rfl
      | some st =>
          dsimp only
          rw [Vault.revokeSession_view, Vault.View.revoke_revoke _ _ fun _ _ => rfl]
          refine Vault.View.revoke_congr fun r _ => ?_
          rw [belongs, belongs, List.any_cons, hst]
          rfl

/-- An item of the store whose state is expired. -/
def stale (S : Store) (now : ℚ) (item : String × Ref) : Bool :=
  decide (∃ st ∈ S.heap[item.2]?, st.isExpired now)

theorem stale_eq {S : Store} (now : ℚ) (sid : String) {r : Ref} {st : SessionState}
    (hst : S.heap[r]? = some st) : stale S now (sid, r) = decide (st.isExpired now) := by
  unfold stale
  rw [decide_eq_decide, hst]
  constructor
  · rintro ⟨st', hst', hexp⟩
    cases hst'
    exact hexp
  · exact fun hexp => ⟨st, rfl, hexp⟩

theorem sweep_sound (hw : w.store.Sound) (now : ℚ) : (sweep env now w).store.Sound :=
  hw.without (stale w.store now)

theorem sweep_session (hw : w.store.Sound) (now : ℚ) (sid : String) :
    (sweep env now w).store.session sid =
      (w.store.session sid).filter fun st => !decide (st.isExpired now) :=
  hw.session_without fun _ _ _ hst => stale_eq now _ hst

/-- A sweep revokes the rows of the sessions that it finds expired. -/
theorem belongs_sweep (hw : w.store.Sound) (now : ℚ) (r : Vault.Row) :
    belongs env w.store.heap (Expiry.sweepOnce w.store now).1 r = true ↔
      ∃ sid, w.store.expires sid now ∧ r.sessionId = env.coerce sid := by
  unfold belongs
  rw [List.any_eq_true]
  constructor
  · rintro ⟨ref, href, hany⟩
    obtain ⟨⟨sid, ref'⟩, hmem, rfl⟩ := List.mem_map.mp href
    obtain ⟨hitem, hexp⟩ := List.mem_filter.mp hmem
    obtain ⟨st, hst, -, hsession⟩ := hw.get? ((Dict.mem_iff_get? hw.keys).mp hitem)
    have hid := (hw.of_session hsession).1
    rw [hst, Option.any_some, beq_iff_eq, hid] at hany
    have hexpired := (stale_eq now sid hst).symm.trans hexp
    exact ⟨sid, ⟨st, hsession, of_decide_eq_true hexpired⟩, hany⟩
  · rintro ⟨sid, ⟨st, hsession, hexp⟩, hr⟩
    obtain ⟨hid, ref, href, hst⟩ := hw.of_session hsession
    have hitem : (sid, ref) ∈ w.store.states := Dict.mem_of_get? href
    have hstale := (stale_eq now sid hst).trans (decide_eq_true hexp)
    refine ⟨ref, List.mem_map.mpr ⟨(sid, ref), List.mem_filter.mpr ⟨hitem, hstale⟩, rfl⟩, ?_⟩
    rw [hst, Option.any_some, beq_iff_eq, hid]
    exact hr

theorem sweep_same (hw : w.store.Sound) (hw' : w'.store.Sound)
    (hsame : view env mine w = view env mine w') (now : ℚ) :
    view env mine (sweep env now w) = view env mine (sweep env now w') := by
  unfold view
  rw [View.mk.injEq]
  refine ⟨funext fun sid => ?_,
    show w.store.defaultTtlSeconds = w'.store.defaultTtlSeconds from ttl_same hsame, ?_⟩
  · split
    · rename_i hmine
      rw [sweep_session hw, sweep_session hw', session_same hsame hmine]
    · rfl
  · show (onExpire env _ _ w.vault).view mine = (onExpire env _ _ w'.vault).view mine
    rw [onExpire_view, onExpire_view, ← vault_same hsame]
    refine Vault.View.revoke_congr fun r hr => ?_
    rw [Bool.eq_iff_iff]
    refine (belongs_sweep hw now r).trans (Iff.trans ?_ (belongs_sweep hw' now r).symm)
    refine exists_congr fun sid => and_congr_left fun hsid => ?_
    exact expires_same hsame (hsid ▸ Vault.view_sessionId hr) now

end Sweep

/-! ### The law -/

theorem unwinds (S : Setup) (calls : ι → Call) (mine : Ids.Uuid → Bool) :
    Unwinds (step S calls) (Inv S calls mine) (sees S calls mine) (concerns calls S.env mine) where
  keeps {s a} h := by
    cases a with
    | stage i =>
        obtain ⟨hsound, hcourse⟩ := advance_onCourse (h.course i) h.sound
        refine ⟨hsound, fun j => ?_⟩
        show OnCourse S mine (calls j) (Function.update s.flight i _ j)
        by_cases hij : j = i
        · subst hij
          rw [Function.update_self]
          exact hcourse
        · rw [Function.update_of_ne hij]
          exact h.course j
    | sweep now => exact ⟨sweep_sound h.sound now, h.course⟩
    | purge => exact ⟨h.sound, h.course⟩
    | advance elapsed => exact ⟨h.sound, h.course⟩
  respects {s s' a} h h' hown hsame := by
    have hworld : view S.env mine s.world = view S.env mine s'.world := congrArg Prod.fst hsame
    have hflight := congrArg Prod.snd hsame
    cases a with
    | stage i =>
        have hi : s.flight i = s'.flight i := by
          have := congrFun hflight i
          simp only [sees, if_pos (show ours calls S.env mine i = true from hown)] at this
          exact Option.some.inj this
        obtain ⟨hnext, hview⟩ := advance_own (h.course i) h.sound h'.sound hown hworld
        refine Prod.ext ?_ (funext fun j => ?_)
        · show view S.env mine ((s.flight i).advance S (calls i) s.world).2 =
            view S.env mine ((s'.flight i).advance S (calls i) s'.world).2
          rw [← hi]
          exact hview
        · have hj := congrFun hflight j
          simp only [sees] at hj ⊢
          split
          · rename_i hours
            rw [if_pos hours, if_pos hours] at hj
            show some (Function.update s.flight i _ j) = some (Function.update s'.flight i _ j)
            by_cases hij : j = i
            · subst hij
              rw [Function.update_self, Function.update_self, ← hi]
              exact congrArg some hnext
            · rw [Function.update_of_ne hij, Function.update_of_ne hij]
              exact hj
          · rfl
    | sweep now =>
        exact Prod.ext (sweep_same h.sound h'.sound hworld now) hflight
    | purge =>
        refine Prod.ext (view_vault hworld ?_) hflight
        rw [Vault.purgeExpired_view, Vault.purgeExpired_view, vault_same hworld,
          Vault.now_same (vault_same hworld)]
    | advance elapsed =>
        refine Prod.ext (view_vault hworld ?_) hflight
        exact congrArg (fun v : Vault.View => { v with now := v.now + elapsed })
          (vault_same hworld)
  ignores {s a} h hforeign := by
    cases a with
    | stage i =>
        refine Prod.ext (advance_foreign (h.course i) h.sound hforeign) (funext fun j => ?_)
        simp only [sees]
        split
        · rename_i hours
          have hij : j ≠ i := by
            rintro rfl
            rw [show ours calls S.env mine j = false from hforeign] at hours
            cases hours
          exact congrArg some (Function.update_of_ne hij _ _)
        · rfl
    | sweep now => cases hforeign
    | purge => cases hforeign
    | advance elapsed => cases hforeign

/-- **Sessions do not interfere.** Pick sessions by their UUIDs, and two worlds in which
these see the same. Whatever the others send, in any interleaving of the stages of all
requests with sweeps, purges and the passing of time, each request of the picked sessions
is where it is, and decided as it is, when their requests run without the others; and what
they see of the store, of the tokens and of the access log is the same. -/
theorem sessions_isolated (S : Setup) (calls : ι → Call) (mine : Ids.Uuid → Bool)
    (hblind : ∀ i k, ((calls i).draws.fetch k).Blind) (w w' : World) (hw : w.store.Sound)
    (hw' : w'.store.Sound) (hsame : view S.env mine w = view S.env mine w')
    (moves : List (Move ι)) :
    let full := run (step S calls) (start S calls w) moves
    let own := run (step S calls) (start S calls w') (moves.filter (concerns calls S.env mine))
    (∀ i, ours calls S.env mine i = true → full.flight i = own.flight i) ∧
      view S.env mine full.world = view S.env mine own.world := by
  intro full own
  have hinv : ∀ {w : World}, w.store.Sound → Inv S calls mine (start S calls w) :=
    fun hsound => ⟨hsound, fun i => onCourse_start (hblind i)⟩
  have hstart : sees S calls mine (start S calls w) = sees S calls mine (start S calls w') :=
    Prod.ext hsame rfl
  have hrun := (unwinds S calls mine).run (hinv hw) (hinv hw') hstart moves
  refine ⟨fun i hours => ?_, congrArg Prod.fst hrun⟩
  have hflight := congrFun (congrArg Prod.snd hrun) i
  simp only [sees, if_pos hours] at hflight
  exact Option.some.inj hflight

/-- The verdict of a request that is decided. -/
def Flight.verdict : Flight → Option WireAction
  | .running _ _ => none
  | .done decision => some decision.action

/-- The UUIDs of two sessions, as they are sent. -/
def sessionOf : Bool → String
  | true => "11111111-1111-1111-1111-111111111111"
  | false => "22222222-2222-2222-2222-222222222222"

/-- Two sessions send an address each. -/
def twoCalls (i : Bool) : Call := ⟨sessionOf i, "input", [], some (messageBody "a@b.co".toList), .sample⟩

/-- The stages of both in turn, a sweep and a purge between them. -/
def twoMoves : List (Move Bool) :=
  [.stage false, .stage true, .stage false, .stage true, .stage false, .sweep 5, .stage true,
   .purge, .stage true, .stage false, .stage true, .stage false, .advance 1, .stage true,
   .stage false, .stage true]

theorem sessions_isolated_two :
    let full := run (step Setup.sample twoCalls) (start Setup.sample twoCalls .empty) twoMoves
    let own := run (step Setup.sample twoCalls) (start Setup.sample twoCalls .empty)
      (twoMoves.filter (concerns twoCalls Setup.sample.env
        (· == Setup.sample.env.coerce (sessionOf true))))
    (full.flight true).verdict = some .transform ∧ full.flight true = own.flight true := by
  refine ⟨by decide +kernel, ?_⟩
  have hsound : World.empty.store.Sound := ⟨List.nodup_nil, fun _ _ h => by cases h⟩
  exact (sessions_isolated Setup.sample twoCalls (· == Setup.sample.env.coerce (sessionOf true))
    (fun _ _ => Vault.FetchOne.first_blind) .empty .empty hsound hsound rfl twoMoves).1 true
      (by decide +kernel)

end Isolation

end DlpServer.Pipeline.Isolation
