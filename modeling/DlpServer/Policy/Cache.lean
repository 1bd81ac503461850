import DlpServer.Lib.Grouping
import DlpServer.Lib.Runs
import DlpServer.Policy.Seed

/-!
# The cached ruleset (`ruleset` of `app/policy/engine.py`) under concurrency

`purpose_policy_stage` asks `ruleset()` for every span. The first threads that find the
cache empty load the active version, each in a transaction of three SELECTs, and store what
they have read, one after the other; meanwhile `seed_policy.py` may replace the policy.
Here every SELECT, every commit of the script and every access to `_cache` is one step, in
any order.

A ruleset is always that of one version, and a request that begins when the cache is set
and no load is under way is decided by that one ruleset alone (`decided_by_versions`). A
request that begins earlier may be decided by two versions.
-/

namespace DlpServer.Policy

open Grouping (RowOrder)

/-! ## Requests in the stage -/

/-- A request in the loop of `purpose_policy_stage`: as it came, as it is now, and the spans
that are left. -/
structure Loop where
  start : AnalysisContext
  ctx : AnalysisContext
  todo : List Span

/-- Where a thread is. -/
inductive Phase where
  | idle
  | looping (l : Loop)
  | opening (l : Loop)                                  -- in `_load_ruleset`
  | selected (l : Loop) (vid : ℕ)                       -- the version is read
  | ruled (l : Loop) (vid : ℕ) (rules : List Rule)      -- its rules are read
  | loaded (l : Loop) (rs : Ruleset)                    -- before `_cache = ...`
  | returning (l : Loop)                                -- before `return _cache`

/-- A request that has left the stage. -/
structure Decided (τ : Type*) where
  thread : τ
  start : AnalysisContext
  result : AnalysisContext

/-- The tables, the cache and the threads. `readers` hold `ACCESS SHARE` on
`policy_versions`; `past` and `decided` are history: every state of the tables that was
committed, the present one included, and every request that was decided. -/
structure Engine (τ : Type*) where
  db : PolicyDb
  past : List PolicyDb
  cache : Option Ruleset
  readers : List τ
  phase : τ → Phase
  decided : List (Decided τ)

/-- The process has just started. -/
def Engine.init {τ : Type*} (db : PolicyDb) : Engine τ where
  db := db
  past := [db]
  cache := none
  readers := []
  phase _ := .idle
  decided := []

/-- What happens next: a thread takes a step, or the script commits. -/
inductive Act (τ : Type*) where
  | begin (t : τ) (ctx : AnalysisContext)
  | look (t : τ)
  | selectVersion (t : τ)
  | selectRules (t : τ) (order : RowOrder Rule)
  | selectOverrides (t : τ) (order : RowOrder Override)
  | assign (t : τ)
  | take (t : τ)
  | fail (t : τ)
  | finish (t : τ)
  | seed (spec : Spec)
  | truncate

/-- The rules that are stored for a version. -/
def PolicyDb.rulesOf (db : PolicyDb) (vid : ℕ) : List Rule :=
  (db.rules.filter fun r => r.1 = vid).map Prod.snd

def PolicyDb.overridesOf (db : PolicyDb) (vid : ℕ) : List Override :=
  (db.overrides.filter fun o => o.1 = vid).map Prod.snd

section Stage

variable (u : Unicode) (purposeRules : List Purpose.Rule)

/-- `classify(_last_user_text(ctx.turns) or "")`. -/
def classified (ctx : AnalysisContext) : String × ℚ :=
  Purpose.classify purposeRules ((Guardrail.Injection.lastUserText ctx.turns).getD [])

/-- The context when the loop begins. -/
def begun (ctx : AnalysisContext) : AnalysisContext :=
  { ctx with
    purpose := some (classified purposeRules ctx).1
    purposeConfidence := some (classified purposeRules ctx).2 }

/-- The rounds of the loop, each with the ruleset that `ruleset()` returned. -/
def rounds (ctx : AnalysisContext) (decisions : List (Span × Ruleset)) : AnalysisContext :=
  decisions.foldl (fun c p => policyRound u p.2 (classified purposeRules ctx).1 c p.1)
    (begun purposeRules ctx)

/-- The handler of `purpose_policy_stage`. -/
def stageError (ctx : AnalysisContext) : AnalysisContext :=
  { ctx with
    blocked := true
    blockReason := some [("type", some "policy"), ("note", some "stage_error")] }

end Stage

namespace Engine

variable {τ : Type*} [DecidableEq τ]

def goto (e : Engine τ) (t : τ) (phase : Phase) : Engine τ :=
  { e with phase := Function.update e.phase t phase }

/-- The thread leaves the stage; its connection, if it had one, goes back to the pool. -/
def leave (e : Engine τ) (t : τ) (start result : AnalysisContext) : Engine τ :=
  { e.goto t .idle with
    readers := e.readers.erase t
    decided := e.decided ++ [⟨t, start, result⟩] }

section Step

variable (u : Unicode) (purposeRules : List Purpose.Rule)

/-- One step. `none` says that it is not due. -/
def step (e : Engine τ) : Act τ → Option (Engine τ)
  | .begin t ctx =>
      match e.phase t with
      | .idle =>
          if ctx.direction = "input" then
            some (e.goto t (.looping ⟨ctx, begun purposeRules ctx, ctx.newTurnSpans⟩))
          else none
      | _ => none
  | .look t =>
      match e.phase t with
      | .looping l =>
          if l.todo = [] then none
          else if e.cache.isSome then some (e.goto t (.returning l))
          else some (e.goto t (.opening l))
      | _ => none
  | .selectVersion t =>
      match e.phase t with
      | .opening l =>
          match e.db.versions.find? VersionRow.isActive with
          | none => some (e.goto t (.loaded l {}))
          | some v =>
              some { e.goto t (.selected l v.policyVersionId) with readers := t :: e.readers }
      | _ => none
  | .selectRules t order =>
      match e.phase t with
      | .selected l vid => some (e.goto t (.ruled l vid (order.arrange (e.db.rulesOf vid))))
      | _ => none
  | .selectOverrides t order =>
      match e.phase t with
      | .ruled l vid rules =>
          some
            { e.goto t (.loaded l ⟨rules, order.arrange (e.db.overridesOf vid)⟩) with
              readers := e.readers.erase t }
      | _ => none
  | .assign t =>
      match e.phase t with
      | .loaded l rs => some { e.goto t (.returning l) with cache := some rs }
      | _ => none
  | .take t =>
      match e.phase t with
      | .returning l =>
          match e.cache, l.todo with
          | some rs, span :: rest =>
              some (e.goto t (.looping
                { l with
                  ctx := policyRound u rs (classified purposeRules l.start).1 l.ctx span
                  todo := rest }))
          | _, _ => none
      | _ => none
  | .fail t =>
      match e.phase t with
      | .opening l | .selected l _ | .ruled l _ _ => some (e.leave t l.start (stageError l.ctx))
      | _ => none
  | .finish t =>
      match e.phase t with
      | .looping l => if l.todo = [] then some (e.leave t l.start l.ctx) else none
      | _ => none
  | .seed spec =>
      match seed e.db spec with
      | .ok (db, _) => some { e with db := db, past := e.past ++ [db] }
      | .error _ => some e
  | .truncate =>
      -- `TRUNCATE` waits for the readers of the tables.
      if e.readers = [] then
        some { e with db := .empty, past := e.past ++ [.empty] }
      else none

end Step

/-! ## What a step can do -/

section Moves

variable {u : Unicode} {purposeRules : List Purpose.Rule}

/-- A statement of `_load_ruleset` may raise. -/
def Raises (l : Loop) : Phase → Prop
  | .opening l' | .selected l' _ | .ruled l' _ _ => l' = l
  | _ => False

inductive Moves (u : Unicode) (purposeRules : List Purpose.Rule) : Engine τ → Engine τ → Prop
  | begin {e : Engine τ} {t : τ} {ctx : AnalysisContext} (ht : e.phase t = .idle)
      (hdir : ctx.direction = "input") :
      Moves u purposeRules e
        (e.goto t (.looping ⟨ctx, begun purposeRules ctx, ctx.newTurnSpans⟩))
  | hit {e : Engine τ} {t : τ} {l : Loop} (ht : e.phase t = .looping l) (htodo : l.todo ≠ [])
      (hcache : e.cache ≠ none) : Moves u purposeRules e (e.goto t (.returning l))
  | miss {e : Engine τ} {t : τ} {l : Loop} (ht : e.phase t = .looping l) (htodo : l.todo ≠ [])
      (hcache : e.cache = none) : Moves u purposeRules e (e.goto t (.opening l))
  | noVersion {e : Engine τ} {t : τ} {l : Loop} (ht : e.phase t = .opening l)
      (hnone : e.db.versions.find? VersionRow.isActive = none) :
      Moves u purposeRules e (e.goto t (.loaded l {}))
  | version {e : Engine τ} {t : τ} {l : Loop} {v : VersionRow} (ht : e.phase t = .opening l)
      (hsome : e.db.versions.find? VersionRow.isActive = some v) :
      Moves u purposeRules e
        { e.goto t (.selected l v.policyVersionId) with readers := t :: e.readers }
  | rules {e : Engine τ} {t : τ} {l : Loop} {vid : ℕ} {rules : List Rule}
      (ht : e.phase t = .selected l vid) (hrules : rules.Perm (e.db.rulesOf vid)) :
      Moves u purposeRules e (e.goto t (.ruled l vid rules))
  | overrides {e : Engine τ} {t : τ} {l : Loop} {vid : ℕ} {rules : List Rule}
      {overrides : List Override} (ht : e.phase t = .ruled l vid rules)
      (hoverrides : overrides.Perm (e.db.overridesOf vid)) :
      Moves u purposeRules e
        { e.goto t (.loaded l ⟨rules, overrides⟩) with readers := e.readers.erase t }
  | assign {e : Engine τ} {t : τ} {l : Loop} {rs : Ruleset} (ht : e.phase t = .loaded l rs) :
      Moves u purposeRules e { e.goto t (.returning l) with cache := some rs }
  | take {e : Engine τ} {t : τ} {l : Loop} {rs : Ruleset} {span : Span} {rest : List Span}
      (ht : e.phase t = .returning l) (hcache : e.cache = some rs) (htodo : l.todo = span :: rest) :
      Moves u purposeRules e (e.goto t (.looping
        { l with
          ctx := policyRound u rs (classified purposeRules l.start).1 l.ctx span
          todo := rest }))
  | fail {e : Engine τ} {t : τ} {l : Loop} (ht : Raises l (e.phase t)) :
      Moves u purposeRules e (e.leave t l.start (stageError l.ctx))
  | finish {e : Engine τ} {t : τ} {l : Loop} (ht : e.phase t = .looping l) (htodo : l.todo = []) :
      Moves u purposeRules e (e.leave t l.start l.ctx)
  | seed {e : Engine τ} {rules : List Rule} {overrides : List Override} :
      Moves u purposeRules e
        { e with
          db := e.db.activate rules overrides
          past := e.past ++ [e.db.activate rules overrides] }
  | refused {e : Engine τ} : Moves u purposeRules e e
  | truncate {e : Engine τ} (hreaders : e.readers = []) :
      Moves u purposeRules e { e with db := .empty, past := e.past ++ [.empty] }

theorem seed_activates {db db' : PolicyDb} {spec : Spec} {n : ℕ}
    (h : Policy.seed db spec = .ok (db', n)) :
    ∃ rules overrides, db' = db.activate rules overrides := by
  obtain ⟨rules, -, h⟩ := Vault.bind_ok.mp h
  obtain ⟨default, -, h⟩ := Vault.bind_ok.mp h
  obtain ⟨overrides, -, h⟩ := Vault.bind_ok.mp h
  cases h
  exact ⟨_, _, rfl⟩

theorem Moves.of_step {e e' : Engine τ} {a : Act τ} (h : step u purposeRules e a = some e') :
    Moves u purposeRules e e' := by
  cases a with
  | begin t ctx =>
      cases ht : e.phase t <;> simp only [step, ht, reduceCtorEq] at h
      case idle =>
        split at h
        · cases h
          exact .begin ht ‹_›
        · cases h
  | look t =>
      cases ht : e.phase t <;> simp only [step, ht, reduceCtorEq] at h
      case looping l =>
        split at h
        · cases h
        · split at h
          · cases h
            exact .hit ht ‹_› (Option.isSome_iff_ne_none.mp ‹_›)
          · cases h
            exact .miss ht ‹_› (Option.not_isSome_iff_eq_none.mp ‹_›)
  | selectVersion t =>
      cases ht : e.phase t <;> simp only [step, ht, reduceCtorEq] at h
      case opening l =>
        cases hv : e.db.versions.find? VersionRow.isActive with
        | none =>
            rw [hv] at h
            cases h
            exact .noVersion ht hv
        | some v =>
            rw [hv] at h
            cases h
            exact .version ht hv
  | selectRules t order =>
      cases ht : e.phase t <;> simp only [step, ht, reduceCtorEq] at h
      case selected l vid =>
        cases h
        exact .rules ht (order.perm _)
  | selectOverrides t order =>
      cases ht : e.phase t <;> simp only [step, ht, reduceCtorEq] at h
      case ruled l vid rules =>
        cases h
        exact .overrides ht (order.perm _)
  | assign t =>
      cases ht : e.phase t <;> simp only [step, ht, reduceCtorEq] at h
      case loaded l rs =>
        cases h
        exact .assign ht
  | take t =>
      cases ht : e.phase t <;> simp only [step, ht, reduceCtorEq] at h
      case returning l =>
        cases hcache : e.cache <;> cases htodo : l.todo <;>
          simp only [hcache, htodo, reduceCtorEq] at h
        cases h
        exact .take ht hcache htodo
  | fail t =>
      cases ht : e.phase t <;> simp only [step, ht, reduceCtorEq] at h
      case opening l =>
        cases h
        exact .fail (by rw [ht]; rfl)
      case selected l vid =>
        cases h
        exact .fail (by rw [ht]; rfl)
      case ruled l vid rules =>
        cases h
        exact .fail (by rw [ht]; rfl)
  | finish t =>
      cases ht : e.phase t <;> simp only [step, ht, reduceCtorEq] at h
      case looping l =>
        split at h
        · cases h
          exact .finish ht ‹_›
        · cases h
  | seed spec =>
      cases hseed : Policy.seed e.db spec with
      | error err =>
          simp only [step, hseed] at h
          cases h
          exact .refused
      | ok res =>
          obtain ⟨db, n⟩ := res
          obtain ⟨rules, overrides, rfl⟩ := seed_activates hseed
          simp only [step, hseed] at h
          cases h
          exact .seed
  | truncate =>
      simp only [step] at h
      split at h
      · cases h
        exact .truncate ‹_›
      · cases h

end Moves

end Engine

/-! ## Rulesets of one version -/

theorem loadRuleset_none {db : PolicyDb} (h : db.versions.find? VersionRow.isActive = none) :
    loadRuleset db = {} := by
  rw [loadRuleset, h]

theorem loadRuleset_some {db : PolicyDb} {v : VersionRow}
    (h : db.versions.find? VersionRow.isActive = some v) :
    loadRuleset db = ⟨db.rulesOf v.policyVersionId, db.overridesOf v.policyVersionId⟩ := by
  rw [loadRuleset, h]
  rfl

/-- A new version leaves the rows of the older ones alone. -/
theorem activate_rulesOf {db : PolicyDb} {rules : List Rule} {overrides : List Override} {vid : ℕ}
    (h : vid < db.nextVersion) :
    (db.activate rules overrides).rulesOf vid = db.rulesOf vid ∧
      (db.activate rules overrides).overridesOf vid = db.overridesOf vid := by
  have hne : ¬ db.nextVersion = vid := fun heq => absurd h (heq ▸ lt_irrefl _)
  constructor
  · simp [PolicyDb.rulesOf, PolicyDb.activate, List.filter_append, List.filter_map,
      Function.comp_def, hne]
  · simp [PolicyDb.overridesOf, PolicyDb.activate, List.filter_append, List.filter_map,
      Function.comp_def, hne]

namespace Loop

variable (u : Unicode) (purposeRules : List Purpose.Rule)

/-- The request is where a loop that has had rulesets of `P` so far is. -/
def Decides (P : Ruleset → Prop) (l : Loop) : Prop :=
  l.start.direction = "input" ∧ ∃ decisions : List (Span × Ruleset),
    l.start.newTurnSpans = decisions.map Prod.fst ++ l.todo ∧ (∀ p ∈ decisions, P p.2) ∧
      l.ctx = rounds u purposeRules l.start decisions

/-- No span has been decided yet. -/
structure Fresh (l : Loop) : Prop where
  direction : l.start.direction = "input"
  ctx : l.ctx = begun purposeRules l.start
  todo : l.todo = l.start.newTurnSpans

variable {u purposeRules} {P Q : Ruleset → Prop} {l : Loop}

theorem Decides.mono (h : l.Decides u purposeRules P) (hPQ : ∀ rs, P rs → Q rs) :
    l.Decides u purposeRules Q := by
  obtain ⟨hdir, decisions, hspans, hall, hctx⟩ := h
  exact ⟨hdir, decisions, hspans, fun p hp => hPQ p.2 (hall p hp), hctx⟩

theorem Fresh.decides (h : l.Fresh purposeRules) : l.Decides u purposeRules P :=
  ⟨h.direction, [], h.todo.symm, List.forall_mem_nil _, h.ctx⟩

/-- One round more. -/
theorem Decides.take (h : l.Decides u purposeRules P) {rs : Ruleset} (hrs : P rs) {span : Span}
    {rest : List Span} (htodo : l.todo = span :: rest) :
    Decides u purposeRules P
      { l with
        ctx := policyRound u rs (classified purposeRules l.start).1 l.ctx span
        todo := rest } := by
  obtain ⟨hdir, decisions, hspans, hall, hctx⟩ := h
  refine ⟨hdir, decisions ++ [(span, rs)], ?_, ?_, ?_⟩
  · simp [hspans, htodo]
  · intro p hp
    rcases List.mem_append.mp hp with hp | hp
    · exact hall p hp
    · rw [List.mem_singleton.mp hp]
      exact hrs
  · rw [hctx, rounds, rounds, List.foldl_append]
    rfl

end Loop

/-- What has become of a request: the loop ran with rulesets of `P`, one for each span, or
no ruleset could be loaded. -/
def Decided.Uses {τ : Type*} (u : Unicode) (purposeRules : List Purpose.Rule) (P : Ruleset → Prop)
    (d : Decided τ) : Prop :=
  (∃ decisions : List (Span × Ruleset), decisions.map Prod.fst = d.start.newTurnSpans ∧
      (∀ p ∈ decisions, P p.2) ∧ d.result = rounds u purposeRules d.start decisions) ∨
    d.result = purposePolicyStage u purposeRules none d.start

section Stage

variable {u : Unicode} {purposeRules : List Purpose.Rule} {ctx : AnalysisContext}

/-- Rounds with one ruleset are the stage with it. -/
theorem rounds_eq_stage (hdir : ctx.direction = "input") (rs : Ruleset) :
    rounds u purposeRules ctx (ctx.newTurnSpans.map fun s => (s, rs)) =
      purposePolicyStage u purposeRules (some rs) ctx := by
  unfold purposePolicyStage
  rw [if_neg (not_not.mpr hdir), rounds, List.foldl_map]
  rfl

theorem stageError_eq_stage (hdir : ctx.direction = "input") (hspans : ctx.newTurnSpans ≠ []) :
    stageError (begun purposeRules ctx) = purposePolicyStage u purposeRules none ctx := by
  unfold purposePolicyStage
  rw [if_neg (not_not.mpr hdir)]
  dsimp only
  rw [if_neg hspans]
  rfl

end Stage

namespace Engine

variable {τ : Type*} (u : Unicode) (purposeRules : List Purpose.Rule)

/-! ## The invariant -/

/-- The ruleset of one version: what a load gives of tables that were once committed. Tables
without an active version count as the empty ruleset. -/
def InForce (e : Engine τ) (rs : Ruleset) : Prop := ∃ db ∈ e.past, Reads db rs

/-- The version was active once, and its rows are still those it had then. -/
def Pinned (e : Engine τ) (vid : ℕ) : Prop :=
  vid < e.db.nextVersion ∧ ∃ db ∈ e.past, ∃ v, db.versions.find? VersionRow.isActive = some v ∧
    v.policyVersionId = vid ∧ e.db.rulesOf vid = db.rulesOf vid ∧
    e.db.overridesOf vid = db.overridesOf vid

/-- A thread that has read a version and holds its lock. -/
def Reading : Phase → Prop
  | .selected _ _ | .ruled _ _ _ => True
  | _ => False

/-- What a thread may rely on. Only a request without decisions loads, so a load that fails
takes nothing back. -/
def PhaseOk (e : Engine τ) : Phase → Prop
  | .idle => True
  | .looping l => l.Decides u purposeRules e.InForce ∧ (e.cache = none → l.Fresh purposeRules)
  | .opening l => l.Fresh purposeRules ∧ l.todo ≠ []
  | .selected l vid => l.Fresh purposeRules ∧ l.todo ≠ [] ∧ e.Pinned vid
  | .ruled l vid rules =>
      l.Fresh purposeRules ∧ l.todo ≠ [] ∧ e.Pinned vid ∧ rules.Perm (e.db.rulesOf vid)
  | .loaded l rs => l.Fresh purposeRules ∧ e.InForce rs
  | .returning l => l.Decides u purposeRules e.InForce

structure Inv (e : Engine τ) : Prop where
  present : e.db ∈ e.past
  cached : ∀ rs, e.cache = some rs → e.InForce rs
  locked : ∀ t, Reading (e.phase t) → t ∈ e.readers
  phases : ∀ t, PhaseOk u purposeRules e (e.phase t)
  outcomes : ∀ d ∈ e.decided, d.Uses u purposeRules e.InForce

variable {u purposeRules} {e e' : Engine τ}

theorem InForce.mono (hpast : e.past ⊆ e'.past) {rs : Ruleset} (h : e.InForce rs) :
    e'.InForce rs := by
  obtain ⟨db, hdb, hreads⟩ := h
  exact ⟨db, hpast hdb, hreads⟩

theorem uses_mono {P Q : Ruleset → Prop} (hPQ : ∀ rs, P rs → Q rs) {d : Decided τ}
    (h : d.Uses u purposeRules P) : d.Uses u purposeRules Q := by
  rcases h with ⟨decisions, hspans, hall, hresult⟩ | hresult
  · exact Or.inl ⟨decisions, hspans, fun p hp => hPQ p.2 (hall p hp), hresult⟩
  · exact Or.inr hresult

theorem PhaseOk.mono (hpast : e.past ⊆ e'.past) (hcache : e'.cache = none → e.cache = none)
    {p : Phase} (hpin : Reading p → ∀ vid, e.Pinned vid →
      e'.Pinned vid ∧ e'.db.rulesOf vid = e.db.rulesOf vid)
    (h : PhaseOk u purposeRules e p) : PhaseOk u purposeRules e' p := by
  have hforce : ∀ rs, e.InForce rs → e'.InForce rs := fun rs hrs => hrs.mono hpast
  cases p with
  | idle => trivial
  | looping l => exact ⟨h.1.mono hforce, fun hnone => h.2 (hcache hnone)⟩
  | opening l => exact h
  | selected l vid =>
      obtain ⟨hfresh, htodo, hpinned⟩ := h
      exact ⟨hfresh, htodo, (hpin trivial vid hpinned).1⟩
  | ruled l vid rules =>
      obtain ⟨hfresh, htodo, hpinned, hrules⟩ := h
      obtain ⟨hpinned', hrows⟩ := hpin trivial vid hpinned
      exact ⟨hfresh, htodo, hpinned', hrows.symm ▸ hrules⟩
  | loaded l rs => exact ⟨h.1, hforce rs h.2⟩
  | returning l => exact Loop.Decides.mono h hforce

/-- The script has committed: what was read before is still there. -/
theorem Inv.commit (inv : Inv u purposeRules e) {db : PolicyDb}
    (hpin : ∀ t, Reading (e.phase t) → ∀ vid, e.Pinned vid → vid < db.nextVersion ∧
      db.rulesOf vid = e.db.rulesOf vid ∧ db.overridesOf vid = e.db.overridesOf vid) :
    Inv u purposeRules { e with db := db, past := e.past ++ [db] } := by
  have hpast : e.past ⊆ e.past ++ [db] := List.subset_append_left _ _
  have hforce : ∀ rs, e.InForce rs →
      InForce { e with db := db, past := e.past ++ [db] } rs := fun rs hrs => hrs.mono hpast
  constructor
  · exact List.mem_append_right _ List.mem_cons_self
  · exact fun rs hrs => hforce rs (inv.cached rs hrs)
  · exact inv.locked
  · intro t
    refine PhaseOk.mono (e := e) hpast ?_ (fun hreading vid hpinned => ?_) (inv.phases t)
    · exact id
    obtain ⟨hlt, hrules, hoverrides⟩ := hpin t hreading vid hpinned
    obtain ⟨-, db₀, hdb₀, v, hv, hvid, hrules₀, hoverrides₀⟩ := hpinned
    exact ⟨⟨hlt, db₀, hpast hdb₀, v, hv, hvid, hrules.trans hrules₀,
      hoverrides.trans hoverrides₀⟩, hrules⟩
  · exact fun d hd => uses_mono hforce (inv.outcomes d hd)

variable [DecidableEq τ]

theorem phases_update {P : τ → Phase → Prop} {phase : τ → Phase} {t : τ} {p : Phase}
    (hall : ∀ t', t' ≠ t → P t' (phase t')) (hp : P t p) (t' : τ) :
    P t' (Function.update phase t p t') := by
  by_cases heq : t' = t
  · rw [heq, Function.update_self]
    exact hp
  · rw [Function.update_of_ne heq]
    exact hall t' heq

/-- A thread goes on, without a lock given or taken. -/
theorem Inv.goto (inv : Inv u purposeRules e) {t : τ} {p : Phase}
    (hp : PhaseOk u purposeRules e p) (hreading : Reading p → Reading (e.phase t)) :
    Inv u purposeRules (e.goto t p) where
  present := inv.present
  cached := inv.cached
  locked := by
    intro t' ht'
    change Reading (Function.update e.phase t p t') at ht'
    by_cases heq : t' = t
    · rw [heq, Function.update_self] at ht'
      exact heq ▸ inv.locked t (hreading ht')
    · rw [Function.update_of_ne heq] at ht'
      exact inv.locked t' ht'
  phases := phases_update (P := fun _ => PhaseOk u purposeRules e) (fun t' _ => inv.phases t') hp
  outcomes := inv.outcomes

/-- A thread goes on and returns its connection, if it had one. -/
theorem Inv.release (inv : Inv u purposeRules e) {t : τ} {p : Phase}
    (hp : PhaseOk u purposeRules e p) (hreading : ¬ Reading p) :
    Inv u purposeRules { e.goto t p with readers := e.readers.erase t } where
  present := inv.present
  cached := inv.cached
  locked := by
    intro t' ht'
    change Reading (Function.update e.phase t p t') at ht'
    by_cases heq : t' = t
    · rw [heq, Function.update_self] at ht'
      exact absurd ht' hreading
    · rw [Function.update_of_ne heq] at ht'
      exact (List.mem_erase_of_ne heq).mpr (inv.locked t' ht')
  phases := phases_update (P := fun _ => PhaseOk u purposeRules e) (fun t' _ => inv.phases t') hp
  outcomes := inv.outcomes

theorem Inv.leave (inv : Inv u purposeRules e) {t : τ} {start result : AnalysisContext}
    (huses : Decided.Uses u purposeRules e.InForce (⟨t, start, result⟩ : Decided τ)) :
    Inv u purposeRules (e.leave t start result) := by
  have hreleased := inv.release (t := t) (p := .idle) trivial id
  refine { hreleased with outcomes := fun d hd => ?_ }
  rcases List.mem_append.mp hd with hd | hd
  · exact inv.outcomes d hd
  · rw [List.mem_singleton.mp hd]
    exact huses

/-! ### One lemma for each move -/

section Kept

variable {t : τ} {l : Loop}

omit [DecidableEq τ] in
/-- What a thread stands on. -/
theorem Inv.stands {p : Phase} (inv : Inv u purposeRules e) (ht : e.phase t = p) :
    PhaseOk u purposeRules e p := ht ▸ inv.phases t

theorem Inv.begin (inv : Inv u purposeRules e) {ctx : AnalysisContext}
    (hdir : ctx.direction = "input") :
    Inv u purposeRules
      (e.goto t (.looping ⟨ctx, begun purposeRules ctx, ctx.newTurnSpans⟩)) := by
  have hfresh : Loop.Fresh purposeRules ⟨ctx, begun purposeRules ctx, ctx.newTurnSpans⟩ :=
    ⟨hdir, rfl, rfl⟩
  exact inv.goto ⟨hfresh.decides, fun _ => hfresh⟩ False.elim

theorem Inv.hit (inv : Inv u purposeRules e) (ht : e.phase t = .looping l) :
    Inv u purposeRules (e.goto t (.returning l)) :=
  inv.goto (inv.stands ht).1 False.elim

theorem Inv.miss (inv : Inv u purposeRules e) (ht : e.phase t = .looping l)
    (htodo : l.todo ≠ []) (hcache : e.cache = none) :
    Inv u purposeRules (e.goto t (.opening l)) :=
  inv.goto ⟨(inv.stands ht).2 hcache, htodo⟩ False.elim

theorem Inv.noVersion (inv : Inv u purposeRules e) (ht : e.phase t = .opening l)
    (hnone : e.db.versions.find? VersionRow.isActive = none) :
    Inv u purposeRules (e.goto t (.loaded l {})) := by
  refine inv.goto ⟨(inv.stands ht).1, e.db, inv.present, ?_⟩ False.elim
  constructor <;> rw [loadRuleset_none hnone]

theorem Inv.version (inv : Inv u purposeRules e) {v : VersionRow}
    (ht : e.phase t = .opening l) (hsome : e.db.versions.find? VersionRow.isActive = some v) :
    Inv u purposeRules
      { e.goto t (.selected l v.policyVersionId) with readers := t :: e.readers } := by
  obtain ⟨hfresh, htodo⟩ := inv.stands ht
  have hlt : v.policyVersionId < e.db.nextVersion :=
    e.db.versions_lt v (List.mem_of_find?_eq_some hsome)
  refine
    { inv with
      locked := fun t' ht' => ?_
      phases := phases_update (P := fun _ => PhaseOk u purposeRules e)
        (fun t' _ => inv.phases t')
        ⟨hfresh, htodo, hlt, e.db, inv.present, v, hsome, rfl, rfl, rfl⟩ }
  change Reading (Function.update e.phase t _ t') at ht'
  by_cases heq : t' = t
  · exact heq ▸ List.mem_cons_self
  · rw [Function.update_of_ne heq] at ht'
    exact List.mem_cons_of_mem t (inv.locked t' ht')

theorem Inv.rules (inv : Inv u purposeRules e) {vid : ℕ} {rules : List Rule}
    (ht : e.phase t = .selected l vid) (hrules : rules.Perm (e.db.rulesOf vid)) :
    Inv u purposeRules (e.goto t (.ruled l vid rules)) := by
  obtain ⟨hfresh, htodo, hpinned⟩ := inv.stands ht
  exact inv.goto ⟨hfresh, htodo, hpinned, hrules⟩ fun _ => by rw [ht]; trivial

theorem Inv.overrides (inv : Inv u purposeRules e) {vid : ℕ} {rules : List Rule}
    {overrides : List Override} (ht : e.phase t = .ruled l vid rules)
    (hoverrides : overrides.Perm (e.db.overridesOf vid)) :
    Inv u purposeRules
      { e.goto t (.loaded l ⟨rules, overrides⟩) with readers := e.readers.erase t } := by
  obtain ⟨hfresh, -, ⟨-, db, hdb, v, hv, rfl, hrows, hrows'⟩, hrules⟩ := inv.stands ht
  refine inv.release ⟨hfresh, db, hdb, ?_⟩ id
  constructor
  · rw [loadRuleset_some hv]
    exact hrows ▸ hrules
  · rw [loadRuleset_some hv]
    exact hrows' ▸ hoverrides

theorem Inv.assign (inv : Inv u purposeRules e) {rs : Ruleset} (ht : e.phase t = .loaded l rs) :
    Inv u purposeRules { e.goto t (.returning l) with cache := some rs } := by
  obtain ⟨hfresh, hforce⟩ := inv.stands ht
  have hgone := inv.goto (t := t) (p := .returning l) hfresh.decides False.elim
  refine
    { hgone with
      cached := fun rs' hrs' => Option.some.inj hrs' ▸ hforce
      phases := fun t' => ?_ }
  refine PhaseOk.mono (e := e) ?_ ?_ ?_ (hgone.phases t')
  · exact List.Subset.refl e.past
  · intro hnone
    cases hnone
  · exact fun _ vid hpinned => ⟨hpinned, rfl⟩

theorem Inv.take (inv : Inv u purposeRules e) {rs : Ruleset} {span : Span} {rest : List Span}
    (ht : e.phase t = .returning l) (hcache : e.cache = some rs) (htodo : l.todo = span :: rest) :
    Inv u purposeRules (e.goto t (.looping
      { l with
        ctx := policyRound u rs (classified purposeRules l.start).1 l.ctx span
        todo := rest })) := by
  refine inv.goto ⟨Loop.Decides.take (inv.stands ht) (inv.cached rs hcache) htodo, fun hnone => ?_⟩
    False.elim
  rw [hcache] at hnone
  cases hnone

theorem Inv.fail (inv : Inv u purposeRules e) (ht : Raises l (e.phase t)) :
    Inv u purposeRules (e.leave t l.start (stageError l.ctx)) := by
  have hfresh : l.Fresh purposeRules ∧ l.todo ≠ [] := by
    have hok := inv.phases t
    cases hphase : e.phase t <;> rw [hphase] at ht hok <;> first
      | exact ht.elim
      | skip
    case opening l' =>
      obtain rfl : l' = l := ht
      exact hok
    case selected l' vid =>
      obtain rfl : l' = l := ht
      exact ⟨hok.1, hok.2.1⟩
    case ruled l' vid rules =>
      obtain rfl : l' = l := ht
      exact ⟨hok.1, hok.2.1⟩
  refine inv.leave (Or.inr ?_)
  dsimp only
  rw [hfresh.1.ctx]
  exact stageError_eq_stage hfresh.1.direction (hfresh.1.todo ▸ hfresh.2)

theorem Inv.finish (inv : Inv u purposeRules e) (ht : e.phase t = .looping l)
    (htodo : l.todo = []) : Inv u purposeRules (e.leave t l.start l.ctx) := by
  obtain ⟨⟨-, decisions, hspans, hall, hctx⟩, -⟩ := inv.stands ht
  rw [htodo, List.append_nil] at hspans
  exact inv.leave (Or.inl ⟨decisions, hspans.symm, hall, hctx⟩)

end Kept

theorem Inv.moves (inv : Inv u purposeRules e) (h : Moves u purposeRules e e') :
    Inv u purposeRules e' := by
  cases h with
  | begin ht hdir => exact inv.begin hdir
  | hit ht htodo hcache => exact inv.hit ht
  | miss ht htodo hcache => exact inv.miss ht htodo hcache
  | noVersion ht hnone => exact inv.noVersion ht hnone
  | version ht hsome => exact inv.version ht hsome
  | rules ht hrules => exact inv.rules ht hrules
  | overrides ht hoverrides => exact inv.overrides ht hoverrides
  | assign ht => exact inv.assign ht
  | take ht hcache htodo => exact inv.take ht hcache htodo
  | fail ht => exact inv.fail ht
  | finish ht htodo => exact inv.finish ht htodo
  | @seed rules overrides =>
      refine inv.commit fun t _ vid hpinned => ?_
      exact ⟨Nat.lt_succ_of_lt hpinned.1, activate_rulesOf hpinned.1⟩
  | refused => exact inv
  | truncate hreaders =>
      refine inv.commit fun t hreading => ?_
      have hlock := inv.locked t hreading
      rw [hreaders] at hlock
      cases hlock

/-! ## When the cache has settled -/

/-- A thread that has found the cache empty and has not stored a ruleset yet. -/
def Loading : Phase → Prop
  | .opening _ | .selected _ _ | .ruled _ _ _ | .loaded _ _ => True
  | _ => False

instance : DecidablePred Loading
  | .opening _ | .selected _ _ | .ruled _ _ _ | .loaded _ _ => .isTrue trivial
  | .idle | .looping _ | .returning _ => .isFalse id

/-- The cache is set, and no load is under way. -/
def Settled (e : Engine τ) (rs : Ruleset) : Prop :=
  e.cache = some rs ∧ ∀ t, ¬ Loading (e.phase t)

/-- The thread has decided by `rs` only. -/
def PhaseBy (u : Unicode) (purposeRules : List Purpose.Rule) (rs : Ruleset) : Phase → Prop
  | .looping l | .returning l => l.Decides u purposeRules (· = rs)
  | _ => True

/-- What has come of the state `s`, in which the cache had settled. -/
structure Since (u : Unicode) (purposeRules : List Purpose.Rule) (s : Engine τ) (rs : Ruleset)
    (e : Engine τ) : Prop where
  settled : e.Settled rs
  older : s.decided.length ≤ e.decided.length
  phases : ∀ t, s.phase t = .idle → PhaseBy u purposeRules rs (e.phase t)
  decided : ∀ d ∈ e.decided.drop s.decided.length, s.phase d.thread = .idle →
    d.result = purposePolicyStage u purposeRules (some rs) d.start

theorem decides_stage {l : Loop} {rs : Ruleset} (h : l.Decides u purposeRules (· = rs))
    (htodo : l.todo = []) : l.ctx = purposePolicyStage u purposeRules (some rs) l.start := by
  obtain ⟨hdir, decisions, hspans, hall, hctx⟩ := h
  have hsame : decisions = l.start.newTurnSpans.map fun s => (s, rs) := by
    rw [hspans, htodo, List.append_nil, List.map_map]
    conv_lhs => rw [← List.map_id decisions]
    refine List.map_congr_left fun p hp => ?_
    exact Prod.ext rfl (hall p hp)
  rw [hctx, hsame]
  exact rounds_eq_stage hdir rs

variable {s : Engine τ} {rs : Ruleset}

theorem Since.goto (h : Since u purposeRules s rs e) {t : τ} {p : Phase} (hp : ¬ Loading p)
    (hby : s.phase t = .idle → PhaseBy u purposeRules rs p) :
    Since u purposeRules s rs (e.goto t p) where
  settled := ⟨h.settled.1, phases_update (P := fun _ p => ¬ Loading p)
    (fun t' _ => h.settled.2 t') hp⟩
  older := h.older
  phases := phases_update (P := fun t' p => s.phase t' = .idle → PhaseBy u purposeRules rs p)
    (fun t' _ => h.phases t') hby
  decided := h.decided

theorem Since.moves (h : Since u purposeRules s rs e) (hmove : Moves u purposeRules e e') :
    Since u purposeRules s rs e' := by
  have hidle : ∀ {t p}, e.phase t = p → ¬ Loading p := fun ht => ht ▸ h.settled.2 _
  cases hmove with
  | @begin t ctx ht hdir =>
      have hfresh : Loop.Fresh purposeRules ⟨ctx, begun purposeRules ctx, ctx.newTurnSpans⟩ :=
        ⟨hdir, rfl, rfl⟩
      exact h.goto id fun _ => hfresh.decides (u := u) (P := (· = rs))
  | @hit t l ht htodo hcache =>
      refine h.goto id fun hs => ?_
      have hby := h.phases t hs
      rw [ht] at hby
      exact hby
  | miss ht htodo hcache =>
      rw [h.settled.1] at hcache
      cases hcache
  | noVersion ht hnone => exact absurd trivial (hidle ht)
  | version ht hsome => exact absurd trivial (hidle ht)
  | rules ht hrules => exact absurd trivial (hidle ht)
  | overrides ht hoverrides => exact absurd trivial (hidle ht)
  | assign ht => exact absurd trivial (hidle ht)
  | @take t l rs' span rest ht hcache htodo =>
      refine h.goto id fun hs => ?_
      have hby := h.phases t hs
      rw [ht] at hby
      have hdecides : l.Decides u purposeRules (· = rs) := hby
      have hsame : rs' = rs := Option.some.inj (hcache.symm.trans h.settled.1)
      exact hdecides.take hsame htodo
  | @fail t l ht =>
      cases hphase : e.phase t <;> rw [hphase] at ht <;> first
        | exact ht.elim
        | exact absurd trivial (hidle hphase)
  | @finish t l ht htodo =>
      have hgone := h.goto (t := t) (p := .idle) id fun _ => trivial
      refine { hgone with older := ?_, decided := fun d hd hs => ?_ }
      · exact h.older.trans (by simp [leave])
      · change d ∈ (e.decided ++ [_]).drop s.decided.length at hd
        rw [List.drop_append_of_le_length h.older] at hd
        rcases List.mem_append.mp hd with hd | hd
        · exact h.decided d hd hs
        · obtain rfl := List.mem_singleton.mp hd
          have hby := h.phases t hs
          rw [ht] at hby
          exact decides_stage hby htodo
  | seed => exact { h with }
  | refused => exact h
  | truncate hreaders => exact { h with }

/-- **Requests are decided by policy versions.** In every run of requests and of the seeding
script, each request that leaves the stage was decided span by span by rulesets of one version
each, all once in force, or blocked without a ruleset. When the cache has settled it keeps its
ruleset, and every request of a thread that was idle then is decided by it alone, as if it had
been a parameter of the stage. -/
theorem decided_by_versions (u : Unicode) (purposeRules : List Purpose.Rule) (db : PolicyDb)
    {before after : List (Act τ)} {s e : Engine τ}
    (hbefore : Runs.Steps (step u purposeRules) (init db) before s)
    (hafter : Runs.Steps (step u purposeRules) s after e) :
    (∀ d ∈ e.decided, d.Uses u purposeRules e.InForce) ∧
      ∀ rs, s.Settled rs → e.Settled rs ∧
        ∀ d ∈ e.decided.drop s.decided.length, s.phase d.thread = .idle →
          d.result = purposePolicyStage u purposeRules (some rs) d.start := by
  have hinv : Inv u purposeRules e := by
    refine (hbefore.append hafter).invariant (fun _ e => Inv u purposeRules e) ?_ ?_
    · exact
        { present := List.mem_cons_self
          cached := fun rs hrs => by cases hrs
          locked := fun _ hreading => hreading.elim
          phases := fun _ => trivial
          outcomes := fun d hd => by cases hd }
    · exact fun _ e a e' _ inv hstep => inv.moves (.of_step hstep)
  refine ⟨hinv.outcomes, fun rs hsettled => ?_⟩
  have hsince : Since u purposeRules s rs e := by
    refine hafter.invariant (fun _ e => Since u purposeRules s rs e) ?_ ?_
    · exact
        { settled := hsettled
          older := le_rfl
          phases := fun t ht => by rw [ht]; trivial
          decided := fun d hd => by
            rw [List.drop_length] at hd
            cases hd }
    · exact fun _ e a e' _ h hstep => h.moves (.of_step hstep)
  exact ⟨hsince.settled, hsince.decided⟩

/-! ## Two threads -/

/-- A request with two numbers. -/
def twoNumbers : AnalysisContext where
  sessionId := "s"
  direction := "input"
  provider := "gateway"
  role := none
  turns := [⟨"user", "900101-1234567 900101-2345678".toList⟩]
  newTurnSpans := [⟨"RRN", "900101-1234567".toList, 0, 14, 97 / 100, "regex"⟩,
    ⟨"RRN", "900101-2345678".toList, 15, 29, 97 / 100, "regex"⟩]
  riskScore := 0
  injection := ⟨false, 0, none⟩
  blocked := false
  blockReason := none
  purpose := none
  purposeConfidence := none
  spanActions := []

/-- A file with one rule for everything. -/
def oneRule (action : String) : Spec where
  rules := [⟨none, none, none, some action, none⟩]

/-- The thread loads the active version. -/
def loads (t : Bool) : List (Act Bool) :=
  [.begin t twoNumbers, .look t, .selectVersion t, .selectRules t .stored,
    .selectOverrides t .stored]

/-- A thread has loaded the first version, then decides. -/
def settling : List (Act Bool) :=
  .seed (oneRule "redact") :: loads false ++
    [.assign false, .take false, .look false, .take false, .finish false]

/-- The policy is replaced, and another thread decides a request. -/
def afterwards : List (Act Bool) :=
  [.seed (oneRule "mask"), .begin true twoNumbers, .look true, .take true, .look true,
    .take true, .finish true]

/-- Where a schedule leads. -/
def reached (acts : List (Act Bool)) (e : Engine Bool) : Engine Bool :=
  (Runs.exec (step .ascii []) e acts).getD e

theorem steps_reached (acts : List (Act Bool)) (e : Engine Bool)
    (h : (Runs.exec (step .ascii []) e acts).isSome = true) :
    Runs.Steps (step .ascii []) e acts (reached acts e) := by
  obtain ⟨e', he'⟩ := Option.isSome_iff_exists.mp h
  rw [reached, he']
  exact Runs.Steps.of_exec he'

/-- The later request is decided by the ruleset in the cache. -/
theorem decided_by_versions_settled :
    let s := reached settling (.init .empty)
    let e := reached afterwards s
    ∃ rs, s.Settled rs ∧ ∀ d ∈ e.decided.drop s.decided.length, s.phase d.thread = .idle →
      d.result = purposePolicyStage .ascii [] (some rs) d.start := by
  have hbefore := steps_reached settling (.init .empty) (by decide +kernel)
  have hafter := steps_reached afterwards (reached settling (.init .empty)) (by decide +kernel)
  have hcache : (reached settling (.init .empty)).cache.isSome = true := by decide +kernel
  have hidle : ∀ t, ¬ Loading ((reached settling (.init .empty)).phase t) := by decide +kernel
  obtain ⟨rs, hrs⟩ := Option.isSome_iff_exists.mp hcache
  exact ⟨rs, ⟨hrs, hidle⟩,
    ((decided_by_versions .ascii [] .empty hbefore hafter).2 rs ⟨hrs, hidle⟩).2⟩

/-- Before the cache has settled one request may be decided by two versions: a thread that
loaded the older one stores it between the two spans. -/
example :
    (reached ([.seed (oneRule "redact")] ++ loads false ++ [.seed (oneRule "mask")] ++
      loads true ++ [.assign true, .take true, .assign false, .look true, .take true,
        .finish true]) (.init .empty)).decided.map (·.result.spanActions.map Prod.snd) =
      [[.mask, .redact]] := by
  decide +kernel

end Engine

end DlpServer.Policy
