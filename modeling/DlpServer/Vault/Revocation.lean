import DlpServer.Vault.Transactions

/-!
# Revocation beside tokenisation

The transactions of `tokenize`, `revoke_session` and `purge_expired` together, under
READ COMMITTED. An `UPDATE` or `DELETE` takes its snapshot when it starts and then
goes through the rows: one that another transaction is changing makes it wait, and
its condition is asked again of what that transaction left. `revoke_session` takes
no advisory lock, so the row that won a value can go between the `INSERT` of a call
and its last `SELECT` (`survives_revocation_iff`).
-/

namespace DlpServer.Vault.Revocation

open Ids Runs

/-! ## The server -/

/-- What a transaction in flight does to a row. -/
inductive Fate where
  | revoked (time : Time)
  | deleted
deriving DecidableEq

/-- A row, the `tokenize` in flight that wrote it and the revoker in flight that
changes it. -/
structure Version (ι κ : Type*) where
  row : Row
  writer : Option ι
  fate : Option (κ × Fate)
deriving DecidableEq

/-- How far a `tokenize` call is. `rejected` is an `INSERT` that raised, `noRow` the
`existing[0]` of a re-read that found nothing. -/
inductive Phase where
  | lookup
  | lock
  | count
  | insert (count : ℕ)
  | reread
  | returned (label : Text)
  | committed (label : Text)
  | rejected
  | noRow
  | aborted
deriving DecidableEq

inductive Job where
  | revokeSession (sessionId : String)
  | purgeExpired

/-- A revoking transaction; `now` is its start. -/
structure Revoker where
  job : Job
  now : Time

/-- How far a revoker is: the rows of its statement it has still to visit. -/
inductive Stage where
  | update
  | revoking (todo : List ℕ)
  | delete
  | deleting (todo : List ℕ)
  | done
  | committed
  | aborted
deriving DecidableEq

structure Load (ι κ : Type*) extends Workload ι where
  revoker : κ → Revoker

structure Server (ι κ : Type*) where
  table : List (Version ι κ)
  locks : BitVec 64 → Option ι
  phase : ι → Phase
  stage : κ → Stage
  nextId : ℕ

inductive Action (ι κ : Type*) where
  | exec (i : ι)
  | commit (i : ι)
  | abort (i : ι)
  | execRevoker (k : κ)
  | commitRevoker (k : κ)
  | abortRevoker (k : κ)

section Statements

variable {ι κ : Type*} [DecidableEq ι] [DecidableEq κ]

/-- The row as revoker `k` sees it, its own change included. -/
def Version.seenBy (v : Version ι κ) (k : κ) : Row :=
  match v.fate with
  | some (k', .revoked t) => if k' = k then { v.row with revokedAt := some t } else v.row
  | _ => v.row

def Version.committedBy (i : ι) (v : Version ι κ) : Version ι κ :=
  if v.writer = some i then { v with writer := none } else v

/-- What the commit of revoker `k` leaves of a row. -/
def Version.settledBy (k : κ) (v : Version ι κ) : Option (Version ι κ) :=
  match v.fate with
  | some (k', fate) =>
      if k' = k then
        match fate with
        | .revoked t => some { v with row := { v.row with revokedAt := some t }, fate := none }
        | .deleted => none
      else some v
  | none => some v

def Version.sparedBy (k : κ) (v : Version ι κ) : Version ι κ :=
  if ∃ p ∈ v.fate, p.1 = k then { v with fate := none } else v

/-- `WHERE` of the `UPDATE`. -/
def Revoker.revokes (env : Env) (R : Revoker) (r : Row) : Bool :=
  r.revokedAt.isNone &&
    match R.job with
    | .revokeSession sessionId => r.sessionId == env.coerce sessionId
    | .purgeExpired => decide (r.expiresAt < R.now)

namespace Server

section Moves

variable (S : Server ι κ)

/-- The snapshot of a statement of call `i`; changes in flight are not in it. -/
def visible (i : ι) : List Row :=
  (S.table.filter fun v => v.writer = none ∨ v.writer = some i).map Version.row

def goto (i : ι) (p : Phase) : Server ι κ := { S with phase := Function.update S.phase i p }

def move (k : κ) (stage : Stage) : Server ι κ :=
  { S with stage := Function.update S.stage k stage }

def release (i : ι) : BitVec 64 → Option ι :=
  fun key => if S.locks key = some i then none else S.locks key

/-- The transaction of a call is rolled back. -/
def rollback (i : ι) (p : Phase) : Server ι κ :=
  { S with
    table := S.table.filter (·.writer ≠ some i)
    locks := S.release i
    phase := Function.update S.phase i p }

def commit (i : ι) (label : Text) : Server ι κ :=
  { S with
    table := S.table.map (Version.committedBy i)
    locks := S.release i
    phase := Function.update S.phase i (.committed label) }

def commitRevoker (k : κ) : Server ι κ :=
  { S with
    table := S.table.filterMap (Version.settledBy k)
    stage := Function.update S.stage k .committed }

def abortRevoker (k : κ) : Server ι κ :=
  { S with
    table := S.table.map (Version.sparedBy k)
    stage := Function.update S.stage k .aborted }

/-- The rows in the snapshot of a statement of revoker `k`. -/
def targets (k : κ) (condition : Row → Bool) : List ℕ :=
  ((S.table.filter fun v => v.writer = none ∧ condition (v.seenBy k)).map Version.row).map
    Row.tokenId

/-- Revoker `k` comes to the row `id` of its snapshot; `none` when it waits. -/
def visit (k : κ) (id : ℕ) (condition : Row → Bool) (fate : Fate) (next : Stage) :
    Option (Server ι κ) :=
  match S.table.find? (fun v => v.row.tokenId = id ∧ v.writer = none) with
  | none => some (S.move k next)
  | some v =>
      if ∃ p ∈ v.fate, p.1 ≠ k then none
      else if condition (v.seenBy k) then
        some { S with
          table := S.table.map fun u => if u = v then { u with fate := some (k, fate) } else u
          stage := Function.update S.stage k next }
      else some (S.move k next)

end Moves

variable (W : Load ι κ) (S : Server ι κ)

/-- The next statement of call `i`; `none` when it has none or waits. -/
def execStmt (i : ι) : Option (Server ι κ) :=
  match S.phase i with
  | .lookup =>
      match selectActive (S.visible i) W.session (W.vhash i) with
      | some r => some (S.goto i (.returned r.tokenLabel))
      | none => some (S.goto i .lock)
  | .lock =>
      match S.locks (W.lockKey i) with
      | none =>
          some { S with
            locks := Function.update S.locks (W.lockKey i) (some i)
            phase := Function.update S.phase i .count }
      | some j => if j = i then some (S.goto i .count) else none
  | .count => some (S.goto i (.insert (countRows (S.visible i) W.session (W.etype i))))
  | .insert count =>
      match W.newRow i S.nextId count with
      | .error _ => some (S.rollback i .rejected)
      | .ok r =>
          match S.table.find? (·.row.holds r.sessionId r.valueHash) with
          | none =>
              some { S with
                table := S.table ++ [⟨r, some i, none⟩]
                nextId := S.nextId + 1
                phase := Function.update S.phase i (.returned r.tokenLabel) }
          | some v =>
              -- The statement waits for a row that is written or changed in flight.
              if (v.writer = none ∨ v.writer = some i) ∧ v.fate = none then some (S.goto i .reread)
              else none
  | .reread =>
      match selectActive (S.visible i) W.session (W.vhash i) with
      | some r => some (S.goto i (.returned r.tokenLabel))
      | none => some (S.rollback i .noRow)
  | .returned _ | .committed _ | .rejected | .noRow | .aborted => none

/-- The next statement of revoker `k`, or the next row of the one it is in. -/
def execRevoker (k : κ) : Option (Server ι κ) :=
  let R := W.revoker k
  match S.stage k with
  | .update => some (S.move k (.revoking (S.targets k (R.revokes W.env))))
  | .revoking (id :: todo) =>
      S.visit k id (R.revokes W.env) (.revoked R.now) (.revoking todo)
  | .revoking [] =>
      match R.job with
      | .revokeSession _ => some (S.move k .done)
      | .purgeExpired => some (S.move k .delete)
  | .delete => some (S.move k (.deleting (S.targets k (·.graceOver R.now))))
  | .deleting (id :: todo) => S.visit k id (·.graceOver R.now) .deleted (.deleting todo)
  | .deleting [] => some (S.move k .done)
  | .done | .committed | .aborted => none

def step : Action ι κ → Option (Server ι κ)
  | .exec i => S.execStmt W i
  | .commit i =>
      match S.phase i with
      | .returned label => some (S.commit i label)
      | _ => none
  | .abort i =>
      match S.phase i with
      | .committed _ | .rejected | .noRow | .aborted => none
      | _ => some (S.rollback i .aborted)
  | .execRevoker k => S.execRevoker W k
  | .commitRevoker k =>
      match S.stage k with
      | .done => some (S.commitRevoker k)
      | _ => none
  | .abortRevoker k =>
      match S.stage k with
      | .committed | .aborted => none
      | _ => some (S.abortRevoker k)

/-- The rows that `idx_token_vault_session_value` keeps apart. -/
def Unique (table : List (Version ι κ)) : Prop :=
  table.Pairwise fun u v => u.row.revokedAt = none → v.row.revokedAt = none →
    u.row.sessionId = v.row.sessionId → u.row.valueHash ≠ v.row.valueHash

/-- Before the first statement; the table holds whatever earlier transactions left. -/
structure Initial : Prop where
  phase : ∀ i, S.phase i = .lookup
  stage : ∀ k, S.stage k = .update
  settled : ∀ v ∈ S.table, v.writer = none ∧ v.fate = none
  unique : Unique S.table
  unlocked : ∀ key, S.locks key = none

end Server

end Statements

/-! ## The law -/

section Law

variable {ι κ : Type*} [DecidableEq ι] [DecidableEq κ] (W : Load ι κ) (S₀ : Server ι κ)
  (actions : List (Action ι κ))

/-- At a statement of call `i` there was an active row for its type and value, with
this label. -/
def ActiveDuring (i : ι) (label : Text) : Prop :=
  ∃ before after S S', actions = before ++ .exec i :: after ∧ Steps (Server.step W) S₀ before S ∧
    S.step W (.exec i) = some S' ∧
      ∃ v, (v ∈ S.table ∨ v ∈ S'.table) ∧ (v.writer = none ∨ v.writer = some i) ∧
        v.row.holds W.session (W.vhash i) ∧ v.row.tokenLabel = label

/-- Call `i` has not failed at its re-read, and would not if it came to it now. -/
def Finds (S : Server ι κ) (i : ι) : Prop :=
  S.phase i ≠ .noRow ∧
    (S.phase i = .reread → (selectActive (S.visible i) W.session (W.vhash i)).isSome)

/-- In every state of the run, no call fails at its re-read, and every label given is
that of a row that was active during the call. -/
def Survives : Prop :=
  ∀ before after S, actions = before ++ after → Steps (Server.step W) S₀ before S → ∀ i,
    Finds W S i ∧ ∀ label, S.phase i = .returned label ∨ S.phase i = .committed label →
      ActiveDuring W S₀ before i label

/-- No revoker commits its change of the active row of a call that lost its `INSERT`
and has not read again. -/
def Undisturbed : Prop :=
  ∀ before k after S, actions = before ++ .commitRevoker k :: after →
    Steps (Server.step W) S₀ before S → ∀ i, S.phase i = .reread →
      ∀ v ∈ S.table, v.row.holds W.session (W.vhash i) → ∀ p ∈ v.fate, p.1 ≠ k

end Law

/-! ### What a step does -/

section Proof

variable {ι κ : Type*} [DecidableEq ι] [DecidableEq κ] {W : Load ι κ} {S S' : Server ι κ}

/-- The active row of call `i`, as its statements see it. -/
def Stands (W : Load ι κ) (S : Server ι κ) (i : ι) (v : Version ι κ) : Prop :=
  v ∈ S.table ∧ (v.writer = none ∨ v.writer = some i) ∧ v.row.holds W.session (W.vhash i)

omit [DecidableEq κ] in
theorem mem_visible {i : ι} {r : Row} :
    r ∈ S.visible i ↔ ∃ v ∈ S.table, (v.writer = none ∨ v.writer = some i) ∧ v.row = r := by
  simp only [Server.visible, List.mem_map, List.mem_filter, decide_eq_true_eq, and_assoc]

omit [DecidableEq κ] in
theorem stands_of_select {i : ι} {r : Row}
    (h : selectActive (S.visible i) W.session (W.vhash i) = some r) :
    ∃ v, Stands W S i v ∧ v.row = r := by
  obtain ⟨hr, hsession, hhash, hactive⟩ := selectActive_some h
  obtain ⟨v, hv, hvis, rfl⟩ := mem_visible.mp hr
  exact ⟨v, ⟨hv, hvis, Row.holds_iff.mpr ⟨hsession, hhash, hactive⟩⟩, rfl⟩

omit [DecidableEq κ] in
theorem select_isSome_iff {i : ι} :
    (selectActive (S.visible i) W.session (W.vhash i)).isSome ↔ ∃ v, Stands W S i v := by
  constructor
  · intro h
    obtain ⟨r, hr⟩ := Option.isSome_iff_exists.mp h
    obtain ⟨v, hv, -⟩ := stands_of_select hr
    exact ⟨v, hv⟩
  · rintro ⟨v, hv, hvis, hholds⟩
    exact List.find?_isSome.mpr ⟨v.row, mem_visible.mpr ⟨v, hv, hvis, rfl⟩, hholds⟩

/-- **Every step, by what it does to the table and to the call it is for.** -/
inductive Effect (W : Load ι κ) (S S' : Server ι κ) : Action ι κ → Prop
  | asked {i : ι} (p : Phase) (hp : p = .lock ∨ p = .count ∨ ∃ n, p = .insert n)
      (htable : S'.table = S.table) (hphase : S'.phase = Function.update S.phase i p) :
      Effect W S S' (.exec i)
  | found {i : ι} (v : Version ι κ) (hv : Stands W S i v) (htable : S'.table = S.table)
      (hphase : S'.phase = Function.update S.phase i (.returned v.row.tokenLabel)) :
      Effect W S S' (.exec i)
  | conflict {i : ι} (v : Version ι κ) (hv : Stands W S i v) (htable : S'.table = S.table)
      (hphase : S'.phase = Function.update S.phase i .reread) : Effect W S S' (.exec i)
  | inserted {i : ι} (r : Row) (hr : r.holds W.session (W.vhash i))
      (hnew : ∀ v ∈ S.table, v.row.holds W.session (W.vhash i) = false)
      (htable : S'.table = S.table ++ [⟨r, some i, none⟩])
      (hphase : S'.phase = Function.update S.phase i (.returned r.tokenLabel)) :
      Effect W S S' (.exec i)
  | lost {i : ι} (hopen : S.phase i = .reread) (hnone : ¬ ∃ v, Stands W S i v)
      (htable : S'.table = S.table.filter (·.writer ≠ some i))
      (hphase : S'.phase = Function.update S.phase i .noRow) : Effect W S S' (.exec i)
  | undone {a : Action ι κ} (i : ι) (p : Phase) (hp : p = .rejected ∨ p = .aborted)
      (htable : S'.table = S.table.filter (·.writer ≠ some i))
      (hphase : S'.phase = Function.update S.phase i p) : Effect W S S' a
  | committed {i : ι} (label : Text) (hopen : S.phase i = .returned label)
      (htable : S'.table = S.table.map (Version.committedBy i))
      (hphase : S'.phase = Function.update S.phase i (.committed label)) :
      Effect W S S' (.commit i)
  | marked {a : Action ι κ} (f : Version ι κ → Version ι κ)
      (hf : ∀ v, (f v).row = v.row ∧ (f v).writer = v.writer)
      (htable : S'.table = S.table.map f) (hphase : S'.phase = S.phase) : Effect W S S' a
  | settled {k : κ} (htable : S'.table = S.table.filterMap (Version.settledBy k))
      (hphase : S'.phase = S.phase) : Effect W S S' (.commitRevoker k)

theorem execStmt_effect {i : ι} (h : S.execStmt W i = some S') : Effect W S S' (.exec i) := by
  unfold Server.execStmt at h
  cases hphase : S.phase i with
  | lookup =>
      simp only [hphase] at h
      split at h
      · rename_i r hr
        cases h
        obtain ⟨v, hv, rfl⟩ := stands_of_select hr
        exact .found v hv rfl rfl
      · cases h
        exact .asked .lock (Or.inl rfl) rfl rfl
  | lock =>
      simp only [hphase] at h
      split at h
      · cases h
        exact .asked .count (Or.inr (Or.inl rfl)) rfl rfl
      · split at h
        · cases h
          exact .asked .count (Or.inr (Or.inl rfl)) rfl rfl
        · cases h
  | count =>
      simp only [hphase] at h
      cases h
      exact .asked _ (Or.inr (Or.inr ⟨_, rfl⟩)) rfl rfl
  | insert count =>
      simp only [hphase] at h
      cases hrow : W.newRow i S.nextId count with
      | error e =>
          simp only [hrow, Option.some.injEq] at h
          subst h
          exact .undone i .rejected (Or.inl rfl) rfl rfl
      | ok r =>
          obtain ⟨hsession, -, hhash, hactive, -⟩ := W.newRow_ok hrow
          simp only [hrow, hsession, hhash] at h
          cases hfind : S.table.find? (·.row.holds W.session (W.vhash i)) with
          | none =>
              simp only [hfind, Option.some.injEq] at h
              subst h
              refine .inserted r (Row.holds_iff.mpr ⟨hsession, hhash, hactive⟩) (fun v hv => ?_) rfl rfl
              exact Bool.not_eq_true _ ▸ List.find?_eq_none.mp hfind v hv
          | some v =>
              simp only [hfind, Option.ite_none_right_eq_some, Option.some.injEq] at h
              obtain ⟨⟨hvis, -⟩, rfl⟩ := h
              exact .conflict v ⟨List.mem_of_find?_eq_some hfind, hvis,
                by simpa using List.find?_some hfind⟩ rfl rfl
  | reread =>
      simp only [hphase] at h
      split at h
      · rename_i r hr
        cases h
        obtain ⟨v, hv, rfl⟩ := stands_of_select hr
        exact .found v hv rfl rfl
      · rename_i hnone
        cases h
        refine .lost hphase (fun hv => ?_) rfl rfl
        rw [← select_isSome_iff, hnone] at hv
        cases hv
  | returned | committed | rejected | noRow | aborted => simp only [hphase, reduceCtorEq] at h

theorem Effect.of_move {a : Action ι κ} (k : κ) (stage : Stage) :
    Effect W S (S.move k stage) a :=
  .marked id (fun _ => ⟨rfl, rfl⟩) (List.map_id _).symm rfl

theorem visit_effect {a : Action ι κ} {k : κ} {id : ℕ} {condition : Row → Bool} {fate : Fate}
    {next : Stage} (h : S.visit k id condition fate next = some S') : Effect W S S' a := by
  unfold Server.visit at h
  split at h
  · cases h
    exact .of_move k next
  · split at h
    · cases h
    · split at h
      · cases h
        refine .marked _ (fun u => ?_) rfl rfl
        split <;> exact ⟨rfl, rfl⟩
      · cases h
        exact .of_move k next

theorem execRevoker_effect {a : Action ι κ} {k : κ} (h : S.execRevoker W k = some S') :
    Effect W S S' a := by
  unfold Server.execRevoker at h
  cases hstage : S.stage k with
  | update =>
      simp only [hstage] at h
      cases h
      exact .of_move k _
  | revoking todo =>
      cases todo with
      | nil =>
          simp only [hstage] at h
          split at h
          · cases h
            exact .of_move k _
          · cases h
            exact .of_move k _
      | cons id todo =>
          simp only [hstage] at h
          exact visit_effect h
  | delete =>
      simp only [hstage] at h
      cases h
      exact .of_move k _
  | deleting todo =>
      cases todo with
      | nil =>
          simp only [hstage] at h
          cases h
          exact .of_move k _
      | cons id todo =>
          simp only [hstage] at h
          exact visit_effect h
  | done | committed | aborted => simp only [hstage, reduceCtorEq] at h

theorem step_effect {a : Action ι κ} (h : S.step W a = some S') : Effect W S S' a := by
  cases a with
  | exec i => exact execStmt_effect h
  | commit i =>
      simp only [Server.step] at h
      split at h
      · rename_i label hopen
        cases h
        exact .committed label hopen rfl rfl
      · cases h
  | abort i =>
      simp only [Server.step] at h
      split at h
      · cases h
      · cases h
      · cases h
      · cases h
      · cases h
        exact .undone i .aborted (Or.inr rfl) rfl rfl
  | execRevoker k => exact execRevoker_effect h
  | commitRevoker k =>
      simp only [Server.step] at h
      split at h
      · cases h
        exact .settled rfl rfl
      · cases h
  | abortRevoker k =>
      simp only [Server.step] at h
      split at h
      · cases h
      · cases h
      · cases h
        refine .marked _ (fun v => ?_) rfl rfl
        unfold Version.sparedBy
        split <;> exact ⟨rfl, rfl⟩

/-! ### The unique index -/

omit [DecidableEq κ] in
theorem row_committedBy (i : ι) (v : Version ι κ) : (v.committedBy i).row = v.row := by
  unfold Version.committedBy
  split <;> rfl

omit [DecidableEq ι] in
/-- A row that the commit of a revoker leaves active is one that it did not touch. -/
theorem settledBy_active {k : κ} {v v' : Version ι κ} (h : v.settledBy k = some v')
    (hactive : v'.row.revokedAt = none) : v' = v ∧ ∀ p ∈ v.fate, p.1 ≠ k := by
  unfold Version.settledBy at h
  cases hfate : v.fate with
  | none =>
      simp only [hfate, Option.some.injEq] at h
      exact ⟨h.symm, fun p hp => by cases hp⟩
  | some p =>
      obtain ⟨k', fate⟩ := p
      simp only [hfate] at h
      split at h
      · cases fate with
        | revoked t =>
            cases h
            cases hactive
        | deleted => cases h
      · rename_i hk
        cases h
        refine ⟨rfl, fun p hp => ?_⟩
        cases hp
        exact hk

/-- `ON CONFLICT` and the wait before it keep the index. -/
theorem unique_step {a : Action ι κ} (hunique : Server.Unique S.table) (h : Effect W S S' a) :
    Server.Unique S'.table := by
  have hmap : ∀ f : Version ι κ → Version ι κ, (∀ v, (f v).row = v.row) →
      Server.Unique (S.table.map f) := by
    intro f hf
    refine List.pairwise_map.mpr (hunique.imp fun {u v} huv => ?_)
    rw [hf, hf]
    exact huv
  cases h with
  | asked p hp htable hphase => exact htable ▸ hunique
  | found v hv htable hphase => exact htable ▸ hunique
  | conflict v hv htable hphase => exact htable ▸ hunique
  | @inserted i r hr hnew htable hphase =>
      rw [htable]
      refine List.pairwise_append.mpr ⟨hunique, List.pairwise_singleton _ _, ?_⟩
      intro u hu v hv hactive _ hsession hhash
      rw [List.mem_singleton.mp hv] at hsession hhash
      obtain ⟨hs, hh, -⟩ := Row.holds_iff.mp hr
      have hholds : u.row.holds W.session (W.vhash i) = true :=
        Row.holds_iff.mpr ⟨hsession.trans hs, hhash.trans hh, hactive⟩
      rw [hnew u hu] at hholds
      cases hholds
  | lost hopen hnone htable hphase => exact htable ▸ hunique.sublist List.filter_sublist
  | undone i p hp htable hphase => exact htable ▸ hunique.sublist List.filter_sublist
  | @committed i label hopen htable hphase => exact htable ▸ hmap _ (row_committedBy i)
  | marked f hf htable hphase => exact htable ▸ hmap f fun v => (hf v).1
  | @settled k htable hphase =>
      rw [htable]
      refine hunique.filterMap _ fun u v huv u' hu v' hv hactive hactive' => ?_
      obtain ⟨rfl, -⟩ := settledBy_active hu hactive
      obtain ⟨rfl, -⟩ := settledBy_active hv hactive'
      exact huv hactive hactive'

/-! ### The active row of a call -/

/-- **Nothing but the commit of a revoker takes the active row of another call away.** -/
theorem Stands.step {a : Action ι κ} {j : ι} {v : Version ι κ} (hv : Stands W S j v)
    (h : Effect W S S' a) (hopen' : S'.phase j = .reread)
    (hspared : ∀ k, a = .commitRevoker k → ∀ p ∈ v.fate, p.1 ≠ k) : ∃ v', Stands W S' j v' := by
  obtain ⟨hmem, hvis, hholds⟩ := hv
  have hsame : S'.table = S.table → ∃ v', Stands W S' j v' :=
    fun htable => ⟨v, htable ▸ hmem, hvis, hholds⟩
  have hfilter : ∀ i p, p ≠ .reread → S'.table = S.table.filter (·.writer ≠ some i) →
      S'.phase = Function.update S.phase i p → ∃ v', Stands W S' j v' := by
    intro i p hp htable hphase
    have hij : i ≠ j := by
      rintro rfl
      rw [hphase, Function.update_self] at hopen'
      exact hp hopen'
    refine ⟨v, ?_, hvis, hholds⟩
    rw [htable]
    refine List.mem_filter.mpr ⟨hmem, decide_eq_true ?_⟩
    rcases hvis with hnone | hown
    · rw [hnone]
      exact fun h => by cases h
    · rw [hown]
      exact fun h => hij (Option.some.inj h).symm
  cases h with
  | asked p hp htable hphase => exact hsame htable
  | found w hw htable hphase => exact hsame htable
  | conflict w hw htable hphase => exact hsame htable
  | inserted r hr hnew htable hphase =>
      exact ⟨v, by rw [htable]; exact List.mem_append_left _ hmem, hvis, hholds⟩
  | lost hopen hnone htable hphase => exact hfilter _ .noRow nofun htable hphase
  | undone i p hp htable hphase =>
      refine hfilter i p ?_ htable hphase
      rcases hp with rfl | rfl <;> exact nofun
  | @committed i label hopen htable hphase =>
      refine ⟨v.committedBy i, by rw [htable]; exact List.mem_map_of_mem hmem, ?_, ?_⟩
      · unfold Version.committedBy
        split
        · exact Or.inl rfl
        · exact hvis
      · rw [row_committedBy]
        exact hholds
  | marked f hf htable hphase =>
      refine ⟨f v, by rw [htable]; exact List.mem_map_of_mem hmem, ?_, ?_⟩
      · rw [(hf v).2]
        exact hvis
      · rw [(hf v).1]
        exact hholds
  | @settled k htable hphase =>
      have hkept : v.settledBy k = some v := by
        unfold Version.settledBy
        cases hfate : v.fate with
        | none => rfl
        | some p => exact if_neg (hspared k rfl p hfate)
      refine ⟨v, ?_, hvis, hholds⟩
      rw [htable]
      exact List.mem_filterMap.mpr ⟨v, hmem, hkept⟩

/-! ### Runs -/

variable {S₀ : Server ι κ} {actions : List (Action ι κ)}

theorem ActiveDuring.append {i : ι} {label : Text} (h : ActiveDuring W S₀ actions i label)
    (more : List (Action ι κ)) : ActiveDuring W S₀ (actions ++ more) i label := by
  obtain ⟨before, after, T, T', heq, hrest⟩ := h
  exact ⟨before, after ++ more, T, T', by rw [heq, List.append_assoc, List.cons_append], hrest⟩

theorem unique_run (h₀ : S₀.Initial) (h : Steps (Server.step W) S₀ actions S) :
    Server.Unique S.table := by
  refine h.invariant (fun _ S => Server.Unique S.table) h₀.unique ?_
  intro _ S a S' _ hunique hstep
  exact unique_step hunique (step_effect hstep)

/-- The labels that calls have to give. -/
def Labelled (W : Load ι κ) (S₀ : Server ι κ) (actions : List (Action ι κ)) (S : Server ι κ) :
    Prop :=
  ∀ i label, S.phase i = .returned label ∨ S.phase i = .committed label →
    ActiveDuring W S₀ actions i label

theorem labelled_step {a : Action ι κ} (hrun : Steps (Server.step W) S₀ actions S)
    (ih : Labelled W S₀ actions S) (hstep : S.step W a = some S') :
    Labelled W S₀ (actions ++ [a]) S' := by
  intro j label hj
  -- The call was at its label before, or comes to it in this step.
  have hsame : S'.phase j = S.phase j → ActiveDuring W S₀ (actions ++ [a]) j label :=
    fun heq => (ih j label (heq ▸ hj)).append [a]
  have hmoved : ∀ i p, S'.phase = Function.update S.phase i p →
      (i = j → ActiveDuring W S₀ (actions ++ [a]) j label) →
      ActiveDuring W S₀ (actions ++ [a]) j label := by
    intro i p hphase hown
    by_cases hij : j = i
    · exact hown hij.symm
    · exact hsame (by rw [hphase, Function.update_of_ne hij])
  have hplain : ∀ i p, S'.phase = Function.update S.phase i p →
      (∀ l, p ≠ .returned l ∧ p ≠ .committed l) →
      ActiveDuring W S₀ (actions ++ [a]) j label := by
    intro i p hphase hp
    refine hmoved i p hphase fun hij => ?_
    rw [hphase, hij, Function.update_self] at hj
    rcases hj with hj | hj
    · exact absurd hj (hp label).1
    · exact absurd hj (hp label).2
  have hreturned : ∀ l, S'.phase = Function.update S.phase j (.returned l) → l = label := by
    intro l hphase
    rw [hphase, Function.update_self] at hj
    rcases hj with hj | hj
    · exact Phase.returned.inj hj
    · cases hj
  cases step_effect hstep with
  | @asked i p hp htable hphase =>
      refine hplain i p hphase fun l => ?_
      rcases hp with rfl | rfl | ⟨n, rfl⟩
      · exact ⟨nofun, nofun⟩
      · exact ⟨nofun, nofun⟩
      · exact ⟨nofun, nofun⟩
  | @found i v hv htable hphase =>
      refine hmoved i _ hphase fun hij => ?_
      subst hij
      exact ⟨actions, [], S, S', rfl, hrun, hstep, v, Or.inl hv.1, hv.2.1, hv.2.2,
        hreturned _ hphase⟩
  | @conflict i v hv htable hphase => exact hplain i _ hphase fun l => ⟨nofun, nofun⟩
  | @inserted i r hr hnew htable hphase =>
      refine hmoved i _ hphase fun hij => ?_
      subst hij
      refine ⟨actions, [], S, S', rfl, hrun, hstep, ⟨r, some i, none⟩, Or.inr ?_, Or.inr rfl, hr,
        hreturned _ hphase⟩
      rw [htable]
      exact List.mem_append_right _ (List.mem_singleton_self _)
  | @lost i hopen hnone htable hphase => exact hplain i _ hphase fun l => ⟨nofun, nofun⟩
  | undone i p hp htable hphase =>
      refine hplain i p hphase fun l => ?_
      rcases hp with rfl | rfl
      · exact ⟨nofun, nofun⟩
      · exact ⟨nofun, nofun⟩
  | @committed i l hopen htable hphase =>
      refine hmoved i _ hphase fun hij => ?_
      subst hij
      obtain rfl : l = label := by
        rw [hphase, Function.update_self] at hj
        rcases hj with hj | hj
        · cases hj
        · exact Phase.committed.inj hj
      exact (ih i l (Or.inl hopen)).append _
  | marked f hf htable hphase => exact hsame (by rw [hphase])
  | settled htable hphase => exact hsame (by rw [hphase])

theorem labelled_run (h₀ : S₀.Initial) (h : Steps (Server.step W) S₀ actions S) :
    Labelled W S₀ actions S := by
  refine h.invariant (fun actions S => Labelled W S₀ actions S) ?_ ?_
  · intro i label hi
    rw [h₀.phase i] at hi
    rcases hi with hi | hi <;> cases hi
  · intro actions S a S' hrun ih hstep
    exact labelled_step hrun ih hstep

/-- No call has failed at its re-read, and those that come to it have their row. -/
def Served (W : Load ι κ) (S : Server ι κ) : Prop :=
  ∀ i, S.phase i ≠ .noRow ∧ (S.phase i = .reread → ∃ v, Stands W S i v)

omit [DecidableEq κ] in
theorem finds_iff {i : ι} :
    Finds W S i ↔ S.phase i ≠ .noRow ∧ (S.phase i = .reread → ∃ v, Stands W S i v) := by
  rw [Finds, select_isSome_iff]

theorem served_step {a : Action ι κ} (ih : Served W S) (h : Effect W S S' a)
    (hspared : ∀ k, a = .commitRevoker k → ∀ j, S.phase j = .reread → ∀ v, Stands W S j v →
      ∀ p ∈ v.fate, p.1 ≠ k) : Served W S' := by
  intro j
  -- A call that this step is not for keeps its phase and its row.
  have hkept : S'.phase j = S.phase j →
      S'.phase j ≠ .noRow ∧ (S'.phase j = .reread → ∃ v, Stands W S' j v) := by
    intro heq
    refine ⟨heq ▸ (ih j).1, fun hj' => ?_⟩
    have hj : S.phase j = .reread := heq ▸ hj'
    obtain ⟨v, hv⟩ := (ih j).2 hj
    exact hv.step h hj' fun k hk => hspared k hk j hj v hv
  have hmoved : ∀ i p, S'.phase = Function.update S.phase i p →
      (i = j → p ≠ .noRow ∧ (p = .reread → ∃ v, Stands W S' j v)) →
      S'.phase j ≠ .noRow ∧ (S'.phase j = .reread → ∃ v, Stands W S' j v) := by
    intro i p hphase hown
    by_cases hij : j = i
    · have hp : S'.phase j = p := by rw [hphase, hij, Function.update_self]
      rw [hp]
      exact hown hij.symm
    · exact hkept (by rw [hphase, Function.update_of_ne hij])
  cases h with
  | @asked i p hp htable hphase =>
      refine hmoved i p hphase fun _ => ?_
      rcases hp with rfl | rfl | ⟨n, rfl⟩ <;> exact ⟨nofun, nofun⟩
  | @found i v hv htable hphase => exact hmoved i _ hphase fun _ => ⟨nofun, nofun⟩
  | @conflict i v hv htable hphase =>
      refine hmoved i _ hphase fun hij => ⟨nofun, fun _ => ⟨v, ?_⟩⟩
      rw [← hij]
      exact ⟨htable ▸ hv.1, hv.2⟩
  | @inserted i r hr hnew htable hphase => exact hmoved i _ hphase fun _ => ⟨nofun, nofun⟩
  | @lost i hopen hnone htable hphase => exact absurd ((ih i).2 hopen) hnone
  | undone i p hp htable hphase =>
      refine hmoved i p hphase fun _ => ?_
      rcases hp with rfl | rfl <;> exact ⟨nofun, nofun⟩
  | @committed i label hopen htable hphase => exact hmoved i _ hphase fun _ => ⟨nofun, nofun⟩
  | marked f hf htable hphase => exact hkept (by rw [hphase])
  | settled htable hphase => exact hkept (by rw [hphase])

theorem served_run (h₀ : S₀.Initial) (h : Steps (Server.step W) S₀ actions S)
    (hundisturbed : Undisturbed W S₀ actions) : Served W S := by
  revert hundisturbed
  refine h.invariant (fun actions S => Undisturbed W S₀ actions → Served W S) ?_ ?_
  · intro _ i
    rw [h₀.phase i]
    exact ⟨nofun, nofun⟩
  · intro actions S a S' hrun ih hstep hundisturbed
    have hbefore : Undisturbed W S₀ actions := by
      intro before k after T heq
      exact hundisturbed before k (after ++ [a]) T (by rw [heq, List.append_assoc]; rfl)
    refine served_step (ih hbefore) (step_effect hstep) fun k hk j hj v hv => ?_
    exact hundisturbed actions k [] S (by rw [hk]) hrun j hj v hv.1 hv.2.2

omit [DecidableEq ι] in
/-- **The commit of a revoker leaves no active row** where it changed the one there was. -/
theorem settled_none {k : κ} {j : ι} {v : Version ι κ} (hunique : Server.Unique S.table)
    (hv : v ∈ S.table) (hholds : v.row.holds W.session (W.vhash j)) {p : κ × Fate}
    (hp : p ∈ v.fate) (hk : p.1 = k) : ¬ ∃ v', Stands W (S.commitRevoker k) j v' := by
  rintro ⟨v', hmem, -, hholds'⟩
  obtain ⟨hs', hh', hactive'⟩ := Row.holds_iff.mp hholds'
  obtain ⟨hs, hh, hactive⟩ := Row.holds_iff.mp hholds
  obtain ⟨u, hu, hsettled⟩ := List.mem_filterMap.mp hmem
  obtain ⟨rfl, huntouched⟩ := settledBy_active hsettled hactive'
  have hne : v' ≠ v := by
    rintro rfl
    exact huntouched p hp hk
  have hsymm : Std.Symm fun u v : Version ι κ => u.row.revokedAt = none → v.row.revokedAt = none →
      u.row.sessionId = v.row.sessionId → u.row.valueHash ≠ v.row.valueHash :=
    ⟨fun u v h hv hu hs => (h hu hv hs.symm).symm⟩
  exact hunique.forall hu hv hne hactive' hactive (hs'.trans hs.symm) (hh'.trans hh.symm)

end Proof

/-- **Tokenisation survives revocation** in a run exactly when no revoker commits its
change of the row that won between the lost `INSERT` of a call and its re-read. -/
theorem survives_revocation_iff {ι κ : Type*} [DecidableEq ι] [DecidableEq κ] (W : Load ι κ)
    (S₀ S : Server ι κ) (actions : List (Action ι κ)) (h₀ : S₀.Initial)
    (h : Steps (Server.step W) S₀ actions S) :
    Survives W S₀ actions ↔ Undisturbed W S₀ actions := by
  constructor
  · intro hsurvives before k after T heq hrun j hj v hv hholds p hp hk
    obtain ⟨T', hstep⟩ := Steps.enabled (heq ▸ h) hrun
    obtain rfl : T' = T.commitRevoker k := by
      simp only [Server.step] at hstep
      split at hstep
      · exact (Option.some.inj hstep).symm
      · cases hstep
    have hfinds := (hsurvives (before ++ [.commitRevoker k]) after _ (by rw [heq]; simp)
      (hrun.snoc hstep) j).1
    exact settled_none (unique_run h₀ hrun) hv hholds hp hk ((finds_iff.mp hfinds).2 hj)
  · intro hundisturbed before after T heq hrun i
    have hbefore : Undisturbed W S₀ before := by
      intro earlier k later T' hearlier
      exact hundisturbed earlier k (later ++ after) T' (by rw [heq, hearlier]; simp)
    exact ⟨finds_iff.mpr (served_run h₀ hrun hbefore i), labelled_run h₀ hrun i⟩

/-! ## Two runs -/

def restServer : Server Bool Unit :=
  ⟨[], fun _ => none, fun _ => .lookup, fun _ => .update, 1⟩

theorem restServer_initial : restServer.Initial :=
  ⟨fun _ => rfl, fun _ => rfl, List.forall_mem_nil _, List.Pairwise.nil, fun _ => rfl⟩

/-- Two calls for one number and the end of their session. -/
def sampleLoad : Load Bool Unit where
  env := .sample
  hashtextextended _ := 0x0d2d871466b82786
  sessionId := "s"
  call _ := ⟨.zero, "RRN", "900101-1234567".toList, none, 0⟩
  revoker _ := ⟨.revokeSession "s", 1⟩

/-- Both calls miss, `true` writes its row, `false` loses its `INSERT` to it and the
revoker comes to it. -/
def contested : List (Action Bool Unit) :=
  [.exec true, .exec false, .exec true, .exec true, .exec true, .commit true,
    .exec false, .exec false, .exec false, .execRevoker (), .execRevoker (), .execRevoker ()]

/-- The revoker commits after the re-read of `false`. -/
def undisturbed : List (Action Bool Unit) :=
  contested ++ [.exec false, .commitRevoker (), .commit false]

/-- The revoker commits before it. -/
def disturbed : List (Action Bool Unit) :=
  contested ++ [.commitRevoker (), .exec false]

def undisturbedEnd : Server Bool Unit :=
  (exec (Server.step sampleLoad) restServer undisturbed).get (by decide +kernel)

def disturbedEnd : Server Bool Unit :=
  (exec (Server.step sampleLoad) restServer disturbed).get (by decide +kernel)

theorem undisturbed_holds : Undisturbed sampleLoad restServer undisturbed := by
  have hcheck : ∀ n < undisturbed.length, ∀ S ∈ exec (Server.step sampleLoad) restServer
      (undisturbed.take n), ∀ a ∈ undisturbed[n]?, ∀ i, S.phase i = .reread →
        a matches .commitRevoker _ → False := by
    decide +kernel
  intro before k after S heq hrun i hi
  exact (Steps.of_check hcheck heq hrun i hi rfl).elim

theorem survives_revocation_iff_undisturbed :
    undisturbedEnd.phase false = .committed "<PII:RRN:1>".toList ∧
      Survives sampleLoad restServer undisturbed :=
  ⟨by decide +kernel,
    (survives_revocation_iff sampleLoad restServer undisturbedEnd undisturbed restServer_initial
      (Steps.of_exec (Option.some_get _).symm)).mpr undisturbed_holds⟩

/-- The call that lost its `INSERT` fails, because the winner is gone. -/
theorem revoked_before_reread :
    restServer.Initial ∧ Steps (Server.step sampleLoad) restServer disturbed disturbedEnd ∧
      disturbedEnd.phase false = .noRow ∧ ¬ Survives sampleLoad restServer disturbed := by
  have hrun : Steps (Server.step sampleLoad) restServer disturbed disturbedEnd :=
    Steps.of_exec (Option.some_get _).symm
  have hphase : disturbedEnd.phase false = .noRow := by decide +kernel
  refine ⟨restServer_initial, hrun, hphase, fun hsurvives => ?_⟩
  exact (hsurvives disturbed [] disturbedEnd (List.append_nil _).symm hrun false).1.1 hphase

end DlpServer.Vault.Revocation
