import DlpServer.Vault.Restore

/-!
# How long the vault keeps a value

No statement of `app/transform/vault.py` looks at two rows at once when it updates or
deletes: each row of `token_vault` lives a life of its own. It stays as it was stored
until the first step that *ends* it, a purge after its expiry or the revocation of its
session, is revoked from then on, and is erased by the first purge that comes more than
a day after. `retention` says that the table of every run is that and nothing else, and
what follows for the schedule of purges and for those who ask for a value.
-/

namespace DlpServer.Vault

open Ids Runs

variable {env : Env} {start : Time}

/-! ## The life of a row -/

/-- The step takes the row out of use. -/
def Op.ends (env : Env) (now : Time) (r : Row) : Op → Bool
  | .purgeExpired => decide (r.expiresAt < now)
  | .revokeSession sessionId => r.sessionId == env.coerce sessionId
  | _ => false

/-- The instant of the first step that takes the row out of use. -/
def ended (env : Env) (r : Row) : Db → List Op → Option Time
  | _, [] => none
  | v, op :: ops => if op.ends env v.now r then some v.now else ended env r (step env v op) ops

/-- A purge came more than a day after the row was taken out of use. -/
def Erased (env : Env) (r : Row) (v : Db) (ops : List Op) : Prop :=
  ∃ before after t, ops = before ++ .purgeExpired :: after ∧
    ended env r v before = some t ∧ t + oneDay < (run (step env) v before).now

/-- What the run has left of a row it minted. -/
def Kept (env : Env) (start : Time) (ops : List Op) (r : Row) : Prop :=
  ∃ pre op post m, ops = pre ++ op :: post ∧ m ∈ mintBy env (runFrom env start pre) op ∧
    ¬ Erased env m.row (runFrom env start (pre ++ [op])) post ∧
    r = { m.row with revokedAt := ended env m.row (runFrom env start (pre ++ [op])) post }

/-! ## One row at one step -/

/-- The row after a step taken at `now`. -/
def Row.age (env : Env) (now : Time) (op : Op) (r : Row) : Row :=
  if op.ends env now r && r.revokedAt.isNone then { r with revokedAt := some now } else r

/-- The step leaves the row in the table. -/
def Row.stays (now : Time) (r : Row) : Op → Bool
  | .purgeExpired => !r.graceOver now
  | _ => true

theorem age_of_not_ends {now : Time} {op : Op} {r : Row} (h : op.ends env now r = false) :
    r.age env now op = r := by
  simp [Row.age, h]

/-- **Row by row.** A step ages the rows one by one, drops some, and appends what it mints. -/
theorem step_each (v : Db) (op : Op) :
    (step env v op).rows = (v.rows.map (Row.age env v.now op)).filter (·.stays v.now op) ++
      (mintBy env v op).map Mint.row := by
  have hidle : (∀ r, op.ends env v.now r = false) → (∀ r : Row, r.stays v.now op = true) →
      (v.rows.map (Row.age env v.now op)).filter (·.stays v.now op) = v.rows := by
    intro hends hstays
    rw [List.filter_eq_self.mpr fun r _ => hstays r]
    exact (List.map_congr_left fun r _ => age_of_not_ends (hends r)).trans (List.map_id _)
  cases op with
  | tokenize nonce sid et value scope =>
      rw [hidle (fun _ => rfl) fun _ => rfl]
      cases ht : tokenize env nonce v sid et value scope with
      | error e => simp [mintBy, step, ht]
      | ok res =>
          obtain ⟨label, v'⟩ := res
          rcases tokenize_cases ht with ⟨_, -, -, rfl⟩ | ⟨-, -, -, _, _, -, -, -, rfl⟩ <;>
            simp [mintBy, step, ht]
  | detokenize fetch sid label role purpose =>
      rw [hidle (fun _ => rfl) fun _ => rfl]
      simp [mintBy, step, (detokenize_frame env fetch v sid label role purpose).1]
  | advance d =>
      rw [hidle (fun _ => rfl) fun _ => rfl]
      simp [mintBy, step]
  | purgeExpired =>
      simp only [step, purgeExpired, revokeWhere, mintBy, List.map_nil, List.append_nil]
      rfl
  | revokeSession sid =>
      simp only [step, revokeSession, revokeWhere, mintBy, List.map_nil, List.append_nil]
      exact (List.filter_eq_self.mpr fun _ _ => rfl).symm

theorem mem_step {v : Db} {op : Op} {r : Row} :
    r ∈ (step env v op).rows ↔
      (∃ r₀ ∈ v.rows, r₀.age env v.now op = r ∧ r.stays v.now op = true) ∨
        ∃ m ∈ mintBy env v op, m.row = r := by
  rw [step_each, List.mem_append, List.mem_filter, List.mem_map, List.mem_map]
  refine or_congr_left ⟨?_, ?_⟩
  · rintro ⟨⟨r₀, hmem, hage⟩, hstays⟩
    exact ⟨r₀, hmem, hage, hstays⟩
  · rintro ⟨r₀, hmem, hage, hstays⟩
    exact ⟨⟨r₀, hmem, hage⟩, hstays⟩

/-! ## One row along a run -/

theorem ended_snoc (env : Env) (r : Row) (v : Db) (ops : List Op) (op : Op) :
    ended env r v (ops ++ [op]) =
      (ended env r v ops).or
        (if op.ends env (run (step env) v ops).now r then some (run (step env) v ops).now
          else none) := by
  induction ops generalizing v with
  | nil => rfl
  | cons a ops ih =>
      rw [List.cons_append, ended, ended]
      split
      · rfl
      · exact ih (step env v a)

theorem erased_snoc (env : Env) (r : Row) (v : Db) (ops : List Op) (op : Op) :
    Erased env r v (ops ++ [op]) ↔ Erased env r v ops ∨ op = .purgeExpired ∧
      ∃ t, ended env r v ops = some t ∧ t + oneDay < (run (step env) v ops).now := by
  constructor
  · rintro ⟨before, after, t, hsplit, ht, hday⟩
    rcases List.eq_nil_or_concat after with rfl | ⟨after, last, rfl⟩
    · obtain ⟨rfl, hop⟩ := List.append_inj' hsplit rfl
      exact Or.inr ⟨List.singleton_inj.mp hop, t, ht, hday⟩
    · rw [List.concat_eq_append, ← List.cons_append, ← List.append_assoc] at hsplit
      exact Or.inl ⟨before, after, t, List.append_inj_left' hsplit rfl, ht, hday⟩
  · rintro (⟨before, after, t, rfl, ht, hday⟩ | ⟨rfl, t, ht, hday⟩)
    · exact ⟨before, after ++ [op], t, by simp, ht, hday⟩
    · exact ⟨ops, [], t, rfl, ht, hday⟩

/-- A row is aged by the first step that ends it. -/
theorem age_ended {r : Row} (v : Db) (ops : List Op) (op : Op) :
    Row.age env (run (step env) v ops).now op { r with revokedAt := ended env r v ops } =
      { r with revokedAt := ended env r v (ops ++ [op]) } := by
  have hends : op.ends env (run (step env) v ops).now { r with revokedAt := ended env r v ops } =
      op.ends env (run (step env) v ops).now r := by
    cases op <;> rfl
  rw [ended_snoc, Row.age, hends]
  cases hend : ended env r v ops with
  | some t => simp
  | none =>
      by_cases hop : op.ends env (run (step env) v ops).now r = true
      · simp [hop]
      · simp [hop]

/-- It leaves the table at the first purge that finds its grace over. -/
theorem stays_ended {r : Row} (v : Db) (ops : List Op) (op : Op) :
    Row.stays (run (step env) v ops).now { r with revokedAt := ended env r v (ops ++ [op]) } op =
        true ↔
      ¬ (op = .purgeExpired ∧
        ∃ t, ended env r v ops = some t ∧ t + oneDay < (run (step env) v ops).now) := by
  have hday : (0 : ℤ) < oneDay := by decide
  cases op with
  | purgeExpired =>
      rw [ended_snoc]
      cases hend : ended env r v ops with
      | some t =>
          simp [Row.stays, Row.graceOver, lt_sub_iff_add_lt]
      | none =>
          -- What this purge revokes it does not erase.
          simp only [Row.stays, Row.graceOver, Option.none_or, reduceCtorEq, false_and,
            exists_false, and_false, not_false_eq_true, iff_true, Bool.not_eq_true']
          split
          · rename_i t ht
            split at ht
            · cases ht
              exact decide_eq_false (not_lt.mpr (sub_le_self _ hday.le))
            · cases ht
          · rfl
  | tokenize | detokenize | revokeSession | advance => simp [Row.stays]

/-- **The table, row by row**: a row is there exactly if the run has kept it. -/
theorem mem_rows_iff (ops : List Op) (r : Row) :
    r ∈ (runFrom env start ops).rows ↔ Kept env start ops r := by
  induction ops using List.reverseRecOn generalizing r with
  | nil =>
      refine iff_of_false List.not_mem_nil ?_
      rintro ⟨pre, op, post, m, hops, -⟩
      simp at hops
  | append_singleton ops op ih =>
      rw [runFrom, run_snoc, mem_step]
      constructor
      · rintro (⟨r₀, hmem, rfl, hstays⟩ | ⟨m, hm, rfl⟩)
        · obtain ⟨pre, op', post, m, rfl, hm, hkept, rfl⟩ := (ih r₀).mp hmem
          have hreach : run (step env) (runFrom env start (pre ++ [op'])) post =
              run (step env) (Db.empty start) (pre ++ op' :: post) := by
            simp [run]
          rw [← hreach, age_ended, stays_ended] at hstays
          refine ⟨pre, op', post ++ [op], m, by simp, hm, ?_, ?_⟩
          · rw [erased_snoc]
            exact not_or.mpr ⟨hkept, hstays⟩
          · rw [← hreach, age_ended]
        · refine ⟨ops, op, [], m, rfl, hm, ?_, ?_⟩
          · rintro ⟨before, after, t, hsplit, -⟩
            simp at hsplit
          · rw [ended]
            exact (mint_born hm).symm
      · rintro ⟨pre, op', post, m, hops, hm, hkept, rfl⟩
        rcases List.eq_nil_or_concat post with rfl | ⟨post, last, rfl⟩
        · obtain ⟨rfl, hop⟩ := List.append_inj' hops rfl
          obtain rfl := List.singleton_inj.mp hop
          exact Or.inr ⟨m, hm, (mint_born hm).symm⟩
        · rw [List.concat_eq_append, ← List.cons_append, ← List.append_assoc] at hops
          obtain ⟨rfl, hop⟩ := List.append_inj' hops rfl
          obtain rfl := List.singleton_inj.mp hop
          have hreach : run (step env) (runFrom env start (pre ++ [op'])) post =
              run (step env) (Db.empty start) (pre ++ op' :: post) := by
            simp [run]
          rw [List.concat_eq_append, erased_snoc, not_or] at hkept
          rw [List.concat_eq_append]
          refine Or.inl ⟨_, (ih _).mpr ⟨pre, op', post, m, rfl, hm, hkept.1, rfl⟩, ?_, ?_⟩
          · rw [← hreach, age_ended]
          · rw [← hreach, stays_ended]
            exact hkept.2

/-! ## When a row ends -/

theorem run_now (v : Db) (ops : List Op) : v.now ≤ (run (step env) v ops).now := by
  induction ops using List.reverseRecOn with
  | nil => exact le_rfl
  | append_singleton ops op ih =>
      rw [run_snoc]
      exact ih.trans (step_now _ op)

theorem ended_of_ends {r : Row} {v : Db} {before after : List Op} {op : Op}
    (h : op.ends env (run (step env) v before).now r = true) :
    ∃ t, ended env r v (before ++ op :: after) = some t ∧ t ≤ (run (step env) v before).now := by
  induction before generalizing v with
  | nil => exact ⟨v.now, if_pos h, le_rfl⟩
  | cons a before ih =>
      rw [List.cons_append, ended]
      split
      · exact ⟨v.now, rfl, run_now v (a :: before)⟩
      · exact ih h

theorem ended_eq_none {r : Row} {v : Db} {ops : List Op}
    (h : ∀ before op after, ops = before ++ op :: after →
      op.ends env (run (step env) v before).now r = false) : ended env r v ops = none := by
  induction ops generalizing v with
  | nil => rfl
  | cons op ops ih =>
      have hfirst : op.ends env v.now r = false := h [] op ops rfl
      rw [ended, if_neg (ne_true_of_eq_false hfirst)]
      refine ih fun before op' after hsplit => ?_
      exact h (op :: before) op' after (by rw [hsplit]; rfl)

theorem ended_before {r : Row} {v : Db} {before after : List Op}
    (h : ended env r v (before ++ after) = none) : ended env r v before = none := by
  induction before generalizing v with
  | nil => rfl
  | cons op before ih =>
      rw [List.cons_append, ended] at h
      rw [ended]
      split at h
      · cases h
      · rename_i hop
        rw [if_neg hop]
        exact ih h

/-- A row that nothing has ended is in the table as it was stored. -/
theorem kept_of_ended_none {pre post : List Op} {op : Op} {m : Mint}
    (hm : m ∈ mintBy env (runFrom env start pre) op)
    (h : ended env m.row (runFrom env start (pre ++ [op])) post = none) :
    m.row ∈ (runFrom env start (pre ++ op :: post)).rows := by
  refine (mem_rows_iff _ _).mpr ⟨pre, op, post, m, rfl, hm, ?_, ?_⟩
  · rintro ⟨before, after, t, rfl, ht, -⟩
    rw [ended_before h] at ht
    cases ht
  · rw [h]
    exact (mint_born hm).symm

theorem mint_expiresAt {v : Db} {op : Op} {m : Mint} (h : m ∈ mintBy env v op) :
    m.row.expiresAt = v.now + env.vaultTtlSec * second := by
  obtain ⟨_, _, _, -, -, -, -, -, _, -, hrow⟩ := mintBy_spec h
  rw [hrow]
  rfl

/-! ## What follows for schedules and for requesters -/

/-- The run in two parts, as the state that the first one reaches sees the second. -/
theorem runFrom_append (env : Env) (start : Time) (ops ops' : List Op) :
    runFrom env start (ops ++ ops') = run (step env) (runFrom env start ops) ops' := by
  simp [runFrom, run]

/-- **Two purges clear the table.** What was stored before `pre` was over is gone after two
purges, if the first comes when it has expired and the second more than a day later. -/
theorem purged_twice {pre mid mid' post : List Op} {r : Row}
    (hfirst : (runFrom env start pre).now + env.vaultTtlSec * second <
      (runFrom env start (pre ++ mid)).now)
    (hsecond : (runFrom env start (pre ++ mid)).now + oneDay <
      (runFrom env start (pre ++ mid ++ .purgeExpired :: mid')).now)
    (hr : r ∈ (runFrom env start
      (pre ++ mid ++ .purgeExpired :: mid' ++ .purgeExpired :: post)).rows) :
    ∃ later op rest m,
      pre ++ mid ++ .purgeExpired :: mid' ++ .purgeExpired :: post = pre ++ later ++ op :: rest ∧
        m ∈ mintBy env (runFrom env start (pre ++ later)) op ∧ r.born = m.row := by
  obtain ⟨p, op, q, m, hops, hm, hkept, hrow⟩ := (mem_rows_iff _ _).mp hr
  have hborn : r.born = m.row := by
    rw [hrow]
    exact mint_born hm
  have hassoc : pre ++ mid ++ .purgeExpired :: mid' ++ .purgeExpired :: post =
      pre ++ (mid ++ .purgeExpired :: mid' ++ .purgeExpired :: post) := by
    simp
  rw [hassoc] at hops
  rcases List.append_eq_append_iff.mp hops with ⟨later, rfl, -⟩ | ⟨q', hpre, hq⟩
  · exact ⟨later, op, q, m, by rw [hassoc, hops], hm, hborn⟩
  · -- The call came before: the first purge ends the row, the second one erases it.
    rcases q' with - | ⟨op', q'⟩
    · rw [List.append_nil] at hpre
      subst hpre
      rw [List.nil_append] at hq
      exact ⟨[], op, q, m, by rw [hassoc, hops, List.append_nil], by rwa [List.append_nil], hborn⟩
    · obtain ⟨rfl, rfl⟩ := List.cons.inj hq
      exfalso
      subst hpre
      have hreach : ∀ rest : List Op,
          run (step env) (runFrom env start (p ++ [op])) (q' ++ rest) =
            runFrom env start (p ++ op :: q' ++ rest) := by
        intro rest
        rw [← runFrom_append]
        simp
      have hexpires : m.row.expiresAt ≤
          (runFrom env start (p ++ op :: q')).now + env.vaultTtlSec * second := by
        rw [mint_expiresAt hm]
        refine Int.add_le_add_right ?_ _
        rw [runFrom_append]
        exact run_now _ _
      obtain ⟨t, ht, hle⟩ : ∃ t, ended env m.row (runFrom env start (p ++ [op]))
          (q' ++ mid ++ .purgeExpired :: mid') = some t ∧
            t ≤ (run (step env) (runFrom env start (p ++ [op])) (q' ++ mid)).now := by
        refine ended_of_ends ?_
        rw [hreach]
        exact decide_eq_true (lt_of_le_of_lt hexpires hfirst)
      refine hkept ⟨q' ++ mid ++ .purgeExpired :: mid', post, t, by simp, ht, ?_⟩
      rw [hreach] at hle
      rw [List.append_assoc, hreach]
      refine lt_of_le_of_lt (Int.add_le_add_right hle _) ?_
      simpa using hsecond

/-- A value that is given back was stored less than the time to live ago, and nothing has
ended its row. -/
theorem restored_recent {ops : List Op} {fetch : FetchOne} {sid : String} {label : Text}
    {role purpose : Option String} {value : Text}
    (h : (detokenize env fetch (runFrom env start ops) sid label role purpose).1 = some value) :
    ∃ pre op post m, ops = pre ++ op :: post ∧ m ∈ mintBy env (runFrom env start pre) op ∧
      m.value = value ∧ m.row.tokenLabel = label ∧
      ended env m.row (runFrom env start (pre ++ [op])) post = none ∧
      (runFrom env start ops).now < (runFrom env start pre).now + env.vaultTtlSec * second := by
  obtain ⟨r, hr, hlive, -, hdec⟩ := detokenize_some h
  obtain ⟨hr, -, hrl, hact⟩ := mem_selectByLabel.mp hr
  obtain ⟨pre, op, post, m, hops, hm, -, hrow⟩ := (mem_rows_iff _ _).mp hr
  have hend : ended env m.row (runFrom env start (pre ++ [op])) post = none := by
    rw [hrow] at hact
    exact hact
  have hsame : r = m.row := by
    rw [hrow, hend]
    exact mint_born hm
  obtain ⟨-, -, -, -, hmdec⟩ := mint_columns (mem_mints.mpr ⟨pre, op, post, hops, hm⟩)
  refine ⟨pre, op, post, m, hops, hm, ?_, ?_, hend, ?_⟩
  · rw [← hsame, hdec] at hmdec
    exact (Except.ok.inj hmdec).symm
  · rw [← hsame, hrl]
  · rw [hsame, mint_expiresAt hm] at hlive
    exact hlive

/-- **A value is there for its time to live**: unexpired, its session never revoked, it is
given to whom the scope admits and to no other, if no other active row has its label. -/
theorem available {pre post : List Op} {op : Op} {m : Mint}
    (hm : m ∈ mintBy env (runFrom env start pre) op)
    (hrevoke : ∀ sid, .revokeSession sid ∈ post → env.coerce sid ≠ env.coerce m.sessionId)
    (hnow : (runFrom env start (pre ++ op :: post)).now < m.row.expiresAt)
    (halone : selectByLabel (runFrom env start (pre ++ op :: post)).rows
      (env.coerce m.sessionId) m.row.tokenLabel ⊆ [m.row])
    (fetch : FetchOne) {role purpose : Option String} (hlog : Loggable role purpose) :
    (detokenize env fetch (runFrom env start (pre ++ op :: post)) m.sessionId m.row.tokenLabel
      role purpose).1 = if m.row.accessScope.Admits role purpose then some m.value else none := by
  obtain ⟨hs, -, -, -, hdec⟩ :=
    mint_columns (mem_mints.mpr ⟨pre, op, post, rfl, hm⟩ : m ∈ mints env start (pre ++ op :: post))
  have hend : ended env m.row (runFrom env start (pre ++ [op])) post = none := by
    refine ended_eq_none fun before op' after hsplit => ?_
    have hclock : (run (step env) (runFrom env start (pre ++ [op])) before).now ≤
        (runFrom env start (pre ++ op :: post)).now := by
      have hreach : runFrom env start (pre ++ op :: post) = run (step env)
          (run (step env) (runFrom env start (pre ++ [op])) before) (op' :: after) := by
        rw [← runFrom_append, ← runFrom_append, hsplit]
        simp
      rw [hreach]
      exact run_now _ _
    cases op' with
    | purgeExpired => exact decide_eq_false (not_lt.mpr (hclock.trans hnow.le))
    | revokeSession sid =>
        have hne := hrevoke sid (by rw [hsplit]; simp)
        show (m.row.sessionId == env.coerce sid) = false
        rw [hs]
        exact beq_eq_false_iff_ne.mpr hne.symm
    | tokenize | detokenize | advance => rfl
  have hact : m.row.revokedAt = none := by
    rw [← mint_born hm]
    rfl
  have hself := mem_selectByLabel.mpr ⟨kept_of_ended_none hm hend, hs, rfl, hact⟩
  have hlabel : varchar 64 m.row.tokenLabel = .ok m.row.tokenLabel := by
    obtain ⟨_, _, _, -, -, -, -, hfits, -⟩ := mintBy_spec hm
    exact hfits
  cases hpick : fetch.pick (selectByLabel (runFrom env start (pre ++ op :: post)).rows
      (env.coerce m.sessionId) m.row.tokenLabel) with
  | none =>
      rw [fetch.pick_none hpick] at hself
      cases hself
  | some r =>
      obtain rfl : r = m.row := List.mem_singleton.mp (halone (fetch.pick_mem hpick))
      rw [detokenize_fetched hlabel hlog hpick hdec]
      simp [hnow]

/-- **Retention.** The table of every run holds exactly the rows that the run has kept:
each as it was stored, revoked when it was ended, erased by the first purge more than a day
after. Two purges at a distance clear what had expired. What is given back was stored less
than the time to live ago, and is there for that long for a role and purpose that the
access log can take. -/
theorem retention (env : Env) (start : Time) (ops : List Op) :
    (∀ r, r ∈ (runFrom env start ops).rows ↔ Kept env start ops r) ∧
    (∀ pre mid mid' post,
      ops = pre ++ mid ++ .purgeExpired :: mid' ++ .purgeExpired :: post →
      (runFrom env start pre).now + env.vaultTtlSec * second <
        (runFrom env start (pre ++ mid)).now →
      (runFrom env start (pre ++ mid)).now + oneDay <
        (runFrom env start (pre ++ mid ++ .purgeExpired :: mid')).now →
      ∀ r ∈ (runFrom env start ops).rows, ∃ later op rest m, ops = pre ++ later ++ op :: rest ∧
        m ∈ mintBy env (runFrom env start (pre ++ later)) op ∧ r.born = m.row) ∧
    (∀ fetch sid label role purpose value,
      (detokenize env fetch (runFrom env start ops) sid label role purpose).1 = some value →
      ∃ pre op post m, ops = pre ++ op :: post ∧ m ∈ mintBy env (runFrom env start pre) op ∧
        m.value = value ∧ m.row.tokenLabel = label ∧
        ended env m.row (runFrom env start (pre ++ [op])) post = none ∧
        (runFrom env start ops).now < (runFrom env start pre).now + env.vaultTtlSec * second) ∧
    (∀ pre op post m, ops = pre ++ op :: post → m ∈ mintBy env (runFrom env start pre) op →
      (∀ sid, .revokeSession sid ∈ post → env.coerce sid ≠ env.coerce m.sessionId) →
      (runFrom env start ops).now < m.row.expiresAt →
      selectByLabel (runFrom env start ops).rows (env.coerce m.sessionId) m.row.tokenLabel ⊆
        [m.row] →
      ∀ fetch role purpose, Loggable role purpose →
        (detokenize env fetch (runFrom env start ops) m.sessionId m.row.tokenLabel role
          purpose).1 = if m.row.accessScope.Admits role purpose then some m.value else none) := by
  refine ⟨mem_rows_iff ops, ?_, ?_, ?_⟩
  · rintro pre mid mid' post rfl hfirst hsecond r hr
    exact purged_twice hfirst hsecond hr
  · intro fetch sid label role purpose value h
    exact restored_recent h
  · rintro pre op post m rfl hm hrevoke hnow halone fetch role purpose hlog
    exact available hm hrevoke hnow halone fetch hlog

/-- A number stored for half an hour, then a purge after that and one more than a day later. -/
def purgedRun : List Op :=
  [.tokenize .zero "s" "RRN" "900101-1234567".toList none, .advance 1800000001, .purgeExpired,
    .advance 86400000001, .purgeExpired]

theorem retention_purged : ∀ r, ¬ Kept .sample 0 purgedRun r := by
  have hempty : (runFrom .sample 0 purgedRun).rows = [] := by decide +kernel
  intro r h
  have hr := ((retention .sample 0 purgedRun).1 r).mpr h
  rw [hempty] at hr
  cases hr

end DlpServer.Vault
