import DlpServer.Vault.Spec

/-!
# The history of a vault

Rows leave the table, so what a run has done is not in its last state. Three
records of a run are kept beside it: the rows it *minted* (with the plaintext
and the wire session of the call that made them), the labels it *issued* (by a
fresh row or by reuse), and the rows it *deleted* for good.

`step_rows` says once what a step does to the table. From it follow the
provenance of rows (`row_minted`), the uniqueness of the active row of a value
(`activeUnique_run`) and the row count (`count_run`): rows present and rows
deleted together are the rows minted.
-/

namespace DlpServer.Vault

open Ids Runs

/-! ## The three records -/

/-- A row as it was inserted, with the call that inserted it. -/
structure Mint where
  sessionId : String
  entityType : String
  value : Text
  row : Row

/-- A label handed out for a value. -/
structure Issue where
  session : Uuid
  entityType : String
  value : Text
  label : Text

section Records

variable (env : Env) (v : Db)

/-- The row a step inserts, if it inserts one. -/
def mintBy : Op → List Mint
  | .tokenize nonce sid et value scope =>
      ((step env v (.tokenize nonce sid et value scope)).rows.drop v.rows.length).map
        fun r => ⟨sid, env.normalizeEntityType et, value, r⟩
  | _ => []

/-- The label a step issues, if it issues one. -/
def issueBy : Op → List Issue
  | .tokenize nonce sid et value scope =>
      match tokenize env nonce v sid et value scope with
      | .ok (label, _) => [⟨env.coerce sid, env.normalizeEntityType et, value, label⟩]
      | .error _ => []
  | _ => []

/-- The rows a step deletes. -/
def deletedBy : Op → List Row
  | .purgeExpired =>
      (revokeWhere (fun r => decide (r.expiresAt < v.now)) v.now v.rows).filter
        (·.graceOver v.now)
  | _ => []

end Records

section Runs

variable (env : Env) (start : Time)

def mints (ops : List Op) : List Mint :=
  collect (step env) (mintBy env) (Db.empty start) ops

def issued (ops : List Op) : List Issue :=
  collect (step env) (issueBy env) (Db.empty start) ops

def deleted (ops : List Op) : List Row :=
  collect (step env) (fun v op => deletedBy v op) (Db.empty start) ops

end Runs

variable {env : Env} {start : Time}

/-! ## What a step does -/

/-- A minted row is the row `tokenize` builds for a value without active row. -/
theorem mintBy_spec {v : Db} {op : Op} {m : Mint} (h : m ∈ mintBy env v op) :
    ∃ nonce et scope, op = .tokenize nonce m.sessionId et m.value scope ∧
      m.entityType = env.normalizeEntityType et ∧
      selectActive v.rows (env.coerce m.sessionId)
        (env.hash m.sessionId m.entityType m.value) = none ∧
      mintBy env v op = [m] ∧ varchar 64 m.row.tokenLabel = .ok m.row.tokenLabel ∧
      ∃ blob, env.encrypt nonce m.value = .ok blob ∧
        m.row = newRow env v.nextId v.now (env.coerce m.sessionId) m.entityType
          (tokenLabel m.entityType
            (countRows v.rows (env.coerce m.sessionId) m.entityType + 1))
          blob (env.hash m.sessionId m.entityType m.value) (scope.getD .default) := by
  cases op with
  | tokenize nonce sid et value scope =>
      cases ht : tokenize env nonce v sid et value scope with
      | error e => simp [mintBy, step, ht] at h
      | ok res =>
          obtain ⟨label, v'⟩ := res
          rcases tokenize_cases ht with
            ⟨r, -, -, rfl⟩ | ⟨hnone, rfl, hfits, blob, r, hblob, -, rfl, rfl⟩
          · simp [mintBy, step, ht] at h
          · simp only [mintBy, step, ht, List.drop_left, List.map_cons, List.map_nil,
              List.mem_singleton] at h
            subst h
            exact ⟨nonce, et, scope, rfl, rfl, hnone, by simp [mintBy, step, ht], hfits, blob,
              hblob, rfl⟩
  | detokenize | purgeExpired | revokeSession | advance => cases h

/-- A label that is issued is that of the active row found, or of the row minted. -/
theorem issueBy_spec {v : Db} {op : Op} {i : Issue} (h : i ∈ issueBy env v op) :
    ∃ nonce sid et scope, op = .tokenize nonce sid et i.value scope ∧
      i.session = env.coerce sid ∧ i.entityType = env.normalizeEntityType et ∧
      ((∃ r, selectActive v.rows i.session (env.hash sid i.entityType i.value) = some r ∧
          i.label = r.tokenLabel) ∨
        ∃ m ∈ mintBy env v op, m.sessionId = sid ∧ m.entityType = i.entityType ∧
          m.value = i.value ∧ m.row.tokenLabel = i.label) := by
  cases op with
  | tokenize nonce sid et value scope =>
      cases ht : tokenize env nonce v sid et value scope with
      | error e => simp [issueBy, ht] at h
      | ok res =>
          obtain ⟨label, v'⟩ := res
          obtain rfl : i = _ := by simpa [issueBy, ht] using h
          dsimp only
          refine ⟨nonce, sid, et, scope, rfl, rfl, rfl, ?_⟩
          rcases tokenize_cases ht with ⟨r, hr, hl, -⟩ | ⟨hnone, hl, -, blob, r, hblob, -, hr, hv⟩
          · exact Or.inl ⟨r, hr, hl⟩
          · right
            simp [mintBy, step, ht, hv, hr, newRow]
  | detokenize | purgeExpired | revokeSession | advance => cases h

/-- **What a step does to the table**: append the minted row, or revoke some
rows and delete some. -/
theorem step_rows (v : Db) (op : Op) :
    ((step env v op).rows = v.rows ++ (mintBy env v op).map Mint.row ∧
        deletedBy v op = []) ∨
      ∃ p q, mintBy env v op = [] ∧
        (step env v op).rows = (revokeWhere p v.now v.rows).filter q ∧
        deletedBy v op = (revokeWhere p v.now v.rows).filter (fun r => !q r) := by
  cases op with
  | tokenize nonce sid et value scope =>
      left
      cases ht : tokenize env nonce v sid et value scope with
      | error e => simp [mintBy, step, ht, deletedBy]
      | ok res =>
          obtain ⟨label, v'⟩ := res
          rcases tokenize_cases ht with ⟨r, -, -, rfl⟩ | ⟨-, -, -, blob, _, -, -, -, rfl⟩ <;>
            simp [mintBy, step, ht, deletedBy]
  | detokenize fetch sid label role purpose =>
      left
      simp [mintBy, step, deletedBy, (detokenize_frame env fetch v sid label role purpose).1]
  | advance d => left; simp [mintBy, step, deletedBy]
  | purgeExpired =>
      right
      exact ⟨_, fun r => !r.graceOver v.now, rfl, rfl, by simp [deletedBy]⟩
  | revokeSession sid =>
      right
      refine ⟨_, fun _ => true, rfl, (List.filter_true _).symm, ?_⟩
      simp [deletedBy]

/-- Time does not go back. -/
theorem step_now (v : Db) (op : Op) : v.now ≤ (step env v op).now := by
  cases op with
  | tokenize nonce sid et value scope =>
      cases ht : tokenize env nonce v sid et value scope with
      | error e => simp [step, ht]
      | ok res =>
          obtain ⟨label, v'⟩ := res
          rcases tokenize_cases ht with ⟨r, -, -, rfl⟩ | ⟨-, -, -, blob, _, -, -, -, rfl⟩ <;>
            simp [step, ht]
  | detokenize fetch sid label role purpose =>
      exact le_of_eq (detokenize_frame env fetch v sid label role purpose).2.1.symm
  | purgeExpired => exact le_rfl
  | revokeSession sid => exact le_rfl
  | advance d => exact Int.le_add_of_nonneg_right (Int.natCast_nonneg d)

/-! ## Provenance -/

/-- The columns that no statement updates. -/
def Row.born (r : Row) : Row := { r with revokedAt := none }

theorem revokeWhere_born (p : Row → Bool) (now : Time) (rows : List Row) :
    (revokeWhere p now rows).map Row.born = rows.map Row.born := by
  simp only [revokeWhere, List.map_map]
  apply List.map_congr_left
  intro r _
  simp only [Function.comp, Row.born]
  split <;> rfl

theorem mint_born {v : Db} {op : Op} {m : Mint} (h : m ∈ mintBy env v op) :
    m.row.born = m.row := by
  obtain ⟨_, _, _, -, -, -, -, -, blob, -, hrow⟩ := mintBy_spec h
  rw [hrow, newRow, Row.born]

/-- The table, revocations aside, is a sublist of the rows minted. -/
theorem rows_sublist (ops : List Op) :
    ((runFrom env start ops).rows.map Row.born).Sublist
      ((mints env start ops).map Mint.row) := by
  refine run_invariant
    (fun ops (v : Db) => (v.rows.map Row.born).Sublist ((mints env start ops).map Mint.row))
    (fun _ _ => True) (List.Sublist.refl _) ?_ ops (fun _ _ _ _ => trivial)
  intro ops op _ ih
  rw [mints, collect_snoc, List.map_append]
  rcases step_rows (run (step env) (Db.empty start) ops) op with ⟨hrows, -⟩ | ⟨p, q, hm, hrows, -⟩
  · rw [hrows, List.map_append]
    have hborn : ((mintBy env (run (step env) (Db.empty start) ops) op).map Mint.row).map
        Row.born = (mintBy env (run (step env) (Db.empty start) ops) op).map Mint.row := by
      rw [List.map_map]
      exact List.map_congr_left fun m hm => mint_born hm
    rw [hborn]
    exact ih.append (List.Sublist.refl _)
  · rw [hrows, hm]
    refine List.Sublist.trans ?_ (List.sublist_append_left _ _)
    refine (List.filter_sublist.map Row.born).trans ?_
    rw [revokeWhere_born]
    exact ih

/-- Every row of the table was minted; only its revocation is newer. -/
theorem row_minted {ops : List Op} {r : Row} (h : r ∈ (runFrom env start ops).rows) :
    ∃ m ∈ mints env start ops, r.born = m.row := by
  obtain ⟨m, hm, heq⟩ := List.mem_map.mp
    ((rows_sublist ops).subset (List.mem_map_of_mem (f := Row.born) h))
  exact ⟨m, hm, heq.symm⟩

theorem mem_mints {ops : List Op} {m : Mint} :
    m ∈ mints env start ops ↔
      ∃ pre op post, ops = pre ++ op :: post ∧ m ∈ mintBy env (runFrom env start pre) op :=
  mem_collect

/-- What the columns of a minted row say about its call. -/
theorem mint_columns {ops : List Op} {m : Mint} (h : m ∈ mints env start ops) :
    m.row.sessionId = env.coerce m.sessionId ∧ m.row.entityType = m.entityType ∧
      LabelType m.entityType ∧
      m.row.valueHash = env.hash m.sessionId m.entityType m.value ∧
      env.decrypt m.row.cipherValue = .ok m.value := by
  obtain ⟨pre, op, post, -, hm⟩ := mem_mints.mp h
  obtain ⟨nonce, et, scope, -, het, -, -, -, blob, hblob, hrow⟩ := mintBy_spec hm
  rw [hrow, newRow]
  dsimp only
  refine ⟨rfl, rfl, ?_, rfl, decrypt_encrypt hblob⟩
  rw [het]
  exact normalizeEntityType_labelType env et

/-! ## Calls, and what is assumed of their hashes -/

/-- A call of `tokenize` as the hash sees it. -/
structure Call where
  sessionId : String
  entityType : String
  value : Text

/-- The `tokenize` calls of a run. -/
def calls (env : Env) (ops : List Op) : List Call :=
  ops.filterMap fun op =>
    match op with
    | .tokenize _ sid et value _ => some ⟨sid, env.normalizeEntityType et, value⟩
    | _ => none

/-- Truncated SHA-256 has no collision among the inputs hashed in the run. -/
def CollisionFree (env : Env) (ops : List Op) : Prop :=
  ∀ a ∈ calls env ops, ∀ b ∈ calls env ops,
    env.hash a.sessionId a.entityType a.value = env.hash b.sessionId b.entityType b.value →
    Env.hashInput a.sessionId a.entityType a.value =
      Env.hashInput b.sessionId b.entityType b.value

/-- All calls of one session spell its wire id the same way. -/
def OneWireId (env : Env) (ops : List Op) : Prop :=
  ∀ a ∈ calls env ops, ∀ b ∈ calls env ops,
    env.coerce a.sessionId = env.coerce b.sessionId → a.sessionId = b.sessionId

theorem calls_append (env : Env) (ops ops' : List Op) :
    calls env (ops ++ ops') = calls env ops ++ calls env ops' :=
  List.filterMap_append

theorem CollisionFree.left {ops ops' : List Op} (h : CollisionFree env (ops ++ ops')) :
    CollisionFree env ops := by
  intro a ha b hb
  rw [CollisionFree, calls_append] at h
  exact h a (List.mem_append_left _ ha) b (List.mem_append_left _ hb)

theorem OneWireId.left {ops ops' : List Op} (h : OneWireId env (ops ++ ops')) :
    OneWireId env ops := by
  intro a ha b hb
  rw [OneWireId, calls_append] at h
  exact h a (List.mem_append_left _ ha) b (List.mem_append_left _ hb)

theorem mint_call {ops : List Op} {m : Mint} (h : m ∈ mints env start ops) :
    ⟨m.sessionId, m.entityType, m.value⟩ ∈ calls env ops := by
  obtain ⟨pre, op, post, rfl, hm⟩ := mem_mints.mp h
  obtain ⟨nonce, et, scope, rfl, het, -⟩ := mintBy_spec hm
  exact List.mem_filterMap.mpr ⟨.tokenize nonce m.sessionId et m.value scope,
    List.mem_append_right _ List.mem_cons_self, by rw [het]⟩

/-- **A label is issued for the value its row was minted for**, by reuse as
well as fresh. -/
theorem issue_minted {ops : List Op} (hcf : CollisionFree env ops)
    (hwire : OneWireId env ops) {i : Issue} (h : i ∈ issued env start ops) :
    ∃ m ∈ mints env start ops, m.row.sessionId = i.session ∧
      m.entityType = i.entityType ∧ m.value = i.value ∧ m.row.tokenLabel = i.label := by
  obtain ⟨pre, op, post, rfl, hi⟩ := mem_collect.mp h
  obtain ⟨nonce, sid, et, scope, rfl, hs, het, hcase⟩ := issueBy_spec hi
  have hcall : (⟨sid, i.entityType, i.value⟩ : Call) ∈
      calls env (pre ++ .tokenize nonce sid et i.value scope :: post) :=
    List.mem_filterMap.mpr ⟨_, List.mem_append_right _ List.mem_cons_self, by rw [het]⟩
  rcases hcase with ⟨r, hr, hl⟩ | ⟨m, hm, hsid, hty, hval, hl⟩
  · obtain ⟨hr, hrs, hrh, -⟩ := selectActive_some hr
    obtain ⟨m, hm, hborn⟩ := row_minted hr
    have hm' : m ∈ mints env start (pre ++ .tokenize nonce sid et i.value scope :: post) := by
      obtain ⟨p, o, q, rfl, hmo⟩ := mem_mints.mp hm
      exact mem_mints.mpr ⟨p, o, _, by rw [List.append_assoc]; rfl, hmo⟩
    obtain ⟨hms, -, hlt, hmh, -⟩ := mint_columns hm'
    have hcols : r.sessionId = m.row.sessionId ∧ r.valueHash = m.row.valueHash ∧
        r.tokenLabel = m.row.tokenLabel := by
      rw [← hborn]; exact ⟨rfl, rfl, rfl⟩
    have hsid : m.sessionId = sid := by
      apply hwire _ (mint_call hm') _ hcall
      rw [← hms, ← hcols.1, hrs, hs]
    have hinput := hcf _ (mint_call hm') _ hcall (by
      rw [← hmh, ← hcols.2.1, hrh])
    dsimp only at hinput
    rw [hsid] at hinput
    obtain ⟨hty, hval⟩ := hashInput_inj hlt
      (het ▸ normalizeEntityType_labelType env et) hinput
    exact ⟨m, hm', by rw [← hcols.1, hrs], hty, hval, by rw [← hcols.2.2, hl]⟩
  · have hm' : m ∈ mints env start (pre ++ .tokenize nonce sid et i.value scope :: post) :=
      mem_mints.mpr ⟨pre, _, post, rfl, hm⟩
    refine ⟨m, hm', ?_, hty, hval, hl⟩
    rw [(mint_columns hm').1, hsid, hs]

/-! ## One active row for a value -/

/-- What the partial unique index enforces. -/
def ActiveUnique (rows : List Row) : Prop :=
  rows.Pairwise fun a b => a.sessionId = b.sessionId → a.valueHash = b.valueHash →
    ¬ (a.revokedAt = none ∧ b.revokedAt = none)

theorem activeUnique_revoke {p : Row → Bool} {now : Time} {rows : List Row}
    (h : ActiveUnique rows) : ActiveUnique (revokeWhere p now rows) := by
  refine List.pairwise_map.mpr (h.imp ?_)
  intro a b hab hs hh hnone
  have keep : ∀ r : Row, (if p r && r.revokedAt.isNone then
      { r with revokedAt := some now } else r).revokedAt = none → r.revokedAt = none := by
    intro r hr
    split at hr
    · cases hr
    · exact hr
  have cols : ∀ r : Row, (if p r && r.revokedAt.isNone then
      { r with revokedAt := some now } else r).sessionId = r.sessionId ∧
      (if p r && r.revokedAt.isNone then
        { r with revokedAt := some now } else r).valueHash = r.valueHash := by
    intro r
    split <;> exact ⟨rfl, rfl⟩
  rw [(cols a).1, (cols b).1] at hs
  rw [(cols a).2, (cols b).2] at hh
  exact hab hs hh ⟨keep a hnone.1, keep b hnone.2⟩

theorem activeUnique_run (ops : List Op) : ActiveUnique (runFrom env start ops).rows := by
  refine run_invariant (fun _ (v : Db) => ActiveUnique v.rows) (fun _ _ => True)
    (show ActiveUnique [] from List.Pairwise.nil) ?_ ops (fun _ _ _ _ => trivial)
  intro ops op _ ih
  rcases step_rows (run (step env) (Db.empty start) ops) op with ⟨hrows, -⟩ | ⟨p, q, -, hrows, -⟩
  · rw [hrows]
    cases hm : mintBy env (run (step env) (Db.empty start) ops) op with
    | nil => simpa using ih
    | cons m ms =>
        have hmem : m ∈ mintBy env (run (step env) (Db.empty start) ops) op := by
          rw [hm]; exact List.mem_cons_self
        obtain ⟨_, _, _, -, -, hnone, hone, -, blob, -, hrow⟩ := mintBy_spec hmem
        obtain rfl : ms = [] := by simpa [hm] using hone
        refine List.pairwise_append.mpr ⟨ih, List.pairwise_singleton _ _, ?_⟩
        intro a ha b hb hs hh hact
        obtain rfl : b = m.row := by simpa using hb
        rw [hrow, newRow] at hs hh
        dsimp only at hs hh
        exact selectActive_none.mp hnone a ha hs hh hact.1
  · rw [hrows]
    exact (activeUnique_revoke ih).sublist List.filter_sublist

/-! ## Counting rows -/

theorem countRows_revoke (p : Row → Bool) (now : Time) (rows : List Row) (s : Uuid)
    (etype : String) : countRows (revokeWhere p now rows) s etype = countRows rows s etype := by
  rw [countRows, revokeWhere, List.countP_map]
  apply List.countP_congr
  intro r _
  simp only [Function.comp, Row.counts]
  split <;> exact Iff.rfl

/-- **Row count.** Present and deleted rows of a session and type together are
the rows minted for it. -/
theorem count_run (env : Env) (start : Time) (ops : List Op) (s : Uuid) (etype : String) :
    countRows (runFrom env start ops).rows s etype + countRows (deleted env start ops) s etype =
      countRows ((mints env start ops).map Mint.row) s etype := by
  refine run_invariant
    (fun ops (v : Db) => countRows v.rows s etype + countRows (deleted env start ops) s etype =
      countRows ((mints env start ops).map Mint.row) s etype)
    (fun _ _ => True) rfl ?_ ops (fun _ _ _ _ => trivial)
  intro ops op _ ih
  rw [mints, deleted, collect_snoc, collect_snoc, List.map_append]
  rw [mints, deleted] at ih
  rcases step_rows (run (step env) (Db.empty start) ops) op with
    ⟨hrows, hdel⟩ | ⟨p, q, hm, hrows, hdel⟩
  · rw [hrows, hdel]
    simp only [countRows, List.countP_append, List.countP_nil] at ih ⊢
    omega
  · have hsplit := List.countP_eq_countP_filter_add
      (revokeWhere p (run (step env) (Db.empty start) ops).now
        (run (step env) (Db.empty start) ops).rows) (·.counts s etype) q
    have hrev := countRows_revoke p (run (step env) (Db.empty start) ops).now
      (run (step env) (Db.empty start) ops).rows s etype
    rw [hrows, hdel, hm]
    simp only [countRows, List.countP_append, List.countP_nil, List.map_nil] at ih hrev ⊢
    omega

end DlpServer.Vault
