import DlpServer.Ids

/-!
# The token vault, its table and its SQL statements

The bottom layer of `app/transform/vault.py` and of the tables `token_vault`
and `token_vault_access_log` of `db/schema.sql`: the row types with the
constraints the schema puts on them, and one function for each SQL statement
the module sends. `Vault.Ops` strings the statements together one call at a
time, `Vault.Transactions` one statement at a time.

Instants are integers in microseconds, the resolution of `TIMESTAMPTZ`.
-/

namespace DlpServer.Vault

open Ids

/-- An instant, in microseconds. -/
abbrev Time : Type := ℤ

def second : Time := 1000000

/-- `interval '1 day'`. -/
def oneDay : Time := 86400 * second

/-! ## Rows -/

/-- `access_scope`: `{"roles": [...], "purposes": [...]}`. A missing or null
key is `none`. -/
structure AccessScope where
  roles : Option (List String)
  purposes : Option (List String)
deriving DecidableEq

/-- The scope stored when the caller gives none: nobody restores. -/
def AccessScope.default : AccessScope := ⟨some [], some []⟩

/-- The bytes of `cipher_value`: nonce, then ciphertext with its tag. -/
abbrev Blob : Type := List UInt8

/-- A row of `token_vault`. -/
structure Row where
  tokenId : ℕ
  sessionId : Uuid
  entityType : String
  tokenLabel : Text
  cipherValue : Blob
  valueHash : Text
  accessScope : AccessScope
  expiresAt : Time
  revokedAt : Option Time
deriving DecidableEq

/-- A row of `token_vault_access_log`. -/
structure AccessLogRow where
  tokenId : ℕ
  sessionId : Uuid
  tokenLabel : Text
  requestedRole : Text
  requestedPurpose : Option Text
  granted : Bool
  deniedReason : Option String
deriving DecidableEq

/-- What the exceptions of the module are raised for. -/
inductive VaultError where
  | key                 -- `_cipher()`: key unset or of the wrong length
  | decrypt             -- `InvalidTag`
  | data                -- a value the column type rejects
  | foreignKey          -- `entity_type` not in `entity_type_ref`
  | noRow               -- `existing[0]` on `None`
deriving DecidableEq

/-! ## Column types -/

/-- A `TEXT` parameter: PostgreSQL stores every character but NUL. -/
def textColumn (t : Text) : Except VaultError Text :=
  if '\x00' ∈ t then .error .data else .ok t

/-- A `VARCHAR(n)` column: what is over-long must be blanks, which are cut. -/
def varchar (n : ℕ) (t : Text) : Except VaultError Text :=
  if '\x00' ∈ t ∨ ¬ (t.drop n).all (· == ' ') then .error .data else .ok (t.take n)

/-- A `JSONB` scope: no string in it holds NUL. -/
def jsonbScope (s : AccessScope) : Except VaultError AccessScope :=
  if ∃ x ∈ s.roles.getD [] ++ s.purposes.getD [], '\x00' ∈ x.toList then .error .data
  else .ok s

/-- The codes of `entity_type_ref`: the schema's own and those that migration
`001_add_ner_entity_types` adds. -/
def entityTypeRef : List String :=
  ["RRN", "FOREIGN_RRN", "CARD", "ACCOUNT", "PASSPORT", "DRIVER", "CREDIT_INFO",
   "PHONE", "EMAIL", "BIZNO", "AMOUNT", "NAME", "UNKNOWN",
   "ADDRESS", "ORG", "PROJECT"]

/-! ## The statements -/

/-- `SELECT token_label FROM token_vault WHERE session_id = %s AND value_hash = %s
AND revoked_at IS NULL`. The partial unique index leaves at most one such row. -/
def Row.holds (r : Row) (s : Uuid) (h : Text) : Bool :=
  r.sessionId == s && r.valueHash == h && r.revokedAt.isNone

def selectActive (rows : List Row) (s : Uuid) (h : Text) : Option Row :=
  rows.find? (·.holds s h)

/-- `SELECT count(*) FROM token_vault WHERE session_id = %s AND entity_type = %s`. -/
def Row.counts (r : Row) (s : Uuid) (etype : String) : Bool :=
  r.sessionId == s && r.entityType == etype

def countRows (rows : List Row) (s : Uuid) (etype : String) : ℕ :=
  rows.countP (·.counts s etype)

/-- `... WHERE session_id = %s AND token_label = %s AND revoked_at IS NULL`. No
constraint makes the label unique, so several rows may match. -/
def Row.carries (r : Row) (s : Uuid) (label : Text) : Bool :=
  r.sessionId == s && r.tokenLabel == label && r.revokedAt.isNone

def selectByLabel (rows : List Row) (s : Uuid) (label : Text) : List Row :=
  rows.filter (·.carries s label)

/-- `fetchone()` on a result without `ORDER BY`: some row of the result, which
one the database does not say. -/
structure FetchOne where
  pick : List Row → Option Row
  pick_mem : ∀ {rs r}, pick rs = some r → r ∈ rs
  pick_none : ∀ {rs}, pick rs = none → rs = []

/-- The fetch that follows the order of the table. -/
def FetchOne.first : FetchOne where
  pick := List.head?
  pick_mem h := List.mem_of_head? h
  pick_none h := List.head?_eq_none_iff.mp h

/-- The checks of `INSERT INTO token_vault`: column types and the foreign key. -/
def checkRow (r : Row) : Except VaultError Row := do
  let label ← varchar 64 r.tokenLabel
  let scope ← jsonbScope r.accessScope
  if r.entityType ∈ entityTypeRef then
    .ok { r with tokenLabel := label, accessScope := scope }
  else .error .foreignKey

/-- `UPDATE token_vault SET revoked_at = now() WHERE ... AND revoked_at IS NULL`. -/
def revokeWhere (p : Row → Bool) (now : Time) (rows : List Row) : List Row :=
  rows.map fun r => if p r && r.revokedAt.isNone then { r with revokedAt := some now } else r

/-- `revoked_at IS NOT NULL AND revoked_at < now() - interval '1 day'`. -/
def Row.graceOver (r : Row) (now : Time) : Bool :=
  match r.revokedAt with
  | some t => decide (t < now - oneDay)
  | none => false

/-! ## Small facts about the statements -/

theorem Row.holds_iff {r : Row} {s : Uuid} {h : Text} :
    r.holds s h = true ↔ r.sessionId = s ∧ r.valueHash = h ∧ r.revokedAt = none := by
  simp [Row.holds, Option.isNone_iff_eq_none, and_assoc]

theorem Row.counts_iff {r : Row} {s : Uuid} {etype : String} :
    r.counts s etype = true ↔ r.sessionId = s ∧ r.entityType = etype := by
  simp [Row.counts]

theorem Row.carries_iff {r : Row} {s : Uuid} {label : Text} :
    r.carries s label = true ↔
      r.sessionId = s ∧ r.tokenLabel = label ∧ r.revokedAt = none := by
  simp [Row.carries, Option.isNone_iff_eq_none, and_assoc]

theorem selectActive_some {rows : List Row} {s : Uuid} {h : Text} {r : Row}
    (hr : selectActive rows s h = some r) :
    r ∈ rows ∧ r.sessionId = s ∧ r.valueHash = h ∧ r.revokedAt = none :=
  ⟨List.mem_of_find?_eq_some hr, Row.holds_iff.mp (by simpa using List.find?_some hr)⟩

theorem selectActive_none {rows : List Row} {s : Uuid} {h : Text} :
    selectActive rows s h = none ↔
      ∀ r ∈ rows, r.sessionId = s → r.valueHash = h → r.revokedAt ≠ none := by
  simp only [selectActive, List.find?_eq_none, Row.holds_iff, not_and, ne_eq]

theorem mem_selectByLabel {rows : List Row} {s : Uuid} {label : Text} {r : Row} :
    r ∈ selectByLabel rows s label ↔
      r ∈ rows ∧ r.sessionId = s ∧ r.tokenLabel = label ∧ r.revokedAt = none := by
  rw [selectByLabel, List.mem_filter, Row.carries_iff]

theorem varchar_ok {n : ℕ} {t t' : Text} (h : varchar n t = .ok t') :
    t' = t.take n ∧ (t.drop n).all (· == ' ') = true := by
  unfold varchar at h
  split at h
  · cases h
  · rename_i hn
    cases h
    exact ⟨rfl, by by_contra hc; exact hn (Or.inr hc)⟩

theorem jsonbScope_ok {s s' : AccessScope} (h : jsonbScope s = .ok s') : s' = s := by
  unfold jsonbScope at h
  split at h
  · cases h
  · cases h; rfl

end DlpServer.Vault
