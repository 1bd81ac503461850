import DlpServer.Lib.Runs
import DlpServer.Vault.Table

/-!
# The token vault, one call at a time

`tokenize`, `detokenize`, `purge_expired` and `revoke_session` of
`app/transform/vault.py`, each as a function on the vault's state, and runs of
them in any order with the clock advancing in between.

Outside the repository, and therefore a parameter (`Env`): SHA-1 behind
`uuid5`, SHA-256, AES-GCM under the configured key, and the Unicode database.
A transaction reads `now()` once, so every call works at one instant.
-/

namespace DlpServer.Vault

open Ids Runs

/-! ## The environment -/

/-- `_NONCE_BYTES` random bytes from `os.urandom`. -/
def nonceBytes : ℕ := 12

structure Nonce where
  bytes : List UInt8
  length_eq : bytes.length = nonceBytes

/-- `AESGCM(key)` on encoded strings. Decryption inverts encryption. -/
structure Aead where
  encrypt : List UInt8 → Text → List UInt8
  decrypt : List UInt8 → List UInt8 → Option Text
  decrypt_encrypt : ∀ nonce v, decrypt nonce (encrypt nonce v) = some v

/-- What the vault takes from its surroundings. `cipher` is what `_cipher()`
gives for the configured key, `none` when it raises. -/
structure Env where
  unicode : Unicode
  uuid5 : String → Uuid
  sha256Hex : Text → Text
  cipher : Option Aead
  vaultTtlSec : ℤ

/-! ## Labels, hashes, types -/

/-- `ENTITY_TYPES`. -/
def entityTypes : List String :=
  ["RRN", "FOREIGN_RRN", "CARD", "ACCOUNT", "PASSPORT", "DRIVER", "CREDIT_INFO",
   "PHONE", "EMAIL", "BIZNO", "AMOUNT", "NAME", "ADDRESS", "ORG", "PROJECT"]

/-- `TOKEN_LABEL_FMT.format(etype=etype, n=n)`. -/
def tokenLabel (etype : String) (n : ℕ) : Text :=
  ['<', 'P', 'I', 'I', ':'] ++ etype.toList ++ [':'] ++ Nat.toDigits 10 n ++ ['>']

namespace Env

variable (env : Env)

/-- `_normalize_entity_type`: trimmed, upper case, whitelisted, else `UNKNOWN`. -/
@[irreducible] def normalizeEntityType (entityType : String) : String :=
  let etype := String.ofList (env.unicode.upperStr (env.unicode.strip entityType.toList))
  if etype ∈ entityTypes then etype else "UNKNOWN"

/-- The string hashed by `_hash`, its parts joined by `\x1f`. -/
def hashInput (sessionId entityType : String) (value : Text) : Text :=
  sessionId.toList ++ '\x1f' :: (entityType.toList ++ '\x1f' :: value)

/-- `_hash`: the first 32 hex digits of SHA-256. -/
def hash (sessionId entityType : String) (value : Text) : Text :=
  (env.sha256Hex (hashInput sessionId entityType value)).take 32

def coerce (sessionId : String) : Uuid :=
  coerceSessionUuid env.unicode env.uuid5 sessionId

/-- `_encrypt`: nonce, then ciphertext. -/
def encrypt (nonce : Nonce) (value : Text) : Except VaultError Blob :=
  match env.cipher with
  | some aead => .ok (nonce.bytes ++ aead.encrypt nonce.bytes value)
  | none => .error .key

/-- `_decrypt`: the nonce is split off the front. -/
def decrypt (blob : Blob) : Except VaultError Text :=
  match env.cipher with
  | some aead =>
      match aead.decrypt (blob.take nonceBytes) (blob.drop nonceBytes) with
      | some v => .ok v
      | none => .error .decrypt
  | none => .error .key

end Env

/-! ## State and calls -/

/-- The two tables, the source of fresh `token_id`s, and the clock. -/
structure Db where
  rows : List Row
  accessLog : List AccessLogRow
  nextId : ℕ
  now : Time
deriving DecidableEq

/-- An empty vault at some instant. -/
def Db.empty (now : Time) : Db := ⟨[], [], 1, now⟩

/-- `_scope_allows`: each axis contains `*` or the requester; an empty list
denies. The second component is the reason of a refusal. -/
def scopeAllows (scope : AccessScope) (role purpose : Option String) :
    Bool × Option String :=
  let roles := scope.roles.getD []
  let purposes := scope.purposes.getD []
  if ¬ ("*" ∈ roles ∨ ∃ r ∈ role, r ∈ roles) then (false, some "role_not_in_scope")
  else if ¬ ("*" ∈ purposes ∨ ∃ p ∈ purpose, p ∈ purposes) then
    (false, some "purpose_not_in_scope")
  else (true, none)

/-- `_resolve_scope`. -/
def resolveScope (r : Row) : AccessScope := r.accessScope

section Calls

variable (env : Env)

/-- The row that `tokenize` sends to `INSERT`. `gen_random_uuid()` is a counter. -/
def newRow (tokenId : ℕ) (now : Time) (s : Uuid) (etype : String) (label : Text)
    (cipherValue : Blob) (vhash : Text) (scope : AccessScope) : Row where
  tokenId := tokenId
  sessionId := s
  entityType := etype
  tokenLabel := label
  cipherValue := cipherValue
  valueHash := vhash
  accessScope := scope
  expiresAt := now + env.vaultTtlSec * second
  revokedAt := none

/-- `INSERT ... ON CONFLICT (session_id, value_hash) WHERE revoked_at IS NULL DO
NOTHING RETURNING token_label`: the label when the row went in. -/
def insertRow (v : Db) (r : Row) : Except VaultError (Option Text × Db) := do
  let r ← checkRow r
  match selectActive v.rows r.sessionId r.valueHash with
  | some _ => .ok (none, v)
  | none => .ok (some r.tokenLabel, { v with rows := v.rows ++ [r], nextId := v.nextId + 1 })

/-- `tokenize`, whose exceptions reach the caller and roll the transaction back. -/
def tokenize (nonce : Nonce) (v : Db) (sessionId entityType : String) (value : Text)
    (accessScope : Option AccessScope) : Except VaultError (Text × Db) := do
  let etype := env.normalizeEntityType entityType
  let vhash := env.hash sessionId etype value
  let scope := accessScope.getD .default
  let s := env.coerce sessionId
  match selectActive v.rows s vhash with
  | some r => .ok (r.tokenLabel, v)
  | none =>
      -- Rows already revoked still count here; rows already deleted do not.
      let count := countRows v.rows s etype
      let label := tokenLabel etype (count + 1)
      let cipherValue ← env.encrypt nonce value
      let (inserted, v') ← insertRow v
        (newRow env v.nextId v.now s etype label cipherValue vhash scope)
      match inserted with
      | some label => .ok (label, v')
      | none =>
          match selectActive v.rows s vhash with
          | some r => .ok (r.tokenLabel, v)
          | none => .error .noRow

/-- A nullable `TEXT` parameter. -/
def nullable : Option String → Except VaultError (Option Text)
  | some t => (textColumn t.toList).map some
  | none => .ok none

/-- `_log_access`: one row for one attempt; a missing role is stored as `""`. -/
def logAccess (v : Db) (tokenId : ℕ) (sessionId : String) (label : Text)
    (role purpose : Option String) (granted : Bool) (deniedReason : Option String) :
    Except VaultError Db := do
  let label ← varchar 64 label
  let requestedRole ← varchar 64 (role.getD "").toList
  let requestedPurpose ← nullable purpose
  .ok { v with
    accessLog := v.accessLog ++
      [⟨tokenId, env.coerce sessionId, label, requestedRole, requestedPurpose, granted,
        deniedReason⟩] }

/-- `_NIL_UUID`, logged for a label without a row. No row has this id. -/
def nilUuid : ℕ := 0

/-- The body of `detokenize` under `try`. -/
def detokenizeBody (fetch : FetchOne) (v : Db) (sessionId : String) (label : Text)
    (role purpose : Option String) : Except VaultError (Option Text × Db) := do
  match fetch.pick (selectByLabel v.rows (env.coerce sessionId) label) with
  | none =>
      let v' ← logAccess env v nilUuid sessionId label role purpose false
        (some "unknown_or_revoked")
      .ok (none, v')
  | some row =>
      if row.expiresAt ≤ v.now then
        let v' ← logAccess env v row.tokenId sessionId label role purpose false
          (some "expired")
        .ok (none, v')
      else
        match scopeAllows (resolveScope row) role purpose with
        | (false, deniedReason) =>
            let v' ← logAccess env v row.tokenId sessionId label role purpose false
              deniedReason
            .ok (none, v')
        | (true, _) =>
            let value ← env.decrypt row.cipherValue
            let v' ← logAccess env v row.tokenId sessionId label role purpose true none
            .ok (some value, v')

/-- `detokenize`: every exception rolls back and answers `None`. -/
def detokenize (fetch : FetchOne) (v : Db) (sessionId : String) (label : Text)
    (role purpose : Option String) : Option Text × Db :=
  match detokenizeBody env fetch v sessionId label role purpose with
  | .ok result => result
  | .error _ => (none, v)

/-- `purge_expired`: expired rows are revoked, then rows revoked more than a day
ago are deleted. Both statements see the same `now()`. -/
def purgeExpired (v : Db) : Db :=
  let rows := revokeWhere (fun r => decide (r.expiresAt < v.now)) v.now v.rows
  { v with rows := rows.filter (fun r => !r.graceOver v.now) }

/-- `revoke_session`. -/
def revokeSession (v : Db) (sessionId : String) : Db :=
  { v with rows := revokeWhere (fun r => r.sessionId == env.coerce sessionId) v.now v.rows }

end Calls

/-! ## Runs -/

/-- One step of a run. -/
inductive Op where
  | tokenize (nonce : Nonce) (sessionId entityType : String) (value : Text)
      (accessScope : Option AccessScope)
  | detokenize (fetch : FetchOne) (sessionId : String) (label : Text)
      (role purpose : Option String)
  | purgeExpired
  | revokeSession (sessionId : String)
  | advance (elapsed : ℕ)

def step (env : Env) (v : Db) : Op → Db
  | .tokenize nonce sessionId entityType value accessScope =>
      match tokenize env nonce v sessionId entityType value accessScope with
      | .ok (_, v') => v'
      | .error _ => v
  | .detokenize fetch sessionId label role purpose =>
      (detokenize env fetch v sessionId label role purpose).2
  | .purgeExpired => purgeExpired v
  | .revokeSession sessionId => revokeSession env v sessionId
  | .advance elapsed => { v with now := v.now + elapsed }

/-- The vault after the run `ops` from an empty vault. -/
abbrev runFrom (env : Env) (start : Time) (ops : List Op) : Db :=
  run (step env) (Db.empty start) ops

end DlpServer.Vault
