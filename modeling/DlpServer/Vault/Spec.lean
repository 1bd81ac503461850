import DlpServer.Lib.Regex
import DlpServer.Vault.Ops

/-!
# What a vault call can do

One inversion lemma for each call of `Vault.Ops`; everything proved about runs
cites these and never unfolds a call. Before them, the two encodings that
identify a value: the label is injective in type and number, the hash input in
session, type and value.
-/

namespace DlpServer.Vault

open Ids

/-! ## Labels -/

/-- The types a label is issued for. -/
def LabelType (etype : String) : Prop := etype ∈ entityTypes ∨ etype = "UNKNOWN"

theorem labelType_chars : ("UNKNOWN" :: entityTypes).all (fun t =>
    !t.toList.isEmpty && t.toList.all fun c => c.isUpper || c == '_') = true := by
  decide

theorem LabelType.toList_chars {etype : String} (h : LabelType etype) :
    etype.toList ≠ [] ∧ ∀ c ∈ etype.toList, c.isUpper = true ∨ c = '_' := by
  have hmem : etype ∈ "UNKNOWN" :: entityTypes := List.mem_cons.mpr h.symm
  have := List.all_eq_true.mp labelType_chars etype hmem
  simpa using this

theorem normalizeEntityType_labelType (env : Env) (t : String) :
    LabelType (env.normalizeEntityType t) := by
  unfold Env.normalizeEntityType LabelType
  dsimp only
  split
  · rename_i h; exact Or.inl h
  · exact Or.inr rfl

theorem LabelType.ref {etype : String} (h : LabelType etype) : etype ∈ entityTypeRef := by
  rcases h with h | rfl
  · revert etype
    decide
  · decide

theorem LabelType.not_mem {etype : String} (h : LabelType etype) {c : Char}
    (hc : ¬ (c.isUpper = true ∨ c = '_')) : c ∉ etype.toList :=
  fun hm => hc (h.toList_chars.2 c hm)

theorem toDigits_injective {m n : ℕ} (h : Nat.toDigits 10 m = Nat.toDigits 10 n) : m = n := by
  have := congrArg (fun cs => Nat.ofDigitChars 10 cs 0) h
  simpa only [Nat.ofDigitChars_ten_toDigits] using this

/-- A label determines its type and its number. -/
theorem tokenLabel_inj {t t' : String} {n n' : ℕ} (ht : LabelType t) (ht' : LabelType t')
    (h : tokenLabel t n = tokenLabel t' n') : t = t' ∧ n = n' := by
  simp only [tokenLabel, List.append_assoc] at h
  obtain ⟨hty, hnum⟩ := Regex.append_sep_inj (ht.not_mem (c := ':') (by decide))
    (ht'.not_mem (c := ':') (by decide)) (List.append_cancel_left h)
  exact ⟨String.toList_inj.mp hty, toDigits_injective (List.append_cancel_right hnum)⟩

/-- The column keeps a label whole or rejects it: a label does not end in blanks. -/
theorem varchar_tokenLabel {etype : String} {n : ℕ} {t : Text}
    (h : varchar 64 (tokenLabel etype n) = .ok t) : t = tokenLabel etype n := by
  obtain ⟨rfl, hblank⟩ := varchar_ok h
  apply List.take_of_length_le
  by_contra hlen
  have hlast : (tokenLabel etype n).drop 64 ≠ [] := by
    simpa using hlen
  have hmem : '>' ∈ (tokenLabel etype n).drop 64 := by
    have hend : ((tokenLabel etype n).drop 64).getLast hlast = '>' := by
      rw [List.getLast_drop]
      simp [tokenLabel]
    exact hend ▸ List.getLast_mem hlast
  have := List.all_eq_true.mp hblank '>' hmem
  simp at this

/-! ## Hash inputs -/

/-- Within one wire session the hash input determines type and value. -/
theorem hashInput_inj {sid t t' : String} {v v' : Text} (ht : LabelType t)
    (ht' : LabelType t') (h : Env.hashInput sid t v = Env.hashInput sid t' v') :
    t = t' ∧ v = v' := by
  have h := List.append_cancel_left h
  obtain ⟨hty, hval⟩ := Regex.append_sep_inj (ht.not_mem (by decide)) (ht'.not_mem (by decide))
    (List.cons.inj h).2
  exact ⟨String.toList_inj.mp hty, hval⟩

/-! ## Encryption -/

theorem decrypt_encrypt {env : Env} {nonce : Nonce} {value : Text} {blob : Blob}
    (h : env.encrypt nonce value = .ok blob) : env.decrypt blob = .ok value := by
  unfold Env.encrypt at h
  unfold Env.decrypt
  cases hc : env.cipher with
  | none => rw [hc] at h; cases h
  | some aead =>
      rw [hc] at h
      cases h
      have hlen : nonce.bytes.length = nonceBytes := nonce.length_eq
      simp [← hlen, aead.decrypt_encrypt]

/-- A toy cipher: three bytes for each code point, no key. -/
def plainBytes (v : Text) : List UInt8 :=
  v.flatMap fun c =>
    [UInt8.ofNat (c.toNat / 65536), UInt8.ofNat (c.toNat / 256), UInt8.ofNat c.toNat]

def readPlain : List UInt8 → Option Text
  | a :: b :: c :: rest =>
      (readPlain rest).map (Char.ofNat (a.toNat * 65536 + b.toNat * 256 + c.toNat) :: ·)
  | [] => some []
  | _ => none

theorem readPlain_plainBytes (v : Text) : readPlain (plainBytes v) = some v := by
  induction v with
  | nil => rfl
  | cons c v ih =>
      have hc : c.toNat < 0x110000 := by
        rcases c.valid with h | h
        · exact lt_trans h (by decide)
        · exact h.2
      have hval : c.toNat / 65536 % 256 * 65536 + c.toNat / 256 % 256 * 256 + c.toNat % 256 =
          c.toNat := by omega
      simp only [plainBytes, List.flatMap_cons, List.cons_append, List.nil_append] at ih ⊢
      rw [readPlain, ih]
      simp [hval]

/-- The toy cipher as an `Aead`, to evaluate with. -/
def Aead.plain : Aead where
  encrypt _ v := plainBytes v
  decrypt _ b := readPlain b
  decrypt_encrypt _ v := readPlain_plainBytes v

/-- SHA-256 of the few inputs that are evaluated, as `hashlib` gives it. -/
def sampleDigest (raw : Text) : Text :=
  if raw = "s\x1fRRN\x1f900101-1234567".toList then
    "af820d69cb3096d477db0da389c69acae76856094c85457806f417b624f60ccb".toList
  else if raw = "s\x1fRRN\x1f900101-2345678".toList then
    "996fd7845e66c6f9b0cd92b44ca0c50de7d89d56a09373cfff2d6138e25d18cb".toList
  else if raw = "s\x1fRRN\x1f900101-3456789".toList then
    "17ad93bb2f01f64cd35089d1fab74eb466723c2e06c12f56d8aa5a3980911096".toList
  else []

/-- An environment to evaluate with: the default TTL, the toy cipher, and the
hashes of the session `s`. -/
def Env.sample : Env where
  unicode := .ascii
  uuid5 _ := 0x3c88babd0bf855a89a7398a084ec3a25
  sha256Hex := sampleDigest
  cipher := some .plain
  vaultTtlSec := 1800

/-- The nonce of zeros. -/
def Nonce.zero : Nonce := ⟨List.replicate nonceBytes 0, List.length_replicate⟩

/-! ## `tokenize` -/

/-- Running on after a step that may raise. -/
theorem bind_ok {ε : Type} {α β : Type} {x : Except ε α} {f : α → Except ε β} {b : β} :
    x >>= f = .ok b ↔ ∃ a, x = .ok a ∧ f a = .ok b := by
  cases x with
  | error e => simp [bind, Except.bind]
  | ok a => simp [bind, Except.bind]

theorem checkRow_ok {r r' : Row} {n : ℕ} (hl : r.tokenLabel = tokenLabel r.entityType n)
    (h : checkRow r = .ok r') : r' = r ∧ varchar 64 r.tokenLabel = .ok r.tokenLabel := by
  obtain ⟨label, hlabel, h⟩ := bind_ok.mp h
  obtain ⟨scope, hscope, h⟩ := bind_ok.mp h
  have hkept : label = r.tokenLabel := by
    rw [hl] at hlabel ⊢
    exact varchar_tokenLabel hlabel
  subst hkept
  split at h
  · cases h
    rw [jsonbScope_ok hscope]
    exact ⟨rfl, hlabel⟩
  · cases h

/-- **`tokenize` by cases**: a call that returns either found an active row of
its value and changed nothing, or appended one new row. -/
theorem tokenize_cases {env : Env} {nonce : Nonce} {v v' : Db} {sid et : String}
    {value : Text} {scope : Option AccessScope} {label : Text}
    (h : tokenize env nonce v sid et value scope = .ok (label, v')) :
    (∃ r, selectActive v.rows (env.coerce sid)
        (env.hash sid (env.normalizeEntityType et) value) = some r ∧
      label = r.tokenLabel ∧ v' = v) ∨
    (selectActive v.rows (env.coerce sid)
        (env.hash sid (env.normalizeEntityType et) value) = none ∧
      label = tokenLabel (env.normalizeEntityType et)
        (countRows v.rows (env.coerce sid) (env.normalizeEntityType et) + 1) ∧
      varchar 64 label = .ok label ∧
      ∃ blob r, env.encrypt nonce value = .ok blob ∧ checkRow r = .ok r ∧
        r = newRow env v.nextId v.now (env.coerce sid) (env.normalizeEntityType et) label blob
          (env.hash sid (env.normalizeEntityType et) value) (scope.getD .default) ∧
        v' = { v with rows := v.rows ++ [r], nextId := v.nextId + 1 }) := by
  unfold tokenize at h
  dsimp only at h
  cases hs : selectActive v.rows (env.coerce sid)
      (env.hash sid (env.normalizeEntityType et) value) with
  | some r =>
      rw [hs] at h
      cases h
      exact Or.inl ⟨r, rfl, rfl, rfl⟩
  | none =>
      rw [hs] at h
      obtain ⟨blob, hblob, h⟩ := bind_ok.mp h
      obtain ⟨⟨inserted, v₁⟩, hins, h⟩ := bind_ok.mp h
      obtain ⟨r, hcheck, hins⟩ := bind_ok.mp hins
      obtain ⟨rfl, hfits⟩ := checkRow_ok rfl hcheck
      simp only [newRow, hs] at hins
      cases hins
      cases h
      exact Or.inr ⟨rfl, rfl, hfits, blob, _, hblob, hcheck, rfl, rfl⟩

/-! ## `detokenize` -/

theorem logAccess_ok {env : Env} {v v' : Db} {id : ℕ} {sid : String} {label : Text}
    {role purpose : Option String} {g : Bool} {d : Option String}
    (h : logAccess env v id sid label role purpose g d = .ok v') :
    v'.rows = v.rows ∧ v'.now = v.now ∧ v'.nextId = v.nextId := by
  obtain ⟨_, _, h⟩ := bind_ok.mp h
  obtain ⟨_, _, h⟩ := bind_ok.mp h
  obtain ⟨_, _, h⟩ := bind_ok.mp h
  cases h
  exact ⟨rfl, rfl, rfl⟩

/-- **`detokenize` by cases**: when the attempt is logged, the outcome is that
of the fetched row. -/
theorem detokenizeBody_cases {env : Env} {fetch : FetchOne} {v v' : Db} {sid : String}
    {label : Text} {role purpose : Option String} {result : Option Text}
    (h : detokenizeBody env fetch v sid label role purpose = .ok (result, v')) :
    (∃ id g d, logAccess env v id sid label role purpose g d = .ok v') ∧
    ((fetch.pick (selectByLabel v.rows (env.coerce sid) label) = none ∧ result = none) ∨
      ∃ r, fetch.pick (selectByLabel v.rows (env.coerce sid) label) = some r ∧
        ((r.expiresAt ≤ v.now ∨ (scopeAllows r.accessScope role purpose).1 = false) ∧
            result = none ∨
          v.now < r.expiresAt ∧ (scopeAllows r.accessScope role purpose).1 = true ∧
            ∃ value, env.decrypt r.cipherValue = .ok value ∧ result = some value)) := by
  unfold detokenizeBody at h
  cases hp : fetch.pick (selectByLabel v.rows (env.coerce sid) label) with
  | none =>
      rw [hp] at h
      obtain ⟨v₁, hlog, h⟩ := bind_ok.mp h
      cases h
      exact ⟨⟨_, _, _, hlog⟩, Or.inl ⟨rfl, rfl⟩⟩
  | some r =>
      rw [hp] at h
      dsimp only at h
      split at h
      · rename_i hexp
        obtain ⟨v₁, hlog, h⟩ := bind_ok.mp h
        cases h
        exact ⟨⟨_, _, _, hlog⟩, Or.inr ⟨r, rfl, Or.inl ⟨Or.inl hexp, rfl⟩⟩⟩
      · rename_i hexp
        split at h
        · rename_i d hscope
          obtain ⟨v₁, hlog, h⟩ := bind_ok.mp h
          cases h
          refine ⟨⟨_, _, _, hlog⟩, Or.inr ⟨r, rfl, Or.inl ⟨Or.inr ?_, rfl⟩⟩⟩
          exact congrArg Prod.fst hscope
        · rename_i d hscope
          obtain ⟨value, hdec, h⟩ := bind_ok.mp h
          obtain ⟨v₁, hlog, h⟩ := bind_ok.mp h
          cases h
          refine ⟨⟨_, _, _, hlog⟩, Or.inr ⟨r, rfl, Or.inr ⟨not_le.mp hexp, ?_, value, hdec, rfl⟩⟩⟩
          exact congrArg Prod.fst hscope

/-- A call never writes `token_vault`. -/
theorem detokenize_frame (env : Env) (fetch : FetchOne) (v : Db) (sid : String)
    (label : Text) (role purpose : Option String) :
    (detokenize env fetch v sid label role purpose).2.rows = v.rows ∧
      (detokenize env fetch v sid label role purpose).2.now = v.now ∧
      (detokenize env fetch v sid label role purpose).2.nextId = v.nextId := by
  unfold detokenize
  cases hb : detokenizeBody env fetch v sid label role purpose with
  | error e => exact ⟨rfl, rfl, rfl⟩
  | ok res =>
      obtain ⟨⟨_, _, _, hlog⟩, _⟩ := detokenizeBody_cases hb
      exact logAccess_ok hlog

/-- A plaintext comes from an unexpired, unrevoked row of the session that
carries the label and whose scope admits the requester. -/
theorem detokenize_some {env : Env} {fetch : FetchOne} {v : Db} {sid : String}
    {label : Text} {role purpose : Option String} {value : Text}
    (h : (detokenize env fetch v sid label role purpose).1 = some value) :
    ∃ r ∈ selectByLabel v.rows (env.coerce sid) label, v.now < r.expiresAt ∧
      (scopeAllows r.accessScope role purpose).1 = true ∧
      env.decrypt r.cipherValue = .ok value := by
  unfold detokenize at h
  cases hb : detokenizeBody env fetch v sid label role purpose with
  | error e => rw [hb] at h; cases h
  | ok res =>
      obtain ⟨result, v'⟩ := res
      rw [hb] at h
      obtain rfl : result = some value := h
      obtain ⟨-, ⟨-, hnone⟩ | ⟨r, hpick, ⟨-, hnone⟩ | ⟨hlive, hscope, w, hdec, hw⟩⟩⟩ :=
        detokenizeBody_cases hb
      · cases hnone
      · cases hnone
      · cases hw
        exact ⟨r, fetch.pick_mem hpick, hlive, hscope, hdec⟩

/-- What a scope grants: each axis lists the requester or `*`. -/
def AccessScope.Admits (scope : AccessScope) (role purpose : Option String) : Prop :=
  ("*" ∈ scope.roles.getD [] ∨ ∃ r ∈ role, r ∈ scope.roles.getD []) ∧
    ("*" ∈ scope.purposes.getD [] ∨ ∃ p ∈ purpose, p ∈ scope.purposes.getD [])

instance (scope : AccessScope) (role purpose : Option String) :
    Decidable (scope.Admits role purpose) := inferInstanceAs (Decidable (_ ∧ _))

theorem scopeAllows_iff (scope : AccessScope) (role purpose : Option String) :
    (scopeAllows scope role purpose).1 = true ↔ scope.Admits role purpose := by
  unfold scopeAllows AccessScope.Admits
  dsimp only
  split
  · rename_i h
    exact iff_of_false Bool.false_ne_true fun hc => h hc.1
  · rename_i h
    split
    · rename_i h'
      exact iff_of_false Bool.false_ne_true fun hc => h' hc.2
    · rename_i h'
      exact iff_of_true rfl ⟨not_not.mp h, not_not.mp h'⟩

end DlpServer.Vault
