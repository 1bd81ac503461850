import DlpServer.Vault.Frames

/-!
# What some sessions see of the vault

The rows and the access log of the sessions that a predicate picks, without the random
`token_id`s. A call of one of these sessions answers by what they see and changes it by
what they see; a call of another session leaves it alone.
-/

namespace DlpServer.Vault

open Ids

/-! ## Views -/

/-- A row without its random key. -/
def Row.anonymous (r : Row) : Row := { r with tokenId := 0 }

def AccessLogRow.anonymous (a : AccessLogRow) : AccessLogRow := { a with tokenId := 0 }

structure View where
  rows : List Row
  accessLog : List AccessLogRow
  now : Time
deriving DecidableEq

/-- What the sessions of `mine` see. -/
def Db.view (mine : Uuid → Bool) (v : Db) : View where
  rows := (v.rows.filter fun r => mine r.sessionId).map Row.anonymous
  accessLog := (v.accessLog.filter fun a => mine a.sessionId).map AccessLogRow.anonymous
  now := v.now

/-- The row that the database picks does not depend on the random keys. -/
def FetchOne.Blind (fetch : FetchOne) : Prop :=
  ∀ rs rs' : List Row, rs.map Row.anonymous = rs'.map Row.anonymous →
    (fetch.pick rs).map Row.anonymous = (fetch.pick rs').map Row.anonymous

theorem FetchOne.first_blind : FetchOne.first.Blind := by
  intro rs rs' h
  show rs.head?.map _ = rs'.head?.map _
  rw [← List.head?_map, h, List.head?_map]

/-! ## The statements -/

section Statements

variable {mine : Uuid → Bool} {s : Uuid}

/-- A statement that asks for a session of `mine` is answered by the view. -/
theorem filter_view (hs : mine s = true) {p : Row → Bool}
    (hp : ∀ r, p r = true → r.sessionId = s) (hanon : ∀ r, p r.anonymous = p r) (rows : List Row) :
    (rows.filter p).map Row.anonymous =
      ((rows.filter fun r => mine r.sessionId).map Row.anonymous).filter p := by
  rw [List.filter_map, List.filter_filter]
  congr 1
  refine List.filter_congr fun r _ => ?_
  show p r = (p r.anonymous && mine r.sessionId)
  rw [hanon]
  cases hpr : p r with
  | false => rfl
  | true => rw [hp r hpr, hs]; rfl

theorem selectActive_view (hs : mine s = true) (h : Text) (rows : List Row) :
    (selectActive rows s h).map Row.anonymous =
      selectActive ((rows.filter fun r => mine r.sessionId).map Row.anonymous) s h := by
  unfold selectActive
  rw [← List.head?_filter, ← List.head?_filter, ← List.head?_map,
    filter_view hs (fun r hr => (Row.holds_iff.mp hr).1) (fun _ => rfl)]

theorem countRows_view (hs : mine s = true) (etype : String) (rows : List Row) :
    countRows rows s etype =
      countRows ((rows.filter fun r => mine r.sessionId).map Row.anonymous) s etype := by
  unfold countRows
  rw [List.countP_eq_length_filter, List.countP_eq_length_filter,
    ← filter_view hs (fun r hr => (Row.counts_iff.mp hr).1) (fun _ => rfl), List.length_map]

theorem selectByLabel_view (hs : mine s = true) (label : Text) (rows : List Row) :
    (selectByLabel rows s label).map Row.anonymous =
      selectByLabel ((rows.filter fun r => mine r.sessionId).map Row.anonymous) s label :=
  filter_view hs (fun _ hr => (Row.carries_iff.mp hr).1) (fun _ => rfl) rows

/-- Revoking by what the view shows. -/
theorem revokeWhere_view (p p' : Row → Bool)
    (hanon : ∀ r, mine r.sessionId = true → p r = p' r.anonymous) (now : Time) (rows : List Row) :
    ((revokeWhere p now rows).filter fun r => mine r.sessionId).map Row.anonymous =
      revokeWhere p' now ((rows.filter fun r => mine r.sessionId).map Row.anonymous) := by
  unfold revokeWhere
  rw [List.filter_map, List.map_map, List.map_map]
  have hfilter : rows.filter ((fun r => mine r.sessionId) ∘ fun r : Row =>
      if (p r && r.revokedAt.isNone) = true then { r with revokedAt := some now } else r) =
      rows.filter fun r => mine r.sessionId := by
    refine List.filter_congr fun r _ => ?_
    show mine (if _ then _ else _ : Row).sessionId = _
    split <;> rfl
  rw [hfilter]
  refine List.map_congr_left fun r hr => ?_
  show Row.anonymous (if _ then _ else _) = if _ then _ else _
  rw [hanon r (by simpa using (List.mem_filter.mp hr).2)]
  show Row.anonymous (if (p' r.anonymous && r.revokedAt.isNone) = true then _ else _) =
    if (p' r.anonymous && r.revokedAt.isNone) = true then _ else _
  split <;> rfl

end Statements

/-! ## Two vaults that look the same -/

section Calls

variable {env : Env} {mine : Uuid → Bool} {sid : String}

theorem view_append (mine : Uuid → Bool) (v : Db) (r : Row) (next : ℕ) :
    Db.view mine { v with rows := v.rows ++ [r], nextId := next } =
      { v.view mine with
        rows := (v.view mine).rows ++ if mine r.sessionId then [r.anonymous] else [] } := by
  unfold Db.view
  rw [View.mk.injEq]
  refine ⟨?_, rfl, rfl⟩
  rw [List.filter_append, List.map_append, List.filter_singleton]
  cases mine r.sessionId with
  | true => rfl
  | false => rfl

/-- The checks of the schema do not look at the key. -/
theorem checkRow_key (r : Row) (n : ℕ) :
    checkRow { r with tokenId := n } = (checkRow r).map fun r => { r with tokenId := n } := by
  unfold checkRow
  dsimp only
  cases varchar 64 r.tokenLabel with
  | error e => rfl
  | ok label =>
      cases jsonbScope r.accessScope with
      | error e => rfl
      | ok scope =>
          simp only [bind, Except.bind]
          split <;> rfl

theorem checkRow_keeps {r r' : Row} (h : checkRow r = .ok r') :
    r'.sessionId = r.sessionId ∧ r'.valueHash = r.valueHash := by
  obtain ⟨label, -, h⟩ := bind_ok.mp h
  obtain ⟨scope, -, h⟩ := bind_ok.mp h
  split at h
  · cases h
    exact ⟨rfl, rfl⟩
  · cases h

/-- Two results of `tokenize` that the sessions of `mine` cannot tell apart. -/
def SameResult (mine : Uuid → Bool) (x y : Except VaultError (Text × Db)) : Prop :=
  (∃ e, x = .error e ∧ y = .error e) ∨
    ∃ label v v', x = .ok (label, v) ∧ y = .ok (label, v') ∧ v.view mine = v'.view mine

/-- Two active rows of a value that look the same. -/
theorem selectActive_same {v v' : Db} (h : v.view mine = v'.view mine)
    (hmine : mine (env.coerce sid) = true) (hash : Text) :
    (selectActive v.rows (env.coerce sid) hash).map Row.anonymous =
      (selectActive v'.rows (env.coerce sid) hash).map Row.anonymous := by
  rw [selectActive_view hmine, selectActive_view hmine]
  exact congrArg (fun view => selectActive view.rows (env.coerce sid) hash) h

theorem countRows_same {v v' : Db} (h : v.view mine = v'.view mine)
    (hmine : mine (env.coerce sid) = true) (etype : String) :
    countRows v.rows (env.coerce sid) etype = countRows v'.rows (env.coerce sid) etype := by
  rw [countRows_view hmine, countRows_view hmine etype v'.rows]
  exact congrArg (fun view => countRows view.rows (env.coerce sid) etype) h

theorem now_same {v v' : Db} (h : v.view mine = v'.view mine) : v.now = v'.now :=
  congrArg View.now h

/-- A new row goes in alike where no row of its value is active. -/
theorem insertRow_same (env : Env) {v v' : Db} (h : v.view mine = v'.view mine) {now : Time} {s : Uuid}
    {etype : String} {label : Text} {blob : Blob} {hash : Text} {scope : AccessScope}
    (hs : selectActive v.rows s hash = none) (hs' : selectActive v'.rows s hash = none)
    (n n' : ℕ) :
    (∃ e, insertRow v (newRow env n now s etype label blob hash scope) = .error e ∧
        insertRow v' (newRow env n' now s etype label blob hash scope) = .error e) ∨
      ∃ label' w w',
        insertRow v (newRow env n now s etype label blob hash scope) = .ok (some label', w) ∧
        insertRow v' (newRow env n' now s etype label blob hash scope) = .ok (some label', w') ∧
        w.view mine = w'.view mine := by
  have hkey := checkRow_key (newRow env 0 now s etype label blob hash scope)
  have hkeep : ∀ r, checkRow (newRow env 0 now s etype label blob hash scope) = .ok r →
      r.sessionId = s ∧ r.valueHash = hash := fun _ => checkRow_keeps
  change ∀ k, checkRow (newRow env k now s etype label blob hash scope) = _ at hkey
  unfold insertRow
  rw [hkey n, hkey n']
  cases hcheck : checkRow (newRow env 0 now s etype label blob hash scope) with
  | error e => exact Or.inl ⟨e, rfl, rfl⟩
  | ok r₁ =>
      obtain ⟨hsession, hhash⟩ := hkeep r₁ hcheck
      simp only [bind, Except.bind, Except.map, hsession, hhash, hs, hs']
      refine Or.inr ⟨_, _, _, rfl, rfl, ?_⟩
      rw [view_append, view_append, h]
      rfl

/-- **`tokenize` answers by the view.** -/
theorem tokenize_same {v v' : Db} (h : v.view mine = v'.view mine)
    (hmine : mine (env.coerce sid) = true) (nonce : Nonce) (et : String) (value : Text)
    (scope : Option AccessScope) :
    SameResult mine (tokenize env nonce v sid et value scope)
      (tokenize env nonce v' sid et value scope) := by
  have hselect := selectActive_same h hmine
    (env.hash sid (env.normalizeEntityType et) value)
  have hcount := countRows_same h hmine (env.normalizeEntityType et)
  have hnow := now_same h
  unfold tokenize
  dsimp only
  rw [← hcount, ← hnow]
  cases hs : selectActive v.rows (env.coerce sid)
      (env.hash sid (env.normalizeEntityType et) value) with
  | some r =>
      rw [hs] at hselect
      obtain ⟨r', hs', hr'⟩ := Option.map_eq_some_iff.mp hselect.symm
      rw [hs']
      have hlabel : r'.anonymous.tokenLabel = r.anonymous.tokenLabel :=
        congrArg Row.tokenLabel hr'
      change r'.tokenLabel = r.tokenLabel at hlabel
      exact Or.inr ⟨r.tokenLabel, v, v', rfl, by rw [← hlabel], h⟩
  | none =>
      rw [hs] at hselect
      have hs' := Option.map_eq_none_iff.mp hselect.symm
      rw [hs']
      dsimp only
      cases env.encrypt nonce value with
      | error e => exact Or.inl ⟨e, rfl, rfl⟩
      | ok blob =>
          simp only [bind, Except.bind]
          rcases insertRow_same env h hs hs' v.nextId v'.nextId with
            ⟨e, he, he'⟩ | ⟨label, w, w', hw, hw', hsame⟩
          · rw [he, he']
            exact Or.inl ⟨e, rfl, rfl⟩
          · rw [hw, hw']
            exact Or.inr ⟨label, w, w', rfl, rfl, hsame⟩

theorem tokenize_foreign {nonce : Nonce} {v v' : Db} {et : String} {value label : Text}
    {scope : Option AccessScope} (hforeign : mine (env.coerce sid) = false)
    (h : tokenize env nonce v sid et value scope = .ok (label, v')) :
    v'.view mine = v.view mine := by
  rcases tokenize_cases h with ⟨r, -, -, rfl⟩ | ⟨-, -, -, blob, r, -, -, hr, rfl⟩
  · rfl
  · have hsession : r.sessionId = env.coerce sid := by rw [hr]; rfl
    rw [view_append, hsession, hforeign]
    show View.mk _ _ _ = _
    rw [if_neg Bool.false_ne_true, List.append_nil]

/-! ## Restoring -/

/-- An attempt of a session of `mine` is logged alike, whichever row it met. -/
theorem logAccess_same (env : Env) (sid : String) {v v' : Db} (h : v.view mine = v'.view mine)
    (id id' : ℕ) (label : Text)
    (role purpose : Option String) (granted : Bool) (deniedReason : Option String) :
    (∃ e, logAccess env v id sid label role purpose granted deniedReason = .error e ∧
        logAccess env v' id' sid label role purpose granted deniedReason = .error e) ∨
      ∃ w w', logAccess env v id sid label role purpose granted deniedReason = .ok w ∧
        logAccess env v' id' sid label role purpose granted deniedReason = .ok w' ∧
        w.view mine = w'.view mine := by
  unfold logAccess
  cases varchar 64 label with
  | error e => exact Or.inl ⟨e, rfl, rfl⟩
  | ok label =>
      cases varchar 64 (role.getD "").toList with
      | error e => exact Or.inl ⟨e, rfl, rfl⟩
      | ok requestedRole =>
          cases nullable purpose with
          | error e => exact Or.inl ⟨e, rfl, rfl⟩
          | ok requestedPurpose =>
              refine Or.inr ⟨_, _, rfl, rfl, ?_⟩
              have hlog := congrArg View.accessLog h
              unfold Db.view
              rw [View.mk.injEq]
              refine ⟨congrArg View.rows h, ?_, show v.now = v'.now from now_same h⟩
              rw [List.filter_append, List.filter_append, List.map_append, List.map_append]
              show (v.view mine).accessLog ++ _ = (v'.view mine).accessLog ++ _
              rw [hlog, List.filter_singleton, List.filter_singleton]
              dsimp only
              cases mine (env.coerce sid) <;> rfl

theorem logAccess_foreign {v v' : Db} {id : ℕ} {label : Text} {role purpose : Option String}
    {granted : Bool} {deniedReason : Option String} (hforeign : mine (env.coerce sid) = false)
    (h : logAccess env v id sid label role purpose granted deniedReason = .ok v') :
    v'.view mine = v.view mine := by
  obtain ⟨_, -, h⟩ := bind_ok.mp h
  obtain ⟨_, -, h⟩ := bind_ok.mp h
  obtain ⟨_, -, h⟩ := bind_ok.mp h
  cases h
  unfold Db.view
  rw [View.mk.injEq]
  refine ⟨rfl, ?_, rfl⟩
  rw [List.filter_append, List.filter_singleton]
  dsimp only
  rw [hforeign]
  exact congrArg _ (List.append_nil _)

/-- What `detokenize` makes of its transaction: an exception rolls it back. -/
def rollBack (v : Db) : Except VaultError (Option Text × Db) → Option Text × Db
  | .ok result => result
  | .error _ => (none, v)

theorem detokenize_eq (fetch : FetchOne) (v : Db) (label : Text) (role purpose : Option String) :
    detokenize env fetch v sid label role purpose =
      rollBack v (detokenizeBody env fetch v sid label role purpose) := by
  unfold detokenize
  cases detokenizeBody env fetch v sid label role purpose <;> rfl

/-- An outcome that is logged looks the same. -/
theorem logged_same {v v' : Db} (h : v.view mine = v'.view mine) (id id' : ℕ) (label : Text)
    (role purpose : Option String) (granted : Bool) (deniedReason : Option String)
    (result : Option Text) :
    (rollBack v (logAccess env v id sid label role purpose granted deniedReason >>=
        fun w => .ok (result, w))).1 =
        (rollBack v' (logAccess env v' id' sid label role purpose granted deniedReason >>=
          fun w => .ok (result, w))).1 ∧
      (rollBack v (logAccess env v id sid label role purpose granted deniedReason >>=
          fun w => .ok (result, w))).2.view mine =
        (rollBack v' (logAccess env v' id' sid label role purpose granted deniedReason >>=
          fun w => .ok (result, w))).2.view mine := by
  rcases logAccess_same env sid h id id' label role purpose granted
    deniedReason with ⟨e, he, he'⟩ | ⟨w, w', hw, hw', hsame⟩
  · rw [he, he']
    exact ⟨rfl, h⟩
  · rw [hw, hw']
    exact ⟨rfl, hsame⟩

/-- **`detokenize` answers by the view.** -/
theorem detokenize_same {v v' : Db} (h : v.view mine = v'.view mine)
    (hmine : mine (env.coerce sid) = true) {fetch : FetchOne} (hblind : fetch.Blind) (label : Text)
    (role purpose : Option String) :
    (detokenize env fetch v sid label role purpose).1 =
        (detokenize env fetch v' sid label role purpose).1 ∧
      (detokenize env fetch v sid label role purpose).2.view mine =
        (detokenize env fetch v' sid label role purpose).2.view mine := by
  have hrows : (selectByLabel v.rows (env.coerce sid) label).map Row.anonymous =
      (selectByLabel v'.rows (env.coerce sid) label).map Row.anonymous := by
    rw [selectByLabel_view hmine, selectByLabel_view hmine]
    exact congrArg (fun view => selectByLabel view.rows (env.coerce sid) label) h
  have hpick := hblind _ _ hrows
  rw [detokenize_eq, detokenize_eq, detokenizeBody, detokenizeBody, ← now_same h]
  cases hp : fetch.pick (selectByLabel v.rows (env.coerce sid) label) with
  | none =>
      rw [hp] at hpick
      rw [Option.map_eq_none_iff.mp hpick.symm]
      exact logged_same h _ _ label role purpose _ _ _
  | some row =>
      rw [hp] at hpick
      obtain ⟨row', hp', hanon⟩ := Option.map_eq_some_iff.mp hpick.symm
      have hexpires : row'.expiresAt = row.expiresAt := by
        have := congrArg Row.expiresAt hanon
        exact this
      have hscope : resolveScope row' = resolveScope row := by
        have := congrArg Row.accessScope hanon
        exact this
      have hcipher : row'.cipherValue = row.cipherValue := by
        have := congrArg Row.cipherValue hanon
        exact this
      rw [hp']
      dsimp only
      rw [hexpires, hscope, hcipher]
      by_cases hlive : row.expiresAt ≤ v.now
      · rw [if_pos hlive, if_pos hlive]
        exact logged_same h _ _ label role purpose _ _ _
      · rw [if_neg hlive, if_neg hlive]
        obtain ⟨allowed, denied⟩ := scopeAllows (resolveScope row) role purpose
        cases allowed with
        | false => exact logged_same h _ _ label role purpose _ _ _
        | true =>
            dsimp only
            cases env.decrypt row.cipherValue with
            | error e => exact ⟨rfl, h⟩
            | ok value => exact logged_same h _ _ label role purpose _ _ _

theorem detokenize_foreign (hforeign : mine (env.coerce sid) = false) (fetch : FetchOne) (v : Db)
    (label : Text) (role purpose : Option String) :
    (detokenize env fetch v sid label role purpose).2.view mine = v.view mine := by
  rw [detokenize_eq]
  cases hbody : detokenizeBody env fetch v sid label role purpose with
  | error e => rfl
  | ok result =>
      obtain ⟨⟨_, _, _, hlog⟩, -⟩ := detokenizeBody_cases hbody
      exact logAccess_foreign hforeign hlog

/-- **`detokenize_text` answers by the view.** -/
theorem detokenizeText_same {v v' : Db} (h : v.view mine = v'.view mine)
    (hmine : mine (env.coerce sid) = true) {fetch : ℕ → FetchOne} (hblind : ∀ k, (fetch k).Blind)
    (text : Text) (role purpose : Option String) :
    (detokenizeText env fetch v sid text role purpose).1 =
        (detokenizeText env fetch v' sid text role purpose).1 ∧
      (detokenizeText env fetch v sid text role purpose).2.view mine =
        (detokenizeText env fetch v' sid text role purpose).2.view mine := by
  have hstep : ∀ (label : Text) (s t : ℕ × Db), s.1 = t.1 ∧ s.2.view mine = t.2.view mine →
      (restoreLabel env fetch sid role purpose label s).1 =
          (restoreLabel env fetch sid role purpose label t).1 ∧
        (restoreLabel env fetch sid role purpose label s).2.1 =
            (restoreLabel env fetch sid role purpose label t).2.1 ∧
          (restoreLabel env fetch sid role purpose label s).2.2.view mine =
            (restoreLabel env fetch sid role purpose label t).2.2.view mine := by
    rintro label ⟨k, s⟩ ⟨k', t⟩ ⟨hk, hsame⟩
    obtain rfl : k = k' := hk
    obtain ⟨hanswer, hview⟩ := detokenize_same hsame hmine (hblind k) label role purpose
    exact ⟨congrArg (fun answer => answer.getD label) hanswer, rfl, hview⟩
  have hsub := Regex.Pattern.sub_rel (r := tokenLabelRe env.unicode)
    (R := fun s t => s.1 = t.1 ∧ s.2.view mine = t.2.view mine) hstep text (s := (0, v))
    (t := (0, v')) ⟨rfl, h⟩
  exact ⟨hsub.1, hsub.2.2⟩

theorem detokenizeText_foreign (hforeign : mine (env.coerce sid) = false) (fetch : ℕ → FetchOne)
    (v : Db) (text : Text) (role purpose : Option String) :
    (detokenizeText env fetch v sid text role purpose).2.view mine = v.view mine := by
  have hstep : ∀ (label : Text) (s t : ℕ × Db), s = t ∧ s.2.view mine = v.view mine →
      (restoreLabel env fetch sid role purpose label s).1 =
          (restoreLabel env fetch sid role purpose label t).1 ∧
        (restoreLabel env fetch sid role purpose label s).2 =
            (restoreLabel env fetch sid role purpose label t).2 ∧
          (restoreLabel env fetch sid role purpose label s).2.2.view mine = v.view mine := by
    rintro label ⟨k, s⟩ _ ⟨rfl, hview⟩
    exact ⟨rfl, rfl, (detokenize_foreign hforeign (fetch k) s label role purpose).trans hview⟩
  have hsub := Regex.Pattern.sub_rel (r := tokenLabelRe env.unicode)
    (R := fun s t => s = t ∧ s.2.view mine = v.view mine) hstep text (s := (0, v)) (t := (0, v))
    ⟨rfl, rfl⟩
  exact hsub.2.2

/-! ## Revoking and purging -/

/-- The view after the rows that `p` picks were revoked. -/
def View.revoke (p : Row → Bool) (view : View) : View :=
  { view with rows := revokeWhere p view.now view.rows }

theorem revokeSession_view (v : Db) :
    (revokeSession env v sid).view mine =
      (v.view mine).revoke fun r => r.sessionId == env.coerce sid := by
  show View.mk _ _ _ = View.mk _ _ _
  rw [View.mk.injEq]
  exact ⟨revokeWhere_view _ (fun r => r.sessionId == env.coerce sid) (fun _ _ => rfl) v.now v.rows,
    rfl, rfl⟩

theorem View.revoke_congr {p q : Row → Bool} {view : View} (h : ∀ r ∈ view.rows, p r = q r) :
    view.revoke p = view.revoke q := by
  unfold View.revoke revokeWhere
  rw [List.map_congr_left fun r hr => by rw [h r hr]]

/-- Two rounds of revoking at one instant are one. -/
theorem View.revoke_revoke (p q : Row → Bool) (hkey : ∀ r t, q { r with revokedAt := t } = q r)
    (view : View) : (view.revoke p).revoke q = view.revoke fun r => p r || q r := by
  unfold View.revoke revokeWhere
  rw [View.mk.injEq]
  refine ⟨?_, rfl, rfl⟩
  dsimp only
  rw [List.map_map]
  refine List.map_congr_left fun r _ => ?_
  by_cases hr : r.revokedAt = none
  · by_cases hp : p r = true
    · simp [hp, hr, hkey]
    · simp [hp, hr]
  · simp [hr]

theorem View.revoke_none {p : Row → Bool} {view : View} (h : ∀ r ∈ view.rows, p r = false) :
    view.revoke p = view := by
  unfold View.revoke revokeWhere
  rw [List.map_congr_left fun r hr => by rw [h r hr, Bool.false_and, if_neg Bool.false_ne_true],
    List.map_id']

theorem view_sessionId {v : Db} {r : Row} (hr : r ∈ (v.view mine).rows) :
    mine r.sessionId = true := by
  obtain ⟨r₀, hr₀, rfl⟩ := List.mem_map.mp hr
  exact (List.mem_filter.mp hr₀).2

theorem revokeSession_foreign (hforeign : mine (env.coerce sid) = false) (v : Db) :
    (revokeSession env v sid).view mine = v.view mine := by
  rw [revokeSession_view]
  refine View.revoke_none fun r hr => ?_
  rw [beq_eq_false_iff_ne]
  rintro heq
  rw [← heq, view_sessionId hr] at hforeign
  cases hforeign

/-- **`purge_expired` works on the view.** -/
theorem purgeExpired_view (v : Db) :
    (purgeExpired v).view mine =
      { v.view mine with
        rows := ((v.view mine).revoke fun r => decide (r.expiresAt < v.now)).rows.filter
          fun r => !r.graceOver v.now } := by
  have hrevoke : ((revokeWhere (fun r => decide (r.expiresAt < v.now)) v.now v.rows).filter
      fun r => mine r.sessionId).map Row.anonymous = _ :=
    revokeWhere_view _ (fun r => decide (r.expiresAt < v.now)) (fun _ _ => rfl) v.now v.rows
  show View.mk _ _ _ = View.mk _ _ _
  rw [View.mk.injEq]
  refine ⟨?_, rfl, rfl⟩
  show _ = (revokeWhere _ v.now ((v.rows.filter _).map _)).filter _
  rw [← hrevoke, List.filter_map, List.filter_filter, purgeExpired, List.filter_filter]
  congr 1
  exact List.filter_congr fun r _ => Bool.and_comm _ _

end Calls

end DlpServer.Vault
