import DlpServer.Vault.History

/-!
# Who gets a value back

Two results about `detokenize`. In every run a plaintext is returned on the
authority of the call that stored it (`restored_with_authority`). The converse,
that a label just handed out restores exactly for the scope of the call, holds
of a fresh row; `tokenize` also hands out the label of an older row, whose scope
and expiry are those of the older call. `restorable_by_scope_iff` says when a
label handed out is restorable by the scope asked for.
-/

namespace DlpServer.Vault

open Ids Runs

variable {env : Env} {start : Time}

/-! ## Rows of a run -/

/-- An active row is the row that was minted, unchanged. -/
theorem active_row_minted {ops : List Op} {r : Row} (hr : r ∈ (runFrom env start ops).rows)
    (hact : r.revokedAt = none) : ∃ m ∈ mints env start ops, r = m.row := by
  obtain ⟨m, hm, hborn⟩ := row_minted hr
  refine ⟨m, hm, ?_⟩
  rw [← hborn, Row.born, ← hact]

theorem row_decrypts {ops : List Op} {r : Row} (hr : r ∈ (runFrom env start ops).rows) :
    ∃ w, env.decrypt r.cipherValue = .ok w := by
  obtain ⟨m, hm, hborn⟩ := row_minted hr
  obtain ⟨-, -, -, -, hdec⟩ := mint_columns hm
  refine ⟨m.value, ?_⟩
  rw [← hborn] at hdec
  exact hdec

theorem row_label_fits {ops : List Op} {r : Row} (hr : r ∈ (runFrom env start ops).rows) :
    varchar 64 r.tokenLabel = .ok r.tokenLabel := by
  obtain ⟨m, hm, hborn⟩ := row_minted hr
  obtain ⟨pre, op, post, -, hmint⟩ := mem_mints.mp hm
  obtain ⟨_, _, _, -, -, -, -, hfits, -⟩ := mintBy_spec hmint
  rw [← hborn] at hfits
  exact hfits

/-! ## Authority -/

/-- The authority for giving `value` back after the run `ops`: a call of the
run for a session of the same UUID inserted a row with this label, its scope
admits the requester, and the row is still there, unrevoked and unexpired. -/
def Authorized (env : Env) (start : Time) (ops : List Op) (sid : String) (label : Text)
    (role purpose : Option String) (value : Text) : Prop :=
  ∃ pre nonce sid' et scope post row,
    ops = pre ++ .tokenize nonce sid' et value scope :: post ∧
    env.coerce sid' = env.coerce sid ∧
    (runFrom env start (pre ++ [.tokenize nonce sid' et value scope])).rows =
      (runFrom env start pre).rows ++ [row] ∧
    row.tokenLabel = label ∧ row.accessScope = scope.getD .default ∧
    (scope.getD .default).Admits role purpose ∧
    row ∈ (runFrom env start ops).rows ∧ row.revokedAt = none ∧
    (runFrom env start ops).now < row.expiresAt

/-- **No restoration without authority.** -/
theorem restored_with_authority (env : Env) (start : Time) (ops : List Op)
    (fetch : FetchOne) (sid : String) (label : Text) (role purpose : Option String)
    (value : Text)
    (h : (detokenize env fetch (runFrom env start ops) sid label role purpose).1 =
      some value) :
    Authorized env start ops sid label role purpose value := by
  obtain ⟨r, hr, hlive, hscope, hdec⟩ := detokenize_some h
  obtain ⟨hr, hrs, hrl, hact⟩ := mem_selectByLabel.mp hr
  obtain ⟨m, hm, hrow⟩ := active_row_minted hr hact
  obtain ⟨hms, -, -, -, hmdec⟩ := mint_columns hm
  have hval : m.value = value := by
    rw [← hrow, hdec] at hmdec
    exact (Except.ok.inj hmdec).symm
  obtain ⟨pre, op, post, hops, hmint⟩ := mem_mints.mp hm
  obtain ⟨nonce, et, scope, rfl, -, -, hone, -, blob, -, hnew⟩ := mintBy_spec hmint
  have hsc : r.accessScope = scope.getD .default := by
    rw [hrow, hnew]
    rfl
  rw [hval] at hops hone
  refine ⟨pre, nonce, m.sessionId, et, scope, post, r, hops, ?_, ?_, hrl, hsc, ?_, hr, hact,
    hlive⟩
  · rw [← hms, ← hrow, hrs]
  · show (run (step env) (Db.empty start) (pre ++ [_])).rows = _
    rw [run_snoc]
    rcases step_rows (run (step env) (Db.empty start) pre)
      (.tokenize nonce m.sessionId et value scope) with ⟨hrows, -⟩ | ⟨_, _, hnil, -⟩
    · rw [hrows, hone, hrow]
      rfl
    · rw [hnil] at hone
      cases hone
  · rw [← hsc]
    exact (scopeAllows_iff _ _ _).mp hscope

/-- A number is stored for one role and read by it. -/
theorem restored_with_authority_sample :
    Authorized .sample 0
      [.tokenize .zero "s" "RRN" "900101-1234567".toList (some ⟨some ["agent_l1"], some ["*"]⟩)]
      "s" "<PII:RRN:1>".toList (some "agent_l1") none "900101-1234567".toList :=
  restored_with_authority .sample 0 _ .first "s" _ (some "agent_l1") none _ (by decide +kernel)

/-! ## What one row gives -/

/-- The attempt can be written to the access log: the role fits its column and
no text holds NUL. Else the call raises and answers `None`. -/
def Loggable (role purpose : Option String) : Prop :=
  (∃ t, varchar 64 (role.getD "").toList = .ok t) ∧ ∃ t, nullable purpose = .ok t

/-- The requesters a scope admits. -/
def readers (scope : AccessScope) : Set (Option String × Option String) :=
  {p | Loggable p.1 p.2 ∧ scope.Admits p.1 p.2}

theorem logAccess_loggable (env : Env) (v : Db) (id : ℕ) (sid : String) {label : Text}
    {role purpose : Option String} (g : Bool) (d : Option String)
    (hlabel : varchar 64 label = .ok label) (hlog : Loggable role purpose) :
    ∃ v', logAccess env v id sid label role purpose g d = .ok v' := by
  obtain ⟨⟨t, ht⟩, ⟨t', ht'⟩⟩ := hlog
  unfold logAccess
  rw [hlabel, ht, ht']
  exact ⟨_, rfl⟩

/-- The outcome of a loggable attempt, by the row fetched. -/
theorem detokenize_fetched {fetch : FetchOne} {v : Db} {sid : String} {label : Text}
    {role purpose : Option String} {r : Row} {w : Text}
    (hlabel : varchar 64 label = .ok label) (hlog : Loggable role purpose)
    (hpick : fetch.pick (selectByLabel v.rows (env.coerce sid) label) = some r)
    (hdec : env.decrypt r.cipherValue = .ok w) :
    (detokenize env fetch v sid label role purpose).1 =
      if v.now < r.expiresAt ∧ r.accessScope.Admits role purpose then some w else none := by
  have hlogged := fun g d => logAccess_loggable env v r.tokenId sid g d hlabel hlog
  have hadmits := scopeAllows_iff r.accessScope role purpose
  unfold detokenize detokenizeBody
  rw [hpick]
  dsimp only [resolveScope]
  by_cases hexp : r.expiresAt ≤ v.now
  · obtain ⟨v', hv'⟩ := hlogged false (some "expired")
    rw [if_pos hexp, hv', if_neg fun hc => absurd hc.1 (not_lt.mpr hexp)]
    rfl
  · rw [if_neg hexp]
    cases hallow : scopeAllows r.accessScope role purpose with
    | mk allowed denied =>
        rw [hallow] at hadmits
        cases allowed with
        | false =>
            obtain ⟨v', hv'⟩ := hlogged false denied
            have hno : ¬ r.accessScope.Admits role purpose := fun hc =>
              Bool.false_ne_true (hadmits.mpr hc)
            rw [if_neg fun hc => hno hc.2]
            simp only [hv', bind, Except.bind]
        | true =>
            obtain ⟨v', hv'⟩ := hlogged true none
            rw [if_pos ⟨not_le.mp hexp, hadmits.mp rfl⟩]
            simp only [hdec, hv', bind, Except.bind]

/-- A row gives what the scope promises: it is unexpired, stores the value and
has the same readers; or nobody is promised anything and nobody gets anything. -/
def Row.Serves (env : Env) (r : Row) (now : Time) (value : Text) (scope : AccessScope) : Prop :=
  (now < r.expiresAt ∧ env.decrypt r.cipherValue = .ok value ∧
      readers r.accessScope = readers scope) ∨
    (readers scope = ∅ ∧ (r.expiresAt ≤ now ∨ readers r.accessScope = ∅))

theorem Row.serves_iff {r : Row} {now : Time} {value w : Text} {scope : AccessScope}
    (hdec : env.decrypt r.cipherValue = .ok w) :
    (∀ role purpose, Loggable role purpose →
      (if now < r.expiresAt ∧ r.accessScope.Admits role purpose then some w else none) =
        if scope.Admits role purpose then some value else none) ↔
      r.Serves env now value scope := by
  constructor
  · intro h
    by_cases hempty : readers scope = ∅
    · refine Or.inr ⟨hempty, ?_⟩
      by_contra hc
      rw [not_or, not_le] at hc
      obtain ⟨⟨role, purpose⟩, hlog, hadm⟩ := Set.nonempty_iff_ne_empty.mpr hc.2
      have hno : ¬ scope.Admits role purpose := fun hs =>
        Set.eq_empty_iff_forall_notMem.mp hempty (role, purpose) ⟨hlog, hs⟩
      have := h role purpose hlog
      rw [if_pos ⟨hc.1, hadm⟩, if_neg hno] at this
      cases this
    · -- A requester who is promised the value fixes expiry and contents of the row.
      obtain ⟨⟨role, purpose⟩, hlog, hadm⟩ := Set.nonempty_iff_ne_empty.mpr hempty
      have hgives := h role purpose hlog
      rw [if_pos hadm] at hgives
      split at hgives
      · rename_i hlive
        cases hgives
        refine Or.inl ⟨hlive.1, hdec, ?_⟩
        ext ⟨role', purpose'⟩
        refine and_congr_right fun hlog' => ?_
        have := h role' purpose' hlog'
        by_cases hr : r.accessScope.Admits role' purpose' <;>
          by_cases hs : scope.Admits role' purpose' <;> simp_all
      · cases hgives
  · rintro (⟨hlive, hval, hsame⟩ | ⟨hempty, hdead⟩) role purpose hlog
    · have hiff : r.accessScope.Admits role purpose ↔ scope.Admits role purpose := by
        have := Set.ext_iff.mp hsame (role, purpose)
        exact ⟨fun hr => (this.mp ⟨hlog, hr⟩).2, fun hs => (this.mpr ⟨hlog, hs⟩).2⟩
      obtain rfl : w = value := Except.ok.inj (hdec ▸ hval)
      simp only [hlive, hiff, true_and]
    · have hno : ¬ scope.Admits role purpose := fun hs =>
        Set.eq_empty_iff_forall_notMem.mp hempty (role, purpose) ⟨hlog, hs⟩
      rw [if_neg hno, if_neg]
      rintro ⟨hlive, hr⟩
      rcases hdead with hexp | hnone
      · exact absurd hlive (not_lt.mpr hexp)
      · exact Set.eq_empty_iff_forall_notMem.mp hnone (role, purpose) ⟨hlog, hr⟩

/-! ## The label just handed out -/

/-- Whoever asks for the label gets the value if the scope admits them, and
nothing else, whichever row with the label is fetched. -/
def RestorableByScope (env : Env) (v : Db) (sid : String) (label value : Text)
    (scope : AccessScope) : Prop :=
  ∀ fetch role purpose, Loggable role purpose →
    (detokenize env fetch v sid label role purpose).1 =
      if scope.Admits role purpose then some value else none

/-- A fetch that returns `r` wherever it can. -/
def FetchOne.prefer (r : Row) : FetchOne where
  pick rs := if r ∈ rs then some r else rs.head?
  pick_mem h := by
    split at h
    · cases h; assumption
    · exact List.mem_of_head? h
  pick_none h := by
    split at h
    · cases h
    · exact List.head?_eq_none_iff.mp h

theorem restorable_iff_rows {v : Db} {sid : String} {label value : Text} {scope : AccessScope}
    (hlabel : varchar 64 label = .ok label)
    (hne : selectByLabel v.rows (env.coerce sid) label ≠ [])
    (hdec : ∀ r ∈ v.rows, ∃ w, env.decrypt r.cipherValue = .ok w) :
    RestorableByScope env v sid label value scope ↔
      ∀ r ∈ selectByLabel v.rows (env.coerce sid) label, r.Serves env v.now value scope := by
  constructor
  · intro h r hr
    obtain ⟨w, hw⟩ := hdec r (mem_selectByLabel.mp hr).1
    rw [← Row.serves_iff hw]
    intro role purpose hlog
    rw [← h (.prefer r) role purpose hlog]
    exact (detokenize_fetched hlabel hlog (if_pos hr) hw).symm
  · intro h fetch role purpose hlog
    cases hpick : fetch.pick (selectByLabel v.rows (env.coerce sid) label) with
    | none => exact absurd (fetch.pick_none hpick) hne
    | some r =>
        have hr := fetch.pick_mem hpick
        obtain ⟨w, hw⟩ := hdec r (mem_selectByLabel.mp hr).1
        rw [detokenize_fetched hlabel hlog hpick hw]
        exact (Row.serves_iff hw).mpr (h r hr) role purpose hlog

/-- The active rows that already carry the label a `tokenize` call is due: that
of the active row of its value, or else that of the next number. -/
def rowsSharing (env : Env) (v : Db) (sid et : String) (value : Text) : List Row :=
  let s := env.coerce sid
  let etype := env.normalizeEntityType et
  match selectActive v.rows s (env.hash sid etype value) with
  | some r => selectByLabel v.rows s r.tokenLabel
  | none => selectByLabel v.rows s (tokenLabel etype (countRows v.rows s etype + 1))

theorem newRow_serves {id : ℕ} {now : Time} {s : Uuid} {etype : String} {label vhash : Text}
    {blob : Blob} {nonce : Nonce} {value : Text} {scope : AccessScope} (httl : 0 < env.vaultTtlSec)
    (hblob : env.encrypt nonce value = .ok blob) :
    (newRow env id now s etype label blob vhash scope).Serves env now value scope := by
  refine Or.inl ⟨?_, decrypt_encrypt hblob, rfl⟩
  have hsec : (0 : ℤ) < second := by decide
  exact Int.lt_add_of_pos_right now (mul_pos httl hsec)

theorem selectByLabel_newRow {rows : List Row} {id : ℕ} {now : Time} {s : Uuid}
    {etype : String} {label vhash : Text} {blob : Blob} {scope : AccessScope} :
    selectByLabel (rows ++ [newRow env id now s etype label blob vhash scope]) s label =
      selectByLabel rows s label ++ [newRow env id now s etype label blob vhash scope] := by
  have hcarries : (newRow env id now s etype label blob vhash scope).carries s label = true :=
    Row.carries_iff.mpr ⟨rfl, rfl, rfl⟩
  simp only [selectByLabel, List.filter_append, List.filter_cons, List.filter_nil, hcarries,
    if_true]

theorem restorable_after_tokenize {v v' : Db} {nonce : Nonce} {sid et : String} {value : Text}
    {scope : Option AccessScope} {label : Text} (httl : 0 < env.vaultTtlSec)
    (hfit : ∀ r ∈ v.rows, varchar 64 r.tokenLabel = .ok r.tokenLabel)
    (hdec : ∀ r ∈ v.rows, ∃ w, env.decrypt r.cipherValue = .ok w)
    (h : tokenize env nonce v sid et value scope = .ok (label, v')) :
    RestorableByScope env v' sid label value (scope.getD .default) ↔
      ∀ r ∈ rowsSharing env v sid et value, r.Serves env v.now value (scope.getD .default) := by
  rcases tokenize_cases h with ⟨r, hr, rfl, rfl⟩ | ⟨hnone, hl, hfits, blob, _, hblob, -, rfl, rfl⟩
  · -- The label of an active row: the table is as before.
    obtain ⟨hmem, hs, -, hact⟩ := selectActive_some hr
    have hself : r ∈ selectByLabel v'.rows (env.coerce sid) r.tokenLabel :=
      mem_selectByLabel.mpr ⟨hmem, hs, rfl, hact⟩
    rw [restorable_iff_rows (hfit r hmem) (List.ne_nil_of_mem hself) hdec, rowsSharing]
    simp only [hr]
  · -- The label of a fresh row, which serves the scope.
    have hshare : rowsSharing env v sid et value =
        selectByLabel v.rows (env.coerce sid) label := by
      simp only [rowsSharing, hnone, hl]
    rw [restorable_iff_rows hfits, hshare]
    · simp only [selectByLabel_newRow, List.forall_mem_append, List.forall_mem_singleton,
        newRow_serves httl hblob, and_true]
    · simp only [selectByLabel_newRow, ne_eq, List.append_ne_nil_of_right_ne_nil,
        List.cons_ne_self, not_false_eq_true]
    · rw [List.forall_mem_append, List.forall_mem_singleton]
      exact ⟨hdec, value, decrypt_encrypt hblob⟩

/-- **A label handed out is restorable by the scope asked for** exactly if every
row that carried it before serves that scope, in every state a run reaches. A
fresh row always does. -/
theorem restorable_by_scope_iff (env : Env) (start : Time) (ops : List Op) (nonce : Nonce)
    (sid et : String) (value : Text) (scope : Option AccessScope) (label : Text) (v' : Db)
    (httl : 0 < env.vaultTtlSec)
    (h : tokenize env nonce (runFrom env start ops) sid et value scope = .ok (label, v')) :
    RestorableByScope env v' sid label value (scope.getD .default) ↔
      ∀ r ∈ rowsSharing env (runFrom env start ops) sid et value,
        r.Serves env (runFrom env start ops).now value (scope.getD .default) :=
  restorable_after_tokenize httl (fun _ hr => row_label_fits hr) (fun _ hr => row_decrypts hr) h

/-- The scope of one role, any purpose. -/
def forRole (role : String) : AccessScope := ⟨some [role], some ["*"]⟩

/-- A vault in which one number is stored for `agent_l1`. -/
def sampleVault : Db :=
  runFrom .sample 0
    [.tokenize .zero "s" "RRN" "900101-1234567".toList (some (forRole "agent_l1"))]

theorem restorable_by_scope_sample :
    RestorableByScope .sample sampleVault "s" "<PII:RRN:1>".toList "900101-1234567".toList
      (forRole "agent_l1") := by
  refine (restorable_by_scope_iff .sample 0 [] .zero "s" "RRN" "900101-1234567".toList
    (some (forRole "agent_l1")) _ _ (by decide) (by decide +kernel)).mpr ?_
  have hnone : rowsSharing .sample (runFrom .sample 0 []) "s" "RRN"
    "900101-1234567".toList = [] := by decide +kernel
  intro r hr
  rw [hnone] at hr
  cases hr

/-- The number tokenized again, for another role: the label handed out is that
of the old row and does not restore for the role asked for. -/
theorem reused_label_keeps_old_scope :
    tokenize .sample .zero sampleVault "s" "RRN" "900101-1234567".toList
        (some (forRole "agent_l2")) = .ok ("<PII:RRN:1>".toList, sampleVault) ∧
      ¬ RestorableByScope .sample sampleVault "s" "<PII:RRN:1>".toList
        "900101-1234567".toList (forRole "agent_l2") := by
  refine ⟨by decide +kernel, ?_⟩
  intro h
  have hlog : Loggable (some "agent_l2") none :=
    ⟨⟨"agent_l2".toList, by decide +kernel⟩, ⟨none, rfl⟩⟩
  exact absurd (h .first (some "agent_l2") none hlog) (by decide +kernel)

end DlpServer.Vault
