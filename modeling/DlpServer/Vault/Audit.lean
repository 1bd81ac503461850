import DlpServer.Vault.Text

/-!
# The access log

`detokenize` logs an attempt in the transaction that reads the row, after the
value is decrypted. What makes the insert or the decryption raise therefore
leaves no trace of the attempt: `attempt_logged_once_iff` says which attempts
are logged, each then once and with its outcome.
-/

namespace DlpServer.Vault

open Ids Regex Runs

variable {env : Env}

/-! ## One row of the log -/

/-- The row can be written when label and requester fit their columns. -/
theorem logAccess_ok_iff {v : Db} {id : ℕ} {sid : String} {label : Text}
    {role purpose : Option String} {g : Bool} {d : Option String} :
    (∃ v', logAccess env v id sid label role purpose g d = .ok v') ↔
      (∃ t, varchar 64 label = .ok t) ∧ Loggable role purpose := by
  unfold logAccess
  constructor
  · rintro ⟨v', h⟩
    obtain ⟨l, hl, h⟩ := bind_ok.mp h
    obtain ⟨r, hr, h⟩ := bind_ok.mp h
    obtain ⟨p, hp, -⟩ := bind_ok.mp h
    exact ⟨⟨l, hl⟩, ⟨r, hr⟩, ⟨p, hp⟩⟩
  · rintro ⟨⟨l, hl⟩, ⟨r, hr⟩, ⟨p, hp⟩⟩
    rw [hl, hr, hp]
    exact ⟨_, rfl⟩

theorem logAccess_row {v v' : Db} {id : ℕ} {sid : String} {label : Text}
    {role purpose : Option String} {g : Bool} {d : Option String}
    (h : logAccess env v id sid label role purpose g d = .ok v') :
    ∃ row, v'.accessLog = v.accessLog ++ [row] ∧ row.granted = g := by
  obtain ⟨_, -, h⟩ := bind_ok.mp h
  obtain ⟨_, -, h⟩ := bind_ok.mp h
  obtain ⟨_, -, h⟩ := bind_ok.mp h
  cases h
  exact ⟨_, rfl, rfl⟩

/-- A label ends in `>`, so its column cuts nothing off. -/
theorem varchar_label {label : Text} {b t : Text}
    (hword : (tokenLabelRe env.unicode).Accepts b label t) :
    (∃ t, varchar 64 label = .ok t) ↔ label.length ≤ 64 := by
  obtain ⟨etype, digits, rfl, ⟨-, htype⟩, ⟨-, hdigits⟩⟩ := tokenLabelRe_accepts.mp hword
  obtain ⟨body, hbody⟩ : ∃ body, ['<', 'P', 'I', 'I', ':'] ++ (etype ++ ([':'] ++
      (digits ++ ['>']))) = body ++ ['>'] := ⟨['<', 'P', 'I', 'I', ':'] ++ etype ++ [':'] ++ digits,
    by simp only [List.append_assoc]⟩
  have hnul : '\x00' ∉ body ++ ['>'] := by
    rw [← hbody]
    simp only [List.mem_append, not_or]
    refine ⟨by decide, fun hc => ?_, by decide, fun hc => ?_, by decide⟩
    · exact absurd (htype _ hc) (by decide)
    · have := hdigits _ hc
      rw [not_decimal_ascii env.unicode (by decide) (by decide)] at this
      cases this
  rw [hbody]
  constructor
  · rintro ⟨t, h⟩
    obtain ⟨-, hblank⟩ := varchar_ok h
    by_contra hlen
    have hlast : '>' ∈ (body ++ ['>']).drop 64 := by
      rw [List.drop_append_of_le_length (by simp at hlen; omega)]
      exact List.mem_append_right _ List.mem_cons_self
    exact absurd (List.all_eq_true.mp hblank '>' hlast) (by decide)
  · intro hlen
    refine ⟨(body ++ ['>']).take 64, if_neg ?_⟩
    rintro (hc | hc)
    · exact hnul hc
    · rw [List.drop_eq_nil_iff.mpr hlen] at hc
      exact hc rfl

/-! ## One attempt -/

/-- The row logged says granted exactly when there is a plaintext. -/
theorem detokenizeBody_logged {fetch : FetchOne} {v v' : Db} {sid : String} {label : Text}
    {role purpose : Option String} {result : Option Text}
    (h : detokenizeBody env fetch v sid label role purpose = .ok (result, v')) :
    ∃ id d, logAccess env v id sid label role purpose result.isSome d = .ok v' := by
  unfold detokenizeBody at h
  cases hp : fetch.pick (selectByLabel v.rows (env.coerce sid) label) with
  | none =>
      rw [hp] at h
      obtain ⟨v₁, hlog, h⟩ := bind_ok.mp h
      cases h
      exact ⟨_, _, hlog⟩
  | some row =>
      rw [hp] at h
      dsimp only at h
      split at h
      · obtain ⟨v₁, hlog, h⟩ := bind_ok.mp h
        cases h
        exact ⟨_, _, hlog⟩
      · split at h
        · obtain ⟨v₁, hlog, h⟩ := bind_ok.mp h
          cases h
          exact ⟨_, _, hlog⟩
        · obtain ⟨value, -, h⟩ := bind_ok.mp h
          obtain ⟨v₁, hlog, h⟩ := bind_ok.mp h
          cases h
          exact ⟨_, _, hlog⟩

/-- A row that would be given back can be read. -/
def Readable (env : Env) (fetch : FetchOne) (v : Db) (sid : String) (label : Text)
    (role purpose : Option String) : Prop :=
  ∀ row, fetch.pick (selectByLabel v.rows (env.coerce sid) label) = some row →
    v.now < row.expiresAt → row.accessScope.Admits role purpose →
    ∃ value, env.decrypt row.cipherValue = .ok value

/-- What makes the attempt raise is the row of the log or the decryption. -/
theorem detokenizeBody_ok_iff {fetch : FetchOne} {v : Db} {sid : String} {label : Text}
    {role purpose : Option String} :
    (∃ out, detokenizeBody env fetch v sid label role purpose = .ok out) ↔
      ((∃ t, varchar 64 label = .ok t) ∧ Loggable role purpose) ∧
        Readable env fetch v sid label role purpose := by
  have hadmits := fun scope => scopeAllows_iff scope role purpose
  constructor
  · rintro ⟨⟨result, v'⟩, h⟩
    obtain ⟨id, d, hlog⟩ := detokenizeBody_logged h
    refine ⟨logAccess_ok_iff.mp ⟨v', hlog⟩, ?_⟩
    intro row hpick hlive hscope
    obtain ⟨-, ⟨hnone, -⟩ | ⟨r, hr, ⟨hdead, -⟩ | ⟨-, -, value, hdec, -⟩⟩⟩ :=
      detokenizeBody_cases h
    · rw [hpick] at hnone
      cases hnone
    · obtain rfl : row = r := Option.some.inj (hpick.symm.trans hr)
      rcases hdead with hexp | hdenied
      · exact absurd hlive (not_lt.mpr hexp)
      · rw [(hadmits row.accessScope).mpr hscope] at hdenied
        cases hdenied
    · obtain rfl : row = r := Option.some.inj (hpick.symm.trans hr)
      exact ⟨value, hdec⟩
  · rintro ⟨hfits, hread⟩
    have hlog : ∀ id g d, ∃ v', logAccess env v id sid label role purpose g d = .ok v' :=
      fun _ _ _ => logAccess_ok_iff.mpr hfits
    unfold detokenizeBody
    cases hp : fetch.pick (selectByLabel v.rows (env.coerce sid) label) with
    | none =>
        obtain ⟨v', hv'⟩ := hlog nilUuid false (some "unknown_or_revoked")
        exact ⟨_, bind_ok.mpr ⟨v', hv', rfl⟩⟩
    | some row =>
        dsimp only [resolveScope]
        by_cases hexp : row.expiresAt ≤ v.now
        · obtain ⟨v', hv'⟩ := hlog row.tokenId false (some "expired")
          rw [if_pos hexp]
          exact ⟨_, bind_ok.mpr ⟨v', hv', rfl⟩⟩
        · rw [if_neg hexp]
          cases hallow : scopeAllows row.accessScope role purpose with
          | mk allowed denied =>
              cases allowed with
              | false =>
                  obtain ⟨v', hv'⟩ := hlog row.tokenId false denied
                  exact ⟨_, bind_ok.mpr ⟨v', hv', rfl⟩⟩
              | true =>
                  have hscope : row.accessScope.Admits role purpose := by
                    rw [← hadmits, hallow]
                  obtain ⟨value, hdec⟩ := hread row hp (not_le.mp hexp) hscope
                  obtain ⟨v', hv'⟩ := hlog row.tokenId true none
                  exact ⟨_, bind_ok.mpr ⟨value, hdec, bind_ok.mpr ⟨v', hv', rfl⟩⟩⟩

/-- The call added one row to the log, which says granted exactly when the call
returned a plaintext. -/
def LoggedOnce (env : Env) (fetch : FetchOne) (v : Db) (sid : String) (label : Text)
    (role purpose : Option String) : Prop :=
  ∃ row, (detokenize env fetch v sid label role purpose).2.accessLog = v.accessLog ++ [row] ∧
    (row.granted = true ↔ (detokenize env fetch v sid label role purpose).1.isSome = true)

theorem loggedOnce_iff {fetch : FetchOne} {v : Db} {sid : String} {label : Text}
    {role purpose : Option String} :
    LoggedOnce env fetch v sid label role purpose ↔
      ∃ out, detokenizeBody env fetch v sid label role purpose = .ok out := by
  unfold LoggedOnce detokenize
  cases hb : detokenizeBody env fetch v sid label role purpose with
  | error e =>
      refine iff_of_false ?_ (by rintro ⟨_, h⟩; cases h)
      rintro ⟨row, hlog, -⟩
      exact absurd (List.append_right_eq_self.mp hlog.symm) (List.cons_ne_nil _ _)
  | ok out =>
      refine iff_of_true ?_ ⟨out, rfl⟩
      obtain ⟨id, d, hlog⟩ := detokenizeBody_logged hb
      obtain ⟨row, happend, hgranted⟩ := logAccess_row hlog
      exact ⟨row, happend, by rw [hgranted]⟩

/-! ## The log of a run -/

/-- What an operation leaves in the log: the outcome of an attempt that did not
raise. -/
def logEntries (env : Env) (v : Db) : Op → List Bool
  | .detokenize fetch sid label role purpose =>
      match detokenizeBody env fetch v sid label role purpose with
      | .ok (result, _) => [result.isSome]
      | .error _ => []
  | _ => []

theorem step_log (env : Env) (v : Db) (op : Op) :
    (step env v op).accessLog.map AccessLogRow.granted =
      v.accessLog.map AccessLogRow.granted ++ logEntries env v op := by
  cases op with
  | tokenize nonce sid et value scope =>
      have hkeep : (step env v (.tokenize nonce sid et value scope)).accessLog = v.accessLog := by
        rw [step]
        cases ht : tokenize env nonce v sid et value scope with
        | error e => rfl
        | ok out =>
            obtain ⟨label, v'⟩ := out
            rcases tokenize_cases ht with ⟨_, -, -, rfl⟩ | ⟨-, -, -, _, _, -, -, -, rfl⟩ <;> rfl
      rw [hkeep]
      exact (List.append_nil _).symm
  | detokenize fetch sid label role purpose =>
      rw [step, logEntries, detokenize]
      cases hb : detokenizeBody env fetch v sid label role purpose with
      | error e => exact (List.append_nil _).symm
      | ok out =>
          obtain ⟨result, v'⟩ := out
          obtain ⟨id, d, hlog⟩ := detokenizeBody_logged hb
          obtain ⟨row, happend, hgranted⟩ := logAccess_row hlog
          show v'.accessLog.map AccessLogRow.granted = _
          rw [happend, List.map_append, List.map_singleton, hgranted]
  | purgeExpired => exact (List.append_nil _).symm
  | revokeSession sid => exact (List.append_nil _).symm
  | advance elapsed => exact (List.append_nil _).symm

/-- The log of a run lists the outcomes of the attempts that did not raise, in
their order, and nothing else. -/
theorem run_log (env : Env) (start : Time) (ops : List Op) :
    (runFrom env start ops).accessLog.map AccessLogRow.granted =
      collect (step env) (logEntries env) (Db.empty start) ops := by
  induction ops using List.reverseRecOn with
  | nil => rfl
  | append_singleton ops op ih =>
      rw [runFrom, run_snoc, collect_snoc, step_log]
      exact congrArg (· ++ _) ih

/-! ## Which attempts are audited -/

/-- **Which attempts are audited**, for every state of the vault, whatever made
its rows: those whose label and requester fit the log and whose row, if it
would be given back, decrypts. -/
theorem attempt_logged_once_iff (env : Env) (fetch : FetchOne) (v : Db) (sid : String)
    (label b t : Text) (role purpose : Option String)
    (hlabel : (tokenLabelRe env.unicode).Accepts b label t) :
    LoggedOnce env fetch v sid label role purpose ↔
      label.length ≤ 64 ∧ Loggable role purpose ∧
        Readable env fetch v sid label role purpose := by
  rw [loggedOnce_iff, detokenizeBody_ok_iff, varchar_label hlabel, and_assoc]

/-- The vault after one number was stored for everybody. -/
def storedDb : Db :=
  runFrom .sample 0 [.tokenize .zero "s" "RRN" "900101-1234567".toList
    (some ⟨some ["*"], some ["*"]⟩)]

theorem attempt_logged_once_iff_sample :
    LoggedOnce .sample .first storedDb "s" (tokenLabel "RRN" 1) (some "agent_l1") none ↔
      (tokenLabel "RRN" 1).length ≤ 64 ∧ Loggable (some "agent_l1") none ∧
        Readable .sample .first storedDb "s" (tokenLabel "RRN" 1) (some "agent_l1") none :=
  attempt_logged_once_iff .sample .first storedDb "s" (tokenLabel "RRN" 1) [] []
    (some "agent_l1") none (tokenLabel_accepts .ascii (Or.inl (by decide)) 1 [] [])

/-- `<PII:A...A:1>`, which the pattern matches and the column cannot hold. -/
def longLabel : Text := "<PII:".toList ++ List.replicate 60 'A' ++ ":1>".toList

/-- After the key was taken away the attempt raises before it is logged; an
over-long label is not logged in any vault. -/
theorem attempts_unlogged :
    ¬ LoggedOnce { Env.sample with cipher := none } .first storedDb "s" "<PII:RRN:1>".toList
        (some "agent_l1") none ∧
      (tokenLabelRe Env.sample.unicode).Accepts [] longLabel [] ∧
      ¬ LoggedOnce .sample .first (Db.empty 0) "s" longLabel (some "agent_l1") none := by
  have hlong : (tokenLabelRe Env.sample.unicode).Accepts [] longLabel [] := by
    refine tokenLabelRe_accepts.mpr ⟨List.replicate 60 'A', ['1'], rfl, ⟨?_, ?_⟩, ?_, ?_⟩
    · exact List.cons_ne_nil _ _
    · intro c hc
      rw [List.eq_of_mem_replicate hc]
      rfl
    · exact List.cons_ne_nil _ _
    · intro c hc
      obtain rfl := List.mem_singleton.mp hc
      rfl
  refine ⟨?_, hlong, ?_⟩
  · rw [loggedOnce_iff]
    rintro ⟨out, h⟩
    have herr : detokenizeBody { Env.sample with cipher := none } .first storedDb "s"
        "<PII:RRN:1>".toList (some "agent_l1") none = .error .key := by decide +kernel
    have hne := herr.symm.trans h
    cases hne
  · rw [loggedOnce_iff, detokenizeBody_ok_iff, varchar_label hlong]
    rintro ⟨⟨hlen, -⟩, -⟩
    have hlength : longLabel.length = 68 := by
      rw [longLabel, List.length_append, List.length_append, List.length_replicate]
      rfl
    omega

end DlpServer.Vault
