import DlpServer.Vault.Text

/-!
# What the calls read and leave

The access log is written and never read (`Alike`), and the labels that are
minted are numbered after those that are there (`Grown`).
-/

namespace DlpServer.Vault

variable {env : Env} {sid : String}

/-! ## Up to the access log -/

/-- Two vaults that differ in the access log at most. -/
structure Alike (v v' : Db) : Prop where
  rows : v'.rows = v.rows
  nextId : v'.nextId = v.nextId
  now : v'.now = v.now

theorem Alike.refl (v : Db) : Alike v v := ⟨rfl, rfl, rfl⟩

theorem Alike.symm {v v' : Db} (h : Alike v v') : Alike v' v :=
  ⟨h.rows.symm, h.nextId.symm, h.now.symm⟩

theorem Alike.trans {v v' v'' : Db} (h : Alike v v') (h' : Alike v' v'') : Alike v v'' :=
  ⟨h'.rows.trans h.rows, h'.nextId.trans h.nextId, h'.now.trans h.now⟩

theorem detokenize_alike (fetch : FetchOne) (v : Db) (label : Text) (role purpose : Option String) :
    Alike v (detokenize env fetch v sid label role purpose).2 := by
  obtain ⟨hrows, hnow, hnext⟩ := detokenize_frame env fetch v sid label role purpose
  exact ⟨hrows, hnext, hnow⟩

theorem Alike.revokeSession {v v' : Db} (h : Alike v v') :
    Alike (revokeSession env v sid) (revokeSession env v' sid) where
  rows := by
    show revokeWhere _ v'.now v'.rows = revokeWhere _ v.now v.rows
    rw [h.rows, h.now]
  nextId := h.nextId
  now := h.now

/-- Two results of `tokenize`: the same error, or the same label and vaults alike. -/
def AlikeResult (x y : Except VaultError (Text × Db)) : Prop :=
  (∃ e, x = .error e ∧ y = .error e) ∨
    ∃ label v v', x = .ok (label, v) ∧ y = .ok (label, v') ∧ Alike v v'

theorem Alike.tokenize {v v' : Db} (h : Alike v v') (nonce : Nonce) (et : String) (value : Text)
    (scope : Option AccessScope) :
    AlikeResult (tokenize env nonce v sid et value scope) (tokenize env nonce v' sid et value scope) := by
  obtain ⟨rows, log, next, now⟩ := v
  obtain ⟨rows', log', next', now'⟩ := v'
  obtain ⟨rfl, rfl, rfl⟩ : rows' = rows ∧ next' = next ∧ now' = now := ⟨h.rows, h.nextId, h.now⟩
  unfold Vault.tokenize insertRow
  dsimp only
  cases selectActive rows' (env.coerce sid) (env.hash sid (env.normalizeEntityType et) value) with
  | some r => exact Or.inr ⟨_, _, _, rfl, rfl, h⟩
  | none =>
      dsimp only
      cases env.encrypt nonce value with
      | error e => exact Or.inl ⟨e, rfl, rfl⟩
      | ok blob =>
          simp only [bind, Except.bind]
          cases checkRow _ with
          | error e => exact Or.inl ⟨e, rfl, rfl⟩
          | ok r =>
              dsimp only
              cases selectActive rows' r.sessionId r.valueHash with
              | none => exact Or.inr ⟨_, _, _, rfl, rfl, ⟨rfl, rfl, rfl⟩⟩
              | some r' => exact Or.inl ⟨_, rfl, rfl⟩

/-- What `detokenize_text` puts for a label, at the attempt that the state counts. -/
def restoreLabel (env : Env) (fetch : ℕ → FetchOne) (sid : String) (role purpose : Option String)
    (label : Text) (s : ℕ × Db) : Text × ℕ × Db :=
  (((detokenize env (fetch s.1) s.2 sid label role purpose).1).getD label,
    (s.1 + 1, (detokenize env (fetch s.1) s.2 sid label role purpose).2))

/-- What `detokenize_text` makes of a text does not depend on the log. -/
theorem Alike.detokenizeText {v v' : Db} (h : Alike v v') (env : Env) (sid : String)
    (fetch : ℕ → FetchOne) (text : Text) (role purpose : Option String) :
    (detokenizeText env fetch v sid text role purpose).1 =
        (detokenizeText env fetch v' sid text role purpose).1 ∧
      Alike (detokenizeText env fetch v sid text role purpose).2
        (detokenizeText env fetch v' sid text role purpose).2 := by
  have hstep : ∀ (label : Text) (s t : ℕ × Db), s.1 = t.1 ∧ Alike s.2 t.2 →
      (restoreLabel env fetch sid role purpose label s).1 =
          (restoreLabel env fetch sid role purpose label t).1 ∧
        (restoreLabel env fetch sid role purpose label s).2.1 =
            (restoreLabel env fetch sid role purpose label t).2.1 ∧
          Alike (restoreLabel env fetch sid role purpose label s).2.2
            (restoreLabel env fetch sid role purpose label t).2.2 := by
    rintro label ⟨k, s⟩ ⟨k', t⟩ ⟨hk, halike⟩
    obtain rfl : k = k' := hk
    refine ⟨?_, rfl, ?_⟩
    · show ((detokenize env (fetch k) s sid label role purpose).1).getD label = _
      rw [← detokenize_congr halike.rows halike.now]
      rfl
    · exact (detokenize_alike (fetch k) s label role purpose).symm.trans
        (halike.trans (detokenize_alike (fetch k) t label role purpose))
  have hsub := Regex.Pattern.sub_rel (r := tokenLabelRe env.unicode)
    (R := fun s t => s.1 = t.1 ∧ Alike s.2 t.2) hstep text (s := (0, v)) (t := (0, v')) ⟨rfl, h⟩
  exact ⟨hsub.1, hsub.2.2⟩

/-- The answer of the vault as it is for a label, at the attempt `k`. -/
def answerLabel (env : Env) (fetch : ℕ → FetchOne) (v : Db) (sid : String)
    (role purpose : Option String) (label : Text) (k : ℕ) : Text × ℕ :=
  (((detokenize env (fetch k) v sid label role purpose).1).getD label, k + 1)

/-- `detokenize_text` puts the answers that the vault gives at the start. -/
theorem detokenizeText_sub (fetch : ℕ → FetchOne) (v : Db) (text : Text)
    (role purpose : Option String) :
    (detokenizeText env fetch v sid text role purpose).1 =
        ((tokenLabelRe env.unicode).sub (answerLabel env fetch v sid role purpose) text 0).1 ∧
      Alike v (detokenizeText env fetch v sid text role purpose).2 := by
  have hstep : ∀ (label : Text) (s : ℕ × Db) (k : ℕ), s.1 = k ∧ Alike v s.2 →
      (restoreLabel env fetch sid role purpose label s).1 =
          (answerLabel env fetch v sid role purpose label k).1 ∧
        (restoreLabel env fetch sid role purpose label s).2.1 =
            (answerLabel env fetch v sid role purpose label k).2 ∧
          Alike v (restoreLabel env fetch sid role purpose label s).2.2 := by
    rintro label ⟨k, s⟩ k' ⟨hk, halike⟩
    obtain rfl : k = k' := hk
    refine ⟨?_, rfl, halike.trans (detokenize_alike (fetch k) s label role purpose)⟩
    show ((detokenize env (fetch k) s sid label role purpose).1).getD label = _
    rw [detokenize_congr halike.rows halike.now]
    rfl
  have hsub := Regex.Pattern.sub_rel (r := tokenLabelRe env.unicode)
    (R := fun s k => s.1 = k ∧ Alike v s.2) hstep text (s := (0, v)) (t := 0) ⟨rfl, .refl v⟩
  exact ⟨hsub.1, hsub.2.2⟩

/-! ## New labels -/

/-- The rows that `v'` has more than `v` are of the session, and their labels are
numbered after all rows of their type in `v`, within those of `v'`. -/
structure Grown (env : Env) (sid : String) (v v' : Db) : Prop where
  now : v'.now = v.now
  rows : ∃ new, v'.rows = v.rows ++ new ∧ ∀ r ∈ new, r.sessionId = env.coerce sid ∧
    ∃ etype k, LabelType etype ∧ r.tokenLabel = tokenLabel etype k ∧
      countRows v.rows (env.coerce sid) etype < k ∧
      k ≤ countRows v'.rows (env.coerce sid) etype

theorem Grown.refl (v : Db) : Grown env sid v v := ⟨rfl, [], (List.append_nil _).symm, by simp⟩

theorem countRows_append (rows new : List Row) (s : Ids.Uuid) (etype : String) :
    countRows (rows ++ new) s etype = countRows rows s etype + countRows new s etype :=
  List.countP_append

theorem Grown.trans {v v' v'' : Db} (h : Grown env sid v v') (h' : Grown env sid v' v'') :
    Grown env sid v v'' := by
  obtain ⟨new, hrows, hnew⟩ := h.rows
  obtain ⟨new', hrows', hnew'⟩ := h'.rows
  refine ⟨h'.now.trans h.now, new ++ new', by rw [hrows', hrows, List.append_assoc], ?_⟩
  intro r hr
  rcases List.mem_append.mp hr with hr | hr
  · obtain ⟨hs, etype, k, ht, hl, hlt, hle⟩ := hnew r hr
    refine ⟨hs, etype, k, ht, hl, hlt, le_trans hle ?_⟩
    rw [hrows', countRows_append]
    exact Nat.le_add_right _ _
  · obtain ⟨hs, etype, k, ht, hl, hlt, hle⟩ := hnew' r hr
    refine ⟨hs, etype, k, ht, hl, lt_of_le_of_lt ?_ hlt, hle⟩
    rw [hrows, countRows_append]
    exact Nat.le_add_right _ _

theorem tokenize_grown {nonce : Nonce} {v v' : Db} {et : String} {value label : Text}
    {scope : Option AccessScope} (h : tokenize env nonce v sid et value scope = .ok (label, v')) :
    Grown env sid v v' := by
  rcases tokenize_cases h with ⟨r, hr, rfl, rfl⟩ | ⟨-, hl, -, blob, r, -, -, hrow, rfl⟩
  · exact .refl v'
  · refine ⟨rfl, [r], rfl, fun r' hr' => ?_⟩
    obtain rfl := List.mem_singleton.mp hr'
    have hs : r'.sessionId = env.coerce sid := by rw [hrow]; rfl
    have ht : r'.entityType = env.normalizeEntityType et := by rw [hrow]; rfl
    refine ⟨hs, env.normalizeEntityType et,
      countRows v.rows (env.coerce sid) (env.normalizeEntityType et) + 1,
      normalizeEntityType_labelType env et, ?_, Nat.lt_succ_self _, ?_⟩
    · rw [hrow, ← hl]
      rfl
    · have hone : countRows [r'] (env.coerce sid) (env.normalizeEntityType et) = 1 := by
        rw [countRows, List.countP_singleton, if_pos (Row.counts_iff.mpr ⟨hs, ht⟩)]
      show _ ≤ countRows (v.rows ++ [r']) _ _
      rw [countRows_append, hone]

/-- What was minted before keeps its rows: no later row carries its label. -/
theorem Grown.selectByLabel {v v' v'' : Db} (h : Grown env sid v v') (h' : Grown env sid v' v'')
    {r : Row} (hr : r ∈ v'.rows.drop v.rows.length) :
    selectByLabel v''.rows (env.coerce sid) r.tokenLabel =
      selectByLabel v'.rows (env.coerce sid) r.tokenLabel := by
  obtain ⟨new, hrows, hnew⟩ := h.rows
  rw [hrows, List.drop_left] at hr
  obtain ⟨-, etype, k, ht, hl, -, hle⟩ := hnew r hr
  obtain ⟨new', hrows', hnew'⟩ := h'.rows
  have hnone : Vault.selectByLabel new' (env.coerce sid) r.tokenLabel = [] := by
    refine List.filter_eq_nil_iff.mpr fun r' hr' hcarries => ?_
    obtain ⟨-, etype', k', ht', hl', hlt', -⟩ := hnew' r' hr'
    have hlabel : r'.tokenLabel = r.tokenLabel :=
      (mem_selectByLabel.mp (List.mem_filter.mpr ⟨hr', hcarries⟩)).2.2.1
    obtain ⟨rfl, rfl⟩ := tokenLabel_inj ht' ht (hl'.symm.trans (hlabel.trans hl))
    omega
  show List.filter _ v''.rows = _
  rw [hrows', List.filter_append]
  show _ ++ Vault.selectByLabel new' _ _ = _
  rw [hnone, List.append_nil]
  rfl

end DlpServer.Vault
