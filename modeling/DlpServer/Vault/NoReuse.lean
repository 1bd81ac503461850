import DlpServer.Vault.History

/-!
# Are token labels ever reused?

The number of a fresh label is one more than the rows of the session and type
*in the table*. Revoked rows still count there, so that an old label is not
given to a new value; rows that `purge_expired` has deleted do not, and then a
number comes back. The result is exact in the mint: as long as no label is
minted for a session and type that has lost a row to deletion, the labels of
that session and type are numbered `1, 2, 3, …` in the order of minting
(`mints_numbered`) and none is ever issued for two values
(`labels_never_reused`); the first mint after a deletion takes a number that
was given out before (`mint_after_delete`).
-/

namespace DlpServer.Vault

open Ids Runs

/-- No label of a session is issued for two different values, and no two rows
of a session carry the same label. -/
def LabelsNeverReused (env : Env) (start : Time) (ops : List Op) : Prop :=
  (∀ i ∈ issued env start ops, ∀ j ∈ issued env start ops,
    i.session = j.session → i.label = j.label →
      i.entityType = j.entityType ∧ i.value = j.value) ∧
  (runFrom env start ops).rows.Pairwise fun a b =>
    a.sessionId = b.sessionId → a.tokenLabel ≠ b.tokenLabel

/-- A step, taken after the run `pre`, mints no label for a session and type of
which a row has been deleted. -/
def ClearOfDeleted (env : Env) (start : Time) (pre : List Op) : Op → Prop
  | .tokenize _ sid et value _ =>
      selectActive (runFrom env start pre).rows (env.coerce sid)
          (env.hash sid (env.normalizeEntityType et) value) = none →
        countRows (deleted env start pre) (env.coerce sid) (env.normalizeEntityType et) = 0
  | _ => True

variable {env : Env} {start : Time}

/-- The rows minted for a session and type, in order. -/
def mintedFor (env : Env) (start : Time) (ops : List Op) (s : Uuid) (etype : String) :
    List Mint :=
  (mints env start ops).filter (·.row.counts s etype)

theorem mintedFor_length (ops : List Op) (s : Uuid) (etype : String) :
    (mintedFor env start ops s etype).length =
      countRows ((mints env start ops).map Mint.row) s etype := by
  rw [mintedFor, ← List.countP_eq_length_filter, countRows, List.countP_map]
  rfl

/-- The number of a mint, by the row count: rows deleted are missing from it. -/
theorem mint_number {ops : List Op} {op : Op} {m : Mint}
    (h : m ∈ mintBy env (runFrom env start ops) op) :
    m.row.tokenLabel = tokenLabel m.row.entityType
      ((mintedFor env start ops m.row.sessionId m.row.entityType).length -
        countRows (deleted env start ops) m.row.sessionId m.row.entityType + 1) := by
  obtain ⟨_, _, _, -, -, -, -, -, blob, -, hrow⟩ := mintBy_spec h
  have hcount := count_run env start ops m.row.sessionId m.row.entityType
  rw [mintedFor_length, ← hcount, Nat.add_sub_cancel, hrow]
  dsimp only [newRow]

theorem mint_clear {ops : List Op} {op : Op} {m : Mint}
    (h : m ∈ mintBy env (runFrom env start ops) op) (hclear : ClearOfDeleted env start ops op) :
    countRows (deleted env start ops) m.row.sessionId m.row.entityType = 0 := by
  obtain ⟨nonce, et, scope, rfl, het, hnone, -, -, blob, -, hrow⟩ := mintBy_spec h
  rw [het] at hnone
  have := hclear hnone
  rw [hrow]
  simpa only [newRow, het] using this

/-- Every step of a run is clear. -/
def RunClear (env : Env) (start : Time) (ops : List Op) : Prop :=
  ∀ pre op post, ops = pre ++ op :: post → ClearOfDeleted env start pre op

instance (pre : List Op) : (op : Op) → Decidable (ClearOfDeleted env start pre op)
  | .tokenize _ _ _ _ _ => inferInstanceAs (Decidable (_ = _ → _ = _))
  | .detokenize _ _ _ _ _ | .purgeExpired | .revokeSession _ | .advance _ =>
      inferInstanceAs (Decidable True)

theorem runClear_iff {ops : List Op} :
    RunClear env start ops ↔
      ∀ i (h : i < ops.length), ClearOfDeleted env start (ops.take i) ops[i] := by
  constructor
  · intro hclear i h
    exact hclear _ _ (ops.drop (i + 1)) (by simp)
  · rintro hall pre op post rfl
    have := hall pre.length (by simp)
    simpa using this

theorem RunClear.take {ops pre : List Op} (h : RunClear env start ops) (hp : pre <+: ops) :
    RunClear env start pre := by
  obtain ⟨t, rfl⟩ := hp
  intro p op q heq
  exact h p op (q ++ t) (by simp [heq])

/-- **Numbering.** In a clear run the labels minted for a session and type are
numbered from 1, in the order of minting. -/
theorem mints_numbered {ops : List Op} (hclear : RunClear env start ops) (s : Uuid)
    (etype : String) :
    (mintedFor env start ops s etype).map (·.row.tokenLabel) =
      (List.range (mintedFor env start ops s etype).length).map
        fun n => tokenLabel etype (n + 1) := by
  induction ops using List.reverseRecOn with
  | nil => rfl
  | append_singleton ops op ih =>
      have hop : ClearOfDeleted env start ops op := hclear ops op [] rfl
      have ih := ih (RunClear.take hclear ⟨[op], rfl⟩)
      have hsnoc : mintedFor env start (ops ++ [op]) s etype = mintedFor env start ops s etype ++
          (mintBy env (runFrom env start ops) op).filter (·.row.counts s etype) := by
        rw [mintedFor, mints, collect_snoc, List.filter_append]
        rfl
      rw [hsnoc]
      cases hm : (mintBy env (runFrom env start ops) op).filter (·.row.counts s etype) with
      | nil => simpa using ih
      | cons m ms =>
          have hmem : m ∈ (mintBy env (runFrom env start ops) op).filter
              (·.row.counts s etype) := by
            rw [hm]; exact List.mem_cons_self
          obtain ⟨hmint, hc⟩ := List.mem_filter.mp hmem
          obtain ⟨rfl, rfl⟩ := Row.counts_iff.mp hc
          obtain ⟨_, _, _, -, -, -, hone, -⟩ := mintBy_spec hmint
          have hms : ms = [] := by
            rw [hone] at hm
            simpa [List.filter_cons, hc] using hm
          have hnum := mint_number hmint
          rw [mint_clear hmint hop, Nat.sub_zero] at hnum
          rw [hms, List.map_append, ih, List.length_append, List.length_singleton,
            List.range_succ, List.map_append]
          simp [hnum]

/-- In a clear run no two mints of a session carry the same label. -/
theorem mints_distinct {ops : List Op} (hclear : RunClear env start ops) :
    (mints env start ops).Pairwise fun a b =>
      a.row.sessionId = b.row.sessionId → a.row.tokenLabel ≠ b.row.tokenLabel := by
  have hform : ∀ m ∈ mints env start ops, ∃ n, m.row.tokenLabel = tokenLabel m.row.entityType n := by
    intro m hm
    obtain ⟨pre, op, post, -, hmint⟩ := mem_mints.mp hm
    exact ⟨_, mint_number hmint⟩
  rw [List.pairwise_iff_forall_sublist]
  intro a b hab hs hl
  have ha : a ∈ mints env start ops := hab.subset (by simp)
  have hb : b ∈ mints env start ops := hab.subset (by simp)
  obtain ⟨n, hn⟩ := hform a ha
  obtain ⟨n', hn'⟩ := hform b hb
  have hta := mint_columns ha
  have htb := mint_columns hb
  have hty : a.row.entityType = b.row.entityType :=
    (tokenLabel_inj (hta.2.1 ▸ hta.2.2.1) (htb.2.1 ▸ htb.2.2.1) (hn ▸ hn' ▸ hl)).1
  -- Both mints belong to one session and type, whose labels are numbered.
  have hsub : [a, b].Sublist (mintedFor env start ops a.row.sessionId a.row.entityType) := by
    have hfilter := hab.filter (·.row.counts a.row.sessionId a.row.entityType)
    rwa [List.filter_eq_self.mpr] at hfilter
    intro m hm
    apply Row.counts_iff.mpr
    rcases List.mem_pair.mp hm with rfl | rfl
    · exact ⟨rfl, rfl⟩
    · exact ⟨hs.symm, hty.symm⟩
  have hnodup : ((mintedFor env start ops a.row.sessionId a.row.entityType).map
      (·.row.tokenLabel)).Nodup := by
    rw [mints_numbered hclear]
    refine List.nodup_range.map ?_
    intro x y hxy
    have := (tokenLabel_inj (hta.2.1 ▸ hta.2.2.1) (hta.2.1 ▸ hta.2.2.1) hxy).2
    exact Nat.succ_injective this
  have := (hsub.map (·.row.tokenLabel)).nodup hnodup
  simp [hl] at this

/-- **Labels are never reused** in a run whose mints are clear of deleted rows,
at any point of the run. -/
theorem labels_never_reused (env : Env) (start : Time) (ops : List Op)
    (hcf : CollisionFree env ops) (hwire : OneWireId env ops)
    (hclear : RunClear env start ops) :
    ∀ pre, pre <+: ops → LabelsNeverReused env start pre := by
  intro pre hpre
  have hdist := mints_distinct (RunClear.take hclear hpre)
  obtain ⟨post, rfl⟩ := hpre
  refine ⟨?_, ?_⟩
  · intro i hi j hj hs hl
    obtain ⟨m, hm, hms, hmt, hmv, hml⟩ := issue_minted hcf.left hwire.left hi
    obtain ⟨m', hm', hms', hmt', hmv', hml'⟩ := issue_minted hcf.left hwire.left hj
    have hsymm : Std.Symm fun a b : Mint => a.row.sessionId = b.row.sessionId →
        a.row.tokenLabel ≠ b.row.tokenLabel :=
      ⟨fun a b hab h₁ h₂ => hab h₁.symm h₂.symm⟩
    have hsame : m = m' := by
      by_contra hne
      exact List.Pairwise.forall hdist hm hm' hne (by rw [hms, hms', hs])
        (by rw [hml, hml', hl])
    rw [← hmt, ← hmv, hsame, hmt', hmv']
    exact ⟨rfl, rfl⟩
  · have hminted : ((mints env start pre).map Mint.row).Pairwise fun a b =>
        a.sessionId = b.sessionId → a.tokenLabel ≠ b.tokenLabel :=
      List.pairwise_map.mpr hdist
    exact List.pairwise_map.mp (hminted.sublist (rows_sublist pre))

/-- A run of one session: two numbers are tokenized a purge apart, then a third
after the row of the first is deleted. -/
def reusingRun : List Op :=
  [.tokenize .zero "s" "RRN" "900101-1234567".toList none,
   .revokeSession "s",
   .advance 86400000001,
   .tokenize .zero "s" "RRN" "900101-2345678".toList none,
   .purgeExpired,
   .tokenize .zero "s" "RRN" "900101-3456789".toList none]

/-- The second and the third number are both issued `<PII:RRN:2>`. -/
theorem label_reused_after_purge :
    CollisionFree .sample reusingRun ∧ OneWireId .sample reusingRun ∧
      ¬ LabelsNeverReused .sample 0 reusingRun := by
  refine ⟨?_, ?_, ?_⟩
  · unfold CollisionFree
    decide +kernel
  · unfold OneWireId
    decide +kernel
  · unfold LabelsNeverReused
    decide +kernel

/-- The run up to its last purge is clear. -/
theorem labels_never_reused_sample :
    LabelsNeverReused .sample 0 (reusingRun.take 5) := by
  refine labels_never_reused .sample 0 (reusingRun.take 5) ?_ ?_ ?_ _ (List.prefix_refl _)
  · unfold CollisionFree
    decide +kernel
  · unfold OneWireId
    decide +kernel
  · exact runClear_iff.mpr (by decide +kernel)

/-- **After a deletion.** In a clear run, a mint for a session and type that has
lost a row to deletion takes a label that was minted before, perhaps for the same
value. -/
theorem mint_after_delete {ops : List Op} (hclear : RunClear env start ops) {op : Op}
    {m : Mint} (h : m ∈ mintBy env (runFrom env start ops) op)
    (hdel : 0 < countRows (deleted env start ops) m.row.sessionId m.row.entityType) :
    ∃ m' ∈ mints env start ops, m'.row.sessionId = m.row.sessionId ∧
      m'.row.tokenLabel = m.row.tokenLabel := by
  have hnum := mint_number h
  have hcount := count_run env start ops m.row.sessionId m.row.entityType
  rw [← mintedFor_length] at hcount
  have hmem : m.row.tokenLabel ∈
      (mintedFor env start ops m.row.sessionId m.row.entityType).map (·.row.tokenLabel) := by
    rw [mints_numbered hclear, hnum]
    refine List.mem_map.mpr ⟨_, List.mem_range.mpr ?_, rfl⟩
    omega
  obtain ⟨m', hm', hl⟩ := List.mem_map.mp hmem
  obtain ⟨hm', hc⟩ := List.mem_filter.mp hm'
  exact ⟨m', hm', (Row.counts_iff.mp hc).1, hl⟩

end DlpServer.Vault
