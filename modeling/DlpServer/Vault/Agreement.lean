import DlpServer.Vault.Transactions

/-!
# What concurrent transactions agree on

From the invariant of `Vault.Transactions`, in every state any schedule of the
statements reaches: committed calls with one type and value carry one label,
others carry different labels, a value has one row, and the labels of a type
are numbered without gaps. A transaction that runs alone computes what
`tokenize` of `Vault.Ops` computes.
-/

namespace DlpServer.Vault.Server

open Ids Runs

variable {ι : Type*} (W : Workload ι)

/-- What the committed calls agree on: one label for one type and value, and for
different ones different labels; one row for each; and the labels of a type
numbered without gaps. -/
structure Agreement (S : Server ι) : Prop where
  same : ∀ i j l l', S.phase i = .committed l → S.phase j = .committed l' →
    W.etype i = W.etype j → (W.call i).value = (W.call j).value → l = l'
  distinct : ∀ i j l l', S.phase i = .committed l → S.phase j = .committed l' →
    ¬ (W.etype i = W.etype j ∧ (W.call i).value = (W.call j).value) → l ≠ l'
  one_row : ∀ i l, S.phase i = .committed l →
    ∃ r, S.table.filter (fun st => st.row.sessionId = W.session ∧
        st.row.valueHash = W.vhash i) = [⟨r, none⟩] ∧
      r.entityType = W.etype i ∧ r.tokenLabel = l
  row_called : ∀ st ∈ S.table, st.row.sessionId = W.session → st.writer = none →
    ∃ i, S.phase i = .committed st.row.tokenLabel ∧ st.row.entityType = W.etype i ∧
      st.row.valueHash = W.vhash i
  gapless : ∀ t, ∃ k, ∀ l, (∃ i, S.phase i = .committed l ∧ W.etype i = t) ↔
    ∃ n, 1 ≤ n ∧ n ≤ k ∧ l = tokenLabel t n

variable {W}

theorem filter_eq_singleton {α : Type*} {p : α → Bool} {l : List α} {a : α} (ha : a ∈ l)
    (hp : p a = true) (hone : l.Pairwise fun x y => p x = true → ¬ p y = true) :
    l.filter p = [a] := by
  induction l with
  | nil => cases ha
  | cons b l ih =>
      obtain ⟨hb, hl⟩ := List.pairwise_cons.mp hone
      rcases List.mem_cons.mp ha with rfl | ha
      · rw [List.filter_cons_of_pos hp, List.filter_eq_nil_iff.mpr fun c hc => hb c hc hp]
      · rw [List.filter_cons_of_neg fun hpb => hb a ha hpb hp]
        exact ih ha hl

section Agreement

variable {S : Server ι} (h : Inv W S)
include h

theorem Inv.labelType {st : Stored ι} (hst : st ∈ S.table)
    (hs : st.row.sessionId = W.session) : LabelType st.row.entityType := by
  obtain ⟨i, ht, -⟩ := h.origin st hst hs
  rw [ht]
  exact normalizeEntityType_labelType _ _

/-- The position of a row among those of its type is the number of its label. -/
theorem Inv.position {st : Stored ι} (hst : st ∈ S.table) (hs : st.row.sessionId = W.session) :
    ∃ k, ∃ hk : k < (S.ofType W st.row.entityType).length,
      (S.ofType W st.row.entityType)[k] = st ∧
        st.row.tokenLabel = tokenLabel st.row.entityType (k + 1) := by
  have hmem : st ∈ S.ofType W st.row.entityType :=
    List.mem_filter.mpr ⟨hst, Row.counts_iff.mpr ⟨hs, rfl⟩⟩
  obtain ⟨k, hk, hget⟩ := List.getElem_of_mem hmem
  have hlabel := h.numbered _ k hk
  rw [hget] at hlabel
  exact ⟨k, hk, hget, hlabel⟩

/-- Within the session a label identifies its row. -/
theorem Inv.label_inj {st st' : Stored ι} (hst : st ∈ S.table) (hst' : st' ∈ S.table)
    (hs : st.row.sessionId = W.session) (hs' : st'.row.sessionId = W.session)
    (hl : st.row.tokenLabel = st'.row.tokenLabel) : st = st' := by
  obtain ⟨k, hk, hget, hlab⟩ := h.position hst hs
  obtain ⟨k', hk', hget', hlab'⟩ := h.position hst' hs'
  rw [hlab, hlab'] at hl
  obtain ⟨ht, hn⟩ := tokenLabel_inj (h.labelType hst hs) (h.labelType hst' hs') hl
  obtain rfl : k = k' := Nat.succ_injective hn
  rw [← hget, ← hget']
  simp only [ht]

/-- Within the session a value has one row. -/
theorem Inv.hash_inj {st st' : Stored ι} (hst : st ∈ S.table) (hst' : st' ∈ S.table)
    (hs : st.row.sessionId = W.session) (hs' : st'.row.sessionId = W.session)
    (hh : st.row.valueHash = st'.row.valueHash) : st = st' := by
  by_contra hne
  have hsymm : Std.Symm fun a b : Stored ι => a.row.sessionId = W.session →
      b.row.sessionId = W.session → a.row.valueHash ≠ b.row.valueHash :=
    ⟨fun a b hab hb ha => (hab ha hb).symm⟩
  exact List.Pairwise.forall h.unique hst hst' hne hs hs' hh

theorem Inv.committed_row {i : ι} {l : Text} (hi : S.phase i = .committed l) :
    ∃ st ∈ S.table, st.row.sessionId = W.session ∧ st.row.valueHash = W.vhash i ∧
      st.row.tokenLabel = l ∧ st.writer = none := by
  obtain ⟨st, hst, hs, hh, hl, hw | ⟨-, hp⟩⟩ := h.result i l (Or.inr hi)
  · exact ⟨st, hst, hs, hh, hl, hw⟩
  · rw [hi] at hp
    cases hp

theorem Inv.row_called {st : Stored ι} (hst : st ∈ S.table)
    (hs : st.row.sessionId = W.session) (hw : st.writer = none) :
    ∃ i, S.phase i = .committed st.row.tokenLabel ∧ st.row.entityType = W.etype i ∧
      st.row.valueHash = W.vhash i := by
  obtain ⟨i, ht, hh, -, ⟨-, hp⟩ | ⟨hw', -⟩⟩ := h.origin st hst hs
  · exact ⟨i, hp, ht, hh⟩
  · rw [hw] at hw'
    cases hw'

variable (hcf : ∀ i j, W.vhash i = W.vhash j →
  Env.hashInput W.sessionId (W.etype i) (W.call i).value =
    Env.hashInput W.sessionId (W.etype j) (W.call j).value)
include hcf

omit h in
theorem vhash_inj {i j : ι} (hh : W.vhash i = W.vhash j) :
    W.etype i = W.etype j ∧ (W.call i).value = (W.call j).value :=
  hashInput_inj (normalizeEntityType_labelType _ _) (normalizeEntityType_labelType _ _)
    (hcf i j hh)

theorem Inv.row_type {i : ι} {st : Stored ι} (hst : st ∈ S.table)
    (hs : st.row.sessionId = W.session) (hh : st.row.valueHash = W.vhash i) :
    st.row.entityType = W.etype i := by
  obtain ⟨j, ht, hhj, -⟩ := h.origin st hst hs
  rw [ht]
  exact (vhash_inj hcf (hhj.symm.trans hh)).1

theorem Inv.agreement : Agreement W S where
  same i j l l' hi hj ht hv := by
    obtain ⟨st, hst, hs, hh, hl, -⟩ := h.committed_row hi
    obtain ⟨st', hst', hs', hh', hl', -⟩ := h.committed_row hj
    have hsame : W.vhash i = W.vhash j := by rw [Workload.vhash, Workload.vhash, ht, hv]
    obtain rfl := h.hash_inj hst hst' hs hs' (hh.trans (hsame.trans hh'.symm))
    exact hl.symm.trans hl'
  distinct i j l l' hi hj hne heq := by
    obtain ⟨st, hst, hs, hh, hl, -⟩ := h.committed_row hi
    obtain ⟨st', hst', hs', hh', hl', -⟩ := h.committed_row hj
    obtain rfl := h.label_inj hst hst' hs hs' (hl.trans (heq.trans hl'.symm))
    exact hne (vhash_inj hcf (hh.symm.trans hh'))
  one_row i l hi := by
    obtain ⟨⟨r, w⟩, hst, hs, hh, hl, rfl⟩ := h.committed_row hi
    refine ⟨r, filter_eq_singleton hst ?_ ?_, h.row_type hcf hst hs hh, hl⟩
    · exact decide_eq_true ⟨hs, hh⟩
    · refine h.unique.imp ?_
      intro a b hab ha hb
      have ha := of_decide_eq_true ha
      have hb := of_decide_eq_true hb
      exact hab ha.1 hb.1 (ha.2.trans hb.2.symm)
  row_called _ hst hs hw := h.row_called hst hs hw
  gapless t := by
    -- The committed rows of a type are a prefix of all its rows.
    have hpre : (S.ofType W t).filter (·.writer.isNone) <+: S.ofType W t := by
      apply filter_initial
      refine (List.Pairwise.sublist List.filter_sublist h.order).imp_of_mem ?_
      intro a b ha hb hab
      obtain ⟨has, hat⟩ := Row.counts_iff.mp (List.mem_filter.mp ha).2
      obtain ⟨hbs, hbt⟩ := Row.counts_iff.mp (List.mem_filter.mp hb).2
      simp [hab has hbs (hat.trans hbt.symm)]
    refine ⟨((S.ofType W t).filter (·.writer.isNone)).length, fun l => ⟨?_, ?_⟩⟩
    · rintro ⟨i, hi, rfl⟩
      obtain ⟨st, hst, hs, hh, hl, hw⟩ := h.committed_row hi
      have hmem : st ∈ (S.ofType W (W.etype i)).filter (·.writer.isNone) := by
        refine List.mem_filter.mpr ⟨List.mem_filter.mpr ⟨hst, ?_⟩, by simp [hw]⟩
        exact Row.counts_iff.mpr ⟨hs, h.row_type hcf hst hs hh⟩
      obtain ⟨k, hk, hget⟩ := List.getElem_of_mem hmem
      refine ⟨k + 1, Nat.succ_pos k, hk, ?_⟩
      rw [hpre.getElem hk] at hget
      rw [← h.numbered _ k (lt_of_lt_of_le hk hpre.length_le), hget, hl]
    · rintro ⟨n, hn, hnk, rfl⟩
      obtain ⟨k, rfl⟩ : ∃ k, n = k + 1 := ⟨n - 1, by omega⟩
      have hmem := List.getElem_mem hnk
      rw [hpre.getElem hnk] at hmem
      have hlabel := h.numbered t k (lt_of_lt_of_le hnk hpre.length_le)
      obtain ⟨hof, hw⟩ := List.mem_filter.mp hmem
      obtain ⟨hst, hc⟩ := List.mem_filter.mp hof
      obtain ⟨hs, ht⟩ := Row.counts_iff.mp hc
      obtain ⟨i, hi, hit, -⟩ := h.row_called hst hs (by simpa using hw)
      exact ⟨i, by rw [hi, hlabel], hit.symm.trans ht⟩

end Agreement

variable [DecidableEq ι]

/-- **Concurrent tokenisation agrees**, after every schedule of the statements,
commits and aborts of any transactions of one wire session. -/
theorem concurrent_tokenize_agrees (W : Workload ι) (S₀ S : Server ι)
    (actions : List (Action ι)) (h₀ : Initial W S₀)
    (hcf : ∀ i j, W.vhash i = W.vhash j →
      Env.hashInput W.sessionId (W.etype i) (W.call i).value =
        Env.hashInput W.sessionId (W.etype j) (W.call j).value)
    (hrun : Steps (step W) S₀ actions S) : Agreement W S :=
  (Inv.run h₀ hrun).agreement hcf

/-- Two numbers tokenized at once; the second transaction waits for the lock. -/
def sampleWorkload : Workload Bool where
  env := .sample
  hashtextextended _ := 0x340875b9130aab88
  sessionId := "s"
  call i := ⟨.zero, "RRN", (if i then "900101-1234567" else "900101-2345678").toList, none, 0⟩

def sampleServer : Server Bool := ⟨[], fun _ => none, fun _ => .lookup, 1⟩

def sampleSchedule : List (Action Bool) :=
  [.exec true, .exec false, .exec true, .exec true, .exec true, .commit true,
   .exec false, .exec false, .exec false, .commit false]

def sampleEnd : Server Bool :=
  (exec (step sampleWorkload) sampleServer sampleSchedule).get (by decide +kernel)

theorem concurrent_tokenize_agrees_sample :
    sampleEnd.phase true = .committed "<PII:RRN:1>".toList ∧
      sampleEnd.phase false = .committed "<PII:RRN:2>".toList ∧
      Agreement sampleWorkload sampleEnd := by
  refine ⟨by decide +kernel, by decide +kernel, ?_⟩
  refine concurrent_tokenize_agrees sampleWorkload sampleServer sampleEnd sampleSchedule ?_ ?_ ?_
  · constructor <;> simp [sampleServer]
  · decide +kernel
  · exact Steps.of_exec (Option.some_get _).symm

/-! ## The statements one by one -/

section Statements

variable {S : Server ι} {i : ι} {next : Server ι → Action ι → Option (Server ι)} {S₀ : Server ι}
  {actions : List (Action ι)}

theorem step_found {r : Row} (hphase : S.phase i = .lookup)
    (hsome : selectActive (S.visible i) W.session (W.vhash i) = some r) :
    step W S (.exec i) = some (S.goto i (.returned r.tokenLabel)) := by
  simp only [step, execStmt, hphase, hsome]

theorem step_miss (hphase : S.phase i = .lookup)
    (hnone : selectActive (S.visible i) W.session (W.vhash i) = none) :
    step W S (.exec i) = some (S.goto i .lock) := by
  simp only [step, execStmt, hphase, hnone]

theorem step_lock (hphase : S.phase i = .lock) (hfree : S.locks (W.lockKey i) = none) :
    step W S (.exec i) = some { S with
      locks := Function.update S.locks (W.lockKey i) (some i)
      phase := Function.update S.phase i .count } := by
  simp only [step, execStmt, hphase, hfree]

theorem step_count (hphase : S.phase i = .count) :
    step W S (.exec i) =
      some (S.goto i (.insert (countRows (S.visible i) W.session (W.etype i)))) := by
  simp only [step, execStmt, hphase]

theorem step_insert {count : ℕ} {r : Row} (hphase : S.phase i = .insert count)
    (hrow : W.newRow i S.nextId count = .ok r)
    (hnone : S.table.find? (·.row.holds r.sessionId r.valueHash) = none) :
    step W S (.exec i) = some { S with
      table := S.table ++ [⟨r, some i⟩]
      nextId := S.nextId + 1
      phase := Function.update S.phase i (.returned r.tokenLabel) } := by
  simp only [step, execStmt, hphase, hrow, hnone]

theorem step_commit {label : Text} (hphase : S.phase i = .returned label) :
    step W S (.commit i) = some (S.commit i label) := by
  simp only [step, hphase]

/-- Undisturbed, a transaction that finds no row of its hash and its lock free gets as far
as the count. -/
theorem run_count (hnext : ∀ S, next S (.exec i) = step W S (.exec i))
    (hrun : Steps next S₀ actions S) (hphase : S.phase i = .lookup)
    (hnone : selectActive (S.visible i) W.session (W.vhash i) = none)
    (hfree : S.locks (W.lockKey i) = none) {count : ℕ}
    (hcount : countRows (S.visible i) W.session (W.etype i) = count) :
    Steps next S₀ (actions ++ [Action.exec i] ++ [Action.exec i] ++ [Action.exec i])
      ⟨S.table, Function.update S.locks (W.lockKey i) (some i),
        Function.update S.phase i (.insert count), S.nextId⟩ := by
  obtain ⟨locks, hlocks⟩ : ∃ locks, locks = Function.update S.locks (W.lockKey i) (some i) :=
    ⟨_, rfl⟩
  have h₁ : next S (.exec i) = some (S.goto i .lock) :=
    (hnext _).trans (step_miss hphase hnone)
  have hlock : (S.goto i .lock).phase i = .lock := Function.update_self ..
  have h₂ : next (S.goto i .lock) (.exec i) =
      some ⟨S.table, locks, Function.update S.phase i .count, S.nextId⟩ := by
    rw [hnext, step_lock hlock hfree, hlocks]
    simp only [goto, Function.update_idem]
  have h₃ : next ⟨S.table, locks, Function.update S.phase i .count, S.nextId⟩ (.exec i) =
      some ⟨S.table, locks, Function.update S.phase i (.insert count), S.nextId⟩ := by
    rw [hnext, step_count (Function.update_self ..), ← hcount]
    simp only [goto, Function.update_idem]
    rfl
  rw [← hlocks]
  exact ((hrun.snoc h₁).snoc h₂).snoc h₃

/-- Then it inserts its row, -/
theorem run_insert (hnext : ∀ S, next S (.exec i) = step W S (.exec i))
    (hrun : Steps next S₀ actions S) {count : ℕ} {r : Row} (hphase : S.phase i = .insert count)
    (hrow : W.newRow i S.nextId count = .ok r)
    (hnone : S.table.find? (·.row.holds r.sessionId r.valueHash) = none) :
    Steps next S₀ (actions ++ [.exec i]) ⟨S.table ++ [⟨r, some i⟩], S.locks,
      Function.update S.phase i (.returned r.tokenLabel), S.nextId + 1⟩ :=
  hrun.snoc ((hnext _).trans (step_insert hphase hrow hnone))

/-- and commits. -/
theorem run_commit (hnext : ∀ S, next S (.commit i) = step W S (.commit i))
    (hrun : Steps next S₀ actions S) {label : Text} (hphase : S.phase i = .returned label) :
    Steps next S₀ (actions ++ [.commit i]) (S.commit i label) :=
  hrun.snoc ((hnext _).trans (step_commit hphase))

end Statements

/-! ## A transaction on its own -/

/-- What the server shows to a call that starts at `now`. -/
def database (S : Server ι) (now : Time) : Db :=
  ⟨S.table.map Stored.row, [], S.nextId, now⟩

theorem visible_of_committed {S : Server ι} (hall : ∀ st ∈ S.table, st.writer = none) (i : ι) :
    S.visible i = S.table.map Stored.row := by
  rw [visible, List.filter_eq_self.mpr]
  intro st hst
  simp [hall st hst]

/-- **A transaction alone is `tokenize`**: from a server at rest the statements
of one transaction, run to the end and committed, leave the rows and return the
label of the sequential call. -/
theorem alone_tokenize {S : Server ι} {i : ι} (hall : ∀ st ∈ S.table, st.writer = none)
    (hfree : ∀ k, S.locks k = none) (hphase : S.phase i = .lookup) {label : Text} {v' : Db}
    (h : tokenize W.env (W.call i).nonce (S.database (W.call i).now) W.sessionId
      (W.call i).entityType (W.call i).value (W.call i).accessScope = .ok (label, v')) :
    ∃ n S', Steps (step W) S (List.replicate n (.exec i) ++ [.commit i]) S' ∧
      S'.database (W.call i).now = v' ∧ S'.phase i = .committed label ∧
      ∀ st ∈ S'.table, st.writer = none := by
  have hrest : S.table.map (Stored.committedBy i) = S.table := by
    refine (List.map_congr_left fun st hst => ?_).trans (List.map_id _)
    simp [Stored.committedBy, hall st hst]
  rcases tokenize_cases h with
    ⟨r, hr, rfl, rfl⟩ | ⟨hnone, hl, -, blob, r, hblob, hcheck, hrow, rfl⟩
  · -- The value has a row: one statement.
    have hfound : selectActive (S.visible i) W.session (W.vhash i) = some r := by
      rw [visible_of_committed hall]
      exact hr
    have h₁ : step W S (.exec i) = some (S.goto i (.returned r.tokenLabel)) :=
      step_found hphase hfound
    have hrun := run_commit (fun _ => rfl) (Steps.nil.snoc h₁) (Function.update_self ..)
    refine ⟨1, (S.goto i (.returned r.tokenLabel)).commit i r.tokenLabel, hrun, ?_, ?_, ?_⟩
    · simp [database, commit, goto, hrest]
    · simp [commit]
    · simpa [commit, goto, hrest] using hall
  · -- A fresh row: lookup, lock, count and insert.
    have hvisible := visible_of_committed hall i
    have hnew : W.newRow i S.nextId
        (countRows (S.visible i) W.session (W.etype i)) = .ok r := by
      refine bind_ok.mpr ⟨blob, hblob, ?_⟩
      have hsame : Vault.newRow W.env S.nextId (W.call i).now W.session (W.etype i)
          (tokenLabel (W.etype i) (countRows (S.visible i) W.session (W.etype i) + 1)) blob
          (W.vhash i) ((W.call i).accessScope.getD .default) = r := by
        rw [hvisible, hrow, hl]
        rfl
      exact (congrArg checkRow hsame).trans hcheck
    have hkey : r.sessionId = W.session ∧ r.valueHash = W.vhash i ∧ r.tokenLabel = label := by
      rw [hrow]
      dsimp only [Vault.newRow]
      exact ⟨rfl, rfl, rfl⟩
    obtain ⟨hsession, hvhash, rfl⟩ := hkey
    have hnone : selectActive (S.visible i) W.session (W.vhash i) = none := by
      rw [hvisible]
      exact hnone
    have hfind : S.table.find? (·.row.holds r.sessionId r.valueHash) = none := by
      rw [hvisible, selectActive, List.find?_map, Option.map_eq_none_iff,
        Function.comp_def] at hnone
      rw [hsession, hvhash]
      exact hnone
    have hcount := run_count (W := W) (fun _ => rfl) .nil hphase hnone (hfree _) rfl
    have hinsert := run_insert (W := W) (fun _ => rfl) hcount (Function.update_self ..) hnew
      hfind
    have hrun := run_commit (W := W) (fun _ => rfl) hinsert (Function.update_self ..)
    refine ⟨4, _, hrun, ?_, ?_, ?_⟩
    · simp [database, commit, hrest]
    · simp [commit]
    · intro st hst
      have hst : st ∈ S.table ∨ st = ⟨r, none⟩ := by
        simpa [commit, hrest, Stored.committedBy] using hst
      rcases hst with hst | rfl
      · exact hall st hst
      · rfl

end DlpServer.Vault.Server
