import DlpServer.Vault.Restore

/-!
# Concurrent tokenisation

`tokenize` again, one SQL statement at a time, for any number of transactions
of one wire session under READ COMMITTED: a statement sees the rows committed
when it starts and the rows of its own transaction. The advisory lock of a
session and type is held to the end of the transaction, and `INSERT ... ON
CONFLICT` waits for a transaction in flight that holds a row of the same value.
A transaction may abort at any time.
-/

namespace DlpServer.Vault

open Ids Runs

/-! ## The server -/

/-- One call of `tokenize` within a session; `now` is the start of its transaction. -/
structure TxCall where
  nonce : Nonce
  entityType : String
  value : Text
  accessScope : Option AccessScope
  now : Time

/-- The calls that compete. `hashtextextended` hashes the key of the advisory lock. -/
structure Workload (ι : Type*) where
  env : Env
  hashtextextended : Text → BitVec 64
  sessionId : String
  call : ι → TxCall

/-- A row version and the transaction in flight that wrote it; `none` is committed. -/
structure Stored (ι : Type*) where
  row : Row
  writer : Option ι

def Stored.committedBy {ι : Type*} [DecidableEq ι] (i : ι) (st : Stored ι) : Stored ι :=
  if st.writer = some i then ⟨st.row, none⟩ else st

@[simp] theorem Stored.committedBy_row {ι : Type*} [DecidableEq ι] (i : ι) (st : Stored ι) :
    (st.committedBy i).row = st.row := by
  unfold committedBy
  split <;> rfl

/-- How far a transaction is: the statement it sends next, or how it ended. -/
inductive Phase where
  | lookup
  | lock
  | count
  | insert (count : ℕ)
  | reread
  | returned (label : Text)
  | committed (label : Text)
  | aborted
deriving DecidableEq

/-- The statements between taking the lock and returning. -/
def Phase.inside : Phase → Bool
  | .count | .insert _ | .reread => true
  | _ => false

structure Server (ι : Type*) where
  table : List (Stored ι)
  locks : BitVec 64 → Option ι
  phase : ι → Phase
  nextId : ℕ

/-- What the server is asked to do next. -/
inductive Action (ι : Type*) where
  | exec (i : ι)
  | commit (i : ι)
  | abort (i : ι)

namespace Workload

variable {ι : Type*} (W : Workload ι)

def session : Uuid := W.env.coerce W.sessionId

def etype (i : ι) : String := W.env.normalizeEntityType (W.call i).entityType

def vhash (i : ι) : Text := W.env.hash W.sessionId (W.etype i) (W.call i).value

/-- The key of `pg_advisory_xact_lock`. -/
def lockKey (i : ι) : BitVec 64 :=
  W.hashtextextended (W.sessionId.toList ++ '|' :: (W.etype i).toList)

/-- The row sent to `INSERT`, after its checks. -/
def newRow (i : ι) (nextId count : ℕ) : Except VaultError Row := do
  let c := W.call i
  let cipherValue ← W.env.encrypt c.nonce c.value
  checkRow (Vault.newRow W.env nextId c.now W.session (W.etype i)
    (tokenLabel (W.etype i) (count + 1)) cipherValue (W.vhash i) (c.accessScope.getD .default))

theorem newRow_ok {i : ι} {id count : ℕ} {r : Row} (h : W.newRow i id count = .ok r) :
    r.sessionId = W.session ∧ r.entityType = W.etype i ∧ r.valueHash = W.vhash i ∧
      r.revokedAt = none ∧ r.tokenLabel = tokenLabel (W.etype i) (count + 1) := by
  obtain ⟨blob, -, h⟩ := bind_ok.mp h
  obtain ⟨rfl, -⟩ := checkRow_ok rfl h
  dsimp only [Vault.newRow]
  exact ⟨rfl, rfl, rfl, rfl, rfl⟩

end Workload

namespace Server

variable {ι : Type*} [DecidableEq ι]

/-- The snapshot of a statement of transaction `i`. -/
def visible (S : Server ι) (i : ι) : List Row :=
  (S.table.filter fun st => st.writer = none ∨ st.writer = some i).map Stored.row

/-- A statement without effect on the table or the locks. -/
def goto (S : Server ι) (i : ι) (p : Phase) : Server ι :=
  { S with phase := Function.update S.phase i p }

/-- Locks end with their transaction. -/
def release (S : Server ι) (i : ι) : BitVec 64 → Option ι :=
  fun k => if S.locks k = some i then none else S.locks k

def abort (S : Server ι) (i : ι) : Server ι :=
  { S with
    table := S.table.filter (·.writer ≠ some i)
    locks := S.release i
    phase := Function.update S.phase i .aborted }

def commit (S : Server ι) (i : ι) (label : Text) : Server ι :=
  { S with
    table := S.table.map (Stored.committedBy i)
    locks := S.release i
    phase := Function.update S.phase i (.committed label) }

variable (W : Workload ι)

/-- The next statement of transaction `i`; `none` when it has none or waits. -/
def execStmt (S : Server ι) (i : ι) : Option (Server ι) :=
  match S.phase i with
  | .lookup =>
      match selectActive (S.visible i) W.session (W.vhash i) with
      | some r => some (S.goto i (.returned r.tokenLabel))
      | none => some (S.goto i .lock)
  | .lock =>
      match S.locks (W.lockKey i) with
      | none =>
          some { S with
            locks := Function.update S.locks (W.lockKey i) (some i)
            phase := Function.update S.phase i .count }
      | some j => if j = i then some (S.goto i .count) else none
  | .count => some (S.goto i (.insert (countRows (S.visible i) W.session (W.etype i))))
  | .insert count =>
      match W.newRow i S.nextId count with
      | .error _ => some (S.abort i)
      | .ok r =>
          match S.table.find? (·.row.holds r.sessionId r.valueHash) with
          | none =>
              some { S with
                table := S.table ++ [⟨r, some i⟩]
                nextId := S.nextId + 1
                phase := Function.update S.phase i (.returned r.tokenLabel) }
          | some st =>
              -- The index entry of a row in flight makes the statement wait.
              if st.writer = none ∨ st.writer = some i then some (S.goto i .reread) else none
  | .reread =>
      match selectActive (S.visible i) W.session (W.vhash i) with
      | some r => some (S.goto i (.returned r.tokenLabel))
      | none => some (S.abort i)
  | .returned _ | .committed _ | .aborted => none

def step (S : Server ι) : Action ι → Option (Server ι)
  | .exec i => S.execStmt W i
  | .commit i =>
      match S.phase i with
      | .returned label => some (S.commit i label)
      | _ => none
  | .abort i =>
      match S.phase i with
      | .committed _ | .aborted => none
      | _ => some (S.abort i)

/-- Before the first statement; the table holds rows of other sessions. -/
structure Initial (S : Server ι) : Prop where
  phase : ∀ i, S.phase i = .lookup
  committed : ∀ st ∈ S.table, st.writer = none
  fresh : ∀ st ∈ S.table, st.row.sessionId ≠ W.session
  unlocked : ∀ k, S.locks k = none

/-! ## What an action does -/

/-- **Every action of the server, by its effect.** -/
inductive Effect (S : Server ι) : Server ι → Prop where
  | found (i : ι) (st : Stored ι) (hopen : S.phase i = .lookup ∨ S.phase i = .reread)
      (hst : st ∈ S.table) (hvis : st.writer = none ∨ st.writer = some i)
      (hkey : st.row.sessionId = W.session ∧ st.row.valueHash = W.vhash i) :
      Effect S (S.goto i (.returned st.row.tokenLabel))
  | missed (i : ι) (hopen : S.phase i = .lookup) : Effect S (S.goto i .lock)
  | locked (i : ι) (hopen : S.phase i = .lock)
      (hfree : S.locks (W.lockKey i) = none ∨ S.locks (W.lockKey i) = some i) :
      Effect S { S with
        locks := Function.update S.locks (W.lockKey i) (some i)
        phase := Function.update S.phase i .count }
  | counted (i : ι) (hopen : S.phase i = .count) :
      Effect S (S.goto i (.insert (countRows (S.visible i) W.session (W.etype i))))
  | inserted (i : ι) (count : ℕ) (r : Row) (hopen : S.phase i = .insert count)
      (hrow : r.sessionId = W.session ∧ r.entityType = W.etype i ∧ r.valueHash = W.vhash i ∧
        r.revokedAt = none ∧ r.tokenLabel = tokenLabel (W.etype i) (count + 1))
      (hnew : ∀ st ∈ S.table, st.row.holds W.session (W.vhash i) = false) :
      Effect S { S with
        table := S.table ++ [⟨r, some i⟩]
        nextId := S.nextId + 1
        phase := Function.update S.phase i (.returned r.tokenLabel) }
  | conflict (i : ι) (count : ℕ) (hopen : S.phase i = .insert count) :
      Effect S (S.goto i .reread)
  | commit (i : ι) (label : Text) (hopen : S.phase i = .returned label) :
      Effect S (S.commit i label)
  | abort (i : ι) (hopen : ∀ label, S.phase i ≠ .committed label) : Effect S (S.abort i)

theorem mem_visible {S : Server ι} {i : ι} {r : Row} :
    r ∈ S.visible i ↔
      ∃ st ∈ S.table, (st.writer = none ∨ st.writer = some i) ∧ st.row = r := by
  simp only [visible, List.mem_map, List.mem_filter, decide_eq_true_eq, and_assoc]

theorem effect_of_find {S : Server ι} {i : ι} {r : Row}
    (hopen : S.phase i = .lookup ∨ S.phase i = .reread)
    (h : selectActive (S.visible i) W.session (W.vhash i) = some r) :
    Effect W S (S.goto i (.returned r.tokenLabel)) := by
  obtain ⟨hr, hs, hh, -⟩ := selectActive_some h
  obtain ⟨st, hst, hvis, rfl⟩ := mem_visible.mp hr
  exact .found i st hopen hst hvis ⟨hs, hh⟩

theorem execStmt_effect {S S' : Server ι} {i : ι} (h : S.execStmt W i = some S') :
    Effect W S S' := by
  unfold execStmt at h
  cases hp : S.phase i with
  | lookup =>
      simp only [hp] at h
      cases hs : selectActive (S.visible i) W.session (W.vhash i) with
      | some r =>
          simp only [hs, Option.some.injEq] at h
          exact h ▸ effect_of_find W (Or.inl hp) hs
      | none =>
          simp only [hs, Option.some.injEq] at h
          exact h ▸ .missed i hp
  | lock =>
      simp only [hp] at h
      cases hl : S.locks (W.lockKey i) with
      | none =>
          simp only [hl, Option.some.injEq] at h
          exact h ▸ .locked i hp (Or.inl hl)
      | some j =>
          simp only [hl, Option.ite_none_right_eq_some, Option.some.injEq] at h
          obtain ⟨rfl, rfl⟩ := h
          have hsame : Function.update S.locks (W.lockKey j) (some j) = S.locks := by
            rw [← hl, Function.update_eq_self]
          have heff := Effect.locked (W := W) j hp (Or.inr hl)
          rw [hsame] at heff
          exact heff
  | count =>
      simp only [hp, Option.some.injEq] at h
      exact h ▸ .counted i hp
  | insert count =>
      simp only [hp] at h
      cases hn : W.newRow i S.nextId count with
      | error e =>
          simp only [hn, Option.some.injEq] at h
          exact h ▸ .abort i (by simp [hp])
      | ok r =>
          obtain ⟨hs, het, hh, hact, hlab⟩ := W.newRow_ok hn
          simp only [hn, hs, hh] at h
          cases hf : S.table.find? (·.row.holds W.session (W.vhash i)) with
          | none =>
              simp only [hf, Option.some.injEq] at h
              refine h ▸ .inserted i count r hp ⟨hs, het, hh, hact, hlab⟩ ?_
              intro st hst
              simpa using List.find?_eq_none.mp hf st hst
          | some st =>
              simp only [hf, Option.ite_none_right_eq_some, Option.some.injEq] at h
              exact h.2 ▸ .conflict i count hp
  | reread =>
      simp only [hp] at h
      cases hs : selectActive (S.visible i) W.session (W.vhash i) with
      | some r =>
          simp only [hs, Option.some.injEq] at h
          exact h ▸ effect_of_find W (Or.inr hp) hs
      | none =>
          simp only [hs, Option.some.injEq] at h
          exact h ▸ .abort i (by simp [hp])
  | returned | committed | aborted => simp only [hp, reduceCtorEq] at h

theorem step_effect {S S' : Server ι} {a : Action ι} (h : S.step W a = some S') :
    Effect W S S' := by
  cases a with
  | exec i => exact execStmt_effect W h
  | commit i =>
      simp only [step] at h
      split at h
      · rename_i label hp
        exact Option.some.inj h ▸ .commit i label hp
      · cases h
  | abort i =>
      simp only [step] at h
      split at h
      · cases h
      · cases h
      · rename_i hc _
        exact Option.some.inj h ▸ .abort i hc

end Server

/-! ## The invariant -/

namespace Server

variable {ι : Type*} (W : Workload ι)

/-- The rows of the session and a type, in the order of the table. -/
def ofType (S : Server ι) (t : String) : List (Stored ι) :=
  S.table.filter (·.row.counts W.session t)

/-- What every reachable server satisfies. -/
structure Inv (S : Server ι) : Prop where
  locked : ∀ i, (S.phase i).inside → S.locks (W.lockKey i) = some i
  counted : ∀ i n, S.phase i = .insert n → n = (S.ofType W (W.etype i)).length
  origin : ∀ st ∈ S.table, st.row.sessionId = W.session →
    ∃ i, st.row.entityType = W.etype i ∧ st.row.valueHash = W.vhash i ∧
      st.row.revokedAt = none ∧
      (st.writer = none ∧ S.phase i = .committed st.row.tokenLabel ∨
        st.writer = some i ∧ S.phase i = .returned st.row.tokenLabel ∧
          S.locks (W.lockKey i) = some i)
  numbered : ∀ t k (hk : k < (S.ofType W t).length),
    (S.ofType W t)[k].row.tokenLabel = tokenLabel t (k + 1)
  order : S.table.Pairwise fun a b => a.row.sessionId = W.session →
    b.row.sessionId = W.session → a.row.entityType = b.row.entityType → a.writer = none
  unique : S.table.Pairwise fun a b => a.row.sessionId = W.session →
    b.row.sessionId = W.session → a.row.valueHash ≠ b.row.valueHash
  result : ∀ i l, S.phase i = .returned l ∨ S.phase i = .committed l →
    ∃ st ∈ S.table, st.row.sessionId = W.session ∧ st.row.valueHash = W.vhash i ∧
      st.row.tokenLabel = l ∧ (st.writer = none ∨ st.writer = some i ∧ S.phase i = .returned l)

variable {W}

theorem Initial.inv {S : Server ι} (h : Initial W S) : Inv W S where
  locked i hi := by simp [h.phase i, Phase.inside] at hi
  counted i n hn := by simp [h.phase i] at hn
  origin st hst hs := absurd hs (h.fresh st hst)
  numbered t k hk := by
    have hnil : S.ofType W t = [] := List.filter_eq_nil_iff.mpr fun st hst hc =>
      h.fresh st hst (Row.counts_iff.mp hc).1
    simp [hnil] at hk
  order := List.pairwise_iff_forall_sublist.mpr fun {a b} hab hs =>
    absurd hs (h.fresh a (hab.subset (by simp)))
  unique := List.pairwise_iff_forall_sublist.mpr fun {a b} hab hs =>
    absurd hs (h.fresh a (hab.subset (by simp)))
  result i l hl := by simp [h.phase i] at hl

/-- Mutual exclusion: beside a transaction that holds the lock of a type, no
row of that type is in flight. -/
theorem Inv.exclusion {S : Server ι} (h : Inv W S) {i : ι} (hin : (S.phase i).inside)
    {st : Stored ι} (hst : st ∈ S.table) (hs : st.row.sessionId = W.session)
    (ht : st.row.entityType = W.etype i) : st.writer = none := by
  obtain ⟨j, hj, -, -, ⟨hw, -⟩ | ⟨-, hphase, hlock⟩⟩ := h.origin st hst hs
  · exact hw
  · have hkey : W.lockKey j = W.lockKey i := by
      rw [Workload.lockKey, Workload.lockKey, ← hj, ht]
    obtain rfl : j = i := by
      rw [hkey, h.locked i hin] at hlock
      exact (Option.some.inj hlock).symm
    simp [hphase, Phase.inside] at hin

variable [DecidableEq ι]

/-- A transaction between two statements: table and other transactions' locks stay. -/
theorem Inv.move {S : Server ι} (h : Inv W S) {i : ι} {p : Phase} {locks : BitVec 64 → Option ι}
    (hopen : ∀ l, S.phase i ≠ .returned l ∧ S.phase i ≠ .committed l)
    (hkeep : ∀ j, j ≠ i → S.locks (W.lockKey j) = some j → locks (W.lockKey j) = some j)
    (hlock : p.inside → locks (W.lockKey i) = some i)
    (hcount : ∀ n, p = .insert n → n = (S.ofType W (W.etype i)).length)
    (hresult : ∀ l, p = .returned l ∨ p = .committed l → ∃ st ∈ S.table,
      st.row.sessionId = W.session ∧ st.row.valueHash = W.vhash i ∧ st.row.tokenLabel = l ∧
        (st.writer = none ∨ st.writer = some i ∧ p = .returned l)) :
    Inv W { S with locks := locks, phase := Function.update S.phase i p } where
  locked j hj := by
    dsimp only at hj ⊢
    by_cases hij : j = i
    · subst hij
      exact hlock (by simpa using hj)
    · rw [Function.update_of_ne hij] at hj
      exact hkeep j hij (h.locked j hj)
  counted j n hn := by
    dsimp only at hn ⊢
    by_cases hij : j = i
    · subst hij
      exact hcount n (by simpa using hn)
    · rw [Function.update_of_ne hij] at hn
      exact h.counted j n hn
  origin st hst hs := by
    obtain ⟨j, ht, hh, hact, hend⟩ := h.origin st hst hs
    have hij : j ≠ i := by
      rintro rfl
      rcases hend with ⟨-, hp⟩ | ⟨-, hp, -⟩
      · exact (hopen _).2 hp
      · exact (hopen _).1 hp
    refine ⟨j, ht, hh, hact, ?_⟩
    dsimp only
    rw [Function.update_of_ne hij]
    rcases hend with hc | ⟨hw, hp, hl⟩
    · exact Or.inl hc
    · exact Or.inr ⟨hw, hp, hkeep j hij hl⟩
  numbered := h.numbered
  order := h.order
  unique := h.unique
  result j l hl := by
    dsimp only at hl ⊢
    by_cases hij : j = i
    · subst hij
      simpa using hresult l (by simpa using hl)
    · rw [Function.update_of_ne hij] at hl ⊢
      exact h.result j l hl

theorem Inv.insert {S : Server ι} (h : Inv W S) {i : ι} {count : ℕ} {r : Row}
    (hopen : S.phase i = .insert count)
    (hrow : r.sessionId = W.session ∧ r.entityType = W.etype i ∧ r.valueHash = W.vhash i ∧
      r.revokedAt = none ∧ r.tokenLabel = tokenLabel (W.etype i) (count + 1))
    (hnew : ∀ st ∈ S.table, st.row.holds W.session (W.vhash i) = false) :
    Inv W { S with
      table := S.table ++ [⟨r, some i⟩]
      nextId := S.nextId + 1
      phase := Function.update S.phase i (.returned r.tokenLabel) } := by
  have hin : (S.phase i).inside := by rw [hopen]; rfl
  obtain ⟨hs, ht, hh, hact, hlabel⟩ := hrow
  have hof : ∀ t, ofType W { S with
      table := S.table ++ [⟨r, some i⟩]
      nextId := S.nextId + 1
      phase := Function.update S.phase i (.returned r.tokenLabel) } t =
        S.ofType W t ++ if W.etype i = t then [⟨r, some i⟩] else [] := by
    intro t
    by_cases htt : W.etype i = t <;>
      simp [ofType, List.filter_append, Row.counts, hs, ht, htt]
  constructor
  case locked =>
    intro j hj
    dsimp only at hj ⊢
    by_cases hij : j = i
    · simp [hij, Phase.inside] at hj
    · rw [Function.update_of_ne hij] at hj
      exact h.locked j hj
  case counted =>
    intro j n hn
    dsimp only at hn
    by_cases hij : j = i
    · simp [hij] at hn
    · rw [Function.update_of_ne hij] at hn
      have hne : W.etype i ≠ W.etype j := by
        intro heq
        have hj := h.locked j (by rw [hn]; rfl)
        have hkey : W.lockKey j = W.lockKey i := by rw [Workload.lockKey, Workload.lockKey, heq]
        rw [hkey, h.locked i hin] at hj
        exact hij (Option.some.inj hj).symm
      rw [hof, if_neg hne, List.append_nil]
      exact h.counted j n hn
  case origin =>
    intro st hst hst'
    rcases List.mem_append.mp hst with hst | hst
    · obtain ⟨j, hjt, hjh, hjact, hend⟩ := h.origin st hst hst'
      have hij : j ≠ i := by
        rintro rfl
        rcases hend with ⟨-, hp⟩ | ⟨-, hp, -⟩ <;> simp [hopen] at hp
      refine ⟨j, hjt, hjh, hjact, ?_⟩
      dsimp only
      rwa [Function.update_of_ne hij]
    · obtain rfl := List.mem_singleton.mp hst
      refine ⟨i, ht, hh, hact, Or.inr ⟨rfl, ?_, h.locked i hin⟩⟩
      simp
  case numbered =>
    intro t k hk
    rw [hof] at hk
    simp only [hof]
    by_cases htt : W.etype i = t
    · subst htt
      rw [if_pos rfl] at hk
      simp only [if_true]
      rcases lt_or_eq_of_le (Nat.le_of_lt_succ (by simpa using hk)) with hlt | rfl
      · rw [List.getElem_append_left hlt]
        exact h.numbered _ k hlt
      · rw [List.getElem_concat_length rfl, hlabel, h.counted i count hopen]
    · simp only [if_neg htt, List.append_nil] at hk ⊢
      exact h.numbered t k hk
  case order =>
    refine List.pairwise_append.mpr ⟨h.order, List.pairwise_singleton _ _, ?_⟩
    intro a ha b hb has _ hty
    obtain rfl := List.mem_singleton.mp hb
    exact h.exclusion hin ha has (hty.trans ht)
  case unique =>
    refine List.pairwise_append.mpr ⟨h.unique, List.pairwise_singleton _ _, ?_⟩
    intro a ha b hb has _ heq
    obtain rfl := List.mem_singleton.mp hb
    obtain ⟨_, -, -, hnone, -⟩ := h.origin a ha has
    have hholds := Row.holds_iff.mpr ⟨has, heq.trans hh, hnone⟩
    rw [hnew a ha] at hholds
    cases hholds
  case result =>
    intro j l hl
    dsimp only at hl ⊢
    by_cases hij : j = i
    · subst hij
      obtain rfl : r.tokenLabel = l := by simpa using hl
      exact ⟨⟨r, some j⟩, List.mem_append_right _ List.mem_cons_self, hs, hh, rfl,
        Or.inr ⟨rfl, by simp⟩⟩
    · rw [Function.update_of_ne hij] at hl ⊢
      obtain ⟨st, hst, hrest⟩ := h.result j l hl
      exact ⟨st, List.mem_append_left _ hst, hrest⟩

/-- If only the last element may fail `p`, filtering by `p` drops a suffix. -/
theorem filter_initial {α : Type*} {p : α → Bool} {l : List α}
    (h : l.Pairwise fun a _ => p a = true) : l.filter p <+: l := by
  induction l with
  | nil => exact List.prefix_refl _
  | cons a l ih =>
      obtain ⟨ha, hl⟩ := List.pairwise_cons.mp h
      cases hp : p a with
      | true =>
          rw [List.filter_cons_of_pos hp]
          exact (List.prefix_cons_inj a).mpr (ih hl)
      | false =>
          cases l with
          | nil => simp [hp]
          | cons b l => simp [ha b List.mem_cons_self] at hp

theorem Inv.ofType_abort {S : Server ι} (h : Inv W S) (i : ι) (t : String) :
    (S.abort i).ofType W t <+: S.ofType W t := by
  have hcomm : (S.abort i).ofType W t = (S.ofType W t).filter (·.writer ≠ some i) := by
    simp only [ofType, abort, List.filter_filter]
    exact List.filter_congr fun _ _ => Bool.and_comm _ _
  rw [hcomm]
  apply filter_initial
  refine (List.Pairwise.sublist List.filter_sublist h.order).imp_of_mem ?_
  intro a b ha hb hab
  obtain ⟨has, hat⟩ := Row.counts_iff.mp (List.mem_filter.mp ha).2
  obtain ⟨hbs, hbt⟩ := Row.counts_iff.mp (List.mem_filter.mp hb).2
  simp [hab has hbs (hat.trans hbt.symm)]

theorem Inv.abort {S : Server ι} (h : Inv W S) {i : ι}
    (hopen : ∀ label, S.phase i ≠ .committed label) : Inv W (S.abort i) := by
  have hlock : ∀ j, j ≠ i → S.locks (W.lockKey j) = some j →
      (S.abort i).locks (W.lockKey j) = some j := by
    intro j hij hj
    simp [Server.abort, release, hj, hij]
  have hphase : ∀ j, j ≠ i → (S.abort i).phase j = S.phase j := fun j hij =>
    Function.update_of_ne hij _ _
  have hself : (S.abort i).phase i = .aborted := Function.update_self _ _ _
  constructor
  case locked =>
    intro j hj
    by_cases hij : j = i
    · simp [hij, hself, Phase.inside] at hj
    · rw [hphase j hij] at hj
      exact hlock j hij (h.locked j hj)
  case counted =>
    intro j n hn
    by_cases hij : j = i
    · simp [hij, hself] at hn
    · rw [hphase j hij] at hn
      -- No row of this type is in flight, so none is dropped.
      have hkeep : (S.abort i).ofType W (W.etype j) = S.ofType W (W.etype j) := by
        rw [ofType, ofType]
        simp only [Server.abort, List.filter_filter]
        apply List.filter_congr
        intro st hst
        by_cases hc : st.row.counts W.session (W.etype j) = true
        · obtain ⟨hs, ht⟩ := Row.counts_iff.mp hc
          simp [h.exclusion (by rw [hn]; rfl) hst hs ht]
        · simp [hc]
      rw [hkeep]
      exact h.counted j n hn
  case origin =>
    intro st hst hs
    obtain ⟨hst, hw⟩ := List.mem_filter.mp hst
    obtain ⟨j, ht, hh, hact, hend⟩ := h.origin st hst hs
    refine ⟨j, ht, hh, hact, ?_⟩
    rcases hend with ⟨hnone, hp⟩ | ⟨hwj, hp, hl⟩
    · have hij : j ≠ i := by
        rintro rfl
        exact hopen _ hp
      exact Or.inl ⟨hnone, (hphase j hij).trans hp⟩
    · have hij : j ≠ i := by
        rintro rfl
        simp [hwj] at hw
      exact Or.inr ⟨hwj, (hphase j hij).trans hp, hlock j hij hl⟩
  case numbered =>
    intro t k hk
    have hpre := h.ofType_abort i t
    rw [hpre.getElem hk]
    exact h.numbered t k (lt_of_lt_of_le hk hpre.length_le)
  case order => exact h.order.sublist List.filter_sublist
  case unique => exact h.unique.sublist List.filter_sublist
  case result =>
    intro j l hl
    by_cases hij : j = i
    · simp [hij, hself] at hl
    · rw [hphase j hij] at hl ⊢
      obtain ⟨st, hst, hs, hh, hlab, hw⟩ := h.result j l hl
      refine ⟨st, List.mem_filter.mpr ⟨hst, ?_⟩, hs, hh, hlab, hw⟩
      rcases hw with hw | ⟨hw, -⟩
      · simp [hw]
      · simp [hw, hij]

theorem Inv.commit {S : Server ι} (h : Inv W S) {i : ι} {label : Text}
    (hopen : S.phase i = .returned label) : Inv W (S.commit i label) := by
  have hlock : ∀ j, j ≠ i → S.locks (W.lockKey j) = some j →
      (S.commit i label).locks (W.lockKey j) = some j := by
    intro j hij hj
    simp [Server.commit, release, hj, hij]
  have hphase : ∀ j, j ≠ i → (S.commit i label).phase j = S.phase j := fun j hij =>
    Function.update_of_ne hij _ _
  have hself : (S.commit i label).phase i = .committed label := Function.update_self _ _ _
  have hof : ∀ t, (S.commit i label).ofType W t =
      (S.ofType W t).map (Stored.committedBy i) := by
    intro t
    simp only [ofType, Server.commit, List.filter_map]
    exact congrArg (List.map _) (List.filter_congr fun st _ => by simp)
  constructor
  case locked =>
    intro j hj
    by_cases hij : j = i
    · simp [hij, hself, Phase.inside] at hj
    · rw [hphase j hij] at hj
      exact hlock j hij (h.locked j hj)
  case counted =>
    intro j n hn
    by_cases hij : j = i
    · simp [hij, hself] at hn
    · rw [hphase j hij] at hn
      rw [hof, List.length_map]
      exact h.counted j n hn
  case origin =>
    intro st' hst' hs
    obtain ⟨st, hst, rfl⟩ := List.mem_map.mp hst'
    rw [Stored.committedBy_row] at hs ⊢
    obtain ⟨j, ht, hh, hact, hend⟩ := h.origin st hst hs
    refine ⟨j, ht, hh, hact, ?_⟩
    rcases hend with ⟨hnone, hp⟩ | ⟨hwj, hp, hl⟩
    · have hij : j ≠ i := by
        rintro rfl
        simp [hopen] at hp
      exact Or.inl ⟨by simp [Stored.committedBy, hnone], (hphase j hij).trans hp⟩
    · by_cases hij : j = i
      · subst hij
        obtain rfl : label = st.row.tokenLabel := by simpa [hopen] using hp
        exact Or.inl ⟨by simp [Stored.committedBy, hwj], hself⟩
      · exact Or.inr ⟨by simp [Stored.committedBy, hwj, hij], (hphase j hij).trans hp,
          hlock j hij hl⟩
  case numbered =>
    intro t k hk
    simp only [hof, List.getElem_map, Stored.committedBy_row]
    exact h.numbered t k (by simpa [hof] using hk)
  case order =>
    refine List.pairwise_map.mpr (h.order.imp ?_)
    intro a b hab has hbs hty
    simp only [Stored.committedBy_row] at has hbs hty
    simp [Stored.committedBy, hab has hbs hty]
  case unique =>
    refine List.pairwise_map.mpr (h.unique.imp ?_)
    intro a b hab has hbs
    simp only [Stored.committedBy_row] at has hbs ⊢
    exact hab has hbs
  case result =>
    intro j l hl
    by_cases hij : j = i
    · subst hij
      obtain rfl : label = l := by simpa [hself] using hl
      obtain ⟨st, hst, hs, hh, hlab, hw⟩ := h.result j label (Or.inl hopen)
      refine ⟨_, List.mem_map_of_mem hst, ?_, ?_, ?_, Or.inl ?_⟩
      · simpa using hs
      · simpa using hh
      · simpa using hlab
      · rcases hw with hw | ⟨hw, -⟩ <;> simp [Stored.committedBy, hw]
    · rw [hphase j hij] at hl ⊢
      obtain ⟨st, hst, hs, hh, hlab, hw⟩ := h.result j l hl
      have hsame : st.committedBy i = st := by
        rcases hw with hw | ⟨hw, -⟩ <;> simp [Stored.committedBy, hw, hij]
      exact ⟨st, List.mem_map.mpr ⟨st, hst, hsame⟩, hs, hh, hlab, hw⟩

/-- Every action keeps the invariant. -/
theorem Inv.step {S S' : Server ι} {a : Action ι} (h : Inv W S)
    (hstep : S.step W a = some S') : Inv W S' := by
  cases step_effect W hstep with
  | found i st hopen hst hvis hkey =>
      refine h.move ?_ (fun _ _ hj => hj) (by simp [Phase.inside]) (by simp) ?_
      · rcases hopen with hp | hp <;> simp [hp]
      · intro l hl
        obtain rfl : st.row.tokenLabel = l := by simpa using hl
        refine ⟨st, hst, hkey.1, hkey.2, rfl, ?_⟩
        exact hvis.imp_right fun hw => ⟨hw, rfl⟩
  | missed i hopen =>
      exact h.move (by simp [hopen]) (fun _ _ hj => hj) (by simp [Phase.inside]) (by simp)
        (by simp)
  | locked i hopen hfree =>
      refine h.move (by simp [hopen]) ?_ (by simp) (by simp) (by simp)
      intro j hij hj
      have hkey : W.lockKey j ≠ W.lockKey i := by
        intro heq
        rw [heq] at hj
        rcases hfree with hf | hf <;> rw [hj] at hf
        · cases hf
        · exact hij (Option.some.inj hf)
      rwa [Function.update_of_ne hkey]
  | counted i hopen =>
      have hin : (S.phase i).inside := by rw [hopen]; rfl
      refine h.move (by simp [hopen]) (fun _ _ hj => hj) (fun _ => h.locked i hin) ?_ (by simp)
      intro n hn
      -- Under the lock the snapshot holds every row of the type.
      have hvis : countRows (S.visible i) W.session (W.etype i) =
          (S.ofType W (W.etype i)).length := by
        rw [countRows, visible, ofType, List.countP_map, List.countP_filter,
          ← List.countP_eq_length_filter]
        apply List.countP_congr
        intro st hst
        by_cases hc : st.row.counts W.session (W.etype i) = true
        · obtain ⟨hs, ht⟩ := Row.counts_iff.mp hc
          simp [hc, h.exclusion hin hst hs ht]
        · simp [hc]
      rw [← hvis]
      exact (Phase.insert.inj hn).symm
  | inserted i count r hopen hrow hnew => exact h.insert hopen hrow hnew
  | conflict i count hopen =>
      have hin : (S.phase i).inside := by rw [hopen]; rfl
      exact h.move (by simp [hopen]) (fun _ _ hj => hj) (fun _ => h.locked i hin) (by simp)
        (by simp)
  | commit i label hopen => exact h.commit hopen
  | abort i hopen => exact h.abort hopen

theorem Inv.run {S₀ S : Server ι} {actions : List (Action ι)} (h₀ : Initial W S₀)
    (h : Steps (Server.step W) S₀ actions S) : Inv W S :=
  h.invariant (fun _ S => Inv W S) h₀.inv fun _ _ _ _ _ hinv hstep => hinv.step hstep

end Server

end DlpServer.Vault
