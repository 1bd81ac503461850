import DlpServer.Pipeline.Stages

/-!
# Expiry under concurrency

Requests and sweeps as threads over the session store and the vault. An expired
state is taken out under the lock of the store, and `on_expire` is called for it
later, outside the lock; it knows the session by its id alone. In between other
threads may save a new state of the session and mint tokens. The history of what
happened is kept beside the state. `expiry_spares_new_tokens` says when no such
token is revoked.
-/

namespace DlpServer.Pipeline.Expiry

open Context Runs

/-! ## Threads -/

/-- A state that was taken out of the store and whose `on_expire` call is due. -/
structure Due where
  number : ℕ
  ref : Ref
  sessionId : String
deriving DecidableEq

inductive Event where
  | removed (d : Due)
  | fired (d : Due) (revoked : List ℕ)
  | saved (r : Ref) (sessionId : String)
  | minted (sessionId : String) (tokenId : ℕ)
deriving DecidableEq

/-- What requests and sweeps do with the store and the vault. An input makes the
first two and then tokenizes, an output reads the purpose. -/
inductive Call where
  | multiturn (sessionId : String) (spans : List Span)
  | remember (sessionId purpose : String)
  | lastPurpose (sessionId : String)
  | tokenize (sessionId : String) (nonce : Vault.Nonce) (entityType : String) (value : Text)
      (accessScope : Option Vault.AccessScope)
  | sweep

/-- How far a thread is in its call. -/
inductive Point where
  | next
  | expiring (due : List Due)
  | missing
  | loaded (r : Ref)
  | changed (r : Ref)

structure Thread where
  point : Point
  calls : List Call

/-- The calls of `on_expire` that a thread has still to make. -/
def Thread.due (t : Thread) : List Due :=
  match t.point with
  | .expiring due => due
  | _ => []

/-- The call is over. -/
def Thread.finish (t : Thread) : Thread := ⟨.next, t.calls.tail⟩

/-- After `load` gave nothing, or a sweep took states out: first `on_expire`, then
the new session of a stage. -/
def Thread.after (t : Thread) (due : List Due) : Thread :=
  match due, t.calls with
  | [], .multiturn _ _ :: _ | [], .remember _ _ :: _ => ⟨.missing, t.calls⟩
  | [], _ => t.finish
  | _ :: _, _ => ⟨.expiring due, t.calls⟩

/-- After `load` gave a state: `get_last_purpose` is done with it. -/
def Thread.withState (t : Thread) (r : Ref) : Thread :=
  match t.calls with
  | .lastPurpose _ :: _ => t.finish
  | _ => ⟨.loaded r, t.calls⟩

structure System (ι : Type*) where
  store : Store
  vault : Vault.Db
  thread : ι → Thread
  removals : ℕ
  history : List Event

/-- A thread takes its next step, at these readings of the clocks. -/
structure Tick (ι : Type*) where
  actor : ι
  storeNow : ℚ
  dbNow : Vault.Time

/-- The states taken out, with their numbers and the ids that they carry. -/
def dueOf (heap : List SessionState) : ℕ → List Ref → List Due
  | _, [] => []
  | n, r :: rs =>
      match heap[r]? with
      | some st => ⟨n, r, st.sessionId⟩ :: dueOf heap (n + 1) rs
      | none => dueOf heap n rs

/-- What `_sweep_once_sync` does under the lock. -/
def sweepOnce (S : Store) (now : ℚ) : List Ref × Store :=
  let expired := fun p : String × Ref => decide (∃ st ∈ S.heap[p.2]?, st.isExpired now)
  ((S.states.filter expired).map Prod.snd,
    { S with states := S.states.filter fun p => !expired p })

section Steps

variable {ι : Type*} [DecidableEq ι] (env : Vault.Env) (cfg : AccumulatorConfig)

namespace System

variable (S : System ι)

def setThread (i : ι) (t : Thread) : ι → Thread := Function.update S.thread i t

/-- States were taken out of the store. -/
def remove (i : ι) (store : Store) (refs : List Ref) : System ι :=
  let due := dueOf S.store.heap S.removals refs
  { S with
    store := store
    thread := S.setThread i ((S.thread i).after due)
    removals := S.removals + due.length
    history := S.history ++ due.map .removed }

def load (i : ι) (sessionId : String) (now : ℚ) : System ι :=
  match S.store.load now sessionId with
  | (some r, _, _) => { S with thread := S.setThread i ((S.thread i).withState r) }
  | (none, fired, store) => S.remove i store fired

/-- `tokenize`, whose exceptions the caller swallows. -/
def tokenize (i : ι) (now : Vault.Time) (sessionId : String) (nonce : Vault.Nonce)
    (entityType : String) (value : Text) (accessScope : Option Vault.AccessScope) : System ι :=
  let v := { S.vault with now := now }
  match Vault.tokenize env nonce v sessionId entityType value accessScope with
  | .ok (_, v') =>
      { S with
        vault := v'
        thread := S.setThread i (S.thread i).finish
        history := S.history ++ (v'.rows.drop v.rows.length).map fun row =>
          .minted sessionId row.tokenId }
  | .error _ => { S with vault := v, thread := S.setThread i (S.thread i).finish }

/-- The rows that `revoke_session` would revoke. -/
def active (sessionId : String) : List Vault.Row :=
  S.vault.rows.filter fun row => row.sessionId == env.coerce sessionId && row.revokedAt.isNone

/-- `_default_on_expire` for the first state that is due. -/
def fire (i : ι) (now : Vault.Time) (d : Due) (rest : List Due) : System ι :=
  { S with
    vault := Vault.revokeSession env { S.vault with now := now } d.sessionId
    thread := S.setThread i ((S.thread i).after rest)
    history := S.history ++ [.fired d ((S.active env d.sessionId).map Vault.Row.tokenId)] }

/-- What a stage does to the state in place. -/
def change (now : ℚ) (call : Call) (st : SessionState) : SessionState :=
  match call with
  | .multiturn _ spans => accumulate env.sha256Hex cfg st spans (st.turnCount + 1) now
  | .remember _ purpose => { st with purpose := some purpose }
  | _ => st

def save (i : ι) (r : Ref) : System ι :=
  { S with
    store := S.store.save r
    thread := S.setThread i (S.thread i).finish
    history := S.history ++ ((S.store.heap[r]?).map fun st => .saved r st.sessionId).toList }

/-- The first step of a call. -/
def start (a : Tick ι) : Call → System ι
  | .multiturn sessionId _ | .remember sessionId _ | .lastPurpose sessionId =>
      S.load a.actor sessionId a.storeNow
  | .tokenize sessionId nonce entityType value accessScope =>
      S.tokenize env a.actor a.dbNow sessionId nonce entityType value accessScope
  | .sweep => S.remove a.actor (sweepOnce S.store a.storeNow).2 (sweepOnce S.store a.storeNow).1

/-- `new_session` of a stage. -/
def make (a : Tick ι) : Call → Option (System ι)
  | .multiturn sessionId _ | .remember sessionId _ =>
      let (r, store) := S.store.newSession a.storeNow sessionId
      some { S with
        store := store
        thread := S.setThread a.actor ⟨.loaded r, (S.thread a.actor).calls⟩ }
  | _ => none

/-- The next step of a thread; `none` when it has no call left. -/
def step (a : Tick ι) : Option (System ι) :=
  match (S.thread a.actor).calls, (S.thread a.actor).point with
  | [], _ => none
  | call :: _, .next => some (S.start env a call)
  | _ :: _, .expiring [] => none
  | _ :: _, .expiring (d :: rest) => some (S.fire env a.actor a.dbNow d rest)
  | call :: _, .missing => S.make a call
  | call :: _, .loaded r =>
      some { S with
        store := S.store.modify r (change env cfg a.storeNow call)
        thread := S.setThread a.actor ⟨.changed r, (S.thread a.actor).calls⟩ }
  | _ :: _, .changed r => some (S.save a.actor r)

/-- Nothing has happened. -/
structure Initial : Prop where
  point : ∀ i, (S.thread i).point = .next
  history : S.history = []

end System

end Steps

/-! ## The law -/

/-- Another state of the session was saved after `d` had been taken out. -/
def Renewed (history : List Event) (d : Due) : Prop :=
  ∃ r, r ≠ d.ref ∧ [.removed d, .saved r d.sessionId].Sublist history

/-- The row was minted after that. -/
def NewRow (history : List Event) (d : Due) (tokenId : ℕ) : Prop :=
  ∃ r, r ≠ d.ref ∧
    [.removed d, .saved r d.sessionId, .minted d.sessionId tokenId].Sublist history

/-- No `on_expire` call revokes a row of the session that was renewed before it. -/
def SparesNew (history : List Event) : Prop :=
  ∀ before d revoked later, history = before ++ .fired d revoked :: later →
    ∀ tokenId ∈ revoked, ¬ NewRow before d tokenId

/-- The vault makes a row for the value, and does not give back one that it has. -/
def Mints (env : Vault.Env) (v : Vault.Db) (nonce : Vault.Nonce) (sessionId entityType : String)
    (value : Text) (accessScope : Option Vault.AccessScope) : Prop :=
  ∃ label v', Vault.tokenize env nonce v sessionId entityType value accessScope = .ok (label, v') ∧
    v.rows.length < v'.rows.length

/-- A `tokenize` call that mints finds no `on_expire` call due for a session that was
renewed after the expired state had been taken out. -/
def Quiet {ι : Type*} (env : Vault.Env) (S : System ι) (a : Tick ι) : Prop :=
  ∀ sessionId nonce entityType value accessScope calls,
    S.thread a.actor = ⟨.next, .tokenize sessionId nonce entityType value accessScope :: calls⟩ →
    Mints env { S.vault with now := a.dbNow } nonce sessionId entityType value accessScope →
    ∀ j, ∀ d ∈ (S.thread j).due, d.sessionId = sessionId → ¬ Renewed S.history d

/-! ### What a step does -/

section Proof

variable {ι : Type*} [DecidableEq ι] {env : Vault.Env} {cfg : AccumulatorConfig}

theorem due_after (t : Thread) (due : List Due) : (t.after due).due = due := by
  unfold Thread.after
  split
  · rfl
  · rfl
  · rfl
  · rfl

theorem due_finish (t : Thread) : t.finish.due = [] := rfl

theorem due_withState (t : Thread) (r : Ref) : (t.withState r).due = [] := by
  unfold Thread.withState
  split <;> rfl

omit [DecidableEq ι] in
theorem Quiet.of_none_due {S : System ι} {a : Tick ι} (h : ∀ j, (S.thread j).due = []) :
    Quiet env S a := by
  intro _ _ _ _ _ _ _ _ j d hd
  rw [h j] at hd
  cases hd

omit [DecidableEq ι] in
/-- A thread with `on_expire` calls to make does not tokenize. -/
theorem Quiet.of_own_due {S : System ι} {a : Tick ι} (h : (S.thread a.actor).due ≠ []) :
    Quiet env S a := by
  intro _ _ _ _ _ _ hactor
  rw [hactor] at h
  exact absurd rfl h

/-- **Every step, by what it adds to the history and what it leaves due.** -/
inductive Effect (env : Vault.Env) (S : System ι) (a : Tick ι) : System ι → Prop
  | quiet (S' : System ι) (hdue : ∀ j, (S'.thread j).due = (S.thread j).due)
      (hremovals : S'.removals = S.removals) (hhistory : S'.history = S.history) : Effect env S a S'
  | removed (S' : System ι) (due : List Due)
      (hdue : ∀ j, (S'.thread j).due = if j = a.actor then due else (S.thread j).due)
      (hnumbers : due.map Due.number = List.range' S.removals due.length)
      (hremovals : S'.removals = S.removals + due.length)
      (hhistory : S'.history = S.history ++ due.map .removed) : Effect env S a S'
  | fired (S' : System ι) (d : Due) (rest : List Due) (revoked : List ℕ)
      (hfirst : (S.thread a.actor).due = d :: rest)
      (hdue : ∀ j, (S'.thread j).due = if j = a.actor then rest else (S.thread j).due)
      (hremovals : S'.removals = S.removals)
      (hhistory : S'.history = S.history ++ [.fired d revoked]) : Effect env S a S'
  | saved (S' : System ι) (r : Ref) (sessionId : String)
      (hdue : ∀ j, (S'.thread j).due = (S.thread j).due)
      (hremovals : S'.removals = S.removals)
      (hhistory : S'.history = S.history ++ [.saved r sessionId]) : Effect env S a S'
  | minted (S' : System ι) (sessionId : String) (nonce : Vault.Nonce) (entityType : String)
      (value : Text) (accessScope : Option Vault.AccessScope) (calls : List Call) (ids : List ℕ)
      (hcall : S.thread a.actor =
        ⟨.next, .tokenize sessionId nonce entityType value accessScope :: calls⟩)
      (hmints : Mints env { S.vault with now := a.dbNow } nonce sessionId entityType value
        accessScope)
      (hdue : ∀ j, (S'.thread j).due = (S.thread j).due)
      (hremovals : S'.removals = S.removals)
      (hhistory : S'.history = S.history ++ ids.map (.minted sessionId)) : Effect env S a S'

/-- Only the actor's thread changes. -/
theorem due_setThread (S : System ι) (i : ι) (t : Thread) (j : ι) :
    (S.setThread i t j).due = if j = i then t.due else (S.thread j).due := by
  rw [System.setThread, Function.update_apply]
  split <;> rfl

theorem due_kept {S : System ι} {i : ι} {t : Thread} (hold : (S.thread i).due = [])
    (hnew : t.due = []) (j : ι) : (S.setThread i t j).due = (S.thread j).due := by
  rw [due_setThread]
  split
  · rename_i heq
    rw [heq, hold, hnew]
  · rfl

theorem dueOf_numbers (heap : List SessionState) (n : ℕ) (refs : List Ref) :
    (dueOf heap n refs).map Due.number = List.range' n (dueOf heap n refs).length := by
  induction refs generalizing n with
  | nil => rfl
  | cons r rs ih =>
      unfold dueOf
      split
      · rw [List.map_cons, List.length_cons, List.range'_succ, ih]
      · exact ih n

theorem remove_effect (S : System ι) (a : Tick ι) (store : Store) (refs : List Ref) :
    Effect env S a (S.remove a.actor store refs) := by
  refine .removed _ (dueOf S.store.heap S.removals refs) (fun j => ?_) (dueOf_numbers _ _ _) rfl rfl
  show (S.setThread a.actor _ j).due = _
  rw [due_setThread, due_after]

theorem start_effect {S : System ι} {a : Tick ι} {call : Call} (calls : List Call)
    (hcall : S.thread a.actor = ⟨.next, call :: calls⟩) : Effect env S a (S.start env a call) := by
  have hdue : (S.thread a.actor).due = [] := by
    rw [hcall]
    rfl
  have hload : ∀ sessionId, Effect env S a (S.load a.actor sessionId a.storeNow) := by
    intro sessionId
    unfold System.load
    split
    · exact .quiet _ (due_kept hdue (due_withState _ _)) rfl rfl
    · exact remove_effect S a _ _
  cases call with
  | multiturn sessionId => exact hload sessionId
  | remember sessionId => exact hload sessionId
  | lastPurpose sessionId => exact hload sessionId
  | tokenize sessionId nonce entityType value accessScope =>
      unfold System.start System.tokenize
      dsimp only
      split
      · rename_i label v' htokenize
        by_cases hmore : S.vault.rows.length < v'.rows.length
        · refine .minted _ sessionId nonce entityType value accessScope calls
            ((v'.rows.drop S.vault.rows.length).map Vault.Row.tokenId) hcall
            ⟨label, v', htokenize, hmore⟩ (due_kept hdue (due_finish _)) rfl ?_
          show _ ++ _ = _ ++ _
          rw [List.map_map]
          rfl
        · refine .quiet _ (due_kept hdue (due_finish _)) rfl ?_
          show _ ++ _ = _
          rw [List.drop_eq_nil_of_le (not_lt.mp hmore)]
          exact List.append_nil _
      · exact .quiet _ (due_kept hdue (due_finish _)) rfl rfl
  | sweep => exact remove_effect S a _ _

theorem step_effect {S S' : System ι} {a : Tick ι} (h : S.step env cfg a = some S') :
    Effect env S a S' := by
  unfold System.step at h
  have hdue : ∀ p, (S.thread a.actor).point = p → (∀ due, p ≠ .expiring due) →
      (S.thread a.actor).due = [] := by
    intro p hp hne
    unfold Thread.due
    rw [hp]
    split
    · exact absurd rfl (hne _)
    · rfl
  cases hcalls : (S.thread a.actor).calls with
  | nil =>
      rw [hcalls] at h
      cases h
  | cons call calls =>
      cases hpoint : (S.thread a.actor).point with
      | next =>
          rw [hcalls, hpoint] at h
          cases h
          refine start_effect calls ?_
          rw [← hcalls, ← hpoint]
      | expiring due =>
          rw [hcalls, hpoint] at h
          cases due with
          | nil => cases h
          | cons d rest =>
              cases h
              refine .fired _ d rest _ ?_ (fun j => ?_) rfl rfl
              · unfold Thread.due
                rw [hpoint]
              · show (S.setThread a.actor _ j).due = _
                rw [due_setThread, due_after]
      | missing =>
          rw [hcalls, hpoint] at h
          have hempty := hdue _ hpoint (fun _ => Point.noConfusion)
          cases call with
          | multiturn sessionId spans =>
              cases h
              exact .quiet _ (due_kept hempty rfl) rfl rfl
          | remember sessionId purpose =>
              cases h
              exact .quiet _ (due_kept hempty rfl) rfl rfl
          | lastPurpose | tokenize | sweep => cases h
      | loaded r =>
          rw [hcalls, hpoint] at h
          cases h
          exact .quiet _ (due_kept (hdue _ hpoint (fun _ => Point.noConfusion)) rfl) rfl rfl
      | changed r =>
          rw [hcalls, hpoint] at h
          cases h
          have hkept := due_kept (hdue _ hpoint (fun _ => Point.noConfusion))
            (due_finish (S.thread a.actor))
          cases hst : S.store.heap[r]? with
          | none =>
              refine .quiet _ hkept rfl ?_
              show _ ++ _ = _
              rw [hst]
              exact List.append_nil _
          | some st =>
              refine .saved _ r st.sessionId hkept rfl ?_
              show _ ++ _ = _
              rw [hst]
              rfl

/-! ### The invariant -/

/-- Only the last of the listed events can be among the new ones. -/
theorem sublist_of_append {l xs ys : List Event} {e : Event}
    (h : (l ++ [e]).Sublist (xs ++ ys)) (he : e ∉ ys) : (l ++ [e]).Sublist xs := by
  obtain ⟨l₁, l₂, heq, hl₁, hl₂⟩ := List.sublist_append_iff.mp h
  rcases List.eq_nil_or_concat l₂ with rfl | ⟨l', e', rfl⟩
  · rw [heq, List.append_nil]
    exact hl₁
  · rw [List.concat_eq_append] at heq hl₂
    rw [← List.append_assoc] at heq
    obtain ⟨-, hlast⟩ := List.append_inj' heq rfl
    obtain rfl := List.singleton_inj.mp hlast
    exact absurd (hl₂.subset (List.mem_append_right _ (List.mem_singleton_self e))) he

/-- Events that mint nothing make no new row. -/
theorem NewRow.of_append {history events : List Event} {d : Due} {tokenId : ℕ}
    (h : NewRow (history ++ events) d tokenId) (hno : .minted d.sessionId tokenId ∉ events) :
    NewRow history d tokenId := by
  obtain ⟨r, hr, hsub⟩ := h
  exact ⟨r, hr, sublist_of_append (l := [_, _]) hsub hno⟩

/-- A row is new only in a session that was renewed before. -/
theorem NewRow.renewed {history events : List Event} {d : Due} {tokenId : ℕ}
    (h : NewRow (history ++ events) d tokenId) (hno : ∀ r, .saved r d.sessionId ∉ events) :
    Renewed history d := by
  obtain ⟨r, hr, hsub⟩ := h
  have hfront := (List.sublist_append_left [Event.removed d, Event.saved r d.sessionId]
    [Event.minted d.sessionId tokenId]).trans hsub
  exact ⟨r, hr, sublist_of_append (l := [_]) hfront (hno r)⟩

/-- A state is taken out under a new number, and no new row is exposed to an
`on_expire` call that is due. -/
structure Inv (S : System ι) : Prop where
  bounded : ∀ d, .removed d ∈ S.history → d.number < S.removals
  due : ∀ i, ∀ d ∈ (S.thread i).due, ∀ tokenId, ¬ NewRow S.history d tokenId
  spares : SparesNew S.history

omit [DecidableEq ι] in
theorem inv_initial {S : System ι} (h : S.Initial) : Inv S := by
  refine ⟨?_, ?_, ?_⟩
  · intro d hd
    rw [h.history] at hd
    cases hd
  · intro i d hd
    rw [Thread.due, h.point i] at hd
    cases hd
  · intro before d revoked later hhistory
    rw [h.history] at hhistory
    cases before <;> cases hhistory

/-- What is added without an `on_expire` call keeps the law. -/
theorem SparesNew.append {history events : List Event} (h : SparesNew history)
    (hno : ∀ d revoked, .fired d revoked ∉ events) : SparesNew (history ++ events) := by
  intro before d revoked later hhistory
  rcases List.append_eq_append_iff.mp hhistory with ⟨mid, rfl, hevents⟩ | ⟨mid, rfl, hlater⟩
  · exact absurd (hevents ▸ List.mem_append_right mid List.mem_cons_self) (hno d revoked)
  · cases mid with
    | nil =>
        rw [List.nil_append] at hlater
        exact absurd (hlater ▸ List.mem_cons_self) (hno d revoked)
    | cons e mid =>
        obtain ⟨rfl, rfl⟩ := List.cons.inj hlater
        exact h before d revoked mid rfl

/-- An `on_expire` call keeps the law exactly when it revokes no new row. -/
theorem spares_fired_iff {history : List Event} {d : Due} {revoked : List ℕ}
    (h : SparesNew history) :
    SparesNew (history ++ [.fired d revoked]) ↔ ∀ tokenId ∈ revoked, ¬ NewRow history d tokenId := by
  constructor
  · intro hnew
    exact hnew history d revoked [] rfl
  · intro hd before d' revoked' later heq
    rcases List.append_eq_append_iff.mp heq with ⟨mid, hbefore, hmid⟩ | ⟨mid, hold, hlater⟩
    · rcases List.append_eq_singleton_iff.mp hmid.symm with ⟨rfl, hfired⟩ | ⟨-, hfired⟩
      · rw [List.append_nil] at hbefore
        obtain ⟨hevent, -⟩ := List.cons.inj hfired
        obtain ⟨rfl, rfl⟩ := Event.fired.inj hevent
        rw [hbefore]
        exact hd
      · cases hfired
    · cases mid with
      | nil =>
          obtain ⟨hevent, -⟩ := List.cons.inj hlater
          obtain ⟨rfl, rfl⟩ := Event.fired.inj hevent
          rw [List.append_nil] at hold
          rw [← hold]
          exact hd
      | cons e mid =>
          obtain ⟨rfl, -⟩ := List.cons.inj hlater
          exact h before d' revoked' mid hold

section Moves

variable {S S' : System ι}

omit [DecidableEq ι] in
/-- Events that take nothing out and mint nothing leave the number of what was taken out,
and what is exposed. -/
theorem Inv.note (h : Inv S) {events : List Event} (hremovals : S'.removals = S.removals)
    (hhistory : S'.history = S.history ++ events) (hdue : ∀ i, ∀ d ∈ (S'.thread i).due,
      d ∈ (S.thread i).due) (hremoved : ∀ d, .removed d ∉ events)
    (hminted : ∀ sessionId tokenId, .minted sessionId tokenId ∉ events)
    (hspares : SparesNew (S.history ++ events)) : Inv S' where
  bounded d hd := by
    rw [hhistory] at hd
    rw [hremovals]
    rcases List.mem_append.mp hd with hd | hd
    · exact h.bounded d hd
    · exact absurd hd (hremoved d)
  due i d hd tokenId hnew := by
    rw [hhistory] at hnew
    exact h.due i d (hdue i d hd) tokenId (hnew.of_append (hminted _ _))
  spares := hhistory ▸ hspares

omit [DecidableEq ι] in
theorem Inv.quiet (h : Inv S) (hdue : ∀ j, (S'.thread j).due = (S.thread j).due)
    (hremovals : S'.removals = S.removals) (hhistory : S'.history = S.history) : Inv S' := by
  refine h.note hremovals (hhistory.trans (List.append_nil _).symm) (fun i d hd => hdue i ▸ hd)
    (fun _ => List.not_mem_nil) (fun _ _ => List.not_mem_nil) ?_
  rw [List.append_nil]
  exact h.spares

omit [DecidableEq ι] in
theorem Inv.saved (h : Inv S) {r : Ref} {sessionId : String}
    (hdue : ∀ j, (S'.thread j).due = (S.thread j).due) (hremovals : S'.removals = S.removals)
    (hhistory : S'.history = S.history ++ [.saved r sessionId]) : Inv S' :=
  h.note hremovals hhistory (fun i d hd => hdue i ▸ hd) (by simp) (by simp)
    (h.spares.append (by simp))

/-- An `on_expire` call is for a state to which no new row was exposed. -/
theorem Inv.fired (h : Inv S) {i : ι} {d : Due} {rest : List Due} {revoked : List ℕ}
    (hfirst : (S.thread i).due = d :: rest)
    (hdue : ∀ j, (S'.thread j).due = if j = i then rest else (S.thread j).due)
    (hremovals : S'.removals = S.removals)
    (hhistory : S'.history = S.history ++ [.fired d revoked]) : Inv S' := by
  refine h.note hremovals hhistory (fun j d' hd' => ?_) (by simp) (by simp)
    ((spares_fired_iff h.spares).mpr fun tokenId _ => h.due i d (hfirst ▸ List.mem_cons_self) tokenId)
  rw [hdue] at hd'
  split at hd'
  · rename_i heq
    rw [heq, hfirst]
    exact List.mem_cons_of_mem d hd'
  · exact hd'

/-- States are taken out under numbers that were not given before, so nothing is new to
them. -/
theorem Inv.removed (h : Inv S) {i : ι} {due : List Due}
    (hdue : ∀ j, (S'.thread j).due = if j = i then due else (S.thread j).due)
    (hnumbers : due.map Due.number = List.range' S.removals due.length)
    (hremovals : S'.removals = S.removals + due.length)
    (hhistory : S'.history = S.history ++ due.map .removed) : Inv S' := by
  have hnumber : ∀ d ∈ due, S.removals ≤ d.number ∧ d.number < S.removals + due.length := by
    intro d hd
    have hmem := List.mem_map_of_mem (f := Due.number) hd
    rw [hnumbers] at hmem
    exact List.mem_range'_1.mp hmem
  refine ⟨?_, ?_, ?_⟩
  · intro d hd
    rw [hhistory] at hd
    rw [hremovals]
    rcases List.mem_append.mp hd with hd | hd
    · exact lt_of_lt_of_le (h.bounded d hd) (Nat.le_add_right _ _)
    · obtain ⟨d', hd', heq⟩ := List.mem_map.mp hd
      obtain rfl := Event.removed.inj heq
      exact (hnumber _ hd').2
  · intro j d hd tokenId hnew
    rw [hdue] at hd
    rw [hhistory] at hnew
    have hold := hnew.of_append (by simp)
    split at hd
    · obtain ⟨r, -, hsub⟩ := hold
      have hbound := h.bounded d (hsub.subset List.mem_cons_self)
      have := (hnumber d hd).1
      omega
    · exact h.due j d hd tokenId hold
  · rw [hhistory]
    exact h.spares.append (by simp)

omit [DecidableEq ι] in
/-- A row is minted in a session that was not renewed, or is none of the session that an
`on_expire` call is due for. -/
theorem Inv.minted (h : Inv S) {sessionId : String} {ids : List ℕ}
    (hnot : ∀ i, ∀ d ∈ (S.thread i).due, d.sessionId = sessionId → ¬ Renewed S.history d)
    (hdue : ∀ j, (S'.thread j).due = (S.thread j).due) (hremovals : S'.removals = S.removals)
    (hhistory : S'.history = S.history ++ ids.map (.minted sessionId)) : Inv S' := by
  refine ⟨?_, ?_, ?_⟩
  · intro d hd
    rw [hhistory] at hd
    rw [hremovals]
    exact h.bounded d ((List.mem_append.mp hd).resolve_right (by simp))
  · intro i d hd tokenId hnew
    rw [hdue] at hd
    rw [hhistory] at hnew
    by_cases hsession : d.sessionId = sessionId
    · exact hnot i d hd hsession (hnew.renewed (by simp))
    · refine h.due i d hd tokenId (hnew.of_append fun hmem => ?_)
      obtain ⟨_, -, heq⟩ := List.mem_map.mp hmem
      exact hsession (Event.minted.inj heq).1.symm
  · rw [hhistory]
    exact h.spares.append (by simp)

end Moves

/-- **Every step that mints only where it is quiet keeps the invariant.** -/
theorem Inv.step {S S' : System ι} {a : Tick ι} (h : Inv S) (hquiet : Quiet env S a)
    (hstep : S.step env cfg a = some S') : Inv S' := by
  cases step_effect hstep with
  | quiet hdue hremovals hhistory => exact h.quiet hdue hremovals hhistory
  | removed due hdue hnumbers hremovals hhistory => exact h.removed hdue hnumbers hremovals hhistory
  | fired d rest revoked hfirst hdue hremovals hhistory =>
      exact h.fired hfirst hdue hremovals hhistory
  | saved r sessionId hdue hremovals hhistory => exact h.saved hdue hremovals hhistory
  | minted sessionId nonce entityType value accessScope calls ids hcall hmints hdue hremovals
      hhistory =>
      exact h.minted (hquiet _ _ _ _ _ _ hcall hmints) hdue hremovals hhistory

/-- **The step that breaks the law.** The first `on_expire` call of a thread breaks
it exactly when a new row of the session is active. -/
theorem fire_spares_iff {S : System ι} {a : Tick ι} {d : Due} {rest : List Due} {call : Call}
    {calls : List Call} (h : SparesNew S.history)
    (hactor : S.thread a.actor = ⟨.expiring (d :: rest), call :: calls⟩) :
    ∃ S', S.step env cfg a = some S' ∧
      (SparesNew S'.history ↔ ∀ row ∈ S.active env d.sessionId, ¬ NewRow S.history d row.tokenId) := by
  refine ⟨S.fire env a.actor a.dbNow d rest, ?_, ?_⟩
  · rw [System.step, hactor]
  · refine (spares_fired_iff h).trans ?_
    rw [List.forall_mem_map]

/-! ## Runs -/

/-- Every step of the run is quiet. -/
def QuietRun (env : Vault.Env) (cfg : AccumulatorConfig) (S₀ : System ι)
    (actions : List (Tick ι)) : Prop :=
  ∀ pre a post S, actions = pre ++ a :: post → Steps (System.step env cfg) S₀ pre S → Quiet env S a

theorem Inv.run {S₀ S : System ι} {actions : List (Tick ι)} (h₀ : S₀.Initial)
    (hrun : Steps (System.step env cfg) S₀ actions S) (hquiet : QuietRun env cfg S₀ actions) :
    Inv S := by
  induction hrun with
  | nil => exact inv_initial h₀
  | @snoc pre T S a hpre hstep ih =>
      have hbefore : Inv T := ih fun pre' b post U heq =>
        hquiet pre' b (post ++ [a]) U (by rw [heq, List.append_assoc, List.cons_append])
      exact hbefore.step (hquiet pre a [] T rfl hpre) hstep

/-- **Expiry spares the tokens of the new session** in every run in which no token
is minted between the saving of a new state of the session and the `on_expire` call
of one that had been taken out before. -/
theorem expiry_spares_new_tokens (env : Vault.Env) (cfg : AccumulatorConfig) (S₀ S : System ι)
    (actions : List (Tick ι)) (h₀ : S₀.Initial)
    (hrun : Steps (System.step env cfg) S₀ actions S) (hquiet : QuietRun env cfg S₀ actions) :
    SparesNew S.history :=
  (Inv.run h₀ hrun hquiet).spares

end Proof

/-! ### Two requests after an expiry -/

/-- The state of the session `s` is over. -/
def expiredStore : Store where
  heap := [⟨"s", 0, 1800, 1, [], [], [0], 0, [], some "etc"⟩]
  states := [("s", 0)]
  defaultTtlSeconds := 1800

/-- An output asks for the purpose while an input comes in. -/
def expiredSystem : System Bool where
  store := expiredStore
  vault := .empty 0
  thread i := ⟨.next, if i then [.lastPurpose "s"] else
    [.multiturn "s" [], .remember "s" "etc",
      .tokenize "s" .zero "RRN" "900101-1234567".toList none]⟩
  removals := 0
  history := []

theorem expiredSystem_initial : expiredSystem.Initial := ⟨fun _ => rfl, rfl⟩

def ticks (actors : List Bool) : List (Tick Bool) := actors.map fun i => ⟨i, 2000, 2000⟩

/-- The output makes its `on_expire` call at once. -/
def promptly : List (Tick Bool) :=
  ticks [true, true, false, false, false, false, false, false, false, false]

/-- The output makes its `on_expire` call after the input is done. -/
def belatedly : List (Tick Bool) :=
  ticks [true, false, false, false, false, false, false, false, false, true]

def promptEnd : System Bool :=
  (exec (System.step .sample defaultConfig) expiredSystem promptly).get (by decide +kernel)

def belatedEnd : System Bool :=
  (exec (System.step .sample defaultConfig) expiredSystem belatedly).get (by decide +kernel)

/-- In the prompt run an `on_expire` call is due only when its thread is next. -/
theorem promptly_quiet : QuietRun .sample defaultConfig expiredSystem promptly := by
  have hcheck : ∀ n < promptly.length, ∀ S ∈ exec (System.step .sample defaultConfig)
      expiredSystem (promptly.take n), ∀ a ∈ promptly[n]?,
        (∀ j, (S.thread j).due = []) ∨ (S.thread a.actor).due ≠ [] := by
    decide +kernel
  intro pre a post S heq hpre
  rcases Steps.of_check hcheck heq hpre with hnone | hown
  · exact Quiet.of_none_due hnone
  · exact Quiet.of_own_due hown

theorem expiry_spares_new_tokens_sample :
    promptEnd.history = [.removed ⟨0, 0, "s"⟩, .fired ⟨0, 0, "s"⟩ [], .saved 1 "s", .saved 1 "s",
      .minted "s" 1] ∧ SparesNew promptEnd.history :=
  ⟨by decide +kernel,
    expiry_spares_new_tokens .sample defaultConfig expiredSystem promptEnd promptly
      expiredSystem_initial (Steps.of_exec (Option.some_get _).symm) promptly_quiet⟩

/-- The token of the input is revoked by the `on_expire` call for the state that was
over before. -/
theorem late_expiry_revokes_new :
    expiredSystem.Initial ∧
      Steps (System.step .sample defaultConfig) expiredSystem belatedly belatedEnd ∧
      belatedEnd.history = [.removed ⟨0, 0, "s"⟩, .saved 1 "s", .saved 1 "s", .minted "s" 1,
        .fired ⟨0, 0, "s"⟩ [1]] ∧
      ¬ SparesNew belatedEnd.history := by
  have hhistory : belatedEnd.history = [.removed ⟨0, 0, "s"⟩, .saved 1 "s", .saved 1 "s",
      .minted "s" 1, .fired ⟨0, 0, "s"⟩ [1]] := by decide +kernel
  refine ⟨expiredSystem_initial, Steps.of_exec (Option.some_get _).symm, hhistory, fun hspares => ?_⟩
  refine hspares [.removed ⟨0, 0, "s"⟩, .saved 1 "s", .saved 1 "s", .minted "s" 1] ⟨0, 0, "s"⟩ [1] []
    hhistory 1 (List.mem_singleton_self 1) ⟨1, by decide, ?_⟩
  decide

end DlpServer.Pipeline.Expiry
