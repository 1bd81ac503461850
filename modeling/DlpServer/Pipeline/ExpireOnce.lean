import DlpServer.Context.LastPurpose
import DlpServer.Pipeline.Expiry

/-!
# A session state expires once

The store alone, under any number of threads: each atomic step of the store is one
step here, and a thread that took states out of it makes its `on_expire` calls
before it does anything else. A thread may save any object that a `load` or a
`new_session` gave it, and `save` asks nothing about that object. The states taken
out stay out as long as nobody saves one of them again (`expires_once_iff`).
-/

namespace DlpServer.Pipeline.ExpireOnce

open Context Runs Expiry

/-! ## Threads over the store -/

/-- A step of a thread, at a reading of the clock where it takes one. -/
inductive Action where
  | load (sessionId : String) (now : ℚ)
  | newSession (sessionId : String) (now : ℚ)
  | change (r : Ref) (call : Call) (now : ℚ)
  | save (r : Ref)
  | delete (sessionId : String)
  | sweep (now : ℚ)
  | fire (raises : Bool)

structure Sessions (ι : Type*) where
  store : Store
  /-- The objects each thread was given. -/
  held : List (ι × Ref)
  /-- The calls of `on_expire` each thread has still to make. -/
  due : List (ι × Ref)
  /-- The objects `on_expire` was called for. -/
  fired : List Ref

/-- `InMemorySessionStore.delete`: whatever is under the id is taken out. -/
def delete (S : Store) (sessionId : String) : List Ref × Store :=
  ((S.states.get? sessionId).toList, { S with states := S.states.erase sessionId })

section Steps

variable {ι : Type*} [DecidableEq ι] (env : Vault.Env) (cfg : AccumulatorConfig)

namespace Sessions

/-- An empty store. -/
def start (defaultTtlSeconds : ℚ) : Sessions ι := ⟨⟨[], [], defaultTtlSeconds⟩, [], [], []⟩

variable (S : Sessions ι)

/-- A thread took these objects out. -/
def take (i : ι) (refs : List Ref) (store : Store) : Sessions ι :=
  { S with store := store, due := S.due ++ refs.map fun r => (i, r) }

/-- A thread was given this object. -/
def give (i : ι) (r : Ref) (store : Store) : Sessions ι :=
  { S with store := store, held := S.held ++ [(i, r)] }

/-- The objects that `load`, `delete` or a sweep took out and that wait for their call, or
had it. Those whose call was dropped after one that raised (`fire`) are not among them. -/
def taken : List Ref := S.due.map Prod.snd ++ S.fired

/-- The next call of `on_expire` of a thread. One that raises ends the loop over the
expired states. -/
def fire (i : ι) (raises : Bool) : Option (Sessions ι) :=
  (S.due.find? (·.1 = i)).map fun p =>
    { S with
      due := if raises then S.due.filter (·.1 ≠ i) else S.due.erase p
      fired := S.fired ++ [p.2] }

/-- A step of a thread that has no call to make. -/
def act (i : ι) : Action → Option (Sessions ι)
  | .load sessionId now =>
      match S.store.load now sessionId with
      | (some r, _, store) => some (S.give i r store)
      | (none, refs, store) => some (S.take i refs store)
  | .newSession sessionId now =>
      let (r, store) := S.store.newSession now sessionId
      some (S.give i r store)
  | .change r call now =>
      if (i, r) ∈ S.held then
        some { S with store := S.store.modify r (System.change env cfg now call) }
      else none
  | .save r => if (i, r) ∈ S.held then some { S with store := S.store.save r } else none
  | .delete sessionId =>
      some (S.take i (delete S.store sessionId).1 (delete S.store sessionId).2)
  | .sweep now => some (S.take i (sweepOnce S.store now).1 (sweepOnce S.store now).2)
  | .fire _ => none

def step (a : ι × Action) : Option (Sessions ι) :=
  match a.2 with
  | .fire raises => S.fire a.1 raises
  | action => if ∃ p ∈ S.due, p.1 = a.1 then none else S.act env cfg a.1 action

end Sessions

end Steps

/-! ## The law -/

/-- `on_expire` was called once for each object, and none of these is in the store. -/
def ExpiresOnce {ι : Type*} (S : Sessions ι) : Prop :=
  S.fired.Nodup ∧ ∀ r ∈ S.fired, r ∉ S.store.states.values

/-- The law holds in every state of the run, also when the calls of `on_expire` that
are due there are made at once. -/
def AlwaysOnce {ι : Type*} [DecidableEq ι] (env : Vault.Env) (cfg : AccumulatorConfig)
    (S₀ : Sessions ι) (actions : List (ι × Action)) : Prop :=
  ∀ before after calls S, actions = before ++ after → (∀ a ∈ calls, ∃ b, a.2 = .fire b) →
    Steps (Sessions.step env cfg) S₀ (before ++ calls) S → ExpiresOnce S

/-- No thread saves an object that was taken out of the store. -/
def SavesFresh {ι : Type*} [DecidableEq ι] (env : Vault.Env) (cfg : AccumulatorConfig)
    (S₀ : Sessions ι) (actions : List (ι × Action)) : Prop :=
  ∀ before i r after S, actions = before ++ (i, .save r) :: after →
    Steps (Sessions.step env cfg) S₀ before S → r ∉ S.taken

/-! ### What a step does -/

section Proof

variable {ι : Type*} [DecidableEq ι] {env : Vault.Env} {cfg : AccumulatorConfig}

/-- The dictionary files each object under its own id, and nobody holds an object
that does not exist. -/
structure Filed (S : Sessions ι) : Prop where
  keys : (Dict.keys S.store.states).Nodup
  own : ∀ p ∈ S.store.states, ∃ st, S.store.heap[p.2]? = some st ∧ st.sessionId = p.1
  held : ∀ p ∈ S.held, p.2 < S.store.heap.length

/-- Every object is still there, under its session id. -/
def SameIds (heap heap' : List SessionState) : Prop :=
  ∀ (r : Ref) (st : SessionState), heap[r]? = some st →
    ∃ st' : SessionState, heap'[r]? = some st' ∧ st'.sessionId = st.sessionId

theorem SameIds.refl (heap : List SessionState) : SameIds heap heap := fun _ st h => ⟨st, h, rfl⟩

theorem SameIds.length_le {heap heap' : List SessionState} (h : SameIds heap heap') {r : Ref}
    (hr : r < heap.length) : r < heap'.length := by
  obtain ⟨st', hst', -⟩ := h r heap[r] (List.getElem?_eq_getElem hr)
  exact (List.getElem?_eq_some_iff.mp hst').1

theorem sameIds_append (heap more : List SessionState) : SameIds heap (heap ++ more) := by
  intro r st h
  obtain ⟨hlt, -⟩ := List.getElem?_eq_some_iff.mp h
  exact ⟨st, by rw [List.getElem?_append_left hlt, h], rfl⟩

theorem sameIds_modify (heap : List SessionState) (r : Ref) {f : SessionState → SessionState}
    (hf : ∀ st, (f st).sessionId = st.sessionId) : SameIds heap (heap.modify r f) := by
  intro r' st h
  rw [List.getElem?_modify, h]
  by_cases heq : r = r'
  · exact ⟨f st, by simp [heq], hf st⟩
  · exact ⟨st, by simp [heq], rfl⟩

theorem change_sessionId (now : ℚ) (call : Call) (st : SessionState) :
    (System.change env cfg now call st).sessionId = st.sessionId := by
  cases call with
  | multiturn sessionId spans => exact (accumulate_frame _ cfg st spans _ now).1
  | remember sessionId purpose => rfl
  | lastPurpose sessionId => rfl
  | tokenize sessionId nonce entityType value accessScope => rfl
  | sweep => rfl

/-- **Every step, by what it does to the dictionary and to the objects taken out.** -/
inductive Effect (S S' : Sessions ι) : ι × Action → Prop
  | quiet {a : ι × Action} (hheap : SameIds S.store.heap S'.store.heap)
      (hstates : S'.store.states = S.store.states) (htaken : S'.taken = S.taken)
      (hheld : ∀ p ∈ S'.held, p.2 < S'.store.heap.length) : Effect S S' a
  | taken {a : ι × Action} (gone : String × Ref → Bool) (hheap : S'.store.heap = S.store.heap)
      (hstates : S'.store.states = S.store.states.filter fun p => !gone p)
      (htaken : S'.taken.Perm ((S.store.states.filter gone).map Prod.snd ++ S.taken))
      (hheld : S'.held = S.held) : Effect S S' a
  | saved {i : ι} {r : Ref} (st : SessionState) (hget : S.store.heap[r]? = some st)
      (hheap : S'.store.heap = S.store.heap)
      (hstates : S'.store.states = S.store.states.set st.sessionId r)
      (htaken : S'.taken = S.taken) (hheld : S'.held = S.held) : Effect S S' (i, .save r)
  | fired {a : ι × Action} (hstore : S'.store = S.store) (htaken : S'.taken.Subperm S.taken)
      (hheld : S'.held = S.held) : Effect S S' a

omit [DecidableEq ι] in
theorem taken_take (S : Sessions ι) (i : ι) (refs : List Ref) (store : Store) :
    (S.take i refs store).taken.Perm (refs ++ S.taken) := by
  have hrefs : (refs.map fun r => (i, r)).map Prod.snd = refs := by
    rw [List.map_map]
    exact List.map_id refs
  show ((S.due ++ refs.map fun r => (i, r)).map Prod.snd ++ S.fired).Perm _
  rw [List.map_append, hrefs, Sessions.taken, ← List.append_assoc]
  exact List.perm_append_comm.append_right _

omit [DecidableEq ι] in
/-- A session id that `load` or `delete` takes out. -/
theorem effect_erase {S : Sessions ι} (hfiled : Filed S) (a : ι × Action) (sid : String) :
    Effect S (S.take a.1 (delete S.store sid).1 (delete S.store sid).2) a := by
  have hrefs : (delete S.store sid).1 = (S.store.states.filter (·.1 = sid)).map Prod.snd := by
    show (Dict.get? sid S.store.states).toList = _
    cases hget : Dict.get? sid S.store.states with
    | none =>
        have hnot := Dict.get?_eq_none.mp hget
        have hnil : S.store.states.filter (·.1 = sid) = [] := by
          refine List.filter_eq_nil_iff.mpr fun p hp heq => hnot ?_
          rw [← of_decide_eq_true heq]
          exact List.mem_map.mpr ⟨p, hp, rfl⟩
        rw [hnil]
        rfl
    | some r =>
        rw [Dict.filter_key hfiled.keys hget]
        rfl
  refine .taken (fun p => decide (p.1 = sid)) rfl ?_ ?_ rfl
  · show S.store.states.filter _ = _
    simp only [ne_eq, decide_not]
  · rw [← hrefs]
    exact taken_take S a.1 _ _

theorem act_effect {S S' : Sessions ι} (hfiled : Filed S) {a : ι × Action}
    (h : S.act env cfg a.1 a.2 = some S') : Effect S S' a := by
  obtain ⟨i, action⟩ := a
  cases action with
  | load sid now =>
      have hfound := load_found S.store now sid
      simp only [Sessions.act] at h
      split at h
      · rename_i r refs store hload
        rw [hload] at hfound
        cases h
        cases hfound with
        | live r hr hlive =>
            refine .quiet (.refl _) rfl rfl fun p hp => ?_
            rcases List.mem_append.mp hp with hp | hp
            · exact hfiled.held p hp
            · obtain ⟨st, hst, -⟩ := hfiled.own _ (Dict.mem_of_get? hr)
              rw [List.mem_singleton.mp hp]
              exact (List.getElem?_eq_some_iff.mp hst).1
      · rename_i refs store hload
        rw [hload] at hfound
        cases h
        have herase := effect_erase hfiled (i, Action.load sid now) sid
        unfold delete at herase
        cases hfound with
        | missing hnone =>
            exact .quiet (.refl _) rfl (by simp [Sessions.take, Sessions.taken]) hfiled.held
        | expired r st hr hst hexp =>
            rw [hr] at herase
            exact herase
  | newSession sid now =>
      cases h
      refine .quiet (sameIds_append _ _) rfl rfl fun p hp => ?_
      show p.2 < (S.store.heap ++ [_]).length
      rw [List.length_append, List.length_singleton]
      rcases List.mem_append.mp hp with hp | hp
      · exact (hfiled.held p hp).trans (Nat.lt_succ_self _)
      · rw [List.mem_singleton.mp hp]
        exact Nat.lt_succ_self _
  | change r call now =>
      simp only [Sessions.act] at h
      split at h
      · cases h
        have hsame : SameIds S.store.heap (S.store.heap.modify r (System.change env cfg now call)) :=
          sameIds_modify _ r (change_sessionId now call)
        exact .quiet hsame rfl rfl fun p hp => hsame.length_le (hfiled.held p hp)
      · cases h
  | save r =>
      simp only [Sessions.act] at h
      split at h
      · rename_i hheld
        cases h
        obtain ⟨st, hget⟩ : ∃ st, S.store.heap[r]? = some st :=
          ⟨_, List.getElem?_eq_getElem (hfiled.held _ hheld)⟩
        refine .saved st hget (heap_save _ _) ?_ rfl rfl
        show (S.store.save r).states = _
        rw [Store.save, hget]
      · cases h
  | delete sid =>
      cases h
      exact effect_erase hfiled (i, Action.delete sid) sid
  | sweep now =>
      cases h
      exact .taken _ rfl rfl (taken_take S i _ _) rfl
  | fire raises => cases h

theorem fire_effect {S S' : Sessions ι} {a : ι × Action} {raises : Bool}
    (h : S.fire a.1 raises = some S') : Effect S S' a := by
  obtain ⟨p, hp, rfl⟩ := Option.map_eq_some_iff.mp h
  refine .fired rfl ?_ rfl
  have hmem : p ∈ S.due := List.mem_of_find?_eq_some hp
  -- The call that was first moves from the due ones to the made ones.
  have hmove : ((S.due.erase p).map Prod.snd ++ (S.fired ++ [p.2])).Perm S.taken := by
    have hdue : (S.due.map Prod.snd).Perm (p.2 :: (S.due.erase p).map Prod.snd) :=
      (List.perm_cons_erase hmem).map Prod.snd
    refine List.Perm.trans ?_ (hdue.symm.append_right S.fired)
    rw [← List.append_assoc]
    exact List.perm_append_singleton _ _
  cases raises with
  | false => exact hmove.subperm
  | true =>
      have hrest : (S.due.filter (·.1 ≠ a.1)).Sublist (S.due.erase p) := by
        have hactor : p.1 = a.1 := by simpa using List.find?_some hp
        have hnone : p ∉ S.due.filter (·.1 ≠ a.1) := by simp [hactor]
        calc S.due.filter (·.1 ≠ a.1)
            = (S.due.filter (·.1 ≠ a.1)).erase p := (List.erase_of_not_mem hnone).symm
          _ |>.Sublist (S.due.erase p) := List.filter_sublist.erase p
      exact ((hrest.map Prod.snd).append_right _).subperm.trans hmove.subperm

theorem step_effect {S S' : Sessions ι} (hfiled : Filed S) {a : ι × Action}
    (h : S.step env cfg a = some S') : Effect S S' a := by
  unfold Sessions.step at h
  split at h
  · exact fire_effect h
  · split at h
    · cases h
    · exact act_effect hfiled h

/-! ### The invariants -/

omit [DecidableEq ι] in
theorem Filed.start (ttl : ℚ) : Filed (Sessions.start ttl : Sessions ι) :=
  ⟨List.nodup_nil, List.forall_mem_nil _, List.forall_mem_nil _⟩

omit [DecidableEq ι] in
/-- **The dictionary stays in order**, whatever is saved. -/
theorem Filed.step {S S' : Sessions ι} (hfiled : Filed S) {a : ι × Action}
    (h : Effect S S' a) : Filed S' := by
  cases h with
  | quiet hheap hstates htaken hheld =>
      refine ⟨by rw [hstates]; exact hfiled.keys, fun p hp => ?_, hheld⟩
      rw [hstates] at hp
      obtain ⟨st, hst, hid⟩ := hfiled.own p hp
      obtain ⟨st', hst', hid'⟩ := hheap p.2 st hst
      exact ⟨st', hst', hid'.trans hid⟩
  | taken gone hheap hstates htaken hheld =>
      refine ⟨?_, fun p hp => ?_, ?_⟩
      · rw [hstates]
        exact hfiled.keys.sublist (List.filter_sublist.map Prod.fst)
      · rw [hstates] at hp
        rw [hheap]
        exact hfiled.own p (List.mem_of_mem_filter hp)
      · rw [hheld, hheap]
        exact hfiled.held
  | saved st hget hheap hstates htaken hheld =>
      refine ⟨?_, fun p hp => ?_, ?_⟩
      · rw [hstates]
        exact Dict.nodup_set hfiled.keys
      · rw [hstates, Dict.mem_iff_get? (Dict.nodup_set hfiled.keys), Dict.get?_set] at hp
        rw [hheap]
        split at hp
        · rename_i hid
          cases hp
          exact ⟨st, hget, hid⟩
        · exact hfiled.own p (Dict.mem_of_get? hp)
      · rw [hheld, hheap]
        exact hfiled.held
  | fired hstore htaken hheld =>
      refine ⟨by rw [hstore]; exact hfiled.keys, by rw [hstore]; exact hfiled.own, ?_⟩
      rw [hheld, hstore]
      exact hfiled.held

/-- No object was taken out twice, and what was taken out is not in the store. -/
structure Once (S : Sessions ι) : Prop where
  nodup : S.taken.Nodup
  out : ∀ r ∈ S.taken, r ∉ S.store.states.values

omit [DecidableEq ι] in
/-- An object is filed in one place. -/
theorem Filed.injective {S : Sessions ι} (hfiled : Filed S) :
    ∀ p ∈ S.store.states, ∀ q ∈ S.store.states, p.2 = q.2 → p = q := by
  intro p hp q hq heq
  obtain ⟨st, hst, hid⟩ := hfiled.own p hp
  obtain ⟨st', hst', hid'⟩ := hfiled.own q hq
  rw [heq, hst'] at hst
  cases hst
  exact Prod.ext (hid.symm.trans hid') heq

omit [DecidableEq ι] in
theorem Once.start (ttl : ℚ) : Once (Sessions.start ttl : Sessions ι) :=
  ⟨List.nodup_nil, List.forall_mem_nil _⟩

omit [DecidableEq ι] in
/-- **Only a save of an object that was taken out can break the law.** -/
theorem Once.step {S S' : Sessions ι} (hfiled : Filed S) (honce : Once S) {a : ι × Action}
    (h : Effect S S' a) (hfresh : ∀ r, a.2 = .save r → r ∉ S.taken) : Once S' := by
  cases h with
  | quiet hheap hstates htaken hheld =>
      exact ⟨htaken ▸ honce.nodup, by rw [htaken, hstates]; exact honce.out⟩
  | taken gone hheap hstates htaken hheld =>
      have hgone : ∀ p ∈ S.store.states.filter gone, p ∈ S.store.states :=
        fun p hp => List.mem_of_mem_filter hp
      have hnodup : ((S.store.states.filter gone).map Prod.snd).Nodup :=
        List.Nodup.map_on (fun p hp q hq => hfiled.injective p (hgone p hp) q (hgone q hq))
          ((List.Nodup.of_map _ hfiled.keys).filter _)
      refine ⟨htaken.nodup_iff.mpr (hnodup.append honce.nodup fun r hr hr' => ?_),
        fun r hr hr' => ?_⟩
      · obtain ⟨p, hp, rfl⟩ := List.mem_map.mp hr
        exact honce.out _ hr' (List.mem_map_of_mem (hgone p hp))
      · rw [hstates] at hr'
        obtain ⟨q, hq, rfl⟩ := List.mem_map.mp hr'
        obtain ⟨hq, hstays⟩ := List.mem_filter.mp hq
        rcases List.mem_append.mp (htaken.subset hr) with hr | hr
        · obtain ⟨p, hp, heq⟩ := List.mem_map.mp hr
          obtain ⟨hp, hleaves⟩ := List.mem_filter.mp hp
          rw [hfiled.injective p hp q hq heq] at hleaves
          rw [hleaves] at hstays
          cases hstays
        · exact honce.out _ hr (List.mem_map_of_mem hq)
  | @saved i r st hget hheap hstates htaken hheld =>
      refine ⟨htaken ▸ honce.nodup, fun r' hr hr' => ?_⟩
      rw [htaken] at hr
      rw [hstates] at hr'
      obtain ⟨p, hp, rfl⟩ := List.mem_map.mp hr'
      rw [Dict.mem_iff_get? (Dict.nodup_set hfiled.keys), Dict.get?_set] at hp
      split at hp
      · cases hp
        exact hfresh _ rfl hr
      · exact honce.out _ hr (List.mem_map_of_mem (Dict.mem_of_get? hp))
  | fired hstore htaken hheld =>
      obtain ⟨l, hperm, hsub⟩ := htaken
      refine ⟨hperm.nodup_iff.mp (honce.nodup.sublist hsub), fun r hr => ?_⟩
      rw [hstore]
      exact honce.out r (hsub.subset (hperm.symm.subset hr))

omit [DecidableEq ι] in
theorem Once.expiresOnce {S : Sessions ι} (honce : Once S) : ExpiresOnce S :=
  ⟨honce.nodup.sublist (List.sublist_append_right _ _),
    fun r hr => honce.out r (List.mem_append_right _ hr)⟩

/-! ### Runs -/

variable {ttl : ℚ} {actions : List (ι × Action)} {S : Sessions ι}

theorem filed_run (h : Steps (Sessions.step env cfg) (.start ttl) actions S) : Filed S := by
  refine Steps.invariant (fun _ S => Filed S) (Filed.start ttl) ?_ h
  intro _ S a S' _ hfiled hstep
  exact hfiled.step (step_effect hfiled hstep)

theorem once_run (h : Steps (Sessions.step env cfg) (.start ttl) actions S)
    (hfresh : SavesFresh env cfg (.start ttl) actions) : Once S := by
  revert hfresh
  refine Steps.invariant
    (fun actions S => SavesFresh env cfg (.start ttl) actions → Once S)
    (fun _ => Once.start ttl) ?_ h
  intro actions S a S' hrun ih hstep hfresh
  have hbefore : SavesFresh env cfg (.start ttl) actions := by
    intro before i r after T heq
    exact hfresh before i r (after ++ [a]) T (by rw [heq, List.append_assoc]; rfl)
  have hfiled := filed_run hrun
  refine (ih hbefore).step hfiled (step_effect hfiled hstep) fun r hr => ?_
  exact hfresh actions a.1 r [] S (by rw [← hr]) hrun

/-- The thread makes its calls one by one, and the store does not change meanwhile. -/
theorem fire_all {S₀ : Sessions ι} {i : ι} {r : Ref} (hdue : (i, r) ∈ S.due)
    (h : Steps (Sessions.step env cfg) S₀ actions S) :
    ∃ calls S', (∀ a ∈ calls, ∃ b, a.2 = .fire b) ∧
      Steps (Sessions.step env cfg) S₀ (actions ++ calls) S' ∧ S'.store = S.store ∧
      r ∈ S'.fired := by
  induction hn : S.due.length generalizing S actions with
  | zero =>
      rw [List.length_eq_zero_iff.mp hn] at hdue
      cases hdue
  | succ n ih =>
      obtain ⟨p, hp⟩ : ∃ p, S.due.find? (·.1 = i) = some p := by
        refine Option.isSome_iff_exists.mp (List.find?_isSome.mpr ⟨(i, r), hdue, ?_⟩)
        exact decide_eq_true rfl
      have hactor : p.1 = i := by simpa using List.find?_some hp
      have hstep : S.step env cfg (i, .fire false) =
          some { S with due := S.due.erase p, fired := S.fired ++ [p.2] } := by
        show S.fire i false = _
        rw [Sessions.fire, hp]
        rfl
      have hnext := h.snoc hstep
      by_cases heq : p = (i, r)
      · refine ⟨[(i, .fire false)], _, ?_, hnext, rfl, ?_⟩
        · intro a ha
          exact ⟨false, by rw [List.mem_singleton.mp ha]⟩
        · rw [heq]
          exact List.mem_append_right _ (List.mem_singleton_self _)
      · have hstill : (i, r) ∈ S.due.erase p :=
          (List.mem_erase_of_ne (Ne.symm heq)).mpr hdue
        have hlength : (S.due.erase p).length = n := by
          rw [List.length_erase_of_mem (List.mem_of_find?_eq_some hp), hn]
          rfl
        obtain ⟨calls, S', hcalls, hrun, hstore, hfired⟩ := ih hstill hnext hlength
        refine ⟨(i, .fire false) :: calls, S', ?_, ?_, hstore, hfired⟩
        · intro a ha
          rcases List.mem_cons.mp ha with rfl | ha
          · exact ⟨false, rfl⟩
          · exact hcalls a ha
        · rw [List.append_cons]
          exact hrun

theorem step_save {S' : Sessions ι} {i : ι} {r : Ref}
    (h : S.step env cfg (i, .save r) = some S') :
    (i, r) ∈ S.held ∧ S' = { S with store := S.store.save r } := by
  simp only [Sessions.step, Sessions.act] at h
  split at h
  · cases h
  · split at h
    · rename_i hheld
      exact ⟨hheld, (Option.some.inj h).symm⟩
    · cases h

/-- The calls of `on_expire` save nothing. -/
theorem savesFresh_calls {S₀ : Sessions ι} {before calls : List (ι × Action)}
    (hfresh : SavesFresh env cfg S₀ before) (hcalls : ∀ a ∈ calls, ∃ b, a.2 = .fire b) :
    SavesFresh env cfg S₀ (before ++ calls) := by
  intro earlier i r later S heq hrun
  have hnot : ∀ c, (i, Action.save r) :: later = c ++ calls → c ≠ [] := by
    rintro c hc rfl
    obtain ⟨b, hb⟩ := hcalls (i, .save r) (by rw [← List.nil_append calls, ← hc]; simp)
    cases hb
  rcases List.append_eq_append_iff.mp heq with ⟨c, rfl, hc⟩ | ⟨c, hbefore, hc⟩
  · obtain ⟨b, hb⟩ := hcalls (i, .save r) (by rw [hc]; simp)
    cases hb
  · obtain ⟨x, c, rfl⟩ := List.exists_cons_of_ne_nil (hnot c hc)
    obtain ⟨rfl, -⟩ := List.cons.inj hc
    exact hfresh earlier i r c S hbefore hrun

end Proof

/-- **A session state expires once** in a run exactly when no thread saves an object
that another thread has taken out. -/
theorem expires_once_iff {ι : Type*} [DecidableEq ι] (env : Vault.Env) (cfg : AccumulatorConfig)
    (ttl : ℚ) (actions : List (ι × Action)) (S : Sessions ι)
    (h : Steps (Sessions.step env cfg) (.start ttl) actions S) :
    AlwaysOnce env cfg (.start ttl) actions ↔ SavesFresh env cfg (.start ttl) actions := by
  constructor
  · intro halways before i r after T heq hrun htaken
    -- The save puts the object back, and the calls that are due come to it.
    obtain ⟨T', hstep⟩ := Steps.enabled (heq ▸ h) hrun
    have hrun' := hrun.snoc hstep
    obtain ⟨hheld, hT'⟩ := step_save hstep
    have hstored : r ∈ T'.store.states.values := by
      obtain ⟨st, hget⟩ : ∃ st, T.store.heap[r]? = some st :=
        ⟨_, List.getElem?_eq_getElem ((filed_run hrun).held _ hheld)⟩
      refine List.mem_map.mpr ⟨(st.sessionId, r), Dict.mem_of_get? ?_, rfl⟩
      rw [hT']
      exact (get?_save hget _).trans (if_pos rfl)
    have hagain : ∃ calls T'', (∀ a ∈ calls, ∃ b, a.2 = .fire b) ∧
        Steps (Sessions.step env cfg) (.start ttl) ((before ++ [(i, .save r)]) ++ calls) T'' ∧
        T''.store = T'.store ∧ r ∈ T''.fired := by
      rcases List.mem_append.mp htaken with hdue | hfired
      · obtain ⟨⟨j, r⟩, hmem, rfl⟩ := List.mem_map.mp hdue
        have hmem' : (j, r) ∈ T'.due := by
          rw [hT']
          exact hmem
        exact fire_all hmem' hrun'
      · refine ⟨[], T', List.forall_mem_nil _, by rw [List.append_nil]; exact hrun', rfl, ?_⟩
        rw [hT']
        exact hfired
    obtain ⟨calls, T'', hcalls, hrun'', hstore, hfired⟩ := hagain
    have honce := halways _ after calls T'' (by rw [heq]; simp) hcalls hrun''
    exact honce.2 r hfired (hstore ▸ hstored)
  · intro hfresh before after calls T heq hcalls hrun
    have hbefore : SavesFresh env cfg (.start ttl) before := by
      intro earlier i r later T' hearlier
      exact hfresh earlier i r (later ++ after) T' (by rw [heq, hearlier]; simp)
    exact (once_run hrun (savesFresh_calls hbefore hcalls)).expiresOnce

/-! ## Two runs -/

/-- The session goes on with a new object after its state expired. -/
def renewed : List (Bool × Action) :=
  [(false, .newSession "s" 0), (false, .save 0), (true, .sweep 2000), (true, .fire false),
    (false, .load "s" 2000), (false, .newSession "s" 2000), (false, .save 1)]

/-- The sweep comes between the `load` of a request and its `save`. -/
def savedBack : List (Bool × Action) :=
  [(false, .newSession "s" 0), (false, .save 0), (false, .load "s" 1799), (true, .sweep 2000),
    (true, .fire false), (false, .save 0), (true, .sweep 2300), (true, .fire false)]

def renewedEnd : Sessions Bool :=
  (exec (Sessions.step .sample defaultConfig) (.start 1800) renewed).get (by decide +kernel)

def savedBackEnd : Sessions Bool :=
  (exec (Sessions.step .sample defaultConfig) (.start 1800) savedBack).get (by decide +kernel)

def Action.saved : Action → Option Ref
  | .save r => some r
  | _ => none

theorem renewed_fresh : SavesFresh .sample defaultConfig (.start 1800) renewed := by
  have hcheck : ∀ n < renewed.length, ∀ S ∈ exec (Sessions.step .sample defaultConfig)
      (.start 1800) (renewed.take n), ∀ a ∈ renewed[n]?, ∀ r ∈ a.2.saved, r ∉ S.taken := by
    decide +kernel
  intro before i r after S heq hrun
  exact Steps.of_check hcheck heq hrun r rfl

theorem expires_once_iff_renewed :
    renewedEnd.fired = [0] ∧ renewedEnd.store.states = [("s", 1)] ∧
      AlwaysOnce .sample defaultConfig (.start 1800) renewed :=
  ⟨by decide +kernel, by decide +kernel,
    (expires_once_iff .sample defaultConfig 1800 renewed renewedEnd
      (Steps.of_exec (Option.some_get _).symm)).mpr renewed_fresh⟩

/-- The object that a request saved back expires a second time. -/
theorem saved_back_expires_twice :
    Steps (Sessions.step .sample defaultConfig) (.start 1800) savedBack savedBackEnd ∧
      savedBackEnd.fired = [0, 0] ∧ ¬ ExpiresOnce savedBackEnd := by
  have hfired : savedBackEnd.fired = [0, 0] := by decide +kernel
  refine ⟨Steps.of_exec (Option.some_get _).symm, hfired, fun honce => ?_⟩
  have hnodup := honce.1
  rw [hfired] at hnodup
  exact absurd hnodup (by decide)

end DlpServer.Pipeline.ExpireOnce
