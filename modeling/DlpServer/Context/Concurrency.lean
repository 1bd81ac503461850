import DlpServer.Context.FromScratch

/-!
# Concurrent requests of one session

Requests interleave at the three steps of `multiturn_stage`. The object of a
session is shared by all who load it, so every turn is accumulated on it; what
can go wrong is that a *new* session gets two objects, because a second request
loads before the first has saved. `Inv` follows, for every object, the requests
accumulated on it in their order; `no_lost_turn_iff` says which schedules lose
no turn.
-/

namespace DlpServer.Context

open Runs

/-! ## Turns in sequence -/

section Turns

variable (sha256Hex : Text → Text) (cfg : AccumulatorConfig)

/-- A turn on a state object, as `multiturn_stage` takes it. -/
def turn (st : SessionState) (c : StageCall) : SessionState :=
  accumulate sha256Hex cfg st c.spans (st.turnCount + 1) c.accumulatedAt

/-- The count recorded for an entity. -/
def countOf (st : SessionState) (k : EntityKey) : ℕ :=
  ((st.entities.get? k).map EntityRecord.count).getD 0

end Turns

variable {sha256Hex : Text → Text} {cfg : AccumulatorConfig}

/-- What a sequence of turns leaves in the state. -/
theorem turns_account (sha256Hex : Text → Text) (cfg : AccumulatorConfig) (st : SessionState) (cs : List StageCall) :
    (cs.foldl (turn sha256Hex cfg) st).sessionId = st.sessionId ∧
      (cs.foldl (turn sha256Hex cfg) st).expiresAt = st.expiresAt ∧
      (cs.foldl (turn sha256Hex cfg) st).turnCount = st.turnCount + cs.length ∧
      (cs.foldl (turn sha256Hex cfg) st).turnTimestamps =
        st.turnTimestamps ++ cs.map StageCall.accumulatedAt ∧
      ∀ k, countOf (cs.foldl (turn sha256Hex cfg) st) k = countOf st k +
        (cs.map fun c => (c.spans.map (spanKey sha256Hex)).count k).sum := by
  induction cs using List.reverseRecOn with
  | nil => simp
  | append_singleton cs c ih =>
      obtain ⟨hid, hexp, hturns, htimes, hcounts⟩ := ih
      rw [List.foldl_append, List.foldl_cons, List.foldl_nil]
      refine ⟨hid, hexp, ?_, ?_, ?_⟩
      · simp [turn, accumulate, hturns, Nat.add_assoc]
      · simp [turn, accumulate, htimes]
      · intro k
        rw [List.map_append, List.sum_append, ← Nat.add_assoc, ← hcounts k, List.map_singleton,
          List.sum_singleton]
        exact registerSpans_count _ _ _ k

/-! ## Requests in parallel -/

/-- How far a request is in `multiturn_stage`, and the object it works on. -/
inductive Progress where
  | start
  | loaded (r : Ref)
  | accumulated (r : Ref)
  | saved (r : Ref)
deriving DecidableEq

namespace Progress

def steps : Progress → ℕ
  | start => 0
  | loaded _ => 1
  | accumulated _ => 2
  | saved _ => 3

def ref? : Progress → Option Ref
  | start => none
  | loaded r | accumulated r | saved r => some r

/-- The turn of the request is on the object `r`. -/
def On (p : Progress) (r : Ref) : Prop := p = accumulated r ∨ p = saved r

end Progress

/-- The shared store and the progress of every request. -/
structure World (ι : Type*) where
  store : Store
  progress : ι → Progress

/-- The next step of request `i`. -/
def advance {ι : Type*} [DecidableEq ι] (sha256Hex : Text → Text) (cfg : AccumulatorConfig) (sid : String)
    (call : ι → StageCall) (W : World ι) (i : ι) : Option (World ι) :=
  match W.progress i with
  | .start =>
      let (r, _, S) := loadOrNew sid W.store (call i)
      some ⟨S, Function.update W.progress i (.loaded r)⟩
  | .loaded r =>
      some ⟨accumulateStep sha256Hex cfg W.store r (call i),
        Function.update W.progress i (.accumulated r)⟩
  | .accumulated r => some ⟨W.store.save r, Function.update W.progress i (.saved r)⟩
  | .saved _ => none

variable {ι : Type*}

/-- Nobody has started. -/
def World.initial (S : Store) : World ι := ⟨S, fun _ => .start⟩

/-- The session does not expire while the requests run. -/
structure NotExpiring (sid : String) (call : ι → StageCall) (S₀ : Store) : Prop where
  stored : ∀ st ∈ S₀.session sid, ∀ i, (call i).loadedAt < st.expiresAt
  fresh : ∀ i j, (call i).loadedAt < (call j).createdAt + S₀.defaultTtlSeconds

/-! ## The invariant -/

section Invariant

variable (sha256Hex cfg) (sid : String) (call : ι → StageCall) (S₀ : Store)

/-- Where an object of the session comes from. -/
def Origin (r : Ref) (st₀ : SessionState) : Prop :=
  S₀.states.get? sid = some r ∧ S₀.heap[r]? = some st₀ ∨
    S₀.states.get? sid = none ∧ ∃ i, st₀ = S₀.freshState (call i).createdAt sid

/-- The object `r` holds the turns of the requests that accumulated on it, in
the order in which they did. -/
def Object (W : World ι) (r : Ref) : Prop :=
  ∃ (st₀ : SessionState) (order : List ι), Origin sid call S₀ r st₀ ∧
    W.store.heap[r]? = some ((order.map call).foldl (turn sha256Hex cfg) st₀) ∧
    order.Nodup ∧ ∀ i, i ∈ order ↔ (W.progress i).On r

/-- An object some request or the store refers to. -/
def Touched (W : World ι) (r : Ref) : Prop :=
  (∃ i, (W.progress i).ref? = some r) ∨ W.store.states.get? sid = some r

structure Inv [DecidableEq ι] (W : World ι) (schedule : List ι) : Prop where
  steps : ∀ i, (W.progress i).steps = schedule.count i
  ttl : W.store.defaultTtlSeconds = S₀.defaultTtlSeconds
  objects : ∀ r, Touched sid W r → Object sha256Hex cfg sid call S₀ W r
  stored : ∀ r, W.store.states.get? sid = some r →
    S₀.states.get? sid = some r ∨ ∃ i, W.progress i = .saved r
  kept : ∀ r, S₀.states.get? sid = some r → W.store.states.get? sid = some r
  saved : ∀ i r, W.progress i = .saved r → W.store.states.get? sid ≠ none

end Invariant

variable {sid : String} {call : ι → StageCall} {S₀ : Store}

theorem Origin.identity (hwf : S₀.WellFormed) {r : Ref} {st₀ : SessionState}
    (h : Origin sid call S₀ r st₀) : st₀.sessionId = sid := by
  rcases h with ⟨hr, hst⟩ | ⟨-, i, rfl⟩
  · obtain ⟨st, hst', hid⟩ := hwf sid r hr
    obtain rfl : st₀ = st := Option.some.inj (hst.symm.trans hst')
    exact hid
  · rfl

theorem Origin.alive (hlive : NotExpiring sid call S₀) {r : Ref} {st₀ : SessionState}
    (h : Origin sid call S₀ r st₀) (i : ι) : (call i).loadedAt < st₀.expiresAt := by
  rcases h with ⟨hr, hst⟩ | ⟨-, j, rfl⟩
  · refine hlive.stored st₀ ?_ i
    rw [Option.mem_def, Store.session, hr]
    exact hst
  · exact hlive.fresh i j

theorem Object.congr {W W' : World ι} {r : Ref}
    (hheap : W'.store.heap[r]? = W.store.heap[r]?)
    (hon : ∀ i, (W'.progress i).On r ↔ (W.progress i).On r)
    (h : Object sha256Hex cfg sid call S₀ W r) : Object sha256Hex cfg sid call S₀ W' r := by
  obtain ⟨st₀, order, horigin, hst, hnodup, hmem⟩ := h
  exact ⟨st₀, order, horigin, hheap.trans hst, hnodup, fun i => (hmem i).trans (hon i).symm⟩

variable [DecidableEq ι]

theorem inv_initial (hwf : S₀.WellFormed) :
    Inv sha256Hex cfg sid call S₀ (World.initial S₀) [] where
  steps i := rfl
  ttl := rfl
  objects r hr := by
    rcases hr with ⟨i, hi⟩ | hr
    · cases hi
    · obtain ⟨st₀, hst, -⟩ := hwf sid r hr
      refine ⟨st₀, [], Or.inl ⟨hr, hst⟩, hst, List.nodup_nil, fun i => ?_⟩
      simp [World.initial, Progress.On]
  stored r hr := Or.inl hr
  kept r hr := hr
  saved i r hi := by cases hi

section Step

variable {W : World ι} {schedule : List ι} (h : Inv sha256Hex cfg sid call S₀ W schedule)
include h

theorem Inv.steps_next {i : ι} {p : Progress} (hp : p.steps = (W.progress i).steps + 1)
    (j : ι) : (Function.update W.progress i p j).steps = (schedule ++ [i]).count j := by
  rw [List.count_append, List.count_singleton, ← h.steps j]
  by_cases hij : j = i
  · subst hij
    simp [hp]
  · simp [hij, Ne.symm hij]

/-- A request that loads finds the stored object, or makes a new one. -/
theorem Inv.loadOrNew (hlive : NotExpiring sid call S₀) (i : ι) :
    (∃ r, W.store.states.get? sid = some r ∧
      Context.loadOrNew sid W.store (call i) = (r, [], W.store)) ∨
    W.store.states.get? sid = none ∧
      Context.loadOrNew sid W.store (call i) = (W.store.heap.length, [],
        { W.store with
          heap := W.store.heap ++ [W.store.freshState (call i).createdAt sid] }) := by
  cases hr : W.store.states.get? sid with
  | none =>
      refine Or.inr ⟨rfl, ?_⟩
      simp [Context.loadOrNew, Store.load, hr, Store.newSession]
  | some r =>
      obtain ⟨st₀, order, horigin, hst, -⟩ := h.objects r (Or.inr hr)
      have hexp := (turns_account sha256Hex cfg st₀ (order.map call)).2.1
      have hload := load_live hr hst (hexp ▸ horigin.alive hlive i)
      exact Or.inl ⟨r, rfl, by simp [Context.loadOrNew, hload]⟩

theorem Inv.load (hlive : NotExpiring sid call S₀) {i : ι} (hp : W.progress i = .start) :
    Inv sha256Hex cfg sid call S₀
      ⟨(Context.loadOrNew sid W.store (call i)).2.2,
        Function.update W.progress i (.loaded (Context.loadOrNew sid W.store (call i)).1)⟩
      (schedule ++ [i]) := by
  have hon : ∀ r' r j, (Function.update W.progress i (.loaded r') j).On r ↔
      (W.progress j).On r := by
    intro r' r j
    by_cases hij : j = i
    · subst hij
      simp [Progress.On, hp]
    · rw [Function.update_of_ne hij]
  rcases h.loadOrNew hlive i with ⟨r, hr, heq⟩ | ⟨hnone, heq⟩
  · rw [heq]
    constructor
    case steps => exact h.steps_next (by rw [hp]; rfl)
    case ttl => exact h.ttl
    case objects =>
      intro r' hr'
      have htouched : Touched sid W r' := by
        rcases hr' with ⟨j, hj⟩ | hr'
        · by_cases hij : j = i
          · subst hij
            obtain rfl : r = r' := by simpa [Progress.ref?] using hj
            exact Or.inr hr
          · exact Or.inl ⟨j, by simpa [hij] using hj⟩
        · exact Or.inr hr'
      exact Object.congr (W := W) rfl (hon r r') (h.objects r' htouched)
    case stored =>
      intro r' hr'
      rcases h.stored r' hr' with hold | ⟨j, hj⟩
      · exact Or.inl hold
      · refine Or.inr ⟨j, ?_⟩
        have hij : j ≠ i := by
          rintro rfl
          simp [hp] at hj
        simpa [hij] using hj
    case kept => exact h.kept
    case saved =>
      intro j r' hj
      simp [hr]
  · -- A new object: only possible while the session is not stored.
    have hbefore : S₀.states.get? sid = none := by
      cases hs : S₀.states.get? sid with
      | none => rfl
      | some r => simp [h.kept r hs] at hnone
    have hbound : ∀ r, Touched sid W r → r < W.store.heap.length := by
      intro r hr
      obtain ⟨st₀, order, -, hst, -⟩ := h.objects r hr
      exact (List.getElem?_eq_some_iff.mp hst).1
    rw [heq]
    constructor
    case steps => exact h.steps_next (by rw [hp]; rfl)
    case ttl => exact h.ttl
    case objects =>
      intro r' hr'
      by_cases hnew : r' = W.store.heap.length
      · subst hnew
        refine ⟨S₀.freshState (call i).createdAt sid, [], Or.inr ⟨hbefore, i, rfl⟩, ?_,
          List.nodup_nil, fun j => ?_⟩
        · rw [List.map_nil, List.foldl_nil, List.getElem?_concat_length]
          simp only [Store.freshState, h.ttl]
        · rw [hon]
          refine iff_of_false List.not_mem_nil fun hj => ?_
          have hj : (W.progress j).ref? = some W.store.heap.length := by
            rcases hj with hj | hj <;> rw [hj] <;> rfl
          exact absurd (hbound _ (Or.inl ⟨j, hj⟩)) (lt_irrefl _)
      · have htouched : Touched sid W r' := by
          rcases hr' with ⟨j, hj⟩ | hr'
          · by_cases hij : j = i
            · subst hij
              exact absurd (by simpa [Progress.ref?] using hj.symm) hnew
            · exact Or.inl ⟨j, by simpa [hij] using hj⟩
          · exact Or.inr hr'
        refine Object.congr (W := W) ?_ (hon _ r') (h.objects r' htouched)
        exact List.getElem?_append_left (hbound r' htouched)
    case stored =>
      intro r' hr'
      rw [hnone] at hr'
      cases hr'
    case kept =>
      intro r hr
      rw [hbefore] at hr
      cases hr
    case saved =>
      intro j r' hj
      have hij : j ≠ i := by
        rintro rfl
        simp at hj
      exact absurd hnone (h.saved j r' (by simpa [hij] using hj))

theorem Inv.accumulate {i : ι} {r : Ref} (hp : W.progress i = .loaded r) :
    Inv sha256Hex cfg sid call S₀
      ⟨accumulateStep sha256Hex cfg W.store r (call i),
        Function.update W.progress i (.accumulated r)⟩ (schedule ++ [i]) := by
  have href : ∀ j, (Function.update W.progress i (.accumulated r) j).ref? =
      (W.progress j).ref? := by
    intro j
    by_cases hij : j = i
    · subst hij
      simp [Progress.ref?, hp]
    · rw [Function.update_of_ne hij]
  constructor
  case steps => exact h.steps_next (by rw [hp]; rfl)
  case ttl => exact h.ttl
  case objects =>
    intro r' hr'
    have htouched : Touched sid W r' := by
      rcases hr' with ⟨j, hj⟩ | hr'
      · exact Or.inl ⟨j, (href j).symm.trans hj⟩
      · exact Or.inr hr'
    have hobj := h.objects r' htouched
    by_cases hrr : r' = r
    · -- The turn of `i` comes last on its object.
      subst hrr
      obtain ⟨st₀, order, horigin, hst, hnodup, hmem⟩ := hobj
      have hi : i ∉ order := by
        rw [hmem, hp]
        simp [Progress.On]
      refine ⟨st₀, order ++ [i], horigin, ?_, ?_, ?_⟩
      · rw [List.map_append, List.foldl_append]
        simp [accumulateStep, Store.modify, List.getElem?_modify_eq, hst, turn]
      · exact hnodup.append (List.nodup_singleton i) (by simpa using hi)
      · intro j
        rw [List.mem_append, hmem, List.mem_singleton]
        by_cases hij : j = i
        · subst hij
          simp [Progress.On]
        · simp [hij]
    · refine Object.congr (W := W) ?_ ?_ hobj
      · exact List.getElem?_modify_ne _ _ (Ne.symm hrr)
      · intro j
        dsimp only
        by_cases hij : j = i
        · subst hij
          simp [Progress.On, hp, Ne.symm hrr]
        · rw [Function.update_of_ne hij]
  case stored =>
    intro r' hr'
    rcases h.stored r' hr' with hold | ⟨j, hj⟩
    · exact Or.inl hold
    · refine Or.inr ⟨j, ?_⟩
      have hij : j ≠ i := by
        rintro rfl
        simp [hp] at hj
      simpa [hij] using hj
  case kept => exact h.kept
  case saved =>
    intro j r' hj
    have hij : j ≠ i := by
      rintro rfl
      simp at hj
    exact h.saved j r' (by simpa [hij] using hj)

theorem Inv.save (hwf : S₀.WellFormed) {i : ι} {r : Ref} (hp : W.progress i = .accumulated r) :
    Inv sha256Hex cfg sid call S₀
      ⟨W.store.save r, Function.update W.progress i (.saved r)⟩ (schedule ++ [i]) := by
  have hri : Touched sid W r := Or.inl ⟨i, by rw [hp]; rfl⟩
  have hstates : (W.store.save r).states.get? sid = some r ∧
      (W.store.save r).heap = W.store.heap ∧
      (W.store.save r).defaultTtlSeconds = W.store.defaultTtlSeconds := by
    obtain ⟨st₀, order, horigin, hst, -⟩ := h.objects r hri
    have hid := (turns_account sha256Hex cfg st₀ (order.map call)).1
    simp only [Store.save, hst, hid, horigin.identity hwf, Dict.get?_set, if_true, and_self]
  have hon : ∀ r' j, (Function.update W.progress i (.saved r) j).On r' ↔
      (W.progress j).On r' := by
    intro r' j
    by_cases hij : j = i
    · subst hij
      simp [Progress.On, hp]
    · rw [Function.update_of_ne hij]
  constructor
  case steps => exact h.steps_next (by rw [hp]; rfl)
  case ttl => exact hstates.2.2.trans h.ttl
  case objects =>
    intro r' hr'
    have htouched : Touched sid W r' := by
      rcases hr' with ⟨j, hj⟩ | hr'
      · by_cases hij : j = i
        · subst hij
          obtain rfl : r = r' := by simpa [Progress.ref?] using hj
          exact hri
        · exact Or.inl ⟨j, by simpa [hij] using hj⟩
      · obtain rfl : r = r' := Option.some.inj (hstates.1.symm.trans hr')
        exact hri
    exact Object.congr (W := W) (by rw [hstates.2.1]) (hon r') (h.objects r' htouched)
  case stored =>
    intro r' hr'
    obtain rfl : r = r' := Option.some.inj (hstates.1.symm.trans hr')
    exact Or.inr ⟨i, by simp⟩
  case kept =>
    intro r' hr'
    obtain ⟨st₀, order, ⟨hr, -⟩ | ⟨hnone, -⟩, -⟩ := h.objects r hri
    · rw [hstates.1, ← hr, hr']
    · rw [hnone] at hr'
      cases hr'
  case saved =>
    intro j r' hj
    rw [hstates.1]
    exact Option.some_ne_none r

end Step

/-- The invariant along any schedule. -/
theorem Inv.run (hwf : S₀.WellFormed) (hlive : NotExpiring sid call S₀) {schedule : List ι} :
    ∀ {W : World ι},
      exec (advance sha256Hex cfg sid call) (World.initial S₀) schedule = some W →
      Inv sha256Hex cfg sid call S₀ W schedule := by
  induction schedule using List.reverseRecOn with
  | nil =>
      intro W hW
      obtain rfl : World.initial S₀ = W := by simpa [exec] using hW
      exact inv_initial hwf
  | append_singleton schedule i ih =>
      intro W' hW'
      obtain ⟨W, hW, hstep⟩ := exec_snoc.mp hW'
      have h := ih hW
      unfold advance at hstep
      cases hp : W.progress i with
      | start =>
          simp only [hp, Option.some.injEq] at hstep
          exact hstep ▸ h.load hlive hp
      | loaded r =>
          simp only [hp, Option.some.injEq] at hstep
          exact hstep ▸ h.accumulate hp
      | accumulated r =>
          simp only [hp, Option.some.injEq] at hstep
          exact hstep ▸ h.save hwf hp
      | saved r => simp [hp] at hstep

/-! ## When no turn is lost -/

/-- After all requests the session is there and holds every turn, every instant
and every mention, on top of what it held before. -/
structure NoLostTurn [Fintype ι] (sha256Hex : Text → Text) (sid : String)
    (call : ι → StageCall) (S₀ S : Store) : Prop where
  found : Nonempty ι → (S.session sid).isSome
  turns : ∀ st ∈ S.session sid,
    st.turnCount = ((S₀.session sid).map SessionState.turnCount).getD 0 + Fintype.card ι
  timestamps : ∀ st ∈ S.session sid, (st.turnTimestamps : Multiset ℚ) =
    (((S₀.session sid).map SessionState.turnTimestamps).getD [] : Multiset ℚ) +
      Finset.univ.val.map fun i => (call i).accumulatedAt
  counts : ∀ st ∈ S.session sid, ∀ k, countOf st k =
    ((S₀.session sid).map (countOf · k)).getD 0 +
      ∑ i, ((call i).spans.map (spanKey sha256Hex)).count k

/-- Every request but the first loads after some request has saved. -/
def LoadsAfterSave (schedule : List ι) : Prop :=
  ∀ pre i post, schedule = pre ++ i :: post → i ∉ pre → pre = [] ∨ ∃ j, pre.count j = 3

/-- All requests work on one object. -/
def OneObject (W : World ι) : Prop :=
  ∀ i j r r', (W.progress i).ref? = some r → (W.progress j).ref? = some r' → r = r'

/-- Past its load a request keeps its object, and so do the others. -/
theorem advance_ref_eq {W W' : World ι} {i : ι} (hi : W.progress i ≠ .start)
    (h : advance sha256Hex cfg sid call W i = some W') (j : ι) :
    (W'.progress j).ref? = (W.progress j).ref? := by
  unfold advance at h
  cases hp : W.progress i with
  | start => exact absurd hp hi
  | loaded r | accumulated r =>
      simp only [hp, Option.some.injEq] at h
      by_cases hij : j = i
      · subst hij
        simp [← h, hp, Progress.ref?]
      · simp [← h, hij]
  | saved r => simp [hp] at h

theorem advance_start {W W' : World ι} {i : ι} (hi : W.progress i = .start)
    (h : advance sha256Hex cfg sid call W i = some W') :
    W'.progress = Function.update W.progress i (.loaded (loadOrNew sid W.store (call i)).1) := by
  simp only [advance, hi, Option.some.injEq] at h
  rw [← h]

theorem exec_ref {schedule : List ι} {W W' : World ι} {j : ι} {r : Ref}
    (h : exec (advance sha256Hex cfg sid call) W schedule = some W')
    (hj : (W.progress j).ref? = some r) : (W'.progress j).ref? = some r := by
  induction schedule generalizing W with
  | nil =>
      obtain rfl : W = W' := by simpa [exec] using h
      exact hj
  | cons i schedule ih =>
      obtain ⟨W₁, h₁, h⟩ := Option.bind_eq_some_iff.mp h
      refine ih h ?_
      by_cases hi : W.progress i = .start
      · have hij : j ≠ i := by
          rintro rfl
          rw [hi] at hj
          cases hj
        rw [advance_start hi h₁, Function.update_of_ne hij]
        exact hj
      · rw [advance_ref_eq hi h₁]
        exact hj

section Account

variable {W : World ι} {schedule : List ι} (h : Inv sha256Hex cfg sid call S₀ W schedule)
include h

theorem Inv.saved_of_done {i : ι} (hdone : schedule.count i = 3) :
    ∃ r, W.progress i = .saved r := by
  have hsteps := h.steps i
  rw [hdone] at hsteps
  cases hp : W.progress i <;> rw [hp] at hsteps <;> simp [Progress.steps] at hsteps
  exact ⟨_, rfl⟩

/-- The stored object of a session is the one everybody saved. -/
theorem Inv.saved_stored (hdone : ∀ i, schedule.count i = 3) (hone : OneObject W) {r : Ref}
    (hr : W.store.states.get? sid = some r) (i : ι) : W.progress i = .saved r := by
  obtain ⟨r', hi⟩ := h.saved_of_done (hdone i)
  rcases h.stored r hr with hbefore | ⟨j, hj⟩
  · obtain ⟨_, _, ⟨hr', -⟩ | ⟨hnone, -⟩, -⟩ := h.objects r' (Or.inl ⟨i, by rw [hi]; rfl⟩)
    · rw [hbefore] at hr'
      rw [hi, Option.some.inj hr']
    · rw [hbefore] at hnone
      cases hnone
  · obtain rfl : r' = r := hone i j r' r (by rw [hi]; rfl) (by rw [hj]; rfl)
    exact hi

omit h [DecidableEq ι] in
/-- What the account starts from. -/
theorem Origin.before {r : Ref} {st₀ : SessionState} (horigin : Origin sid call S₀ r st₀) :
    ((S₀.session sid).map SessionState.turnCount).getD 0 = st₀.turnCount ∧
      ((S₀.session sid).map SessionState.turnTimestamps).getD [] = st₀.turnTimestamps ∧
      ∀ k, ((S₀.session sid).map (countOf · k)).getD 0 = countOf st₀ k := by
  rcases horigin with ⟨hr, hst⟩ | ⟨hnone, i, rfl⟩
  · have hsession : S₀.session sid = some st₀ := by
      rw [Store.session, hr]
      exact hst
    rw [hsession]
    exact ⟨rfl, rfl, fun _ => rfl⟩
  · have hsession : S₀.session sid = none := by
      rw [Store.session, hnone]
      rfl
    rw [hsession]
    exact ⟨rfl, rfl, fun _ => rfl⟩

/-- If all work on one object, it holds every turn. -/
theorem Inv.account [Fintype ι] (hdone : ∀ i, schedule.count i = 3) (hone : OneObject W) :
    NoLostTurn sha256Hex sid call S₀ W.store := by
  have hstored : ∀ st ∈ W.store.session sid, ∃ (st₀ : SessionState) (order : List ι) (r : Ref),
      Origin sid call S₀ r st₀ ∧ st = (order.map call).foldl (turn sha256Hex cfg) st₀ ∧
        order.Nodup ∧ order.toFinset = Finset.univ := by
    intro st hst
    obtain ⟨r, hr, hheap⟩ := Option.bind_eq_some_iff.mp hst
    obtain ⟨st₀, order, horigin, hobj, hnodup, hmem⟩ := h.objects r (Or.inr hr)
    refine ⟨st₀, order, r, horigin, Option.some.inj (hheap.symm.trans hobj), hnodup, ?_⟩
    refine Finset.eq_univ_iff_forall.mpr fun i => ?_
    rw [List.mem_toFinset, hmem]
    exact Or.inr (h.saved_stored hdone hone hr i)
  constructor
  case found =>
    rintro ⟨i⟩
    obtain ⟨r, hi⟩ := h.saved_of_done (hdone i)
    obtain ⟨r', hr'⟩ := Option.ne_none_iff_exists'.mp (h.saved i r hi)
    obtain ⟨st₀, order, -, hobj, -⟩ := h.objects r' (Or.inr hr')
    rw [Store.session, hr', Option.bind_some, hobj]
    rfl
  case turns =>
    intro st hst
    obtain ⟨st₀, order, r, horigin, rfl, hnodup, huniv⟩ := hstored st hst
    have hacc := turns_account sha256Hex cfg st₀ (order.map call)
    rw [hacc.2.2.1, horigin.before.1, List.length_map, ← List.toFinset_card_of_nodup hnodup,
      huniv, Finset.card_univ]
  case timestamps =>
    intro st hst
    obtain ⟨st₀, order, r, horigin, rfl, hnodup, huniv⟩ := hstored st hst
    have hacc := turns_account sha256Hex cfg st₀ (order.map call)
    have hval : Finset.univ.val = (order : Multiset ι) := by
      rw [← huniv, List.toFinset_val, hnodup.dedup]
    rw [hacc.2.2.2.1, horigin.before.2.1, hval, ← Multiset.coe_add, Multiset.map_coe,
      List.map_map]
    rfl
  case counts =>
    intro st hst k
    obtain ⟨st₀, order, r, horigin, rfl, hnodup, huniv⟩ := hstored st hst
    have hacc := turns_account sha256Hex cfg st₀ (order.map call)
    rw [hacc.2.2.2.2 k, horigin.before.2.2 k, ← huniv, List.sum_toFinset _ hnodup,
      List.map_map]
    rfl

/-- If no turn is lost, all worked on the stored object. -/
theorem Inv.oneObject_of_account [Fintype ι]
    (hno : NoLostTurn sha256Hex sid call S₀ W.store) : OneObject W := by
  intro i j r r' hi hj
  obtain ⟨st, hst⟩ := Option.isSome_iff_exists.mp (hno.found ⟨i⟩)
  obtain ⟨s, hs, hheap⟩ := Option.bind_eq_some_iff.mp hst
  obtain ⟨st₀, order, horigin, hobj, hnodup, hmem⟩ := h.objects s (Or.inr hs)
  have hst₀ : st = (order.map call).foldl (turn sha256Hex cfg) st₀ :=
    Option.some.inj (hheap.symm.trans hobj)
  -- As many turns as requests: every request is on the stored object.
  have hlength : order.length = Fintype.card ι := by
    have hturns := hno.turns st hst
    rw [horigin.before.1, hst₀, (turns_account sha256Hex cfg st₀ (order.map call)).2.2.1,
      List.length_map] at hturns
    exact Nat.add_left_cancel hturns
  have huniv : order.toFinset = Finset.univ := by
    rw [← Finset.card_eq_iff_eq_univ, List.toFinset_card_of_nodup hnodup, hlength]
  have hall : ∀ k q, (W.progress k).ref? = some q → q = s := by
    intro k q hk
    have hmemk : k ∈ order := by
      rw [← List.mem_toFinset, huniv]
      exact Finset.mem_univ k
    rcases (hmem k).mp hmemk with hp | hp <;> rw [hp] at hk <;> exact (Option.some.inj hk).symm
  rw [hall i r hi, hall j r' hj]

end Account

/-! ## Which schedules have one object -/

section Schedules

variable (hwf : S₀.WellFormed) (hlive : NotExpiring sid call S₀)
include hwf hlive

theorem oneObject_of_stored {schedule : List ι} {W : World ι} {s : Ref}
    (hrun : exec (advance sha256Hex cfg sid call) (World.initial S₀) schedule = some W)
    (hs : S₀.states.get? sid = some s) : OneObject W := by
  have h := Inv.run hwf hlive hrun
  have hall : ∀ i r, (W.progress i).ref? = some r → r = s := by
    intro i r hi
    obtain ⟨_, _, ⟨hr, -⟩ | ⟨hnone, -⟩, -⟩ := h.objects r (Or.inl ⟨i, hi⟩)
    · exact Option.some.inj (hr.symm.trans hs)
    · rw [hs] at hnone
      cases hnone
  intro i j r r' hi hj
  rw [hall i r hi, hall j r' hj]

theorem oneObject_of_loadsAfterSave {schedule : List ι} (hnew : S₀.states.get? sid = none)
    (hloads : LoadsAfterSave schedule) :
    ∀ {W : World ι},
      exec (advance sha256Hex cfg sid call) (World.initial S₀) schedule = some W →
      OneObject W := by
  induction schedule using List.reverseRecOn with
  | nil =>
      intro W hW i j r r' hi
      obtain rfl : World.initial S₀ = W := by simpa [exec] using hW
      cases hi
  | append_singleton schedule i ih =>
      intro W' hW'
      obtain ⟨W, hW, hstep⟩ := exec_snoc.mp hW'
      have h := Inv.run hwf hlive hW
      have hone : OneObject W := by
        refine ih (fun pre j post heq => ?_) hW
        exact hloads pre j (post ++ [i]) (by simp [heq])
      by_cases hi : W.progress i = .start
      · have hnot : i ∉ schedule := by
          rw [← List.count_eq_zero, ← h.steps i, hi]
          rfl
        have hprogress := advance_start hi hstep
        -- Any other request that has loaded has the object `i` loads now.
        have hother : ∀ j r, j ≠ i → (W'.progress j).ref? = some r →
            r = (loadOrNew sid W.store (call i)).1 := by
          intro j r hij hj
          rw [hprogress, Function.update_of_ne hij] at hj
          rcases hloads schedule i [] rfl hnot with rfl | ⟨k, hk⟩
          · obtain rfl : World.initial S₀ = W := by simpa [exec] using hW
            cases hj
          · obtain ⟨s, hs⟩ := h.saved_of_done hk
            rcases h.loadOrNew hlive i with ⟨t, ht, heq⟩ | ⟨hnone, -⟩
            · rcases h.stored t ht with hbefore | ⟨m, hm⟩
              · rw [hnew] at hbefore
                cases hbefore
              · rw [heq]
                exact hone j m r t hj (by rw [hm]; rfl)
            · exact absurd hnone (h.saved k s hs)
        have hself : (W'.progress i).ref? = some (loadOrNew sid W.store (call i)).1 := by
          rw [hprogress, Function.update_self]
          rfl
        have hall : ∀ j r, (W'.progress j).ref? = some r →
            r = (loadOrNew sid W.store (call i)).1 := by
          intro j r hj
          by_cases hij : j = i
          · subst hij
            exact Option.some.inj (hj.symm.trans hself)
          · exact hother j r hij hj
        intro j k r r' hj hk
        rw [hall j r hj, hall k r' hk]
      · intro j k r r' hj hk
        rw [advance_ref_eq hi hstep] at hj hk
        exact hone j k r r' hj hk

theorem loadsAfterSave_of_oneObject {schedule : List ι} {W : World ι}
    (hnew : S₀.states.get? sid = none)
    (hrun : exec (advance sha256Hex cfg sid call) (World.initial S₀) schedule = some W)
    (hone : OneObject W) : LoadsAfterSave schedule := by
  intro pre i post heq hnot
  by_contra hc
  obtain ⟨hne, hnosave⟩ := not_or.mp hc
  rw [heq, exec_append] at hrun
  obtain ⟨W₁, h₁, hrest⟩ := Option.bind_eq_some_iff.mp hrun
  obtain ⟨W₂, h₂, hrest⟩ := Option.bind_eq_some_iff.mp hrest
  have h := Inv.run hwf hlive h₁
  have hi : W₁.progress i = .start := by
    have hsteps := h.steps i
    rw [List.count_eq_zero.mpr hnot] at hsteps
    cases hp : W₁.progress i <;> rw [hp] at hsteps <;> simp [Progress.steps] at hsteps
  -- Nobody has saved, so `i` makes an object of its own.
  have hnone : W₁.store.states.get? sid = none := by
    cases hr : W₁.store.states.get? sid with
    | none => rfl
    | some r =>
        rcases h.stored r hr with hbefore | ⟨j, hj⟩
        · rw [hnew] at hbefore
          cases hbefore
        · have hsteps := h.steps j
          rw [hj] at hsteps
          exact absurd ⟨j, hsteps.symm⟩ hnosave
  obtain ⟨r, hr, -⟩ | ⟨-, hload⟩ := h.loadOrNew hlive i
  · rw [hnone] at hr
    cases hr
  obtain ⟨j, pre', rfl⟩ := List.exists_cons_of_ne_nil hne
  have hij : j ≠ i := by
    rintro rfl
    exact hnot List.mem_cons_self
  obtain ⟨r, hj⟩ : ∃ r, (W₁.progress j).ref? = some r := by
    have hsteps := h.steps j
    rw [List.count_cons_self] at hsteps
    cases hp : W₁.progress j <;> rw [hp] at hsteps
    · simp [Progress.steps] at hsteps
    all_goals exact ⟨_, rfl⟩
  have hlt : r < W₁.store.heap.length := by
    obtain ⟨_, _, -, hst, -⟩ := h.objects r (Or.inl ⟨j, hj⟩)
    exact (List.getElem?_eq_some_iff.mp hst).1
  have hprogress := advance_start hi h₂
  have hi₂ : (W₂.progress i).ref? = some W₁.store.heap.length := by
    rw [hprogress, Function.update_self, hload]
    rfl
  have hj₂ : (W₂.progress j).ref? = some r := by
    rw [hprogress, Function.update_of_ne hij]
    exact hj
  exact absurd (hone j i r _ (exec_ref hrest hj₂) (exec_ref hrest hi₂)) (Nat.ne_of_lt hlt)

end Schedules

/-- **No turn is lost** exactly if the session was stored before, or every
request but the first loads after some request has saved. -/
theorem no_lost_turn_iff [Fintype ι] (sha256Hex : Text → Text) (cfg : AccumulatorConfig)
    (sid : String) (call : ι → StageCall) (S₀ : Store) (schedule : List ι) (W : World ι)
    (hwf : S₀.WellFormed) (hlive : NotExpiring sid call S₀)
    (hrun : exec (advance sha256Hex cfg sid call) (World.initial S₀) schedule = some W)
    (hdone : ∀ i, ∃ r, W.progress i = .saved r) :
    NoLostTurn sha256Hex sid call S₀ W.store ↔
      (S₀.states.get? sid).isSome ∨ LoadsAfterSave schedule := by
  have h := Inv.run hwf hlive hrun
  have hcount : ∀ i, schedule.count i = 3 := by
    intro i
    obtain ⟨r, hr⟩ := hdone i
    rw [← h.steps i, hr]
    rfl
  cases hs : S₀.states.get? sid with
  | some s =>
      refine iff_of_true (h.account hcount ?_) (Or.inl rfl)
      exact oneObject_of_stored hwf hlive hrun hs
  | none =>
      constructor
      · intro hno
        exact Or.inr (loadsAfterSave_of_oneObject hwf hlive hs hrun (h.oneObject_of_account hno))
      · rintro (hsome | hloads)
        · cases hsome
        · exact h.account hcount (oneObject_of_loadsAfterSave hwf hlive hs hloads hrun)

/-! ## Two requests of a new session -/

/-- A number mentioned by both requests. -/
def sharedCall : Bool → StageCall :=
  fun _ => ⟨[⟨"RRN", "900101-1234567".toList, 0, 14, 1, "regex"⟩], 0, 0, 0⟩

theorem sharedCall_notExpiring : NotExpiring "s" sharedCall ⟨[], [], 1800⟩ where
  stored _ hst := by cases hst
  fresh i j := by cases i <;> cases j <;> decide +kernel

theorem emptyStore_wellFormed : Store.WellFormed ⟨[], [], 1800⟩ := by
  intro sid r hr
  cases hr

/-- Two requests of a new session, from an empty store. -/
def twoRequests (schedule : List Bool) : Option (World Bool) :=
  exec (advance sampleSha256 defaultConfig "s" sharedCall) (World.initial ⟨[], [], 1800⟩) schedule

/-- Both load before either saves: there are two objects, and the later save
puts one of them, with one turn, in the place of the other. -/
theorem crossed_requests_lose_a_turn :
    ∃ W, twoRequests [true, false, true, false, true, false] = some W ∧
      (∀ i, ∃ r, W.progress i = .saved r) ∧
      ¬ NoLostTurn sampleSha256 "s" sharedCall ⟨[], [], 1800⟩ W.store := by
  let W := (twoRequests [true, false, true, false, true, false]).get (by decide +kernel)
  refine ⟨W, (Option.some_get _).symm, ?_, ?_⟩
  · have htrue : W.progress true = .saved 0 := by decide +kernel
    have hfalse : W.progress false = .saved 1 := by decide +kernel
    rintro (_ | _)
    · exact ⟨1, hfalse⟩
    · exact ⟨0, htrue⟩
  · intro hno
    obtain ⟨st, hst⟩ := Option.isSome_iff_exists.mp (hno.found ⟨true⟩)
    have hone : (W.store.session "s").map SessionState.turnCount = some 1 := by decide +kernel
    have htwo : st.turnCount = 2 := hno.turns st hst
    rw [hst, Option.map_some, htwo] at hone
    cases hone

/-- Where the second request loads after the first has saved, both turns count. -/
theorem sequential_requests_keep_both :
    ∃ W, twoRequests [true, true, true, false, false, false] = some W ∧
      NoLostTurn sampleSha256 "s" sharedCall ⟨[], [], 1800⟩ W.store := by
  let W := (twoRequests [true, true, true, false, false, false]).get (by decide +kernel)
  have hrun : twoRequests [true, true, true, false, false, false] = some W :=
    (Option.some_get _).symm
  have hdone : ∀ i, ∃ r, W.progress i = .saved r := by
    have htrue : W.progress true = .saved 0 := by decide +kernel
    have hfalse : W.progress false = .saved 0 := by decide +kernel
    rintro (_ | _)
    · exact ⟨0, hfalse⟩
    · exact ⟨0, htrue⟩
  refine ⟨W, hrun, ?_⟩
  refine (no_lost_turn_iff sampleSha256 defaultConfig "s" sharedCall ⟨[], [], 1800⟩ _ W
    emptyStore_wellFormed sharedCall_notExpiring hrun hdone).mpr (Or.inr ?_)
  intro pre i post heq hnot
  rcases pre with _ | ⟨a, _ | ⟨b, _ | ⟨c, _ | ⟨d, pre⟩⟩⟩⟩
  · exact Or.inl rfl
  · simp_all
  · simp_all
  · refine Or.inr ⟨true, ?_⟩
    simp_all
  · -- Only steps of `false` are left, and one is in `pre`.
    obtain ⟨-, -, -, hd, hrest⟩ : true = a ∧ true = b ∧ true = c ∧ false = d ∧
        [false, false] = pre ++ i :: post := by simpa using heq
    have hi : i ∈ [false, false] := by
      rw [hrest]
      exact List.mem_append_right _ List.mem_cons_self
    simp_all

end DlpServer.Context
