import DlpServer.Lib.Runs

/-!
# Initialising once

A cell that many threads read. Who finds it empty takes a lock, looks again, and fills it
(double-checked locking); filling it may fail, and is then left to the next caller. Every
look, every access to the lock and every write is a step of its own, in any order.

The cell is filled at most once (`Cell.Inv`), every call that returns a value returns that
one, and no call waits forever: a step is possible as long as a call is under way
(`Cell.exists_step`), and there are only so many (`Cell.length_le_work`).
-/

namespace DlpServer.Once

open Runs

/-- Where a thread is in a call, which was made with `r`. -/
inductive Phase (ρ : Type*) where
  | idle
  | called (r : ρ)                    -- before `if cell is None`
  | locking (r : ρ)                   -- before `with lock`
  | locked (r : ρ)                    -- before the second `if cell is None`
  | building (r : ρ)
  | leaving (r : ρ) (failed : Bool)   -- before the lock is released
  | reading (r : ρ)                   -- before `return cell`

/-- The thread has the lock. -/
def Phase.Inside {ρ : Type*} : Phase ρ → Prop
  | .locked _ | .building _ | .leaving _ _ => True
  | .idle | .called _ | .locking _ | .reading _ => False

/-- What the call was made with. -/
def Phase.arg {ρ : Type*} : Phase ρ → Option ρ
  | .idle => none
  | .called r | .locking r | .locked r | .building r | .leaving r _ | .reading r => some r

/-- How many steps are left. -/
def Phase.work {ρ : Type*} : Phase ρ → ℕ
  | .idle => 0
  | .reading _ => 1
  | .leaving _ _ => 2
  | .building _ => 3
  | .locked _ => 4
  | .locking _ => 5
  | .called _ => 6

theorem Phase.work_le {ρ : Type*} (p : Phase ρ) : p.work ≤ 6 := by
  cases p <;> simp [Phase.work]

/-- The cell, its lock and the threads. `built` is history: what has been put into the
cell, for which call. -/
structure Cell (τ ρ α : Type*) where
  value : Option α
  holder : Option τ
  phase : τ → Phase ρ
  built : List (ρ × α)

/-- Nobody has called. -/
def Cell.init {τ ρ α : Type*} : Cell τ ρ α := ⟨none, none, fun _ => .idle, []⟩

/-- A step of a thread; `β` is what building depends on. -/
inductive Act (τ ρ β : Type*) where
  | call (t : τ) (r : ρ)
  | look (t : τ)
  | acquire (t : τ)
  | lookAgain (t : τ)
  | build (t : τ) (b : β)
  | release (t : τ)
  | read (t : τ)

def Act.thread {τ ρ β : Type*} : Act τ ρ β → τ
  | .call t _ | .look t | .acquire t | .lookAgain t | .build t _ | .release t | .read t => t

/-- A call begins with this step. -/
def Act.Calls {τ ρ β : Type*} : Act τ ρ β → Prop
  | .call _ _ => True
  | _ => False

namespace Cell

variable {τ ρ α β : Type*} [DecidableEq τ]

def goto (c : Cell τ ρ α) (t : τ) (p : Phase ρ) : Cell τ ρ α :=
  { c with phase := Function.update c.phase t p }

section Step

variable (make : ρ → β → Option α)

/-- One step; `none` where it is not due. -/
def step (c : Cell τ ρ α) : Act τ ρ β → Option (Cell τ ρ α)
  | .call t r =>
      match c.phase t with
      | .idle => some (c.goto t (.called r))
      | _ => none
  | .look t =>
      match c.phase t with
      | .called r => some (c.goto t (if c.value.isSome then .reading r else .locking r))
      | _ => none
  | .acquire t =>
      match c.phase t, c.holder with
      | .locking r, none => some { c.goto t (.locked r) with holder := some t }
      | _, _ => none
  | .lookAgain t =>
      match c.phase t with
      | .locked r => some (c.goto t (if c.value.isSome then .leaving r false else .building r))
      | _ => none
  | .build t b =>
      match c.phase t with
      | .building r =>
          match make r b with
          | some a =>
              some
                { c.goto t (.leaving r false) with
                  value := some a
                  built := c.built ++ [(r, a)] }
          | none => some (c.goto t (.leaving r true))
      | _ => none
  | .release t =>
      match c.phase t with
      | .leaving r failed =>
          some { c.goto t (if failed then .idle else .reading r) with holder := none }
      | _ => none
  | .read t =>
      match c.phase t with
      | .reading _ => some (c.goto t .idle)
      | _ => none

end Step

/-- What a step does. -/
inductive Moves (make : ρ → β → Option α) : Cell τ ρ α → Act τ ρ β → Cell τ ρ α → Prop
  | call {c : Cell τ ρ α} {t : τ} {r : ρ} (ht : c.phase t = .idle) :
      Moves make c (.call t r) (c.goto t (.called r))
  | found {c : Cell τ ρ α} {t : τ} {r : ρ} (ht : c.phase t = .called r)
      (hvalue : c.value.isSome = true) : Moves make c (.look t) (c.goto t (.reading r))
  | missed {c : Cell τ ρ α} {t : τ} {r : ρ} (ht : c.phase t = .called r) :
      Moves make c (.look t) (c.goto t (.locking r))
  | acquire {c : Cell τ ρ α} {t : τ} {r : ρ} (ht : c.phase t = .locking r)
      (hfree : c.holder = none) :
      Moves make c (.acquire t) { c.goto t (.locked r) with holder := some t }
  | foundAgain {c : Cell τ ρ α} {t : τ} {r : ρ} (ht : c.phase t = .locked r)
      (hvalue : c.value.isSome = true) : Moves make c (.lookAgain t) (c.goto t (.leaving r false))
  | missedAgain {c : Cell τ ρ α} {t : τ} {r : ρ} (ht : c.phase t = .locked r)
      (hvalue : c.value = none) : Moves make c (.lookAgain t) (c.goto t (.building r))
  | build {c : Cell τ ρ α} {t : τ} {r : ρ} {b : β} {a : α} (ht : c.phase t = .building r)
      (ha : make r b = some a) :
      Moves make c (.build t b)
        { c.goto t (.leaving r false) with value := some a, built := c.built ++ [(r, a)] }
  | fail {c : Cell τ ρ α} {t : τ} {r : ρ} {b : β} (ht : c.phase t = .building r)
      (hb : make r b = none) : Moves make c (.build t b) (c.goto t (.leaving r true))
  | release {c : Cell τ ρ α} {t : τ} {r : ρ} {failed : Bool} (ht : c.phase t = .leaving r failed) :
      Moves make c (.release t)
        { c.goto t (if failed then .idle else .reading r) with holder := none }
  | read {c : Cell τ ρ α} {t : τ} {r : ρ} (ht : c.phase t = .reading r) :
      Moves make c (.read t) (c.goto t .idle)

theorem Moves.of_step {make : ρ → β → Option α} {c c' : Cell τ ρ α} {a : Act τ ρ β}
    (h : c.step make a = some c') : Moves make c a c' := by
  cases a with
  | call t r =>
      cases ht : c.phase t <;> simp only [step, ht, Option.some.injEq, reduceCtorEq] at h
      case idle => exact h ▸ .call ht
  | look t =>
      cases ht : c.phase t <;> simp only [step, ht, Option.some.injEq, reduceCtorEq] at h
      case called r =>
        subst h
        split
        · exact .found ht ‹_›
        · exact .missed ht
  | acquire t =>
      cases ht : c.phase t <;> cases hholder : c.holder <;>
        simp only [step, ht, hholder, Option.some.injEq, reduceCtorEq] at h
      case locking.none r => exact h ▸ .acquire ht hholder
  | lookAgain t =>
      cases ht : c.phase t <;> simp only [step, ht, Option.some.injEq, reduceCtorEq] at h
      case locked r =>
        subst h
        split
        · exact .foundAgain ht ‹_›
        · exact .missedAgain ht (Option.not_isSome_iff_eq_none.mp ‹_›)
  | build t b =>
      cases ht : c.phase t <;> simp only [step, ht, reduceCtorEq] at h
      case building r =>
        cases hmake : make r b with
        | none =>
            rw [hmake] at h
            cases h
            exact .fail ht hmake
        | some a =>
            rw [hmake] at h
            cases h
            exact .build ht hmake
  | release t =>
      cases ht : c.phase t <;> simp only [step, ht, Option.some.injEq, reduceCtorEq] at h
      case leaving r failed => exact h ▸ .release ht
  | read t =>
      cases ht : c.phase t <;> simp only [step, ht, Option.some.injEq, reduceCtorEq] at h
      case reading r => exact h ▸ .read ht

/-! ## The cell is filled once -/

/-- What the cell must be where a thread is. -/
def Stands (value : Option α) : Phase ρ → Prop
  | .building _ | .leaving _ true => value = none
  | .leaving _ false | .reading _ => value.isSome = true
  | .idle | .called _ | .locking _ | .locked _ => True

/-- One thread has the lock, and the cell holds what was built first. -/
structure Inv (make : ρ → β → Option α) (c : Cell τ ρ α) : Prop where
  held : ∀ t, (c.phase t).Inside ↔ c.holder = some t
  stands : ∀ t, Stands c.value (c.phase t)
  empty : c.value = none → c.built = []
  filled : ∀ a, c.value = some a → ∃ r b, c.built = [(r, a)] ∧ make r b = some a

omit [DecidableEq τ] in
theorem Inv.init (make : ρ → β → Option α) : Inv make (Cell.init : Cell τ ρ α) where
  held t := ⟨fun h => h.elim, fun h => by cases h⟩
  stands _ := trivial
  empty _ := rfl
  filled _ h := by cases h

section Moves

variable {make : ρ → β → Option α} {c c' : Cell τ ρ α} {a : Act τ ρ β}

omit [DecidableEq τ] in
/-- Nobody else is inside. -/
theorem Inv.alone (h : Inv make c) {t t' : τ} (ht : (c.phase t).Inside)
    (ht' : (c.phase t').Inside) : t' = t := by
  have hholder := (h.held t).mp ht
  rw [(h.held t').mp ht', Option.some.injEq] at hholder
  exact hholder

/-- A thread goes on, and may touch the lock and the cell. -/
theorem Inv.change (h : Inv make c) {t : τ} {p : Phase ρ} {value : Option α} {holder : Option τ}
    {built : List (ρ × α)} (hothers : ∀ t', t' ≠ t → (c.holder = some t' ↔ holder = some t'))
    (hinside : p.Inside ↔ holder = some t) (hstands : Stands value p)
    (hstay : ∀ t', t' ≠ t → Stands value (c.phase t'))
    (hempty : value = none → built = [])
    (hfilled : ∀ a, value = some a → ∃ r b, built = [(r, a)] ∧ make r b = some a) :
    Inv make ⟨value, holder, Function.update c.phase t p, built⟩ where
  held t' := by
    by_cases htt : t' = t
    · subst htt
      dsimp only
      rw [Function.update_self]
      exact hinside
    · dsimp only
      rw [Function.update_of_ne htt, h.held t']
      exact hothers t' htt
  stands t' := by
    by_cases htt : t' = t
    · subst htt
      dsimp only
      rw [Function.update_self]
      exact hstands
    · dsimp only
      rw [Function.update_of_ne htt]
      exact hstay t' htt
  empty := hempty
  filled := hfilled

/-- A thread goes on, and neither the lock nor the cell changes. -/
theorem Inv.goto (h : Inv make c) {t : τ} {p : Phase ρ} (hinside : p.Inside ↔ (c.phase t).Inside)
    (hstands : Stands c.value p) : Inv make (c.goto t p) :=
  h.change (fun _ _ => Iff.rfl) (hinside.trans (h.held t)) hstands (fun t' _ => h.stands t')
    h.empty h.filled

theorem Inv.moves (h : Inv make c) (hmoves : Moves make c a c') : Inv make c' := by
  cases hmoves with
  | call ht => exact h.goto (by rw [ht]; rfl) trivial
  | found ht hvalue => exact h.goto (by rw [ht]; rfl) hvalue
  | missed ht => exact h.goto (by rw [ht]; rfl) trivial
  | foundAgain ht hvalue => exact h.goto (by rw [ht]; rfl) hvalue
  | missedAgain ht hvalue => exact h.goto (by rw [ht]; rfl) hvalue
  | read ht => exact h.goto (by rw [ht]; rfl) trivial
  | @fail t r b ht hb =>
      have hvalue := h.stands t
      rw [ht] at hvalue
      exact h.goto (by rw [ht]; rfl) hvalue
  | @acquire t r ht hfree =>
      refine h.change (fun t' hne => ?_) (iff_of_true trivial rfl) trivial (fun t' _ => h.stands t')
        h.empty h.filled
      rw [hfree]
      exact iff_of_false (by simp) fun hc => hne (Option.some.inj hc).symm
  | @release t r failed ht =>
      have hinside : (c.phase t).Inside := by
        rw [ht]
        trivial
      have hstands := h.stands t
      rw [ht] at hstands
      refine h.change (fun t' hne => ?_) ?_ ?_ (fun t' _ => h.stands t') h.empty h.filled
      · rw [(h.held t).mp hinside]
        exact iff_of_false (fun hc => hne (Option.some.inj hc).symm) (by simp)
      · refine iff_of_false ?_ (by simp)
        cases failed <;> exact id
      · cases failed
        case true => trivial
        case false => exact hstands
  | @build t r b a ht ha =>
      have hinside : (c.phase t).Inside := by
        rw [ht]
        trivial
      have hempty : c.value = none := by
        have hstands := h.stands t
        rw [ht] at hstands
        exact hstands
      refine h.change (fun _ _ => Iff.rfl) (iff_of_true trivial ((h.held t).mp hinside)) rfl ?_
        (fun hc => by cases hc) ?_
      · -- The others are not inside, so that none has seen the cell empty under the lock.
        intro t' hne
        have hout : ¬ (c.phase t').Inside := fun hc => hne (h.alone hinside hc)
        generalize c.phase t' = p at hout
        cases p
        case building r' => exact absurd trivial hout
        case leaving r' failed => exact absurd trivial hout
        case reading r' => rfl
        all_goals trivial
      · intro a' ha'
        obtain rfl := Option.some.inj ha'
        exact ⟨r, b, by rw [h.empty hempty, List.nil_append], ha⟩

/-- What is in the cell stays there. -/
theorem Inv.value_stays (h : Inv make c) (hmoves : Moves make c a c') {x : α}
    (hx : c.value = some x) : c'.value = some x := by
  cases hmoves
  case build t r b y ht hy =>
    have hstands := h.stands t
    rw [ht, Stands, hx] at hstands
    cases hstands
  all_goals exact hx

omit [DecidableEq τ] in
theorem Inv.built_le_one (h : Inv make c) : c.built.length ≤ 1 := by
  cases hvalue : c.value with
  | none => rw [h.empty hvalue]; exact Nat.zero_le 1
  | some x =>
      obtain ⟨r, b, hbuilt, -⟩ := h.filled x hvalue
      rw [hbuilt]
      exact le_rfl

/-- A thread stands where it stood, unless the step is its own. -/
theorem Moves.others (hmoves : Moves make c a c') {t : τ} (ht : t ≠ a.thread) :
    c'.phase t = c.phase t := by
  cases hmoves <;> exact Function.update_of_ne ht ..

/-- What calls are made with has the property, and what was built is built for one. -/
structure From (P : ρ → Prop) (c : Cell τ ρ α) : Prop where
  asked : ∀ t, ∀ r ∈ (c.phase t).arg, P r
  built : ∀ x ∈ c.built, P x.1

theorem From.moves {P : ρ → Prop} (h : From P c) (hmoves : Moves make c a c')
    (hcall : ∀ t r, a = .call t r → P r) : From P c' := by
  have hgoto : ∀ {t : τ} {p : Phase ρ}, (∀ r ∈ p.arg, P r) →
      ∀ t', ∀ r ∈ (Function.update c.phase t p t').arg, P r := by
    intro t p hp t' r hr
    by_cases htt : t' = t
    · subst htt
      rw [Function.update_self] at hr
      exact hp r hr
    · rw [Function.update_of_ne htt] at hr
      exact h.asked t' r hr
  have hsame : ∀ {t : τ} {p : Phase ρ}, p.arg = (c.phase t).arg → ∀ r ∈ p.arg, P r := by
    intro t p hp r hr
    exact h.asked t r (hp ▸ hr)
  cases hmoves with
  | @call t r ht =>
      refine ⟨hgoto fun r' hr' => ?_, h.built⟩
      obtain rfl := Option.some.inj hr'
      exact hcall t r rfl
  | found ht hvalue => exact ⟨hgoto (hsame (by rw [ht]; rfl)), h.built⟩
  | missed ht => exact ⟨hgoto (hsame (by rw [ht]; rfl)), h.built⟩
  | acquire ht hfree => exact ⟨hgoto (hsame (by rw [ht]; rfl)), h.built⟩
  | foundAgain ht hvalue => exact ⟨hgoto (hsame (by rw [ht]; rfl)), h.built⟩
  | missedAgain ht hvalue => exact ⟨hgoto (hsame (by rw [ht]; rfl)), h.built⟩
  | fail ht hb => exact ⟨hgoto (hsame (by rw [ht]; rfl)), h.built⟩
  | read ht => exact ⟨hgoto fun r hr => (by cases hr), h.built⟩
  | @release t r failed ht =>
      cases failed
      case true => exact ⟨hgoto fun r hr => (by cases hr), h.built⟩
      case false => exact ⟨hgoto (hsame (by rw [ht]; rfl)), h.built⟩
  | @build t r b x ht hx =>
      refine ⟨hgoto (hsame (by rw [ht]; rfl)), fun y hy => ?_⟩
      rcases List.mem_append.mp hy with hy | hy
      · exact h.built y hy
      · obtain rfl := List.mem_singleton.mp hy
        exact h.asked t r (by rw [ht]; rfl)

omit [DecidableEq τ] in
theorem From.mono {P Q : ρ → Prop} (h : From P c) (hPQ : ∀ r, P r → Q r) : From Q c :=
  ⟨fun t r hr => hPQ r (h.asked t r hr), fun x hx => hPQ x.1 (h.built x hx)⟩

/-- Where building does not fail, nobody leaves without a value. -/
theorem Moves.sure (hmoves : Moves make c a c') (hmake : ∀ r b, make r b ≠ none)
    (h : ∀ t r, c.phase t ≠ .leaving r true) (t : τ) (r : ρ) : c'.phase t ≠ .leaving r true := by
  by_cases ht : t = a.thread
  · subst ht
    cases hmoves
    case fail hb => exact absurd hb (hmake _ _)
    case release failed ht => cases failed <;> simp [goto, Act.thread]
    all_goals simp [goto, Act.thread]
  · rw [hmoves.others ht]
    exact h t r

theorem Moves.call_arg {t : τ} {r : ρ} (hmoves : Moves make c (.call t r : Act τ ρ β) c') :
    (c'.phase t).arg = some r := by
  cases hmoves
  simp [goto, Phase.arg]

theorem Moves.read_arg {t : τ} (hmoves : Moves make c (.read t : Act τ ρ β) c') :
    (c'.phase t).arg = none := by
  cases hmoves
  simp [goto, Phase.arg]

/-- A call goes on until it returns or raises. -/
theorem Moves.arg_stays (hmoves : Moves make c a c') (ha : ¬ a.Calls) (hread : ∀ t, a ≠ .read t)
    (hsure : ∀ r, c.phase a.thread ≠ .leaving r true) :
    (c'.phase a.thread).arg = (c.phase a.thread).arg := by
  cases hmoves
  case call => exact absurd trivial ha
  case read t r ht => exact absurd rfl (hread t)
  case release t r failed ht =>
    cases failed
    case true => exact absurd ht (hsure r)
    case false => simp [goto, Act.thread, Phase.arg, ht]
  all_goals simp [goto, Act.thread, Phase.arg, *]

/-- A call raises only while the cell is empty. -/
theorem Inv.empty_of_raised (h : Inv make c) (hmoves : Moves make c a c') (ha : ¬ a.Calls)
    (hread : ∀ t, a ≠ .read t) (hidle : (c'.phase a.thread).arg = none) : c.value = none := by
  by_contra hvalue
  have hsure : ∀ r, c.phase a.thread ≠ .leaving r true := by
    intro r hr
    have hstands := h.stands a.thread
    rw [hr] at hstands
    exact hvalue hstands
  rw [hmoves.arg_stays ha hread hsure] at hidle
  cases hmoves
  case call => exact absurd trivial ha
  all_goals simp [Act.thread, Phase.arg, *] at hidle

/-! ## Calls come to their end -/

/-- A step that begins no call is one less to go. -/
theorem Moves.work_lt (hmoves : Moves make c a c') (ha : ¬ a.Calls) :
    (c'.phase a.thread).work < (c.phase a.thread).work := by
  cases hmoves
  case call => exact absurd trivial ha
  case release t r failed ht =>
    simp only [goto, Act.thread, Function.update_self, ht]
    cases failed <;> simp [Phase.work]
  all_goals simp [goto, Act.thread, Phase.work, *]

/-- A call that raises has not come to its end. -/
theorem Moves.work_of_raised (hmoves : Moves make c a c') (ha : ¬ a.Calls)
    (hread : ∀ t, a ≠ .read t) (hidle : (c'.phase a.thread).arg = none) :
    1 < (c.phase a.thread).work := by
  cases hmoves
  case call => exact absurd trivial ha
  case read t r ht => exact absurd rfl (hread t)
  case release t r failed ht => simp [Act.thread, Phase.work, ht]
  all_goals simp [goto, Act.thread, Phase.arg] at hidle

/-- A thread in a call can take a step. -/
def Live (make : ρ → β → Option α) (c : Cell τ ρ α) : Prop :=
  ∃ a : Act τ ρ β, ¬ a.Calls ∧ (c.phase a.thread).arg.isSome ∧ (c.step make a).isSome

theorem live_of_step {a : Act τ ρ β} {r : ρ} (ha : ¬ a.Calls)
    (harg : (c.phase a.thread).arg = some r) (hstep : (c.step make a).isSome) : Live make c :=
  ⟨a, ha, by rw [harg]; rfl, hstep⟩

theorem Moves.call_work {t : τ} {r : ρ} (hmoves : Moves make c (.call t r : Act τ ρ β) c') :
    (c'.phase t).work = 6 := by
  cases hmoves
  simp [goto, Phase.work]

/-- **No deadlock.** While a call is under way, a step of a call can be taken. -/
theorem Inv.live (h : Inv make c) (b : β) {t : τ} (ht : (c.phase t).arg.isSome) :
    Live make c := by
  have hinside : ∀ t', (c.phase t').Inside → Live make c := by
    intro t' ht'
    cases hp : c.phase t' <;> rw [hp] at ht'
    case locked r =>
      exact live_of_step (a := .lookAgain t') id (congrArg _ hp) (by simp [step, hp])
    case building r =>
      refine live_of_step (a := .build t' b) id (congrArg _ hp) ?_
      cases hmake : make r b <;> simp [step, hp, hmake]
    case leaving r failed =>
      exact live_of_step (a := .release t') id (congrArg _ hp) (by simp [step, hp])
    all_goals exact ht'.elim
  cases hp : c.phase t
  case idle =>
    rw [hp] at ht
    cases ht
  case called r => exact live_of_step (a := .look t) id (congrArg _ hp) (by simp [step, hp])
  case reading r => exact live_of_step (a := .read t) id (congrArg _ hp) (by simp [step, hp])
  case locking r =>
    -- Who has the lock is inside, and can go on.
    cases hholder : c.holder with
    | none =>
        exact live_of_step (a := .acquire t) id (congrArg _ hp) (by simp [step, hp, hholder])
    | some t' => exact hinside t' ((h.held t').mpr hholder)
  all_goals
    refine hinside t ?_
    rw [hp]
    trivial

end Moves

end Cell

end DlpServer.Once
