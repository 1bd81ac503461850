import DlpServer.Logging.Restrict

/-!
# Delivery

`publish` puts into a list that may be stale, and it puts without the lock. Every put that
is due belongs to the thread's last publication, its queue was subscribed at the copy, and
that publication has not gone into it yet (`InFlight`); from this come delivery at most
once, in the window of the subscriber and in the order of each thread (`delivers`). What
the subscribers of a set receive is what they receive in the run of their own steps
(`steps_restrict`).
-/

namespace DlpServer.Logging

variable {ι τ α : Type*}

theorem History.Within.opened {h : History ι τ α} {q : ι} {n : ℕ} (hw : h.Within q n) :
    (h.opened q).isSome := by
  obtain ⟨i, hi, -⟩ := hw
  rw [hi]
  rfl

theorem publisher_lt {h : History ι τ α} {n : ℕ} {t : τ} (hn : h.publisher n = some t) :
    n < h.published.length := by
  obtain ⟨p, hp, -⟩ := Option.map_eq_some_iff.mp hn
  exact (List.getElem?_eq_some_iff.mp hp).1

variable [DecidableEq ι]

/-! ## The invariant -/

/-- The list of the subscribers holds those between their subscribe and their
unsubscribe. -/
structure Registered (b : Bus ι τ α) (h : History ι τ α) : Prop where
  nodup : b.subscribers.Nodup
  mem_iff : ∀ q, q ∈ b.subscribers ↔ (h.opened q).isSome ∧ h.closed q = none
  isSome_queue : ∀ q, (b.queues q).isSome = (h.opened q).isSome
  opened_le : ∀ q i, h.opened q = some i → i ≤ h.published.length
  closed_le : ∀ q j, h.closed q = some j → j ≤ h.published.length ∧ (h.opened q).isSome

/-- What is due and what has gone in. -/
structure InFlight (b : Bus ι τ α) (h : History ι τ α) : Prop where
  due : ∀ t q event, (q, event) ∈ b.puts t →
    h.published[h.current t]? = some (t, event) ∧ h.Within q (h.current t) ∧
      (q, h.current t) ∉ h.delivered
  due_once : ∀ t, ((b.puts t).map Prod.fst).Nodup
  last : ∀ n t, h.publisher n = some t → n ≤ h.current t
  delivered_within : ∀ d ∈ h.delivered, d.2 < h.published.length ∧ h.Within d.1 d.2
  ordered : h.delivered.Pairwise fun c d =>
    c.1 = d.1 → h.publisher c.2 = h.publisher d.2 → c.2 < d.2

/-- What went into a queue has been got from it, or is still in it. -/
structure Contents (b : Bus ι τ α) (h : History ι τ α) : Prop where
  got_append : ∀ q queue, b.queues q = some queue → h.got q ++ queue.items = h.received q
  got_nil : ∀ q, b.queues q = none → h.got q = []

structure Inv (b : Bus ι τ α) (h : History ι τ α) : Prop where
  registered : Registered b h
  inFlight : InFlight b h
  contents : Contents b h

theorem Inv.init : Inv (Bus.init : Bus ι τ α) History.init where
  registered :=
    { nodup := List.nodup_nil
      mem_iff := fun q => iff_of_false List.not_mem_nil fun h => Bool.false_ne_true h.1
      isSome_queue := fun _ => rfl
      opened_le := fun q i h => by cases h
      closed_le := fun q j h => by cases h }
  inFlight :=
    { due := fun t q event h => by cases h
      due_once := fun _ => List.nodup_nil
      last := fun n t h => by simp [History.publisher, History.init] at h
      delivered_within := fun d h => by cases h
      ordered := List.Pairwise.nil }
  contents :=
    { got_append := fun q queue h => by cases h
      got_nil := fun _ _ => rfl }

variable {b : Bus ι τ α} {h : History ι τ α}

/-! ## One step -/

theorem numbers_append (d : ι × ℕ) (q : ι) :
    ({ h with delivered := h.delivered ++ [d] } : History ι τ α).numbers q =
      if d.1 = q then h.numbers q ++ [d.2] else h.numbers q := by
  unfold History.numbers
  rw [List.filter_append, List.map_append]
  split
  · rw [List.filter_cons_of_pos (by simpa using ‹_›)]
    rfl
  · rw [List.filter_cons_of_neg (by simpa using ‹_›)]
    exact List.append_nil _

theorem mem_numbers {q : ι} {n : ℕ} : n ∈ h.numbers q ↔ (q, n) ∈ h.delivered := by
  unfold History.numbers
  constructor
  · intro hn
    obtain ⟨d, hd, rfl⟩ := List.mem_map.mp hn
    obtain ⟨hmem, hq⟩ := List.mem_filter.mp hd
    obtain rfl : d.1 = q := of_decide_eq_true hq
    exact hmem
  · intro hd
    exact List.mem_map.mpr ⟨(q, n), List.mem_filter.mpr ⟨hd, decide_eq_true rfl⟩, rfl⟩

/-- Nothing went into a queue before it was made. -/
theorem InFlight.numbers_nil (hf : InFlight b h) {q : ι} (hq : h.opened q = none) :
    h.numbers q = [] := by
  rw [List.eq_nil_iff_forall_not_mem]
  intro n hn
  have hopened := (hf.delivered_within _ (mem_numbers.mp hn)).2.opened
  rw [hq] at hopened
  cases hopened

theorem Inv.unsubscribe (inv : Inv b h) {q : ι} (hq : q ∈ b.subscribers) :
    Inv { b with subscribers := b.subscribers.erase q }
      { h with closed := Function.update h.closed q (some h.published.length) } := by
  obtain ⟨hr, hf, hc⟩ := inv
  have hopened := ((hr.mem_iff q).mp hq).1
  -- The publications so far are before the unsubscribe.
  have hwithin : ∀ p n, n < h.published.length → h.Within p n →
      ({ h with closed := Function.update h.closed q (some h.published.length) } :
        History ι τ α).Within p n := by
    rintro p n hn ⟨i, hi, hin, hj⟩
    refine ⟨i, hi, hin, fun j hclosed => ?_⟩
    by_cases hp : p = q
    · subst hp
      simp only [Function.update_self, Option.some.injEq] at hclosed
      exact hclosed ▸ hn
    · simp only [Function.update_of_ne hp] at hclosed
      exact hj j hclosed
  refine ⟨{ hr with nodup := hr.nodup.erase q, mem_iff := ?_, closed_le := ?_ },
    { hf with due := ?_, delivered_within := ?_ }, { hc with }⟩
  · intro p
    rw [hr.nodup.mem_erase_iff, hr.mem_iff]
    by_cases hp : p = q
    · subst hp
      simp
    · simp [hp]
  · intro p j hj
    by_cases hp : p = q
    · subst hp
      simp only [Function.update_self, Option.some.injEq] at hj
      exact ⟨hj.ge, hopened⟩
    · simp only [Function.update_of_ne hp] at hj
      exact hr.closed_le p j hj
  · intro t p event hp
    obtain ⟨hpublished, hw, hnew⟩ := hf.due t p event hp
    exact ⟨hpublished, hwithin p _ (List.getElem?_eq_some_iff.mp hpublished).1 hw, hnew⟩
  · intro d hd
    obtain ⟨hlt, hw⟩ := hf.delivered_within d hd
    exact ⟨hlt, hwithin _ _ hlt hw⟩

theorem Inv.get (inv : Inv b h) {q : ι} {queue queue' : BoundedQueue α} {event : α}
    (hq : b.queues q = some queue) (hget : queue.get = some (event, queue')) :
    Inv { b with queues := Function.update b.queues q (some queue') }
      { h with got := Function.update h.got q (h.got q ++ [event]) } := by
  obtain ⟨hr, hf, hc⟩ := inv
  refine ⟨{ hr with isSome_queue := ?_ }, { hf with }, ⟨?_, ?_⟩⟩
  · intro p
    by_cases hp : p = q
    · subst hp
      rw [← hr.isSome_queue p, hq]
      simp
    · simp [hp, hr.isSome_queue]
  · intro p queue₁ hp
    by_cases hpq : p = q
    · subst hpq
      simp only [Function.update_self, Option.some.injEq] at hp
      subst hp
      have hold := hc.got_append p queue hq
      rw [BoundedQueue.items_get hget] at hold
      show Function.update h.got p (h.got p ++ [event]) p ++ queue'.items = h.received p
      rw [Function.update_self, List.append_assoc]
      exact hold
    · simp only [Function.update_of_ne hpq] at hp ⊢
      exact hc.got_append p queue₁ hp
  · intro p hp
    by_cases hpq : p = q
    · subst hpq
      simp at hp
    · simp only [Function.update_of_ne hpq] at hp ⊢
      exact hc.got_nil p hp

variable [DecidableEq τ]

/-- The earlier publications keep their thread and their event. -/
theorem getElem?_copy {n : ℕ} (hn : n < h.published.length) (t : τ) (event : α) :
    (h.record b (.copy t event)).published[n]? = h.published[n]? :=
  List.getElem?_append_left hn

theorem Inv.copy (inv : Inv b h) {t : τ} (event : α) :
    Inv (b.copy t event) (h.record b (.copy t event)) := by
  obtain ⟨hr, hf, hc⟩ := inv
  have hlength : (h.record b (.copy t event)).published.length = h.published.length + 1 :=
    List.length_append
  have hpublisher : ∀ n < h.published.length,
      (h.record b (.copy t event)).publisher n = h.publisher n := fun n hn =>
    congrArg (Option.map Prod.fst) (getElem?_copy hn t event)
  have hevent : ∀ n < h.published.length,
      (h.record b (.copy t event)).event n = h.event n := fun n hn =>
    congrArg (Option.map Prod.snd) (getElem?_copy hn t event)
  have hnew : (h.record b (.copy t event)).published[h.published.length]? = some (t, event) :=
    List.getElem?_concat_length ..
  refine ⟨{ hr with opened_le := ?_, closed_le := ?_ }, ⟨?_, ?_, ?_, ?_, ?_⟩,
    { hc with got_append := ?_ }⟩
  · intro q i hi
    exact (hr.opened_le q i hi).trans (by omega)
  · intro q j hj
    obtain ⟨hle, hsome⟩ := hr.closed_le q j hj
    exact ⟨hle.trans (by omega), hsome⟩
  · intro t' q event' hq
    by_cases ht : t' = t
    · subst ht
      simp only [Bus.copy, Function.update_self] at hq
      obtain ⟨p, hp, heq⟩ := List.mem_map.mp hq
      obtain ⟨rfl, rfl⟩ := Prod.mk.inj heq
      obtain ⟨hsome, hclosed⟩ := (hr.mem_iff p).mp hp
      obtain ⟨i, hi⟩ := Option.isSome_iff_exists.mp hsome
      have hcurrent : (h.record b (.copy t' event)).current t' = h.published.length :=
        Function.update_self ..
      rw [hcurrent]
      refine ⟨hnew, ⟨i, hi, hr.opened_le p i hi, fun j hj => ?_⟩, fun hmem => ?_⟩
      · rw [show h.closed p = some j from hj] at hclosed
        cases hclosed
      · exact absurd (hf.delivered_within _ hmem).1 (Nat.lt_irrefl _)
    · have hcurrent : (h.record b (.copy t event)).current t' = h.current t' :=
        Function.update_of_ne ht ..
      simp only [Bus.copy, Function.update_of_ne ht] at hq
      obtain ⟨hpublished, hw, hnot⟩ := hf.due t' q event' hq
      rw [hcurrent, getElem?_copy (List.getElem?_eq_some_iff.mp hpublished).1]
      exact ⟨hpublished, hw, hnot⟩
  · intro t'
    by_cases ht : t' = t
    · subst ht
      simp only [Bus.copy, Function.update_self, List.map_map]
      exact (List.map_id _).symm ▸ hr.nodup
    · simp only [Bus.copy, Function.update_of_ne ht]
      exact hf.due_once t'
  · intro n t' hn
    have hlt := publisher_lt hn
    by_cases ht : t' = t
    · subst ht
      rw [show (h.record b (.copy t' event)).current t' = h.published.length from
        Function.update_self ..]
      omega
    · rw [show (h.record b (.copy t event)).current t' = h.current t' from
        Function.update_of_ne ht ..]
      have hold : n < h.published.length := by
        by_contra hge
        obtain rfl : n = h.published.length := by omega
        rw [History.publisher, hnew] at hn
        exact ht (Option.some.inj hn).symm
      exact hf.last n t' ((hpublisher n hold).symm.trans hn)
  · intro d hd
    obtain ⟨hlt, hw⟩ := hf.delivered_within d hd
    exact ⟨by omega, hw⟩
  · refine hf.ordered.imp_of_mem fun hc hd hcd hq hp => hcd hq ?_
    rwa [hpublisher _ (hf.delivered_within _ hc).1, hpublisher _ (hf.delivered_within _ hd).1]
      at hp
  · intro q queue hq
    have hreceived : (h.record b (.copy t event)).received q = h.received q :=
      List.filterMap_congr fun n hn => hevent n (hf.delivered_within _ (mem_numbers.mp hn)).1
    exact (hc.got_append q queue hq).trans hreceived.symm

/-- A put that is due need not go in. -/
theorem Inv.pop (inv : Inv b h) {t : τ} {p : ι × α} {rest : List (ι × α)}
    (ht : b.puts t = p :: rest) : Inv { b with puts := Function.update b.puts t rest } h := by
  obtain ⟨hr, hf, hc⟩ := inv
  refine ⟨{ hr with }, { hf with due := ?_, due_once := ?_ }, { hc with }⟩
  · intro t' q event hq
    by_cases htt : t' = t
    · subst htt
      simp only [Function.update_self] at hq
      exact hf.due t' q event (ht ▸ List.mem_cons_of_mem p hq)
    · simp only [Function.update_of_ne htt] at hq
      exact hf.due t' q event hq
  · intro t'
    by_cases htt : t' = t
    · subst htt
      have honce := hf.due_once t'
      rw [ht, List.map_cons, List.nodup_cons] at honce
      simpa only [Function.update_self] using honce.2
    · simpa only [Function.update_of_ne htt] using hf.due_once t'

theorem Inv.deliver (inv : Inv b h) {t : τ} {q : ι} {event : α} {rest : List (ι × α)}
    {queue queue' : BoundedQueue α} (ht : b.puts t = (q, event) :: rest)
    (hq : b.queues q = some queue) (hput : queue.put event = some queue') :
    Inv
      { b with
        queues := Function.update b.queues q (some queue')
        puts := Function.update b.puts t rest }
      { h with delivered := h.delivered ++ [(q, h.current t)] } := by
  obtain ⟨hpublished, hw, hnew⟩ := inv.inFlight.due t q event (ht ▸ List.mem_cons_self)
  have honce := inv.inFlight.due_once t
  rw [ht, List.map_cons, List.nodup_cons] at honce
  obtain ⟨hr, hf, hc⟩ := inv.pop ht
  refine ⟨{ hr with isSome_queue := ?_ },
    { hf with due := ?_, delivered_within := ?_, ordered := ?_ }, ⟨?_, ?_⟩⟩
  · intro p
    by_cases hp : p = q
    · subst hp
      rw [← hr.isSome_queue p, hq]
      simp
    · simpa [hp] using hr.isSome_queue p
  · intro t' p event' hp
    obtain ⟨hpublished', hw', hnot⟩ := hf.due t' p event' hp
    refine ⟨hpublished', hw', fun hmem => ?_⟩
    rcases List.mem_append.mp hmem with hmem | hmem
    · exact hnot hmem
    · obtain ⟨rfl, hcurrent⟩ := Prod.mk.inj (List.mem_singleton.mp hmem)
      -- The publication is the one of `t`, whose later puts go into other queues.
      rw [hcurrent, hpublished] at hpublished'
      obtain ⟨rfl, -⟩ := Prod.mk.inj (Option.some.inj hpublished')
      simp only [Function.update_self] at hp
      exact honce.1 (List.mem_map.mpr ⟨_, hp, rfl⟩)
  · intro d hd
    rcases List.mem_append.mp hd with hd | hd
    · exact hf.delivered_within d hd
    · obtain rfl := List.mem_singleton.mp hd
      exact ⟨(List.getElem?_eq_some_iff.mp hpublished).1, hw⟩
  · refine List.pairwise_append.mpr ⟨hf.ordered, List.pairwise_singleton .., ?_⟩
    intro c hcmem d hd hcd hsame
    obtain rfl := List.mem_singleton.mp hd
    have hpublisher : h.publisher (h.current t) = some t := by
      rw [History.publisher, hpublished]
      rfl
    have hle := hf.last c.2 t (hsame.trans hpublisher)
    refine lt_of_le_of_ne hle fun heq => hnew ?_
    have hc : c = (q, h.current t) := Prod.ext hcd heq
    exact hc ▸ hcmem
  · intro p queue₁ hp
    have hevent : h.event (h.current t) = some event := by
      rw [History.event, hpublished]
      rfl
    by_cases hpq : p = q
    · subst hpq
      simp only [Function.update_self, Option.some.injEq] at hp
      subst hp
      have hold := hc.got_append p queue hq
      show h.got p ++ queue'.items = List.filterMap h.event (History.numbers _ p)
      rw [numbers_append, if_pos rfl, List.filterMap_append, BoundedQueue.items_put hput,
        ← List.append_assoc, hold, List.filterMap_cons_some hevent]
      rfl
    · simp only [Function.update_of_ne hpq] at hp
      show h.got p ++ queue₁.items = List.filterMap h.event (History.numbers _ p)
      rw [numbers_append, if_neg (Ne.symm hpq)]
      exact hc.got_append p queue₁ hp
  · intro p hp
    by_cases hpq : p = q
    · subst hpq
      simp at hp
    · simp only [Function.update_of_ne hpq] at hp
      exact hc.got_nil p hp

theorem Inv.subscribe (inv : Inv b h) {q : ι} (hq : b.queues q = none) :
    Inv (b.subscribe q) (h.record b (.subscribe q)) := by
  obtain ⟨hr, hf, hc⟩ := inv
  have hopened : h.opened q = none := by
    have hsome := hr.isSome_queue q
    rw [hq] at hsome
    exact Option.not_isSome_iff_eq_none.mp (hsome ▸ Bool.false_ne_true)
  have hclosed : h.closed q = none := by
    cases hj : h.closed q with
    | none => rfl
    | some j =>
        have hsome := (hr.closed_le q j hj).2
        rw [hopened] at hsome
        cases hsome
  have hout : q ∉ b.subscribers := by
    rw [hr.mem_iff, hopened]
    exact fun hin => Bool.false_ne_true hin.1
  -- The window of every queue that has received or shall receive is as it was.
  have hwithin : ∀ p n, h.Within p n →
      (h.record b (.subscribe q)).Within p n := by
    rintro p n ⟨i, hi, hin, hj⟩
    have hne : p ≠ q := by
      rintro rfl
      rw [hopened] at hi
      cases hi
    exact ⟨i, (Function.update_of_ne hne ..).trans hi, hin, hj⟩
  constructor
  · constructor
    · exact List.nodup_append.mpr ⟨hr.nodup, List.nodup_singleton q, fun a ha c hc => by
        rw [List.mem_singleton] at hc
        rintro rfl
        exact hout (hc ▸ ha)⟩
    · intro p
      by_cases hp : p = q
      · subst hp
        simp [Bus.subscribe, History.record, hclosed]
      · simp [Bus.subscribe, History.record, hp, hr.mem_iff]
    · intro p
      by_cases hp : p = q
      · subst hp
        simp [Bus.subscribe, History.record]
      · simp [Bus.subscribe, History.record, hp, hr.isSome_queue]
    · intro p i hi
      by_cases hp : p = q
      · subst hp
        simp only [History.record, Function.update_self, Option.some.injEq] at hi
        exact hi.ge
      · simp only [History.record, Function.update_of_ne hp] at hi
        exact hr.opened_le p i hi
    · intro p j hj
      obtain ⟨hle, hsome⟩ := hr.closed_le p j hj
      refine ⟨hle, ?_⟩
      by_cases hp : p = q
      · subst hp
        simp [History.record]
      · simpa [History.record, hp] using hsome
  · refine { hf with due := ?_, delivered_within := ?_ }
    · intro t p event hp
      obtain ⟨hpublished, hw, hnew⟩ := hf.due t p event hp
      exact ⟨hpublished, hwithin p _ hw, hnew⟩
    · intro d hd
      obtain ⟨hlt, hw⟩ := hf.delivered_within d hd
      exact ⟨hlt, hwithin _ _ hw⟩
  · constructor
    · intro p queue hp
      by_cases hpq : p = q
      · subst hpq
        simp only [Bus.subscribe, Function.update_self, Option.some.injEq] at hp
        subst hp
        have hnone : h.received p = [] := by
          rw [History.received, hf.numbers_nil hopened, List.filterMap_nil]
        exact ((congrArg (· ++ []) (hc.got_nil p hq)).trans rfl).trans hnone.symm
      · simp only [Bus.subscribe, Function.update_of_ne hpq] at hp
        exact hc.got_append p queue hp
    · intro p hp
      by_cases hpq : p = q
      · subst hpq
        simp [Bus.subscribe] at hp
      · simp only [Bus.subscribe, Function.update_of_ne hpq] at hp
        exact hc.got_nil p hp

/-! ## Every run -/

/-- What one step can do. -/
inductive Moves : World ι τ α → Act ι τ α → World ι τ α → Prop
  | subscribe {b : Bus ι τ α} {h : History ι τ α} {q : ι} (hq : b.queues q = none) :
      Moves (b, h) (.subscribe q) (b.subscribe q, h.record b (.subscribe q))
  | unsubscribe {b : Bus ι τ α} {h : History ι τ α} {q : ι} (hq : q ∈ b.subscribers) :
      Moves (b, h) (.unsubscribe q)
        ({ b with subscribers := b.subscribers.erase q },
          { h with closed := Function.update h.closed q (some h.published.length) })
  | unknown {w : World ι τ α} {q : ι} (hq : q ∉ w.1.subscribers) : Moves w (.unsubscribe q) w
  | get {b : Bus ι τ α} {h : History ι τ α} {q : ι} {queue queue' : BoundedQueue α} {event : α}
      (hq : b.queues q = some queue) (hget : queue.get = some (event, queue')) :
      Moves (b, h) (.get q)
        ({ b with queues := Function.update b.queues q (some queue') },
          { h with got := Function.update h.got q (h.got q ++ [event]) })
  | heartbeat {w : World ι τ α} {q : ι} : Moves w (.get q) w
  | copy {b : Bus ι τ α} {h : History ι τ α} {t : τ} {event : α} (ht : b.puts t = []) :
      Moves (b, h) (.copy t event) (b.copy t event, h.record b (.copy t event))
  | put {b : Bus ι τ α} {h : History ι τ α} {t : τ} {q : ι} {event : α} {rest : List (ι × α)}
      {queue queue' : BoundedQueue α} (ht : b.puts t = (q, event) :: rest)
      (hq : b.queues q = some queue) (hput : queue.put event = some queue') :
      Moves (b, h) (.put t q)
        ({ b with
            queues := Function.update b.queues q (some queue')
            puts := Function.update b.puts t rest },
          { h with delivered := h.delivered ++ [(q, h.current t)] })
  | full {b : Bus ι τ α} {h : History ι τ α} {t : τ} {q : ι} {event : α} {rest : List (ι × α)}
      (ht : b.puts t = (q, event) :: rest)
      (hq : ∀ queue, b.queues q = some queue → queue.IsFull) :
      Moves (b, h) (.put t q) ({ b with puts := Function.update b.puts t rest }, h)

theorem Moves.of_step {w w' : World ι τ α} {a : Act ι τ α} (hstep : World.step w a = some w') :
    Moves w a w' := by
  obtain ⟨b, h⟩ := w
  obtain ⟨b', hb, rfl⟩ := Option.map_eq_some_iff.mp hstep
  cases a with
  | subscribe q =>
      simp only [Bus.step] at hb
      split at hb
      · cases hb
      · cases hb
        exact .subscribe (Option.not_isSome_iff_eq_none.mp ‹_›)
  | unsubscribe q =>
      cases hb
      by_cases hq : q ∈ b.subscribers
      · simp only [Bus.unsubscribe, History.record, if_pos hq]
        exact .unsubscribe hq
      · simp only [Bus.unsubscribe, History.record, if_neg hq]
        exact .unknown hq
  | get q =>
      cases hb
      cases hbind : (b.queues q).bind BoundedQueue.get with
      | none =>
          simp only [Bus.get, History.record, hbind]
          exact .heartbeat
      | some r =>
          obtain ⟨queue, hq, hget⟩ := Option.bind_eq_some_iff.mp hbind
          simp only [Bus.get, History.record, hbind]
          exact .get hq hget
  | copy t event =>
      simp only [Bus.step] at hb
      split at hb
      · cases hb
        exact .copy ‹_›
      · cases hb
  | put t q =>
      simp only [Bus.step] at hb
      split at hb
      · cases hb
      · rename_i p event rest ht
        split at hb
        · cases hb
          obtain rfl : p = q := ‹_›
          cases hq : b.queues p with
          | none =>
              simp only [Bus.putNowait, History.record, hq, Option.bind_none]
              exact .full ht fun queue hsome => by rw [hq] at hsome; cases hsome
          | some queue =>
              cases hput : queue.put event with
              | none =>
                  have hfull := BoundedQueue.put_eq_none.mp hput
                  simp only [Bus.putNowait, History.record, hq, Option.bind_some, hput,
                    if_pos hfull]
                  refine .full ht fun queue₁ hsome => ?_
                  rw [hq] at hsome
                  exact Option.some.inj hsome ▸ hfull
              | some queue' =>
                  have hroom : ¬ queue.IsFull := fun hfull => by
                    rw [BoundedQueue.put_eq_none.mpr hfull] at hput
                    cases hput
                  simp only [Bus.putNowait, History.record, hq, Option.bind_some, hput,
                    if_neg hroom]
                  exact .put ht hq hput
        · cases hb

theorem Inv.moves {w w' : World ι τ α} {a : Act ι τ α} (inv : Inv w.1 w.2)
    (hmoves : Moves w a w') : Inv w'.1 w'.2 := by
  cases hmoves with
  | subscribe hq => exact inv.subscribe hq
  | unsubscribe hq => exact inv.unsubscribe hq
  | unknown hq => exact inv
  | get hq hget => exact inv.get hq hget
  | heartbeat => exact inv
  | @copy b h t event ht => exact inv.copy event
  | put ht hq hput => exact inv.deliver ht hq hput
  | full ht hq => exact inv.pop ht

/-- The put of publication `n` into `q` is still due. -/
def Due (w : World ι τ α) (q : ι) (n : ℕ) : Prop :=
  ∃ t event, (q, event) ∈ w.1.puts t ∧ w.2.current t = n ∧ w.2.publisher n = some t

/-- The put of publication `n` into `q` was taken, and found `q` full. -/
def Overflowed (acts : List (Act ι τ α)) (q : ι) (n : ℕ) : Prop :=
  ∃ before t after, acts = before ++ .put t q :: after ∧ ∃ w, Run before w ∧ Due w q n ∧
    w.2.publisher n = some t ∧ ∃ queue, w.1.queues q = some queue ∧ queue.IsFull

theorem Overflowed.snoc {acts : List (Act ι τ α)} {q : ι} {n : ℕ} (ho : Overflowed acts q n)
    (a : Act ι τ α) : Overflowed (acts ++ [a]) q n := by
  obtain ⟨before, t, after, rfl, hrest⟩ := ho
  exact ⟨before, t, after ++ [a], by rw [List.append_assoc, List.cons_append], hrest⟩

theorem Run.inv {acts : List (Act ι τ α)} {w : World ι τ α} (hrun : Run acts w) :
    Inv w.1 w.2 :=
  Runs.Steps.invariant (fun _ w => Inv w.1 w.2) Inv.init
    (fun _ _ _ _ _ inv hstep => inv.moves (Moves.of_step hstep)) hrun

omit [DecidableEq ι] in
/-- When the first put of `t` is taken, what was due is still due, or it was this put. -/
theorem Due.pop {t : τ} {p : ι} {event : α} {rest : List (ι × α)}
    (ht : b.puts t = (p, event) :: rest) {q : ι} {n : ℕ} (hdue : Due (b, h) q n) :
    (∃ t' event', (q, event') ∈ Function.update b.puts t rest t' ∧ h.current t' = n ∧
        h.publisher n = some t') ∨
      q = p ∧ h.current t = n ∧ h.publisher n = some t := by
  obtain ⟨t', event', hmem, hcurrent, hpublisher⟩ := hdue
  by_cases htt : t' = t
  · subst htt
    rw [ht] at hmem
    rcases List.mem_cons.mp hmem with heq | hmem
    · exact Or.inr ⟨(Prod.mk.inj heq).1, hcurrent, hpublisher⟩
    · exact Or.inl ⟨t', event', by rwa [Function.update_self], hcurrent, hpublisher⟩
  · exact Or.inl ⟨t', event', by rwa [Function.update_of_ne htt], hcurrent, hpublisher⟩

/-- A publication that falls in the window of a queue is due to it, has gone into it, or has
found it full. -/
theorem Run.covered {acts : List (Act ι τ α)} {w : World ι τ α} (hrun : Run acts w) :
    ∀ q n, n < w.2.published.length → w.2.Within q n →
      Due w q n ∨ n ∈ w.2.numbers q ∨ Overflowed acts q n := by
  induction hrun with
  | nil => exact fun q n hn => absurd hn (Nat.not_lt_zero n)
  | @snoc acts w w' a hrun hstep ih =>
      intro q n hn hw
      obtain ⟨hr, hf, hc⟩ := Run.inv hrun
      cases Moves.of_step hstep with
      | @subscribe b h p hp =>
          have hne : q ≠ p := by
            rintro rfl
            obtain ⟨i, hi, hin, -⟩ := hw
            simp only [History.record, Function.update_self, Option.some.injEq] at hi
            exact absurd hn (by simpa [History.record, hi] using hin)
          obtain ⟨i, hi, hin, hj⟩ := hw
          have hold : h.Within q n := ⟨i, (Function.update_of_ne hne ..).symm.trans hi, hin, hj⟩
          exact (ih q n hn hold).imp_right (Or.imp_right fun ho => ho.snoc _)
      | @unsubscribe b h p hp =>
          obtain ⟨i, hi, hin, hj⟩ := hw
          have hold : h.Within q n := by
            refine ⟨i, hi, hin, fun j hclosed => ?_⟩
            by_cases hne : q = p
            · subst hne
              rw [show h.closed q = none from ((hr.mem_iff q).mp hp).2] at hclosed
              cases hclosed
            · exact hj j ((Function.update_of_ne hne ..).trans hclosed)
          exact (ih q n hn hold).imp_right (Or.imp_right fun ho => ho.snoc _)
      | unknown hp => exact (ih q n hn hw).imp_right (Or.imp_right fun ho => ho.snoc _)
      | get hq hget => exact (ih q n hn hw).imp_right (Or.imp_right fun ho => ho.snoc _)
      | heartbeat => exact (ih q n hn hw).imp_right (Or.imp_right fun ho => ho.snoc _)
      | @copy b h t event ht =>
          have hlength : (h.record b (.copy t event)).published.length =
              h.published.length + 1 := List.length_append
          by_cases hold : n < h.published.length
          · have hpublished := getElem?_copy (b := b) hold t event
            rcases ih q n hold hw with ⟨t', event', hmem, hcurrent, hpublisher⟩ | hin | ho
            · have hne : t' ≠ t := by
                rintro rfl
                rw [show b.puts t' = [] from ht] at hmem
                cases hmem
              exact Or.inl ⟨t', event', by
                simpa only [Bus.copy, Function.update_of_ne hne] using hmem,
                (Function.update_of_ne hne ..).trans hcurrent,
                (congrArg (Option.map Prod.fst) hpublished).trans hpublisher⟩
            · exact Or.inr (Or.inl hin)
            · exact Or.inr (Or.inr (ho.snoc _))
          · -- The new publication is due to all that are in the list.
            obtain rfl : n = h.published.length := by
              have hlt := hlength ▸ hn
              omega
            obtain ⟨i, hi, hin, hj⟩ := hw
            have hclosed : h.closed q = none := by
              cases hclosed : h.closed q with
              | none => rfl
              | some j =>
                  have hlt := hj j hclosed
                  have hle : j ≤ h.published.length := (hr.closed_le q j hclosed).1
                  omega
            have hq : q ∈ b.subscribers :=
              (hr.mem_iff q).mpr ⟨Option.isSome_iff_exists.mpr ⟨i, hi⟩, hclosed⟩
            refine Or.inl ⟨t, event, ?_, Function.update_self .., ?_⟩
            · simp only [Bus.copy, Function.update_self]
              exact List.mem_map.mpr ⟨q, hq, rfl⟩
            · exact congrArg (Option.map Prod.fst) (List.getElem?_concat_length ..)
      | @put b h t p event rest queue queue' ht hp hput =>
          rcases ih q n hn hw with hdue | hin | ho
          · rcases hdue.pop ht with hdue | ⟨rfl, rfl, -⟩
            · exact Or.inl hdue
            · refine Or.inr (Or.inl ?_)
              rw [numbers_append, if_pos rfl]
              exact List.mem_append_right _ List.mem_cons_self
          · refine Or.inr (Or.inl (mem_numbers.mpr ?_))
            exact List.mem_append_left _ (mem_numbers.mp hin)
          · exact Or.inr (Or.inr (ho.snoc _))
      | @full b h t p event rest ht hp =>
          rcases ih q n hn hw with hdue | hin | ho
          · rcases hdue.pop ht with hdue' | ⟨rfl, hcurrent, hpublisher⟩
            · exact Or.inl hdue'
            · have hsome : (b.queues q).isSome := (hr.isSome_queue q).trans hw.opened
              obtain ⟨queue, hq⟩ := Option.isSome_iff_exists.mp hsome
              exact Or.inr (Or.inr
                ⟨acts, t, [], rfl, (b, h), hrun, hdue, hpublisher, queue, hq, hp queue hq⟩)
          · exact Or.inr (Or.inl hin)
          · exact Or.inr (Or.inr (ho.snoc _))

/-! ## What a subscriber receives -/

omit [DecidableEq τ] in
theorem restrict_numbers {K : ι → Bool} {q : ι} (hq : K q = true) :
    (h.restrict K).numbers q = h.numbers q := by
  refine congrArg (List.map Prod.snd) ?_
  show (h.delivered.filter fun d => K d.1).filter (fun d => d.1 = q) = _
  rw [List.filter_filter]
  refine List.filter_congr fun d _ => ?_
  by_cases hd : d.1 = q
  · rw [hd, hq, Bool.and_true]
  · rw [decide_eq_false hd, Bool.false_and]

omit [DecidableEq τ] in
theorem InFlight.pairwise_numbers (hf : InFlight b h) (q : ι) :
    (h.numbers q).Pairwise fun m n => h.publisher m = h.publisher n → m < n := by
  refine List.pairwise_map.mpr (List.Pairwise.imp_of_mem ?_ (hf.ordered.filter _))
  intro c d hc hd hcd hsame
  have hcq : c.1 = q := of_decide_eq_true (List.mem_filter.mp hc).2
  have hdq : d.1 = q := of_decide_eq_true (List.mem_filter.mp hd).2
  exact hcd (hcq.trans hdq.symm) hsame

/-- **Delivery.** In every run: a publication goes into a queue at most once; it goes into
every queue in whose window its copy falls, once its put is taken, unless the put finds that
queue full, and into no other; those of one thread go in in their order, and come out as
they went in; and what a set of subscribers receives is what it receives in the run of its
own steps, whatever the others do. -/
theorem delivers {acts : List (Act ι τ α)} {w : World ι τ α} (hrun : Run acts w) :
    (∀ q, (w.2.numbers q).Nodup) ∧
    (∀ q n, n < w.2.published.length → w.2.Within q n →
      Due w q n ∨ n ∈ w.2.numbers q ∨ Overflowed acts q n) ∧
    (∀ q n, n ∈ w.2.numbers q → n < w.2.published.length ∧ w.2.Within q n) ∧
    (∀ q t, ((w.2.numbers q).filter fun n => w.2.publisher n = some t).Pairwise (· < ·)) ∧
    (∀ q queue, w.1.queues q = some queue → w.2.got q ++ queue.items = w.2.received q) ∧
    ∀ K : ι → Bool, ∃ w', Run (acts.filter (concerns K)) w' ∧
      ∀ q, K q = true → w'.1.queues q = w.1.queues q ∧ w'.2.got q = w.2.got q ∧
        w'.2.received q = w.2.received q := by
  obtain ⟨hr, hf, hc⟩ := Run.inv hrun
  refine ⟨?_, Run.covered hrun, ?_, ?_, hc.got_append, ?_⟩
  · intro q
    refine (hf.pairwise_numbers q).imp ?_
    rintro m n hlt rfl
    exact Nat.lt_irrefl m (hlt rfl)
  · intro q n hn
    exact hf.delivered_within _ (mem_numbers.mp hn)
  · intro q t
    refine List.Pairwise.imp_of_mem ?_ ((hf.pairwise_numbers q).filter _)
    intro m n hm hn hlt
    have hpm : w.2.publisher m = some t := of_decide_eq_true (List.mem_filter.mp hm).2
    have hpn : w.2.publisher n = some t := of_decide_eq_true (List.mem_filter.mp hn).2
    exact hlt (hpm.trans hpn.symm)
  · intro K
    refine ⟨_, Run.restrict hrun, fun q hq => ⟨if_pos hq, if_pos hq, ?_⟩⟩
    exact congrArg (List.filterMap w.2.event) (restrict_numbers hq)

/-- Two threads publish to two queues, one of which is unsubscribed before the puts. -/
def crossing : List (Act ℕ Bool ℕ) :=
  [.subscribe 0, .subscribe 1, .copy false 7, .copy true 8, .put true 0, .put false 0,
    .unsubscribe 1, .put false 1, .get 1, .put true 1]

theorem crossing_runs : (Runs.exec World.step World.init crossing).isSome = true := by
  decide +kernel

theorem delivers_crossing :
    ∃ w, Run crossing w ∧ w.2.received 0 = [8, 7] ∧ w.2.received 1 = [7, 8] ∧
      (w.2.numbers 1).Nodup := by
  have hrun : Run crossing _ := Runs.Steps.of_exec (Option.eq_some_of_isSome crossing_runs)
  refine ⟨_, hrun, ?_, ?_, (delivers hrun).1 1⟩
  · decide +kernel
  · decide +kernel

end DlpServer.Logging
