import DlpServer.Logging.Delivery
import DlpServer.Logging.Timeline

/-!
# The live tail (`_event_stream` of `app/api.py`)

A stream subscribes to the bus and shows what its queue gives and its filters let through.
What it shows are rows of the table that `/events` lists under the same filters, each at
most once and those of one thread in the order of their ids; what it misses had not been
published within its subscription, or found its queue full (`tail_agrees`).
-/

namespace DlpServer.Logging

open Pipeline

/-! ## Streams -/

/-- The filters of `/events/stream`, after the checks of the route. -/
structure StreamFilter where
  direction : Option String
  verdict : Option String
  sessionId : Option Ids.Uuid

/-- `events_stream`, up to the response. -/
def eventsStream (env : Vault.Env) (direction verdict sessionId : Option String) :
    Except HttpException StreamFilter := do
  let direction ← checkDirection direction
  let verdict ← checkVerdict verdict
  .ok ⟨direction, verdict, sessionId.map env.coerce⟩

/-- What the loop lets through; the three comparisons of the source are `!=` and go on
with the next event. -/
def StreamFilter.shows (f : StreamFilter) (event : Event) : Bool :=
  f.direction.all (event.direction == ·) && f.verdict.all (wireName event.verdictAction == ·) &&
    f.sessionId.all (event.sessionId == ·)

/-- The same filters, for `/events`. -/
def StreamFilter.listing (f : StreamFilter) : Filter :=
  ⟨f.direction, f.verdict, f.sessionId, none⟩

inductive Frame where
  | connected
  | ping
  | event (event : Event)

/-- `_event_stream` on what `q.get` gave, `none` where it timed out. -/
def eventStream (f : StreamFilter) (answers : List (Option Event)) : List Frame :=
  .connected :: answers.flatMap fun answer =>
    match answer with
    | none => [.ping]
    | some event => if f.shows event then [.event event] else []

/-- The events of a stream. -/
def shownEvents (frames : List Frame) : List Event :=
  frames.filterMap fun frame =>
    match frame with
    | .event event => some event
    | .connected | .ping => none

/-- A stream shows what it gets and lets through, in that order. -/
theorem shownEvents_eventStream (f : StreamFilter) (answers : List (Option Event)) :
    shownEvents (eventStream f answers) = (answers.filterMap id).filter f.shows := by
  unfold shownEvents eventStream
  rw [List.filterMap_cons_none rfl]
  induction answers with
  | nil => rfl
  | cons answer answers ih =>
      rw [List.flatMap_cons, List.filterMap_append, ih]
      cases answer with
      | none => rfl
      | some event =>
          rw [List.filterMap_cons_some (show id (some event) = some event from rfl)]
          cases hshows : f.shows event with
          | true =>
              rw [List.filter_cons_of_pos hshows]
              simp [hshows]
          | false =>
              rw [List.filter_cons_of_neg (by rw [hshows]; decide)]
              simp [hshows]

/-- The filters mean the same for a stream and for a listing. -/
theorem shows_iff (u : Unicode) (f : StreamFilter) (row : EventRow) :
    f.shows (serializeEvent u row false) = f.listing.admits row := by
  simp [StreamFilter.shows, StreamFilter.listing, Filter.admits, serializeEvent]

namespace Journal

variable {ι τ : Type*} [DecidableEq ι] [DecidableEq τ] {u : Unicode} {env : Vault.Env}
  {sink : LogSink}

/-! ## The invariant -/

/-- What has been published are rows of the table, each once and those of one thread in the
order of their ids; what has not been is with a thread that will, or its `COMMIT` was not
answered. -/
structure Broadcast (u : Unicode) (env : Vault.Env) (j : Journal ι τ) : Prop where
  bus : ∃ acts, Logging.Run acts j.bus
  of_row : ∀ d ∈ j.bus.2.published, ∃ p ∈ j.stored, d.2 = message u env p.1 p.2
  once : (j.bus.2.published.map fun d => d.2.eventId).Nodup
  waiting : ∀ t e row, j.phase t = .committed e row →
    ∀ d ∈ j.bus.2.published, d.2.eventId ≠ row.eventId
  told : ∀ p ∈ j.stored, (∃ d ∈ j.bus.2.published, d.2 = message u env p.1 p.2) ∨
    p.1 ∈ j.unsure ∨ ∃ t, j.phase t = .committed p.1 p.2
  ahead : ∀ t e row, j.phase t = .inserted e row ∨ j.phase t = .committed e row →
    ∀ d ∈ j.bus.2.published, d.1 = t → d.2.eventId < row.eventId
  ordered : j.bus.2.published.Pairwise fun c d => c.1 = d.1 → c.2.eventId < d.2.eventId

theorem Broadcast.init (now : Vault.Time) : Broadcast u env (Journal.init now : Journal ι τ) where
  bus := ⟨[], .nil⟩
  of_row d hd := by cases hd
  once := List.nodup_nil
  waiting t e row ht := by cases ht
  told p hp := by cases hp
  ahead t e row ht := by rcases ht with ht | ht <;> cases ht
  ordered := List.Pairwise.nil

section Step

variable {j : Journal ι τ} {t : τ} {e : Entry}

/-- Steps that leave the threads, the table and the publications alone. -/
theorem Broadcast.congr (h : Broadcast u env j) {j' : Journal ι τ}
    (hbus : ∃ acts, Logging.Run acts j'.bus)
    (hpublished : j'.bus.2.published = j.bus.2.published) (hstored : j'.stored = j.stored)
    (hunsure : j'.unsure = j.unsure) (hphase : j'.phase = j.phase) : Broadcast u env j' := by
  refine ⟨hbus, ?_, ?_, ?_, ?_, ?_, ?_⟩
  · rw [hpublished, hstored]
    exact h.of_row
  · rw [hpublished]
    exact h.once
  · rw [hphase, hpublished]
    exact h.waiting
  · rw [hstored, hpublished, hunsure, hphase]
    exact h.told
  · rw [hphase, hpublished]
    exact h.ahead
  · rw [hpublished]
    exact h.ordered

/-- A thread that has nothing to publish goes on. -/
theorem Broadcast.goto (h : Broadcast u env j) (t : τ) (next : Phase)
    (ht : ∀ e row, j.phase t ≠ .committed e row) (hcommitted : ∀ e row, next ≠ .committed e row)
    (hinserted : ∀ e row, next = .inserted e row →
      ∀ d ∈ j.bus.2.published, d.1 = t → d.2.eventId < row.eventId) :
    Broadcast u env (j.goto t next) where
  bus := h.bus
  of_row := h.of_row
  once := h.once
  waiting t' e row ht' := by
    rcases update_phase ht' with ⟨-, hnext⟩ | ⟨-, ht'⟩
    · exact absurd hnext (hcommitted e row)
    · exact h.waiting t' e row ht'
  told p hp := by
    refine (h.told p hp).imp_right (Or.imp_right ?_)
    rintro ⟨t', ht'⟩
    have htt : t' ≠ t := by
      rintro rfl
      exact ht p.1 p.2 ht'
    exact ⟨t', (Function.update_of_ne htt _ _).trans ht'⟩
  ahead t' e row ht' := by
    rcases ht' with ht' | ht'
    · rcases update_phase ht' with ⟨rfl, hnext⟩ | ⟨-, ht'⟩
      · exact hinserted e row hnext
      · exact h.ahead t' e row (Or.inl ht')
    · rcases update_phase ht' with ⟨-, hnext⟩ | ⟨-, ht'⟩
      · exact absurd hnext (hcommitted e row)
      · exact h.ahead t' e row (Or.inr ht')
  ordered := h.ordered

theorem message_eventId (e : Entry) (row : EventRow) :
    (message u env e row).eventId = row.eventId := rfl

/-- The row of a transaction goes into the table. -/
theorem Broadcast.store (h : Broadcast u env j) (hordered : Ordered j) {row : EventRow}
    {next : Phase} {unsure : List Entry} (ht : j.phase t = .inserted e row)
    (hnext : next = .committed e row ∧ unsure = j.unsure ∨
      next = .failed e ∧ unsure = j.unsure ++ [e]) :
    Broadcast u env { j.goto t next with stored := j.stored ++ [(e, row)], unsure := unsure } := by
  have hnot : ∀ e row, j.phase t ≠ .committed e row := by simp [ht]
  have hfresh : ∀ d ∈ j.bus.2.published, d.2.eventId ≠ row.eventId := by
    intro d hd
    obtain ⟨p, hp, heq⟩ := h.of_row d hd
    rw [heq, message_eventId]
    exact (hordered.inserted t e row ht).2.2.2 p hp
  refine ⟨h.bus, ?_, h.once, ?_, ?_, ?_, h.ordered⟩
  · intro d hd
    obtain ⟨p, hp, heq⟩ := h.of_row d hd
    exact ⟨p, List.mem_append_left _ hp, heq⟩
  · intro t' e' row' ht'
    rcases update_phase ht' with ⟨-, heq⟩ | ⟨-, ht'⟩
    · rcases hnext with ⟨rfl, -⟩ | ⟨rfl, -⟩ <;> cases heq
      exact hfresh
    · exact h.waiting t' e' row' ht'
  · intro p hp
    have hstays : ∀ {t'}, j.phase t' = .committed p.1 p.2 →
        Journal.phase (j.goto t next) t' = .committed p.1 p.2 := by
      intro t' ht'
      have htt : t' ≠ t := by
        rintro rfl
        exact hnot p.1 p.2 ht'
      exact (Function.update_of_ne htt _ _).trans ht'
    rcases List.mem_append.mp hp with hp | hp
    · rcases h.told p hp with htold | hunsure | ⟨t', ht'⟩
      · exact Or.inl htold
      · refine Or.inr (Or.inl ?_)
        rcases hnext with ⟨-, rfl⟩ | ⟨-, rfl⟩
        · exact hunsure
        · exact List.mem_append_left _ hunsure
      · exact Or.inr (Or.inr ⟨t', hstays ht'⟩)
    · obtain rfl := List.mem_singleton.mp hp
      rcases hnext with ⟨rfl, -⟩ | ⟨-, rfl⟩
      · exact Or.inr (Or.inr ⟨t, Function.update_self ..⟩)
      · exact Or.inr (Or.inl (List.mem_append_right _ List.mem_cons_self))
  · intro t' e' row' ht'
    rcases ht' with ht' | ht'
    · rcases update_phase ht' with ⟨-, heq⟩ | ⟨-, ht'⟩
      · rcases hnext with ⟨rfl, -⟩ | ⟨rfl, -⟩ <;> cases heq
      · exact h.ahead t' e' row' (Or.inl ht')
    · rcases update_phase ht' with ⟨rfl, heq⟩ | ⟨-, ht'⟩
      · rcases hnext with ⟨rfl, -⟩ | ⟨rfl, -⟩ <;> cases heq
        exact h.ahead t' e row (Or.inl ht)
      · exact h.ahead t' e' row' (Or.inr ht')

/-- `bus.publish` copies its list, and the row is told. -/
theorem Broadcast.publish (h : Broadcast u env j) (haccount : Account sink j)
    (hcontent : Content u env j) (hordered : Ordered j) {row : EventRow} {bus : World ι τ Event}
    (ht : j.phase t = .committed e row)
    (hbus : j.bus.step (.copy t (message u env e row)) = some bus) :
    Broadcast u env { j.goto t (.published e) with bus := bus } := by
  have hpublished : bus.2.published = j.bus.2.published ++ [(t, message u env e row)] := by
    obtain ⟨b, -, rfl⟩ := Option.map_eq_some_iff.mp hbus
    rfl
  have hrow := hcontent.committed t e row ht
  have hnew := h.waiting t e row ht
  -- Another thread waits with another row.
  have hapart : ∀ t' e' row', t' ≠ t → j.phase t' = .committed e' row' →
      row.eventId ≠ row'.eventId := by
    intro t' e' row' htt ht' hid
    have hrow' := hcontent.committed t' e' row' ht'
    have hsame : ((e, row) : Entry × EventRow) = (e', row') := by
      have hids : (j.stored.map fun p => p.2.eventId).Nodup := by
        have := hordered.distinct
        rwa [rows, List.map_map] at this
      exact List.inj_on_of_nodup_map hids hrow hrow' hid
    obtain ⟨rfl, rfl⟩ := Prod.mk.inj hsame
    exact htt (haccount.alone t' t e (by rw [ht']; rfl) (by rw [ht]; rfl))
  obtain ⟨acts, hrun⟩ := h.bus
  refine ⟨⟨_, hrun.snoc hbus⟩, ?_, ?_, ?_, ?_, ?_, ?_⟩
  · intro d hd
    rw [show Journal.bus _ = bus from rfl, hpublished] at hd
    rcases List.mem_append.mp hd with hd | hd
    · exact h.of_row d hd
    · exact ⟨(e, row), hrow, congrArg Prod.snd (List.mem_singleton.mp hd)⟩
  · show (bus.2.published.map fun d => d.2.eventId).Nodup
    rw [hpublished, List.map_append, List.nodup_append]
    refine ⟨h.once, List.nodup_singleton _, fun a ha b hb hab => ?_⟩
    obtain ⟨d, hd, rfl⟩ := List.mem_map.mp ha
    exact hnew d hd (hab.trans (List.mem_singleton.mp hb))
  · intro t' e' row' ht' d hd
    rw [show Journal.bus _ = bus from rfl, hpublished] at hd
    rcases update_phase ht' with ⟨-, heq⟩ | ⟨htt, ht'⟩
    · cases heq
    · rcases List.mem_append.mp hd with hd | hd
      · exact h.waiting t' e' row' ht' d hd
      · rw [List.mem_singleton.mp hd]
        exact hapart t' e' row' htt ht'
  · intro p hp
    rw [show Journal.bus _ = bus from rfl, hpublished]
    rcases h.told p hp with ⟨d, hd, heq⟩ | hunsure | ⟨t', ht'⟩
    · exact Or.inl ⟨d, List.mem_append_left _ hd, heq⟩
    · exact Or.inr (Or.inl hunsure)
    · by_cases htt : t' = t
      · subst htt
        rw [ht] at ht'
        cases ht'
        exact Or.inl ⟨_, List.mem_append_right _ List.mem_cons_self, rfl⟩
      · exact Or.inr (Or.inr ⟨t', (Function.update_of_ne htt _ _).trans ht'⟩)
  · intro t' e' row' ht' d hd hthread
    rw [show Journal.bus _ = bus from rfl, hpublished] at hd
    have hold : t' ≠ t ∧ (j.phase t' = .inserted e' row' ∨ j.phase t' = .committed e' row') := by
      rcases ht' with ht' | ht'
      · rcases update_phase ht' with ⟨-, heq⟩ | ⟨htt, ht'⟩
        · cases heq
        · exact ⟨htt, Or.inl ht'⟩
      · rcases update_phase ht' with ⟨-, heq⟩ | ⟨htt, ht'⟩
        · cases heq
        · exact ⟨htt, Or.inr ht'⟩
    rcases List.mem_append.mp hd with hd | hd
    · exact h.ahead t' e' row' hold.2 d hd hthread
    · rw [List.mem_singleton.mp hd] at hthread
      exact absurd hthread.symm hold.1
  · show bus.2.published.Pairwise _
    rw [hpublished, List.pairwise_append]
    refine ⟨h.ordered, List.pairwise_singleton _ _, fun c hc d hd hthread => ?_⟩
    rw [List.mem_singleton.mp hd] at hthread ⊢
    exact h.ahead t e row (Or.inr ht) c hc hthread

end Step

omit [DecidableEq ι] [DecidableEq τ] in
/-- Only a copy publishes. -/
theorem published_record [DecidableEq ι] [DecidableEq τ] {b : Bus ι τ Event}
    {h : History ι τ Event} {a : Act ι τ Event} (hcopy : ∀ t event, a ≠ .copy t event) :
    (h.record b a).published = h.published := by
  cases a with
  | copy t event => exact absurd rfl (hcopy t event)
  | subscribe q => rfl
  | unsubscribe q =>
      unfold History.record
      dsimp only
      split <;> rfl
  | get q =>
      unfold History.record
      dsimp only
      split <;> rfl
  | put t q =>
      unfold History.record
      dsimp only
      split
      · split <;> rfl
      · rfl

theorem Broadcast.moves {j j' : Journal ι τ} {a : Deed ι τ} (h : Broadcast u env j)
    (haccount : Account sink j) (hcontent : Content u env j) (hordered : Ordered j)
    (hmoves : Moves u env sink j a j') : Broadcast u env j' := by
  cases hmoves with
  | advance => exact h.congr h.bus rfl rfl rfl rfl
  | burn => exact h.congr h.bus rfl rfl rfl rfl
  | @bus a b bus hbus hcopy =>
      obtain ⟨acts, hrun⟩ := h.bus
      refine h.congr ⟨_, hrun.snoc hbus⟩ ?_ rfl rfl rfl
      obtain ⟨bus, -, rfl⟩ := Option.map_eq_some_iff.mp hbus
      exact published_record hcopy
  | @emit t e e' ht he =>
      have hgoto := h.goto t (.emitted e') (by simp [ht]) (by simp) (by simp)
      exact hgoto.congr h.bus rfl rfl rfl rfl
  | begin ht hsink => exact h.goto _ _ (by simp [ht]) (by simp) (by simp)
  | @insert t e createdAt row ht hrow =>
      have hdrawn : ∀ d ∈ j.bus.2.published, d.1 = t → d.2.eventId < row.eventId := by
        intro d hd _
        obtain ⟨p, hp, heq⟩ := h.of_row d hd
        obtain ⟨-, hid⟩ := insertEvent_some hrow
        rw [heq, message_eventId, show row.eventId = j.nextId by rw [hid]; rfl]
        exact (hordered.past p hp).2
      have hgoto := h.goto t (.inserted e row) (by simp [ht]) (by simp)
        fun e' row' heq => by cases heq; exact hdrawn
      exact hgoto.congr h.bus rfl rfl rfl rfl
  | commit ht => exact h.store hordered ht (Or.inl ⟨rfl, rfl⟩)
  | unanswered ht => exact h.store hordered ht (Or.inr ⟨rfl, rfl⟩)
  | @fail a t e ht =>
      refine h.goto _ _ (fun e' row hphase => ?_) (by simp) (by simp)
      rw [hphase] at ht
      exact ht
  | publish ht hbus => exact h.publish haccount hcontent hordered ht hbus
  | @append t e written ht =>
      have hnot : ∀ e row, j.phase t ≠ .committed e row := by
        intro e' row hphase
        rw [hphase] at ht
        exact ht
      have hgoto := h.goto t .idle hnot (by simp) (by simp)
      cases written with
      | true => exact hgoto.congr h.bus rfl rfl rfl rfl
      | false => exact hgoto.congr h.bus rfl rfl rfl rfl
  | finish ht hsink => exact h.goto _ _ (by simp [ht]) (by simp) (by simp)

theorem Run.broadcast {acts : List (Deed ι τ)} {now : Vault.Time} {j : Journal ι τ}
    (hrun : Run u env sink acts now j) : Broadcast u env j :=
  Runs.Steps.invariant (fun _ j => Broadcast u env j) (Broadcast.init now)
    (fun _ _ _ _ hrun h hstep =>
      h.moves (Run.account hrun) (Run.content hrun) (Run.ordered hrun) (Moves.of_step hstep)) hrun

/-! ## What a stream shows -/

/-- What the stream on `q` has shown, of what was taken out of its queue
(`shownEvents_eventStream`). What a `q.get` takes whose stream is closed meanwhile counts
as shown. -/
def shown (j : Journal ι τ) (f : StreamFilter) (q : ι) : List Event :=
  (j.bus.2.got q).filter f.shows

section Shown

variable {j : Journal ι τ}

omit [DecidableEq τ] in
/-- What the consumer of `q` got, it got by number. -/
theorem got_numbers {b : Bus ι τ Event} {h : History ι τ Event} (hinv : Logging.Inv b h) (q : ι) :
    h.got q <+: (h.numbers q).filterMap h.event := by
  cases hq : b.queues q with
  | none =>
      rw [hinv.contents.got_nil q hq]
      exact List.nil_prefix
  | some queue => exact ⟨queue.items, hinv.contents.got_append q queue hq⟩

omit [DecidableEq ι] [DecidableEq τ] in
/-- Events by number, of publications whose ids differ. -/
theorem nodup_events {h : History ι τ Event}
    (honce : (h.published.map fun d => d.2.eventId).Nodup) {numbers : List ℕ}
    (hnumbers : numbers.Nodup) : ((numbers.filterMap h.event).map Event.eventId).Nodup := by
  rw [List.map_filterMap]
  refine hnumbers.filterMap fun m n id hm hn => ?_
  have hget : ∀ {k : ℕ}, id ∈ (h.event k).map Event.eventId →
      (h.published.map fun d => d.2.eventId)[k]? = some id := by
    intro k hk
    rw [List.getElem?_map]
    rwa [History.event, Option.map_map, Option.mem_def] at hk
  obtain ⟨hlt, hid⟩ := List.getElem?_eq_some_iff.mp (hget hm)
  obtain ⟨hlt', hid'⟩ := List.getElem?_eq_some_iff.mp (hget hn)
  exact (List.Nodup.getElem_inj_iff honce).mp (hid.trans hid'.symm)

omit [DecidableEq ι] [DecidableEq τ] in
/-- The id of an event tells its publication. -/
theorem publisher_of_mem {h : History ι τ Event}
    (honce : (h.published.map fun d => d.2.eventId).Nodup) {n : ℕ} {t : τ} {event : Event}
    (hn : h.event n = some event) (hmem : (t, event) ∈ h.published) :
    h.published[n]? = some (t, event) := by
  obtain ⟨d, hd, rfl⟩ := Option.map_eq_some_iff.mp hn
  have hsame : d = (t, d.2) := List.inj_on_of_nodup_map honce (List.mem_of_getElem? hd) hmem rfl
  rw [hd, ← hsame]

/-- What one thread has published comes in the order of the ids. -/
theorem Broadcast.in_order (h : Broadcast u env j) (q : ι) :
    (j.bus.2.got q).Pairwise fun a b => ∀ t, (t, a) ∈ j.bus.2.published →
      (t, b) ∈ j.bus.2.published → a.eventId < b.eventId := by
  obtain ⟨acts, hrun⟩ := h.bus
  have hinv := Logging.Run.inv hrun
  refine List.Pairwise.sublist (got_numbers hinv q).sublist (List.pairwise_filterMap.mpr ?_)
  refine (hinv.inFlight.pairwise_numbers q).imp fun hlt a ha b hb t hta htb => ?_
  have hm := publisher_of_mem h.once ha hta
  have hn := publisher_of_mem h.once hb htb
  have hless := hlt (by rw [History.publisher, History.publisher, hm, hn]; rfl)
  obtain ⟨hmlt, hmeq⟩ := List.getElem?_eq_some_iff.mp hm
  obtain ⟨hnlt, hneq⟩ := List.getElem?_eq_some_iff.mp hn
  have hids := List.pairwise_iff_getElem.mp h.ordered _ _ hmlt hnlt hless
  rw [hmeq, hneq] at hids
  exact hids rfl

end Shown

/-- **The live tail agrees with the log.** In every run, for every stream: what it shows are
rows of the table that `/events` admits under the same filters, with the same content; such
a row is on the page of any length, or the page is full of rows that are not older. No
event is shown twice, and those of one thread come in the order of their ids. A row that
the filters admit is shown, or it is in the queue (where it stays once the stream has
ended), about to be put or to be published; or its `COMMIT` was not answered, or it was
published outside the subscription, or it found the queue full. -/
theorem tail_agrees {acts : List (Deed ι τ)} {now : Vault.Time} {j : Journal ι τ}
    (hrun : Run u env sink acts now j) (f : StreamFilter) (q : ι) :
    (∀ event ∈ j.shown f q, ∃ row ∈ j.rows, event = serializeEvent u row false ∧
      f.listing.admits row = true ∧ ∀ limit, row ∈ page j.rows limit f.listing ∨
        (page j.rows limit f.listing).length = min (limit : ℕ) eventsLimitMax ∧
          ∀ newer ∈ page j.rows limit f.listing, Newer newer row) ∧
    ((j.shown f q).map Event.eventId).Nodup ∧
    ((j.shown f q).Pairwise fun a b => ∀ t, (t, a) ∈ j.bus.2.published →
      (t, b) ∈ j.bus.2.published → a.eventId < b.eventId) ∧
    ∃ busActs, Logging.Run busActs j.bus ∧
      ∀ p ∈ j.stored, f.listing.admits p.2 = true →
        p.1 ∈ j.unsure ∨ (∃ t, j.phase t = .committed p.1 p.2) ∨
        ∃ n, j.bus.2.event n = some (serializeEvent u p.2 false) ∧
          (j.bus.2.Within q n →
            Due j.bus q n ∨ Overflowed busActs q n ∨ serializeEvent u p.2 false ∈ j.shown f q ∨
              ∃ queue, j.bus.1.queues q = some queue ∧
                serializeEvent u p.2 false ∈ queue.items) := by
  have hcontent := Run.content hrun
  have h := Run.broadcast hrun
  obtain ⟨busActs, hbus⟩ := h.bus
  have hinv := Logging.Run.inv hbus
  have hmessage : ∀ p ∈ j.stored, message u env p.1 p.2 = serializeEvent u p.2 false := by
    intro p hp
    rw [message, ← ((hcontent.stored p hp).eq).2]
  refine ⟨?_, ?_, (h.in_order q).filter _, busActs, hbus, ?_⟩
  · intro event hevent
    obtain ⟨hgot, hshows⟩ := List.mem_filter.mp hevent
    obtain ⟨n, -, hn⟩ := List.mem_filterMap.mp ((got_numbers hinv q).subset hgot)
    obtain ⟨d, hd, rfl⟩ := Option.map_eq_some_iff.mp hn
    obtain ⟨p, hp, heq⟩ := h.of_row d (List.mem_of_getElem? hd)
    rw [hmessage p hp] at heq
    have hadmits : f.listing.admits p.2 = true := by rwa [heq, shows_iff] at hshows
    have hrow : p.2 ∈ j.rows := List.mem_map_of_mem hp
    exact ⟨p.2, hrow, heq, hadmits, fun limit => page_newest hrow hadmits⟩
  · have hnumbers : (j.bus.2.numbers q).Nodup := by
      refine (hinv.inFlight.pairwise_numbers q).imp ?_
      rintro m n hlt rfl
      exact lt_irrefl m (hlt rfl)
    have hprefix := (got_numbers hinv q).sublist.map Event.eventId
    exact (nodup_events h.once hnumbers).sublist ((List.filter_sublist.map _).trans hprefix)
  · intro p hp hadmits
    rcases h.told p hp with ⟨d, hd, heq⟩ | hunsure | hwaits
    · refine Or.inr (Or.inr ?_)
      obtain ⟨n, hn⟩ := List.mem_iff_getElem?.mp hd
      rw [hmessage p hp] at heq
      have hevent : j.bus.2.event n = some (serializeEvent u p.2 false) := by
        rw [History.event, hn, Option.map_some, heq]
      refine ⟨n, hevent, fun hwithin => ?_⟩
      have hlt := (List.getElem?_eq_some_iff.mp hn).1
      rcases Logging.Run.covered hbus q n hlt hwithin with hdue | hin | hover
      · exact Or.inl hdue
      · refine Or.inr (Or.inr ?_)
        have hreceived : serializeEvent u p.2 false ∈ j.bus.2.received q :=
          List.mem_filterMap.mpr ⟨n, hin, hevent⟩
        cases hq : j.bus.1.queues q with
        | none =>
            have hnone := hinv.registered.isSome_queue q
            rw [hq, hwithin.opened] at hnone
            cases hnone
        | some queue =>
            rw [← hinv.contents.got_append q queue hq] at hreceived
            rcases List.mem_append.mp hreceived with hgot | hwaits
            · refine Or.inl (List.mem_filter.mpr ⟨hgot, ?_⟩)
              rw [shows_iff]
              exact hadmits
            · exact Or.inr ⟨queue, rfl, hwaits⟩
      · exact Or.inr (Or.inl hover)
    · exact Or.inl hunsure
    · exact Or.inr (Or.inl hwaits)

/-- Two threads write while a stream is open. -/
def tailed : List (Deed ℕ Bool) :=
  [.subscribe 0, .emit false (sampleEvent "input"), .begin false, .insert false,
    .emit true (sampleEvent "output"), .begin true, .insert true, .commit true, .commit false,
    .publish true, .publish false, .put false 0, .put true 0, .finish true, .get 0, .get 0]

theorem tailed_runs : (Runs.exec (step .ascii .sample .pg) (init 0) tailed).isSome = true := by
  decide +kernel

theorem tail_agrees_tailed :
    ∃ j : Journal ℕ Bool, Run .ascii .sample .pg tailed 0 j ∧
      (j.shown ⟨none, none, none⟩ 0).map Event.eventId = [1, 2] ∧
      (j.shown ⟨some "output", none, none⟩ 0).map Event.eventId = [2] ∧
      ((j.shown ⟨some "output", none, none⟩ 0).map Event.eventId).Nodup := by
  have hrun : Run .ascii .sample .pg tailed 0 _ :=
    Runs.Steps.of_exec (Option.eq_some_of_isSome tailed_runs)
  refine ⟨_, hrun, ?_, ?_, (tail_agrees hrun ⟨some "output", none, none⟩ 0).2.1⟩
  · decide +kernel
  · decide +kernel

end Journal

end DlpServer.Logging
