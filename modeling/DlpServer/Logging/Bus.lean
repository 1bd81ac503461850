import DlpServer.Lib.BoundedQueue
import DlpServer.Lib.Runs

/-!
# The event bus

`EventBus` hands the events of the publishing threads to the queues of the subscribers.
The lock covers the list of the subscribers and no more: `publish` copies the list under
the lock and puts into the queues afterwards, one after the other, while others come, go
and publish. So a step of the model is one call of `subscribe` or of `unsubscribe`, one
`get` of a consumer, the copy of a `publish`, or one of its puts.
-/

namespace DlpServer.Logging

variable {ι τ α : Type*} [DecidableEq ι] [DecidableEq τ]

/-- `_SUBSCRIBER_MAXSIZE`. -/
def subscriberMaxsize : ℕ := 1000

/-- The bus, the queues that have been made, and what each thread inside `publish` has
still to put. -/
@[ext] structure Bus (ι τ α : Type*) where
  subscribers : List ι
  queues : ι → Option (BoundedQueue α)
  puts : τ → List (ι × α)

/-- `EventBus()`. -/
def Bus.init : Bus ι τ α := ⟨[], fun _ => none, fun _ => []⟩

inductive Act (ι τ α : Type*) where
  | subscribe (q : ι)
  | unsubscribe (q : ι)
  | get (q : ι)
  | copy (t : τ) (event : α)
  | put (t : τ) (q : ι)

namespace Bus

/-- `subscribe`: a new queue at the end of the list. -/
def subscribe (b : Bus ι τ α) (q : ι) : Bus ι τ α :=
  { b with
    subscribers := b.subscribers ++ [q]
    queues := Function.update b.queues q (some (BoundedQueue.empty subscriberMaxsize)) }

/-- `unsubscribe`; a queue that is not in the list is passed over. -/
def unsubscribe (b : Bus ι τ α) (q : ι) : Bus ι τ α :=
  if q ∈ b.subscribers then { b with subscribers := b.subscribers.erase q } else b

/-- `q.get`; an empty queue stays as it is. -/
def get (b : Bus ι τ α) (q : ι) : Bus ι τ α :=
  match (b.queues q).bind BoundedQueue.get with
  | some (_, queue) => { b with queues := Function.update b.queues q (some queue) }
  | none => b

/-- The locked part of `publish`: the list is copied, and a put is due for each. -/
def copy (b : Bus ι τ α) (t : τ) (event : α) : Bus ι τ α :=
  { b with puts := Function.update b.puts t (b.subscribers.map fun q => (q, event)) }

/-- `q.put_nowait(event)`, with `queue.Full` passed over. -/
def putNowait (b : Bus ι τ α) (q : ι) (event : α) : Bus ι τ α :=
  match (b.queues q).bind fun queue => queue.put event with
  | some queue => { b with queues := Function.update b.queues q (some queue) }
  | none => b

/-- One step. A queue is made once, a thread publishes one event at a time, and its puts
follow the copied list. -/
def step (b : Bus ι τ α) : Act ι τ α → Option (Bus ι τ α)
  | .subscribe q => if (b.queues q).isSome then none else some (b.subscribe q)
  | .unsubscribe q => some (b.unsubscribe q)
  | .get q => some (b.get q)
  | .copy t event => if b.puts t = [] then some (b.copy t event) else none
  | .put t q =>
      match b.puts t with
      | [] => none
      | (p, event) :: rest =>
          if p = q then
            some { b.putNowait q event with puts := Function.update b.puts t rest }
          else none

end Bus

/-! ## The history -/

/-- What has happened: the publications in the order of their copies, the number of
each thread's last one, and which put went in, where; for a queue the number of
publications before it was subscribed and before it was unsubscribed, and what its
consumer got. -/
@[ext] structure History (ι τ α : Type*) where
  published : List (τ × α)
  current : τ → ℕ
  delivered : List (ι × ℕ)
  opened : ι → Option ℕ
  closed : ι → Option ℕ
  got : ι → List α

namespace History

def init : History ι τ α := ⟨[], fun _ => 0, [], fun _ => none, fun _ => none, fun _ => []⟩

/-- What a step taken in `b` adds. -/
def record (b : Bus ι τ α) (h : History ι τ α) : Act ι τ α → History ι τ α
  | .subscribe q => { h with opened := Function.update h.opened q (some h.published.length) }
  | .unsubscribe q =>
      if q ∈ b.subscribers then
        { h with closed := Function.update h.closed q (some h.published.length) }
      else h
  | .get q =>
      match (b.queues q).bind BoundedQueue.get with
      | some (event, _) => { h with got := Function.update h.got q (h.got q ++ [event]) }
      | none => h
  | .copy t event =>
      { h with
        published := h.published ++ [(t, event)]
        current := Function.update h.current t h.published.length }
  | .put t q =>
      match b.queues q with
      | some queue =>
          if queue.IsFull then h else { h with delivered := h.delivered ++ [(q, h.current t)] }
      | none => h

def publisher (h : History ι τ α) (n : ℕ) : Option τ := h.published[n]?.map Prod.fst

def event (h : History ι τ α) (n : ℕ) : Option α := h.published[n]?.map Prod.snd

/-- The publications that went into `q`, in the order in which they did. -/
def numbers (h : History ι τ α) (q : ι) : List ℕ :=
  (h.delivered.filter fun d => d.1 = q).map Prod.snd

/-- The events that went into `q`. -/
def received (h : History ι τ α) (q : ι) : List α := (h.numbers q).filterMap h.event

/-- The copy of publication `n` falls between the subscribe and the unsubscribe of `q`. -/
def Within (h : History ι τ α) (q : ι) (n : ℕ) : Prop :=
  ∃ i, h.opened q = some i ∧ i ≤ n ∧ ∀ j, h.closed q = some j → n < j

end History

/-- The bus with its history. -/
abbrev World (ι τ α : Type*) := Bus ι τ α × History ι τ α

def World.init : World ι τ α := (Bus.init, History.init)

def World.step (w : World ι τ α) (a : Act ι τ α) : Option (World ι τ α) :=
  (w.1.step a).map fun b => (b, w.2.record w.1 a)

/-- A run of the bus, from its start. -/
abbrev Run (acts : List (Act ι τ α)) (w : World ι τ α) : Prop :=
  Runs.Steps World.step World.init acts w

end DlpServer.Logging
