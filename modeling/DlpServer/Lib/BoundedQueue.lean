import Mathlib

/-!
# Bounded queues

A first-in first-out queue that carries its bound; the bound zero is none. Putting
fails on a full queue, and getting on an empty one.
-/

namespace DlpServer

/-- A queue with its bound. -/
structure BoundedQueue (α : Type*) where
  maxsize : ℕ
  items : List α
  bounded : 0 < maxsize → items.length ≤ maxsize

namespace BoundedQueue

variable {α : Type*}

def empty (maxsize : ℕ) : BoundedQueue α where
  maxsize := maxsize
  items := []
  bounded := fun _ => Nat.zero_le maxsize

def IsFull (q : BoundedQueue α) : Prop := 0 < q.maxsize ∧ q.maxsize ≤ q.items.length

instance (q : BoundedQueue α) : Decidable q.IsFull :=
  inferInstanceAs (Decidable (_ ∧ _))

theorem length_snoc_le {q : BoundedQueue α} (h : ¬ q.IsFull) (a : α) (hpos : 0 < q.maxsize) :
    (q.items ++ [a]).length ≤ q.maxsize := by
  have hless : q.items.length < q.maxsize := Nat.lt_of_not_le fun hle => h ⟨hpos, hle⟩
  rw [List.length_append, List.length_singleton]
  exact hless

/-- Append at the end, unless the queue is full. -/
def put (q : BoundedQueue α) (a : α) : Option (BoundedQueue α) :=
  if h : q.IsFull then none
  else some { maxsize := q.maxsize, items := q.items ++ [a], bounded := length_snoc_le h a }

/-- Take from the front, unless the queue is empty. -/
def get (q : BoundedQueue α) : Option (α × BoundedQueue α) :=
  match h : q.items with
  | [] => none
  | a :: rest =>
      some (a,
        { maxsize := q.maxsize
          items := rest
          bounded := fun hpos => by
            have hlength := q.bounded hpos
            rw [h, List.length_cons] at hlength
            exact Nat.le_of_succ_le hlength })

theorem put_eq_none {q : BoundedQueue α} {a : α} : q.put a = none ↔ q.IsFull := by
  unfold put
  split
  · exact iff_of_true rfl ‹_›
  · exact iff_of_false (Option.some_ne_none _) ‹_›

theorem items_put {q q' : BoundedQueue α} {a : α} (h : q.put a = some q') :
    q'.items = q.items ++ [a] := by
  unfold put at h
  split at h
  · cases h
  · cases h
    rfl

theorem items_get {q q' : BoundedQueue α} {a : α} (h : q.get = some (a, q')) :
    q.items = a :: q'.items := by
  unfold get at h
  split at h
  · cases h
  · cases h
    assumption

end BoundedQueue

end DlpServer
