import DlpServer.Logging.Bus
import DlpServer.Logging.Emit

/-!
# Writing the log

Several threads are inside `_write_event` at the same time. `write_pg` opens a
transaction, inserts, commits, and publishes the row afterwards; when it raises, the event
goes into the file. The connection may fail at each point, and when it fails in `COMMIT`
the row is in the table though the thread does not know. `now()` is the instant at which
the transaction began, the id is drawn by the `INSERT`, and the rows are seen in the
order of the commits, so that ids, instants and commits come in three orders.
-/

namespace DlpServer.Logging

/-- `config.log_sink`. -/
inductive LogSink where
  | pg
  | jsonl
  | both
deriving DecidableEq

/-- A call of `_emit_log`: its number, and how many rows were in the table when it was
made. -/
structure Entry extends Emitted where
  number : ℕ
  seen : ℕ

/-- How far a thread is in `_write_event`. -/
inductive Phase where
  | idle
  | emitted (e : Entry)
  | begun (e : Entry) (createdAt : Vault.Time)
  | inserted (e : Entry) (row : EventRow)
  | committed (e : Entry) (row : EventRow)
  | published (e : Entry)
  | failed (e : Entry)

def Phase.entry : Phase → Option Entry
  | .idle => none
  | .emitted e | .begun e _ | .inserted e _ | .committed e _ | .published e | .failed e => some e

/-- The clock and the sequence of the database, the table, the file, the threads and the
bus. `stored` and `lines` name the call of each row and line. `issued` are the calls so
far, `dropped` those whose line could not be written, `unsure` those whose `COMMIT` was
not answered. -/
structure Journal (ι τ : Type*) where
  now : Vault.Time
  nextId : ℕ
  stored : List (Entry × EventRow)
  lines : List Entry
  phase : τ → Phase
  bus : World ι τ Event
  issued : List Entry
  dropped : List Entry
  unsure : List Entry

namespace Journal

variable {ι τ : Type*}

/-- The table `log_events`, in the order of the commits. -/
def rows (j : Journal ι τ) : List EventRow := j.stored.map Prod.snd

/-- The calls that have a row. -/
def recorded (j : Journal ι τ) : List Entry := j.stored.map Prod.fst

/-- An empty log. -/
def init (now : Vault.Time) : Journal ι τ where
  now := now
  nextId := 1
  stored := []
  lines := []
  phase _ := .idle
  bus := World.init
  issued := []
  dropped := []
  unsure := []

/-- `_emit_log` has returned. -/
def Returned (j : Journal ι τ) (e : Entry) : Prop := ∀ t, (j.phase t).entry ≠ some e

end Journal

/-- What happens next: time passes, an id is drawn for no row, a thread takes a step, or
a subscriber of the bus does. -/
inductive Deed (ι τ : Type*) where
  | advance (elapsed : ℕ)
  | burn
  | emit (t : τ) (e : Emitted)
  | begin (t : τ)
  | insert (t : τ)
  | commit (t : τ)
  | unanswered (t : τ)
  | fail (t : τ)
  | publish (t : τ)
  | put (t : τ) (q : ι)
  | append (t : τ) (written : Bool)
  | finish (t : τ)
  | subscribe (q : ι)
  | unsubscribe (q : ι)
  | get (q : ι)

namespace Journal

variable {ι τ : Type*} [DecidableEq ι] [DecidableEq τ]

section Step

variable (u : Unicode) (env : Vault.Env) (sink : LogSink)

def goto (j : Journal ι τ) (t : τ) (phase : Phase) : Journal ι τ :=
  { j with phase := Function.update j.phase t phase }

/-- What `write_pg` gives to `bus.publish`. -/
def message (e : Entry) (row : EventRow) : Event :=
  serializeEvent u (broadcastRow env row.eventId row.createdAt e.event) false

/-- A step of the bus. -/
def onBus (j : Journal ι τ) (a : Act ι τ Event) : Option (Journal ι τ) :=
  (j.bus.step a).map fun bus => { j with bus := bus }

/-- `log_event`; `_emit_log` passes over what it raises. -/
def logEvent (j : Journal ι τ) (t : τ) (e : Entry) (written : Bool) : Journal ι τ :=
  if written then { j.goto t .idle with lines := j.lines ++ [e] }
  else { j.goto t .idle with dropped := j.dropped ++ [e] }

/-- One step. The `else` branches are those of steps that are not due. -/
def step (j : Journal ι τ) : Deed ι τ → Option (Journal ι τ)
  | .advance elapsed => some { j with now := j.now + elapsed }
  | .burn => some { j with nextId := j.nextId + 1 }
  | .emit t e =>
      match j.phase t with
      | .idle =>
          let e : Entry := ⟨e, j.issued.length, j.stored.length⟩
          some { j.goto t (.emitted e) with issued := j.issued ++ [e] }
      | _ => none
  | .begin t =>
      match j.phase t with
      | .emitted e => if sink = .jsonl then none else some (j.goto t (.begun e j.now))
      | _ => none
  | .insert t =>
      match j.phase t with
      | .begun e createdAt =>
          match insertEvent u env j.nextId createdAt e.event with
          | some row => some { j.goto t (.inserted e row) with nextId := j.nextId + 1 }
          | none => some (j.goto t (.failed e))
      | _ => none
  | .commit t =>
      match j.phase t with
      | .inserted e row =>
          some { j.goto t (.committed e row) with stored := j.stored ++ [(e, row)] }
      | _ => none
  | .unanswered t =>
      match j.phase t with
      | .inserted e row =>
          some
            { j.goto t (.failed e) with
              stored := j.stored ++ [(e, row)]
              unsure := j.unsure ++ [e] }
      | _ => none
  | .fail t =>
      match j.phase t with
      | .emitted e => if sink = .jsonl then none else some (j.goto t (.failed e))
      | .begun e _ | .inserted e _ => some (j.goto t (.failed e))
      | _ => none
  | .publish t =>
      match j.phase t with
      | .committed e row => (j.goto t (.published e)).onBus (.copy t (message u env e row))
      | _ => none
  | .put t q => j.onBus (.put t q)
  | .append t written =>
      match j.phase t with
      | .emitted e => if sink = .jsonl then some (j.logEvent t e written) else none
      | .failed e => some (j.logEvent t e written)
      | .published e =>
          if sink = .both ∧ j.bus.1.puts t = [] then some (j.logEvent t e written) else none
      | _ => none
  | .finish t =>
      match j.phase t with
      | .published _ =>
          if sink = .pg ∧ j.bus.1.puts t = [] then some (j.goto t .idle) else none
      | _ => none
  | .subscribe q => j.onBus (.subscribe q)
  | .unsubscribe q => j.onBus (.unsubscribe q)
  | .get q => j.onBus (.get q)

/-- A run of the journal, from an empty log. -/
abbrev Run (acts : List (Deed ι τ)) (now : Vault.Time) (j : Journal ι τ) : Prop :=
  Runs.Steps (step u env sink) (init now) acts j

end Step

/-! ## What a step can do -/

section Moves

variable {u : Unicode} {env : Vault.Env} {sink : LogSink}

/-- `write_pg` may raise before it has committed. -/
def Raises (sink : LogSink) (e : Entry) : Phase → Prop
  | .emitted e' => e' = e ∧ sink ≠ .jsonl
  | .begun e' _ | .inserted e' _ => e' = e
  | _ => False

/-- `log_event` is next. -/
def Files (sink : LogSink) (e : Entry) : Phase → Prop
  | .emitted e' => e' = e ∧ sink = .jsonl
  | .failed e' => e' = e
  | .published e' => e' = e ∧ sink = .both
  | _ => False

inductive Moves (u : Unicode) (env : Vault.Env) (sink : LogSink) :
    Journal ι τ → Deed ι τ → Journal ι τ → Prop
  | advance {j : Journal ι τ} {elapsed : ℕ} :
      Moves u env sink j (.advance elapsed) { j with now := j.now + elapsed }
  | burn {j : Journal ι τ} : Moves u env sink j .burn { j with nextId := j.nextId + 1 }
  | emit {j : Journal ι τ} {t : τ} {e : Emitted} {e' : Entry} (ht : j.phase t = .idle)
      (he : e' = ⟨e, j.issued.length, j.stored.length⟩) :
      Moves u env sink j (.emit t e) { j.goto t (.emitted e') with issued := j.issued ++ [e'] }
  | begin {j : Journal ι τ} {t : τ} {e : Entry} (ht : j.phase t = .emitted e)
      (hsink : sink ≠ .jsonl) : Moves u env sink j (.begin t) (j.goto t (.begun e j.now))
  | insert {j : Journal ι τ} {t : τ} {e : Entry} {createdAt : Vault.Time} {row : EventRow}
      (ht : j.phase t = .begun e createdAt)
      (hrow : insertEvent u env j.nextId createdAt e.event = some row) :
      Moves u env sink j (.insert t) { j.goto t (.inserted e row) with nextId := j.nextId + 1 }
  | commit {j : Journal ι τ} {t : τ} {e : Entry} {row : EventRow}
      (ht : j.phase t = .inserted e row) :
      Moves u env sink j (.commit t)
        { j.goto t (.committed e row) with stored := j.stored ++ [(e, row)] }
  | unanswered {j : Journal ι τ} {t : τ} {e : Entry} {row : EventRow}
      (ht : j.phase t = .inserted e row) :
      Moves u env sink j (.unanswered t)
        { j.goto t (.failed e) with
          stored := j.stored ++ [(e, row)]
          unsure := j.unsure ++ [e] }
  | fail {j : Journal ι τ} {a : Deed ι τ} {t : τ} {e : Entry} (ht : Raises sink e (j.phase t)) :
      Moves u env sink j a (j.goto t (.failed e))
  | publish {j : Journal ι τ} {t : τ} {e : Entry} {row : EventRow} {bus : World ι τ Event}
      (ht : j.phase t = .committed e row)
      (hbus : j.bus.step (.copy t (message u env e row)) = some bus) :
      Moves u env sink j (.publish t) { j.goto t (.published e) with bus := bus }
  | bus {j : Journal ι τ} {a : Deed ι τ} {b : Act ι τ Event} {bus : World ι τ Event}
      (hbus : j.bus.step b = some bus) (hcopy : ∀ t event, b ≠ .copy t event) :
      Moves u env sink j a { j with bus := bus }
  | append {j : Journal ι τ} {t : τ} {e : Entry} {written : Bool}
      (ht : Files sink e (j.phase t)) :
      Moves u env sink j (.append t written) (j.logEvent t e written)
  | finish {j : Journal ι τ} {t : τ} {e : Entry} (ht : j.phase t = .published e)
      (hsink : sink = .pg) : Moves u env sink j (.finish t) (j.goto t .idle)

theorem Moves.of_onBus {j j' : Journal ι τ} {a : Deed ι τ} {b : Act ι τ Event}
    (hcopy : ∀ t event, b ≠ .copy t event) (h : j.onBus b = some j') :
    Moves u env sink j a j' := by
  obtain ⟨bus, hbus, rfl⟩ := Option.map_eq_some_iff.mp h
  exact .bus hbus hcopy

theorem Moves.of_step {j j' : Journal ι τ} {a : Deed ι τ} (h : step u env sink j a = some j') :
    Moves u env sink j a j' := by
  cases a with
  | advance elapsed =>
      cases h
      exact .advance
  | burn =>
      cases h
      exact .burn
  | emit t e =>
      cases ht : j.phase t <;> simp only [step, ht, Option.some.injEq, reduceCtorEq] at h
      case idle => exact h ▸ .emit ht rfl
  | begin t =>
      cases ht : j.phase t <;> simp only [step, ht, reduceCtorEq] at h
      case emitted e =>
        split at h
        · cases h
        · cases h
          exact .begin ht ‹_›
  | insert t =>
      cases ht : j.phase t <;> simp only [step, ht, reduceCtorEq] at h
      case begun e createdAt =>
        cases hrow : insertEvent u env j.nextId createdAt e.event with
        | none =>
            rw [hrow] at h
            cases h
            exact .fail (by rw [ht]; rfl)
        | some row =>
            rw [hrow] at h
            cases h
            exact .insert ht hrow
  | commit t =>
      cases ht : j.phase t <;> simp only [step, ht, reduceCtorEq] at h
      case inserted e row =>
        cases h
        exact .commit ht
  | unanswered t =>
      cases ht : j.phase t <;> simp only [step, ht, reduceCtorEq] at h
      case inserted e row =>
        cases h
        exact .unanswered ht
  | fail t =>
      cases ht : j.phase t <;> simp only [step, ht, reduceCtorEq] at h
      case emitted e =>
        split at h
        · cases h
        · cases h
          exact .fail (by rw [ht]; exact ⟨rfl, ‹_›⟩)
      case begun e createdAt =>
        cases h
        exact .fail (by rw [ht]; rfl)
      case inserted e row =>
        cases h
        exact .fail (by rw [ht]; rfl)
  | publish t =>
      cases ht : j.phase t <;> simp only [step, ht, reduceCtorEq] at h
      case committed e row =>
        obtain ⟨bus, hbus, rfl⟩ := Option.map_eq_some_iff.mp h
        exact .publish ht hbus
  | put t q => exact .of_onBus (fun _ _ hb => by cases hb) h
  | append t written =>
      cases ht : j.phase t <;> simp only [step, ht, reduceCtorEq] at h
      case emitted e =>
        split at h
        · cases h
          exact .append (by rw [ht]; exact ⟨rfl, ‹_›⟩)
        · cases h
      case failed e =>
        cases h
        exact .append (by rw [ht]; rfl)
      case published e =>
        split at h
        · rename_i hboth
          cases h
          exact .append (by rw [ht]; exact ⟨rfl, hboth.1⟩)
        · cases h
  | finish t =>
      cases ht : j.phase t <;> simp only [step, ht, reduceCtorEq] at h
      case published e =>
        split at h
        · rename_i hpg
          cases h
          exact .finish ht hpg.1
        · cases h
  | subscribe q => exact .of_onBus (fun _ _ hb => by cases hb) h
  | unsubscribe q => exact .of_onBus (fun _ _ hb => by cases hb) h
  | get q => exact .of_onBus (fun _ _ hb => by cases hb) h

end Moves

end Journal

end DlpServer.Logging
