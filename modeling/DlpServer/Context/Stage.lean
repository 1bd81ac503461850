import DlpServer.Context.Accumulator
import DlpServer.Lib.Runs

/-!
# The multi-turn stage (`app/context/stage.py`)

`multiturn_stage` loads the session state or makes a new one, accumulates the
turn in place and saves the object. Each of the three is atomic (the store
locks its dictionary, nothing locks the object), and each reads the clock.
-/

namespace DlpServer.Context

open Runs

/-- What one call of `multiturn_stage` brings: the spans of the turn and the
instants read by `load`, by `new_session` and by `accumulate`. -/
structure StageCall where
  spans : List Span
  loadedAt : ℚ
  createdAt : ℚ
  accumulatedAt : ℚ

section Stage

variable (sha256Hex : Text → Text) (cfg : AccumulatorConfig) (sessionId : String)

/-- First step: the state to work on, and the expired states to report. -/
def loadOrNew (S : Store) (c : StageCall) : Ref × List Ref × Store :=
  match S.load c.loadedAt sessionId with
  | (some r, fired, S) => (r, fired, S)
  | (none, fired, S) =>
      let (r, S) := S.newSession c.createdAt sessionId
      (r, fired, S)

/-- Second step: `turn_index` is one more than the turns of the object. -/
def accumulateStep (S : Store) (r : Ref) (c : StageCall) : Store :=
  S.modify r fun st =>
    accumulate sha256Hex cfg st c.spans (st.turnCount + 1) c.accumulatedAt

/-- `multiturn_stage`, without interference. -/
def multiturnStage (S : Store) (c : StageCall) : Store :=
  let (r, _, S) := loadOrNew sessionId S c
  (accumulateStep sha256Hex cfg S r c).save r

/-- Calls of one session, one after another. -/
abbrev runStages (S : Store) (calls : List StageCall) : Store :=
  run (multiturnStage sha256Hex cfg sessionId) S calls

end Stage

/-- The stored state of a session. -/
def Store.session (S : Store) (sessionId : String) : Option SessionState :=
  (S.states.get? sessionId).bind (S.heap[·]?)

/-- What `get_last_purpose` reads. -/
def getLastPurpose (S : Store) (now : ℚ) (sessionId : String) : Option String :=
  match S.load now sessionId with
  | (some r, _, S) => (S.heap[r]?).bind SessionState.purpose
  | (none, _, _) => none

/-! ## One call on a session that is not expired -/

theorem load_live {S : Store} {now : ℚ} {sid : String} {r : Ref} {st : SessionState}
    (hr : S.states.get? sid = some r) (hst : S.heap[r]? = some st)
    (hlive : now < st.expiresAt) : S.load now sid = (some r, [], S) := by
  have hno : ¬ ∃ st ∈ S.heap[r]?, st.isExpired now := by
    rintro ⟨st', hst', hexp⟩
    rw [Option.mem_def, hst] at hst'
    cases hst'
    exact absurd hlive (not_lt.mpr hexp)
  simp only [Store.load, hr, if_neg hno]

/-- `accumulate` leaves the identity and the lifetime of a session alone. -/
theorem accumulate_frame (sha256Hex : Text → Text) (cfg : AccumulatorConfig)
    (st : SessionState) (spans : List Span) (turnIndex : ℕ) (now : ℚ) :
    (accumulate sha256Hex cfg st spans turnIndex now).sessionId = st.sessionId ∧
      (accumulate sha256Hex cfg st spans turnIndex now).createdAt = st.createdAt ∧
      (accumulate sha256Hex cfg st spans turnIndex now).expiresAt = st.expiresAt ∧
      (accumulate sha256Hex cfg st spans turnIndex now).purpose = st.purpose :=
  ⟨rfl, rfl, rfl, rfl⟩

end DlpServer.Context
