import DlpServer.Lib.Dict
import DlpServer.Models

/-!
# Session states and their store (`app/context/store.py`)

A `SessionState` is an object that several requests can hold at once and that
`accumulate` changes in place, so the store keeps references: `heap` lists the
objects made so far, a reference is a position in it, and `states` is the
dictionary `_states` of `InMemorySessionStore`.
-/

namespace DlpServer.Context

/-- `(type, value_hash)`. -/
abbrev EntityKey : Type := String × Text

structure EntityRecord where
  type : String
  valueHash : Text
  firstTurn : ℕ
  lastTurn : ℕ
  count : ℕ
deriving DecidableEq

def EntityRecord.key (r : EntityRecord) : EntityKey := (r.type, r.valueHash)

structure GraphEdge where
  nodeA : EntityKey
  nodeB : EntityKey
  turnIndex : ℕ
deriving DecidableEq

/-- A line of `risk_reasons`, before it is formatted. -/
inductive RiskReason where
  | combo (types : Finset String) (weight : ℚ)
  | comboCapApplied (total capped : ℚ)
  | repeated (type : String) (valueHash : Text) (count : ℕ) (delta : ℚ)
  | repeatCapApplied (total capped : ℚ)
  | velocity (minTurns : ℕ) (elapsed weight : ℚ)
deriving DecidableEq

structure SessionState where
  sessionId : String
  createdAt : ℚ
  expiresAt : ℚ
  turnCount : ℕ
  entities : Dict EntityKey EntityRecord
  graphEdges : List GraphEdge
  turnTimestamps : List ℚ
  riskScore : ℚ
  riskReasons : List RiskReason
  purpose : Option String
deriving DecidableEq

def SessionState.isExpired (st : SessionState) (now : ℚ) : Prop := st.expiresAt ≤ now

instance (st : SessionState) (now : ℚ) : Decidable (st.isExpired now) :=
  inferInstanceAs (Decidable (_ ≤ _))

/-- A reference to a session state. -/
abbrev Ref : Type := ℕ

structure Store where
  heap : List SessionState
  states : Dict String Ref
  defaultTtlSeconds : ℚ

namespace Store

/-- `InMemorySessionStore.load`: the object under the id, and the objects whose
`on_expire` is due. An expired state is taken out. -/
def load (S : Store) (now : ℚ) (sessionId : String) : Option Ref × List Ref × Store :=
  match S.states.get? sessionId with
  | none => (none, [], S)
  | some r =>
      if ∃ st ∈ S.heap[r]?, st.isExpired now then
        (none, [r], { S with states := S.states.erase sessionId })
      else (some r, [], S)

/-- `InMemorySessionStore.save`. -/
def save (S : Store) (r : Ref) : Store :=
  match S.heap[r]? with
  | some st => { S with states := S.states.set st.sessionId r }
  | none => S

/-- The state `new_session` builds. -/
def freshState (S : Store) (now : ℚ) (sessionId : String) : SessionState where
  sessionId := sessionId
  createdAt := now
  expiresAt := now + S.defaultTtlSeconds
  turnCount := 0
  entities := []
  graphEdges := []
  turnTimestamps := []
  riskScore := 0
  riskReasons := []
  purpose := none

/-- `InMemorySessionStore.new_session`: a fresh object, not yet in the store. -/
def newSession (S : Store) (now : ℚ) (sessionId : String) : Ref × Store :=
  (S.heap.length, { S with heap := S.heap ++ [S.freshState now sessionId] })

/-- A change of an object in place. -/
def modify (S : Store) (r : Ref) (f : SessionState → SessionState) : Store :=
  { S with heap := S.heap.modify r f }

/-- The dictionary files each object under its own id: only `save` writes it. -/
def WellFormed (S : Store) : Prop :=
  ∀ sid r, S.states.get? sid = some r → ∃ st, S.heap[r]? = some st ∧ st.sessionId = sid

end Store

end DlpServer.Context
