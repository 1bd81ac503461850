import DlpServer.Pipeline.Core
import DlpServer.Vault.Spec

/-!
# The audit log (`app/logging/events.py`)

Every decision ends in a `LogEvent`. `write_pg` inserts it into `log_events` and
publishes what `serialize_event` makes of the row; `log_event` appends it to a file.
The checks of the table are those of its column types.
-/

namespace DlpServer.Logging

open Pipeline

/-! ## Events -/

/-- `LogEvent`. -/
structure LogEvent where
  sessionId : String
  direction : String
  provider : String
  verdictAction : WireAction
  latencyMs : ℤ
  purpose : Option String
  transforms : List (String × Action)
  entitiesSummary : List EntitySummary
  guardrailHits : List BlockReason
  failPolicyApplied : Bool
  reason : ReasonObj
  createdAt : Vault.Time
deriving DecidableEq

/-- `reason` of a row: the reason of the decision and `session_id_raw`. -/
structure StoredReason where
  reason : ReasonObj
  sessionIdRaw : String
deriving DecidableEq

/-- A row of `log_events`. -/
structure EventRow where
  eventId : ℕ
  sessionId : Ids.Uuid
  direction : String
  provider : Text
  purpose : Option Text
  verdictAction : WireAction
  transforms : List (String × Action)
  entitiesSummary : List EntitySummary
  guardrailHits : List BlockReason
  failPolicyApplied : Bool
  latencyMs : ℤ
  reason : StoredReason
  createdAt : Vault.Time
deriving DecidableEq

/-- What the API and the stream show of a row. -/
structure Event where
  eventId : ℕ
  sessionId : Ids.Uuid
  sessionIdRaw : String
  direction : String
  provider : Text
  purpose : Option Text
  verdictAction : WireAction
  transforms : List (String × Action)
  entitiesSummary : List EntitySummary
  guardrailHits : List BlockReason
  failPolicyApplied : Bool
  latencyMs : ℤ
  riskScore : Option PyFloat
  note : Option Text
  createdAt : Vault.Time
  reason : Option StoredReason
deriving DecidableEq

/-! ## Writing -/

section Write

variable (u : Unicode)

/-- `reason.get("risk_score")`. -/
def riskScoreOf : ReasonObj → Option PyFloat
  | .judged r => some r.riskScore
  | .failed | .unknownDirection _ => none

/-- `reason.get("note")`. -/
def noteOf : ReasonObj → Option Text
  | .judged r => r.note.map String.toList
  | .failed => none
  | .unknownDirection direction =>
      some ("unknown direction ".toList ++ Json.reprStr u (.lit direction))

/-- `serialize_event`. -/
def serializeEvent (row : EventRow) (includeReason : Bool) : Event where
  eventId := row.eventId
  sessionId := row.sessionId
  sessionIdRaw := row.reason.sessionIdRaw
  direction := row.direction
  provider := row.provider
  purpose := row.purpose
  verdictAction := row.verdictAction
  transforms := row.transforms
  entitiesSummary := row.entitiesSummary
  guardrailHits := row.guardrailHits
  failPolicyApplied := row.failPolicyApplied
  latencyMs := row.latencyMs
  riskScore := riskScoreOf row.reason.reason
  note := noteOf u row.reason.reason
  createdAt := row.createdAt
  reason := if includeReason then some row.reason else none

/-- The strings of `transforms`. -/
def transformTexts (transforms : List (String × Action)) : List Text :=
  transforms.map fun t => t.1.toList

/-- The strings of `entities_summary`. -/
def summaryTexts (summary : List EntitySummary) : List Text :=
  summary.flatMap fun s => [s.type.toList, s.maskedPreview]

/-- The strings of `guardrail_hits`. -/
def hitTexts (hits : List BlockReason) : List Text :=
  hits.flatMap fun hit => hit.flatMap fun item => item.1.toList :: (item.2.map String.toList).toList

/-- The strings of `reason_obj`. -/
def reasonTexts : ReasonObj → List Text
  | .judged r =>
      [r.verdict.toList, r.provider.toList] ++ (r.purpose.map String.toList).toList ++
        (r.note.map String.toList).toList ++ transformTexts r.transforms ++
        summaryTexts r.entitiesSummary ++ hitTexts r.guardrailHits
  | .failed => ["pipeline".toList]
  | .unknownDirection direction => ["unknown direction ".toList ++ Json.reprStr u (.lit direction)]

/-- The strings that go into the `JSONB` columns. -/
def LogEvent.jsonbTexts (e : LogEvent) : List Text :=
  transformTexts e.transforms ++ summaryTexts e.entitiesSummary ++ hitTexts e.guardrailHits ++
    reasonTexts u e.reason ++ [e.sessionId.toList]

/-- `direction_type`. -/
def directionType : List String := ["input", "output"]

/-- The largest `INT`. -/
def maxInt : ℤ := 2147483647

/-- The enumeration, the `JSONB` columns, which store no NUL and of floats the numbers
alone, and the `INT`. -/
def LogEvent.Fits (e : LogEvent) : Prop :=
  e.direction ∈ directionType ∧ (∀ t ∈ e.jsonbTexts u, '\x00' ∉ t) ∧
    (∀ x ∈ riskScoreOf e.reason, x.isFinite = true) ∧
    -maxInt - 1 ≤ e.latencyMs ∧ e.latencyMs ≤ maxInt

instance (e : LogEvent) : Decidable (e.Fits u) := inferInstanceAs (Decidable (_ ∧ _))

/-- `_INSERT_SQL`: the row, unless a column type rejects a value. -/
def insertEvent (env : Vault.Env) (eventId : ℕ) (createdAt : Vault.Time) (e : LogEvent) :
    Option EventRow :=
  match Vault.varchar 32 e.provider.toList, Vault.nullable e.purpose with
  | .ok provider, .ok purpose =>
      if e.Fits u then
        some
          { eventId := eventId
            sessionId := env.coerce e.sessionId
            direction := e.direction
            provider := provider
            purpose := purpose
            verdictAction := e.verdictAction
            transforms := e.transforms
            entitiesSummary := e.entitiesSummary
            guardrailHits := e.guardrailHits
            failPolicyApplied := e.failPolicyApplied
            latencyMs := e.latencyMs
            reason := ⟨e.reason, e.sessionId⟩
            createdAt := createdAt }
      else none
  | _, _ => none

/-- The row that `write_pg` builds for `serialize_event` beside the one in the table. -/
def broadcastRow (env : Vault.Env) (eventId : ℕ) (createdAt : Vault.Time) (e : LogEvent) :
    EventRow where
  eventId := eventId
  sessionId := env.coerce e.sessionId
  direction := e.direction
  provider := e.provider.toList
  purpose := e.purpose.map String.toList
  verdictAction := e.verdictAction
  transforms := e.transforms
  entitiesSummary := e.entitiesSummary
  guardrailHits := e.guardrailHits
  failPolicyApplied := e.failPolicyApplied
  latencyMs := e.latencyMs
  reason := ⟨e.reason, e.sessionId⟩
  createdAt := createdAt

end Write

/-! ## What goes in -/

variable {u : Unicode} {env : Vault.Env} {eventId : ℕ} {createdAt : Vault.Time}
  {e : LogEvent} {row : EventRow}

theorem nullable_ok {purpose : Option String} {p : Option Text}
    (h : Vault.nullable purpose = .ok p) : p = purpose.map String.toList := by
  cases purpose with
  | none =>
      cases h
      rfl
  | some t =>
      obtain ⟨text, htext, rfl⟩ : ∃ text, Vault.textColumn t.toList = .ok text ∧ p = some text := by
        cases ht : Vault.textColumn t.toList with
        | error e =>
            rw [Vault.nullable, ht] at h
            cases h
        | ok text =>
            rw [Vault.nullable, ht] at h
            cases h
            exact ⟨text, rfl, rfl⟩
      unfold Vault.textColumn at htext
      split at htext
      · cases htext
      · cases htext
        rfl

/-- A row holds what was sent; the column may have cut blanks off a long provider. -/
theorem insertEvent_some (h : insertEvent u env eventId createdAt e = some row) :
    e.Fits u ∧
      row = { broadcastRow env eventId createdAt e with provider := e.provider.toList.take 32 } := by
  unfold insertEvent at h
  cases hv : Vault.varchar 32 e.provider.toList with
  | error x =>
      rw [hv] at h
      cases h
  | ok provider =>
      cases hn : Vault.nullable e.purpose with
      | error x =>
          rw [hv, hn] at h
          cases h
      | ok purpose =>
          rw [hv, hn] at h
          dsimp only at h
          split at h
          · rename_i hfits
            obtain rfl := Option.some.inj h
            refine ⟨hfits, ?_⟩
            rw [(Vault.varchar_ok hv).1, nullable_ok hn]
            rfl
          · cases h

/-- What is broadcast is what the table holds. -/
theorem broadcastRow_eq (hprovider : e.provider.toList.length ≤ 32)
    (h : insertEvent u env eventId createdAt e = some row) :
    broadcastRow env eventId createdAt e = row := by
  rw [(insertEvent_some h).2, List.take_of_length_le hprovider]
  rfl

end DlpServer.Logging
