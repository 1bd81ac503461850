import DlpServer.Lib.Grouping
import DlpServer.Logging.Events

/-!
# Reading the log (`app/api.py`)

`/events` lists the rows that its filters admit, the newest first and not more than a
page; `/events/{session_id}` shows a session from its first row on. Both order the rows
by `created_at`, and by `event_id` where the clock gave the same instant.
-/

namespace DlpServer.Logging

open Pipeline

/-! ## Requests -/

/-- What `raise HTTPException` answers. -/
structure HttpException where
  statusCode : ℕ
  detail : Text
deriving DecidableEq

/-- The wire values of `verdict_action`. -/
def wireName : WireAction → String
  | .allow => "allow"
  | .block => "block"
  | .transform => "transform"

/-- `_VERDICTS`. -/
def verdicts : List String := ["allow", "block", "transform"]

/-- `_EVENTS_LIMIT_MAX`. -/
def eventsLimitMax : ℕ := 500

/-- Nine hours, the offset of `_KST`. -/
def kstOffset : Vault.Time := 9 * 3600 * Vault.second

/-- What `datetime.fromisoformat` reads: a local time, or an instant. -/
inductive Stamp where
  | naive (localTime : Vault.Time)
  | aware (instant : Vault.Time)

/-- `_parse_since`; what is read of the text is a parameter. -/
def parseSince (fromisoformat : Text → Option Stamp) (since : Text) :
    Except HttpException Vault.Time :=
  match fromisoformat since with
  | none => .error ⟨422, "since 는 ISO 8601 타임스탬프여야 함".toList⟩
  | some (.naive localTime) => .ok (localTime - kstOffset)
  | some (.aware instant) => .ok instant

/-- The conditions of a listing. -/
structure Filter where
  direction : Option String
  verdict : Option String
  sessionId : Option Ids.Uuid
  since : Option Vault.Time

/-- The `WHERE` clause. -/
def Filter.admits (f : Filter) (row : EventRow) : Bool :=
  f.direction.all (row.direction == ·) && f.verdict.all (wireName row.verdictAction == ·) &&
    f.sessionId.all (row.sessionId == ·) && f.since.all fun since => decide (since ≤ row.createdAt)

/-- What is checked of `direction`, for a listing and for a stream. -/
def checkDirection : Option String → Except HttpException (Option String)
  | some direction =>
      if direction ∈ directionType then .ok (some direction)
      else .error ⟨422, "direction 은 input|output".toList⟩
  | none => .ok none

/-- What is checked of `verdict`, for a listing and for a stream. -/
def checkVerdict : Option String → Except HttpException (Option String)
  | some verdict =>
      if verdict ∈ verdicts then .ok (some verdict)
      else .error ⟨422, "verdict 은 allow|block|transform".toList⟩
  | none => .ok none

/-! ## Queries -/

/-- What the rows are ordered by. -/
def EventRow.key (row : EventRow) : Vault.Time ×ₗ ℕ := toLex (row.createdAt, row.eventId)

/-- `created_at ASC, event_id ASC`. -/
def Older (a b : EventRow) : Prop := a.key ≤ b.key

/-- `created_at DESC, event_id DESC`. -/
def Newer (a b : EventRow) : Prop := b.key ≤ a.key

instance : DecidableRel Older := fun a b => inferInstanceAs (Decidable (a.key ≤ b.key))

instance : DecidableRel Newer := fun a b => inferInstanceAs (Decidable (b.key ≤ a.key))

instance : Std.Total Older := ⟨fun a b => le_total a.key b.key⟩

instance : Std.Total Newer := ⟨fun a b => le_total b.key a.key⟩

instance : IsTrans EventRow Older := ⟨fun _ _ _ => le_trans⟩

instance : IsTrans EventRow Newer := ⟨fun _ _ _ hab hbc => le_trans hbc hab⟩

/-- `_fetch_events`. -/
def fetchEvents (rows : List EventRow) (admits : EventRow → Bool)
    (order : EventRow → EventRow → Prop) [DecidableRel order] (limit : Option ℕ) :
    List EventRow :=
  let found := (rows.filter admits).insertionSort order
  match limit with
  | some limit => found.take limit
  | none => found

section Routes

variable (u : Unicode) (rows : List EventRow)

/-- The rows of one page of `/events`. -/
def page (limit : ℕ+) (f : Filter) : List EventRow :=
  fetchEvents rows f.admits Newer (some (min limit eventsLimitMax))

/-- `GET /events`. -/
def events (env : Vault.Env) (fromisoformat : Text → Option Stamp) (limit : ℕ+)
    (direction verdict sessionId : Option String) (since : Option Text) :
    Except HttpException (List Event) := do
  let direction ← checkDirection direction
  let verdict ← checkVerdict verdict
  let since ← since.mapM (parseSince fromisoformat)
  let f : Filter := ⟨direction, verdict, sessionId.map env.coerce, since⟩
  .ok ((page rows limit f).map fun row => serializeEvent u row false)

/-- The rows of `/events/{session_id}`. -/
def timeline (session : Ids.Uuid) : List EventRow :=
  fetchEvents rows (fun row => row.sessionId == session) Older none

/-- `GET /events/{session_id}`. -/
def sessionTimeline (env : Vault.Env) (sessionId : String) : List Event :=
  (timeline rows (env.coerce sessionId)).map fun row => serializeEvent u row true

end Routes

/-! ## What is listed -/

section Listed

variable {rows : List EventRow} {a b : EventRow}

theorem mem_page {limit : ℕ+} {f : Filter} (h : a ∈ page rows limit f) :
    a ∈ rows ∧ f.admits a = true := by
  have hsorted := List.mem_of_mem_take h
  exact List.mem_filter.mp ((List.mem_insertionSort Newer).mp hsorted)

theorem length_page_le (limit : ℕ+) (f : Filter) :
    (page rows limit f).length ≤ min (limit : ℕ) eventsLimitMax :=
  List.length_take_le _ _

/-- A row that the filters admit is on the page, or the page is full of rows that are
not older. -/
theorem page_newest {limit : ℕ+} {f : Filter} (ha : a ∈ rows) (hadmits : f.admits a = true) :
    a ∈ page rows limit f ∨
      (page rows limit f).length = min (limit : ℕ) eventsLimitMax ∧
        ∀ b ∈ page rows limit f, Newer b a := by
  have hmem : a ∈ (rows.filter f.admits).insertionSort Newer :=
    (List.mem_insertionSort Newer).mpr (List.mem_filter.mpr ⟨ha, hadmits⟩)
  have hsorted := List.pairwise_insertionSort Newer (rows.filter f.admits)
  exact Grouping.mem_take_or_full hsorted hmem _

theorem mem_timeline {session : Ids.Uuid} :
    a ∈ timeline rows session ↔ a ∈ rows ∧ a.sessionId = session := by
  unfold timeline fetchEvents
  dsimp only
  rw [List.mem_insertionSort, List.mem_filter, beq_iff_eq]

/-- Two rows stand in the timeline in the order of their keys. -/
theorem timeline_order {session : Ids.Uuid} (ha : a ∈ timeline rows session)
    (hb : b ∈ timeline rows session) (hlt : a.key < b.key) :
    [a, b].Sublist (timeline rows session) := by
  refine Grouping.pair_sublist (List.pairwise_insertionSort Older _) ha hb (not_le.mpr hlt) ?_
  rintro rfl
  exact lt_irrefl _ hlt

end Listed

end DlpServer.Logging
