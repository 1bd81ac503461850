import DlpServer.Logging.Timeline
import DlpServer.Policy.Seed

/-!
# The figures of the dashboard (`/stats` of `app/api.py`)

`stats` sends five SELECTs, one after the other, while decisions are being logged, so that
each of them may see a longer table than the one before. The figures of one SELECT add up
among themselves; those of a later one are not smaller, and the same where nothing was
committed in between (`stats_agree`).

The averages of `latency_ms`, which the database computes with floats, are left out.
-/

namespace DlpServer.Logging

open Grouping Pipeline

/-! ## The request -/

/-- How a route fails: by `HTTPException`, or by an exception that nothing catches. -/
inductive Failure where
  | http (e : HttpException)
  | uncaught
deriving DecidableEq

/-- `sys.get_int_max_str_digits()`. -/
def maxStrDigits : ℕ := 4300

/-- `_parse_window`, with `re.fullmatch(r"(\d+)([mh])", window.strip())`. -/
def parseWindow (u : Unicode) (window : Text) : Except Failure ℕ :=
  let body := u.strip window
  let digits := body.dropLast
  if digits ≠ [] ∧ digits.all u.isDecimal ∧
      (body.getLast? = some 'm' ∨ body.getLast? = some 'h') then
    if maxStrDigits < digits.length then .error .uncaught
    else if u.intOf digits = 0 then .error (.http ⟨422, "window 은 예: 15m, 1h".toList⟩)
    else .ok (if body.getLast? = some 'm' then u.intOf digits else u.intOf digits * 60)
  else .error (.http ⟨422, "window 은 예: 15m, 1h".toList⟩)

def minute : Vault.Time := 60 * Vault.second

def hour : Vault.Time := 60 * minute

/-- `datetime.min` in `_KST`, counted from 1970. -/
def datetimeMin : Vault.Time := -62135596800 * Vault.second - kstOffset

/-! ## The queries -/

/-- `WHERE created_at >= %s`. -/
def recent (since : Vault.Time) (rows : List EventRow) : List EventRow :=
  rows.filter fun row => since ≤ row.createdAt

/-- The counts of `summary`. -/
structure Summary where
  events : ℕ
  sessions : ℕ
  input : ℕ
  output : ℕ
  allow : ℕ
  block : ℕ
  transform : ℕ
  guardrailHits : ℕ
  failClosed : ℕ
deriving DecidableEq

/-- `count(*) FILTER (WHERE verdict_action = %s)`. -/
def decided (action : WireAction) (rows : List EventRow) : ℕ :=
  rows.countP fun row => row.verdictAction = action

def summarize (rows : List EventRow) : Summary where
  events := rows.length
  sessions := (rows.map EventRow.sessionId).dedup.length
  input := rows.countP fun row => row.direction = "input"
  output := rows.countP fun row => row.direction = "output"
  allow := decided .allow rows
  block := decided .block rows
  transform := decided .transform rows
  guardrailHits := rows.countP fun row => row.guardrailHits ≠ []
  failClosed := rows.countP fun row => row.failPolicyApplied

/-- `coalesce(purpose, '(none)')`. -/
def purposeName (row : EventRow) : Text := row.purpose.getD "(none)".toList

/-- `GROUP BY 1 ORDER BY 2 DESC`; the order of equal counts is left open. -/
def byPurpose (order : RowOrder (Text × ℕ)) (rows : List EventRow) : List (Text × ℕ) :=
  (order.arrange (counts purposeName rows)).insertionSort fun a b => b.2 ≤ a.2

/-- `e->>'type'` of the elements of `entities_summary`. -/
def entityTypes (rows : List EventRow) : List String :=
  rows.flatMap fun row => row.entitiesSummary.map EntitySummary.type

/-- `e->>'action'` of the elements of `transforms`. -/
def actions (rows : List EventRow) : List String :=
  rows.flatMap fun row => row.transforms.map fun t => Policy.actionName t.2

/-- `_STATS_TOP_N`. -/
def statsTopN : ℕ := 10

section Top

variable {κ : Type*} [LinearOrder κ] (collate : String → κ)

/-- `ORDER BY 2 DESC, 1`; `collate` is the collation of the database. -/
def rank (g : String × ℕ) : ℕᵒᵈ ×ₗ κ := toLex (OrderDual.toDual g.2, collate g.1)

/-- `GROUP BY 1 ORDER BY 2 DESC, 1 LIMIT %s`. -/
def topCounts (names : List String) : List (String × ℕ) :=
  ((counts id names).insertionSort fun a b => rank collate a ≤ rank collate b).take statsTopN

end Top

/-- An element of `buckets`. -/
structure Bucket where
  ts : Vault.Time
  allow : ℕ
  block : ℕ
  transform : ℕ
deriving DecidableEq

def Bucket.total (b : Bucket) : ℕ := b.allow + b.block + b.transform

/-- `date_trunc`, where the clocks of the database are `offset` ahead. -/
def dateTrunc (offset unit t : Vault.Time) : Vault.Time := (t + offset) / unit * unit - offset

/-- `GROUP BY 1 ORDER BY 1`. -/
def bucketsOf (offset unit : Vault.Time) (rows : List EventRow) : List Bucket :=
  ((groupBy (fun row => dateTrunc offset unit row.createdAt) rows).map fun g =>
    ⟨g.1, decided .allow g.2, decided .block g.2, decided .transform g.2⟩).insertionSort
      fun a b => a.ts ≤ b.ts

/-- The table `log_events` as each SELECT sees it. -/
structure Reads where
  summary : List EventRow
  byPurpose : List EventRow
  byEntityType : List EventRow
  byAction : List EventRow
  buckets : List EventRow

/-- What `/stats` answers. -/
structure Stats where
  window : Text
  generatedAt : Vault.Time
  summary : Summary
  byPurpose : List (Text × ℕ)
  byEntityType : List (String × ℕ)
  byAction : List (String × ℕ)
  buckets : List Bucket
deriving DecidableEq

/-- `"minute" if minutes <= 120 else "hour"`. -/
def bucketUnit (minutes : ℕ) : Vault.Time := if minutes ≤ 120 then minute else hour

/-- `GET /stats`; `clock` and `later` are what the two calls of `datetime.now` give. -/
def stats {κ : Type*} [LinearOrder κ] (u : Unicode) (collate : String → κ)
    (order : RowOrder (Text × ℕ)) (offset : Vault.Time) (reads : Reads) (clock later : Vault.Time)
    (window : Text) : Except Failure Stats := do
  let minutes ← parseWindow u window
  let since := clock - minutes * minute
  if since < datetimeMin then .error .uncaught
  else
    .ok
      { window := window
        generatedAt := later
        summary := summarize (recent since reads.summary)
        byPurpose := byPurpose order (recent since reads.byPurpose)
        byEntityType := topCounts collate (entityTypes (recent since reads.byEntityType))
        byAction := topCounts collate (actions (recent since reads.byAction))
        buckets := bucketsOf offset (bucketUnit minutes) (recent since reads.buckets) }

/-! ## Purposes and rankings -/

/-- Each name is counted in full. -/
structure Tallied {κ : Type*} [DecidableEq κ] (names : List κ) (shown : List (κ × ℕ)) : Prop where
  counted : ∀ g ∈ shown, g.2 = names.count g.1 ∧ 0 < g.2
  distinct : (shown.map Prod.fst).Nodup

/-- What is shown of `names` are those that come first, and the more frequent the earlier. -/
structure Ranked {κ : Type*} [LinearOrder κ] (collate : String → κ) (names : List String)
    (shown : List (String × ℕ)) : Prop extends Tallied names shown where
  length : shown.length ≤ statsTopN
  ordered : shown.Pairwise fun a b => rank collate a ≤ rank collate b
  others : ∀ name ∈ names, name ∈ shown.map Prod.fst ∨
    shown.length = statsTopN ∧ ∀ g ∈ shown, rank collate g ≤ rank collate (name, names.count name)

theorem count_map {α κ : Type*} [DecidableEq κ] (key : α → κ) (rows : List α) (k : κ) :
    (rows.map key).count k = rows.countP fun r => key r = k := by
  rw [List.count_eq_countP, List.countP_map]
  refine List.countP_congr fun r _ => ?_
  simp

/-- What is listed of the counts, in any order, tallies the names. -/
theorem Tallied.of_counts {α κ : Type*} [DecidableEq κ] {key : α → κ} {rows : List α}
    {shown : List (κ × ℕ)} (h : shown.Subperm (counts key rows)) :
    Tallied (rows.map key) shown where
  counted g hg := by
    rw [count_map]
    exact mem_counts.mp (h.subset hg)
  distinct := by
    obtain ⟨l, hperm, hsub⟩ := h
    exact (hperm.map Prod.fst).nodup_iff.mp ((nodup_counts key rows).sublist (hsub.map Prod.fst))

theorem topCounts_ranked {κ : Type*} [LinearOrder κ] (collate : String → κ)
    (names : List String) : Ranked collate names (topCounts collate names) := by
  have hperm := List.perm_insertionSort (fun a b => rank collate a ≤ rank collate b)
    (counts id names)
  have : Std.Total fun a b : String × ℕ => rank collate a ≤ rank collate b :=
    ⟨fun a b => le_total _ _⟩
  have : IsTrans (String × ℕ) fun a b => rank collate a ≤ rank collate b :=
    ⟨fun _ _ _ => le_trans⟩
  have hsorted := List.pairwise_insertionSort (fun a b => rank collate a ≤ rank collate b)
    (counts id names)
  have htallied : Tallied names (topCounts collate names) := by
    have h : Tallied (names.map id) (topCounts collate names) :=
      Tallied.of_counts (((List.take_sublist statsTopN _).subperm).trans hperm.subperm)
    rwa [List.map_id] at h
  refine { htallied with length := List.length_take_le _ _, ordered := hsorted.take, others := ?_ }
  intro name hname
  have hcount : (name, names.count name) ∈ counts id names := by
    refine mem_counts.mpr ⟨?_, List.count_pos_iff.mpr hname⟩
    rw [← count_map, List.map_id]
  rcases mem_take_or_full hsorted (hperm.mem_iff.mpr hcount) statsTopN with htake | hfull
  · exact Or.inl (List.mem_map_of_mem htake)
  · exact Or.inr hfull

theorem byPurpose_perm (order : RowOrder (Text × ℕ)) (rows : List EventRow) :
    (byPurpose order rows).Perm (counts purposeName rows) :=
  (List.perm_insertionSort _ _).trans (order.perm _)

/-! ## Buckets -/

section Buckets

variable {offset unit : Vault.Time} (hunit : 0 < unit)
include hunit

/-- The instants of a bucket. -/
theorem dateTrunc_eq_iff {t t' : Vault.Time} :
    dateTrunc offset unit t = dateTrunc offset unit t' ↔
      dateTrunc offset unit t' ≤ t ∧ t < dateTrunc offset unit t' + unit := by
  have hmul : dateTrunc offset unit t = dateTrunc offset unit t' ↔
      (t + offset) / unit = (t' + offset) / unit := by
    rw [dateTrunc, dateTrunc, sub_left_inj]
    exact mul_left_inj' hunit.ne'
  rw [hmul, dateTrunc]
  generalize (t' + offset) / unit = q
  constructor
  · rintro rfl
    have hle := Int.ediv_mul_le (t + offset) hunit.ne'
    have hlt := Int.lt_ediv_add_one_mul_self (t + offset) hunit
    rw [add_mul, one_mul] at hlt
    constructor <;> linarith
  · rintro ⟨hle, hlt⟩
    apply le_antisymm
    · apply Int.lt_add_one_iff.mp
      rw [Int.ediv_lt_iff_lt_mul hunit, add_mul, one_mul]
      linarith
    · rw [Int.le_ediv_iff_mul_le hunit]
      linarith

/-- Buckets lie apart. -/
theorem dateTrunc_apart {t t' : Vault.Time}
    (h : dateTrunc offset unit t < dateTrunc offset unit t') :
    dateTrunc offset unit t + unit ≤ dateTrunc offset unit t' := by
  rw [dateTrunc, dateTrunc, sub_lt_sub_iff_right] at h
  have hlt := lt_of_mul_lt_mul_right h hunit.le
  have hle := mul_le_mul_of_nonneg_right (Int.add_one_le_iff.mpr hlt) hunit.le
  rw [add_mul, one_mul] at hle
  rw [dateTrunc, dateTrunc]
  linarith

omit hunit in
theorem decided_total (rows : List EventRow) :
    decided .allow rows + decided .block rows + decided .transform rows = rows.length := by
  induction rows with
  | nil => rfl
  | cons row rows ih =>
      simp only [decided, List.countP_cons, List.length_cons] at ih ⊢
      cases row.verdictAction <;> simp <;> omega

end Buckets

/-- Each bucket counts the rows of its unit of time, and there is one for each row. -/
structure Charted (unit : Vault.Time) (rows : List EventRow) (buckets : List Bucket) : Prop where
  ordered : buckets.Pairwise fun a b => a.ts + unit ≤ b.ts
  counted : ∀ b ∈ buckets, ∀ inside, inside = rows.filter (fun row =>
    b.ts ≤ row.createdAt ∧ row.createdAt < b.ts + unit) →
      inside ≠ [] ∧ b.allow = decided .allow inside ∧ b.block = decided .block inside ∧
        b.transform = decided .transform inside
  covered : ∀ row ∈ rows, ∃ b ∈ buckets, b.ts ≤ row.createdAt ∧ row.createdAt < b.ts + unit

section Buckets

variable {offset unit : Vault.Time} {rows : List EventRow}

theorem bucketsOf_perm :
    (bucketsOf offset unit rows).Perm
      ((groupBy (fun row => dateTrunc offset unit row.createdAt) rows).map fun g =>
        ⟨g.1, decided .allow g.2, decided .block g.2, decided .transform g.2⟩) :=
  List.perm_insertionSort _ _

/-- A verdict is counted in the buckets as often as in the rows. -/
theorem sum_bucketsOf (action : WireAction) (count : Bucket → ℕ)
    (hcount : ∀ t (part : List EventRow), count ⟨t, decided .allow part, decided .block part,
      decided .transform part⟩ = decided action part) :
    ((bucketsOf offset unit rows).map count).sum = decided action rows := by
  rw [(bucketsOf_perm.map count).sum_eq, List.map_map]
  have hsum := sum_groups (fun row : EventRow => dateTrunc offset unit row.createdAt)
    (fun row => row.verdictAction = action) rows
  rw [decided, ← hsum]
  exact congrArg List.sum (List.map_congr_left fun g _ => hcount g.1 g.2)

/-- A bucket stands for the rows of a group. -/
theorem mem_bucketsOf {b : Bucket} : b ∈ bucketsOf offset unit rows ↔
    ∃ row ∈ rows, ∃ part, part = rows.filter (fun r =>
      dateTrunc offset unit r.createdAt = dateTrunc offset unit row.createdAt) ∧
        b = ⟨dateTrunc offset unit row.createdAt, decided .allow part, decided .block part,
          decided .transform part⟩ := by
  rw [bucketsOf_perm.mem_iff, List.mem_map]
  constructor
  · rintro ⟨g, hg, rfl⟩
    obtain ⟨hpart, row, hrow, hkey⟩ := mem_groupBy hg
    exact ⟨row, hrow, g.2, by rw [hpart, hkey], by rw [hkey]⟩
  · rintro ⟨row, hrow, part, hpart, rfl⟩
    refine ⟨(_, part), List.mem_map.mpr ⟨dateTrunc offset unit row.createdAt, ?_, ?_⟩, rfl⟩
    · exact List.mem_dedup.mpr (List.mem_map.mpr ⟨row, hrow, rfl⟩)
    · rw [hpart]
      rfl

theorem nodup_bucketsOf : ((bucketsOf offset unit rows).map Bucket.ts).Nodup := by
  rw [(bucketsOf_perm.map Bucket.ts).nodup_iff, List.map_map]
  exact nodup_keys _ rows

theorem bucketsOf_charted (hunit : 0 < unit) : Charted unit rows (bucketsOf offset unit rows) where
  ordered := by
    have : Std.Total fun a b : Bucket => a.ts ≤ b.ts := ⟨fun a b => le_total a.ts b.ts⟩
    have : IsTrans Bucket fun a b => a.ts ≤ b.ts := ⟨fun _ _ _ => le_trans⟩
    have hsorted : (bucketsOf offset unit rows).Pairwise fun a b => a.ts ≤ b.ts :=
      List.pairwise_insertionSort _ _
    have hdistinct : (bucketsOf offset unit rows).Pairwise fun a b => a.ts ≠ b.ts :=
      List.pairwise_map.mp nodup_bucketsOf
    refine (hsorted.and hdistinct).imp_of_mem fun {a b} ha hb hab => ?_
    obtain ⟨row, -, part, -, rfl⟩ := mem_bucketsOf.mp ha
    obtain ⟨row', -, part', -, rfl⟩ := mem_bucketsOf.mp hb
    exact dateTrunc_apart hunit (lt_of_le_of_ne hab.1 hab.2)
  counted b hb inside hinside := by
    obtain ⟨row, hrow, part, hpart, rfl⟩ := mem_bucketsOf.mp hb
    obtain rfl : part = inside := by
      rw [hpart, hinside]
      refine List.filter_congr fun r _ => ?_
      rw [decide_eq_decide]
      exact dateTrunc_eq_iff hunit
    refine ⟨List.ne_nil_of_mem (a := row) ?_, rfl, rfl, rfl⟩
    rw [hpart]
    exact List.mem_filter.mpr ⟨hrow, decide_eq_true rfl⟩
  covered row hrow := by
    refine ⟨_, mem_bucketsOf.mpr ⟨row, hrow, _, rfl, rfl⟩, ?_⟩
    exact (dateTrunc_eq_iff hunit).mp rfl

end Buckets

/-! ## The figures and the log -/

/-- The counts of `summary` add up, and they count calls of `_emit_log`, each once; `/events`
lists as many rows, on a page that is long enough. -/
structure Totals {ι τ : Type*} (j : Journal ι τ) (since : Vault.Time) (s : Summary) : Prop where
  directions : s.input + s.output = s.events
  verdicts : s.allow + s.block + s.transform = s.events
  within : s.sessions ≤ s.events ∧ s.guardrailHits ≤ s.events ∧ s.failClosed ≤ s.events
  calls : ∃ calls : List Entry, calls.Nodup ∧ calls ⊆ j.issued ∧ calls.length = s.events
  listed : ∀ limit : ℕ+, (page j.rows limit ⟨none, none, none, some since⟩).length =
    min (min (limit : ℕ) eventsLimitMax) s.events

/-- The figures of the later SELECTs are not smaller than those of `summary`. -/
structure Stats.Grows (s : Stats) : Prop where
  purposes : s.summary.events ≤ (s.byPurpose.map Prod.snd).sum
  buckets : (s.byPurpose.map Prod.snd).sum ≤ (s.buckets.map Bucket.total).sum
  allow : s.summary.allow ≤ (s.buckets.map Bucket.allow).sum
  block : s.summary.block ≤ (s.buckets.map Bucket.block).sum
  transform : s.summary.transform ≤ (s.buckets.map Bucket.transform).sum

/-- The figures of all SELECTs add up to the same. -/
structure Stats.Adds (s : Stats) : Prop where
  purposes : s.summary.events = (s.byPurpose.map Prod.snd).sum
  buckets : s.summary.events = (s.buckets.map Bucket.total).sum
  allow : s.summary.allow = (s.buckets.map Bucket.allow).sum
  block : s.summary.block = (s.buckets.map Bucket.block).sum
  transform : s.summary.transform = (s.buckets.map Bucket.transform).sum

section Totals

variable {ι τ : Type*} [DecidableEq ι] [DecidableEq τ] {u : Unicode} {env : Vault.Env}
  {sink : LogSink} {acts : List (Deed ι τ)} {start : Vault.Time} {j : Journal ι τ}

/-- The column type admits two directions. -/
theorem direction_of_run (hrun : Journal.Run u env sink acts start j) {row : EventRow}
    (hrow : row ∈ j.rows) : row.direction = "input" ∨ row.direction = "output" := by
  obtain ⟨p, hp, rfl⟩ := List.mem_map.mp hrow
  obtain ⟨hfits, heq⟩ := ((Journal.Run.content hrun).stored p hp).eq
  have hdirection : p.2.direction ∈ directionType := by
    rw [heq]
    exact hfits.1
  rcases List.mem_cons.mp hdirection with h | h
  · exact Or.inl h
  · exact Or.inr (List.mem_singleton.mp h)

theorem length_page (rows : List EventRow) (since : Vault.Time) (limit : ℕ+) :
    (page rows limit ⟨none, none, none, some since⟩).length =
      min (min (limit : ℕ) eventsLimitMax) (recent since rows).length := by
  have hfilter : rows.filter (Filter.admits ⟨none, none, none, some since⟩) =
      recent since rows := by
    refine List.filter_congr fun row _ => ?_
    simp [Filter.admits]
  rw [page, fetchEvents, hfilter, List.length_take, List.length_insertionSort]

theorem totals_of_run (hrun : Journal.Run u env sink acts start j) (since : Vault.Time) :
    Totals j since (summarize (recent since j.rows)) where
  directions := by
    have hsplit := List.length_eq_countP_add_countP
      (fun row : EventRow => decide (row.direction = "input")) (l := recent since j.rows)
    show _ + _ = (recent since j.rows).length
    rw [hsplit]
    refine congrArg _ (List.countP_congr fun row hrow => ?_)
    have hdirection := direction_of_run hrun (List.mem_of_mem_filter hrow)
    rcases hdirection with h | h <;> simp [h]
  verdicts := decided_total _
  within := by
    refine ⟨?_, List.countP_le_length, List.countP_le_length⟩
    refine ((List.dedup_sublist _).length_le).trans_eq ?_
    rw [List.length_map]
    rfl
  calls := by
    have haccount := Journal.Run.account hrun
    refine ⟨(j.stored.filter fun p => since ≤ p.2.createdAt).map Prod.fst, ?_, ?_, ?_⟩
    · exact haccount.once.1.sublist (List.filter_sublist.map Prod.fst)
    · intro e he
      exact haccount.known e (Or.inl ((List.filter_sublist.map Prod.fst).subset he))
    · show _ = (recent since j.rows).length
      rw [List.length_map, recent, Journal.rows, List.filter_map, List.length_map]
      rfl
  listed limit := length_page j.rows since limit

end Totals

section Figures

variable {κ : Type*} [LinearOrder κ] {u : Unicode} {collate : String → κ}
  {order : RowOrder (Text × ℕ)} {offset clock later : Vault.Time} {reads : Reads} {window : Text}
  {s : Stats}

/-- The answer, by the rows of the window. -/
theorem stats_ok (h : stats u collate order offset reads clock later window = .ok s) :
    ∃ minutes, parseWindow u window = .ok minutes ∧
      s.summary = summarize (recent (clock - minutes * minute) reads.summary) ∧
      s.byPurpose = byPurpose order (recent (clock - minutes * minute) reads.byPurpose) ∧
      s.byEntityType =
        topCounts collate (entityTypes (recent (clock - minutes * minute) reads.byEntityType)) ∧
      s.byAction = topCounts collate (actions (recent (clock - minutes * minute) reads.byAction)) ∧
      s.buckets = bucketsOf offset (bucketUnit minutes)
        (recent (clock - minutes * minute) reads.buckets) := by
  obtain ⟨minutes, hminutes, h⟩ := Vault.bind_ok.mp h
  dsimp only at h
  split at h
  · cases h
  · cases h
    exact ⟨minutes, hminutes, rfl, rfl, rfl, rfl, rfl⟩

theorem bucketUnit_pos (minutes : ℕ) : 0 < bucketUnit minutes := by
  unfold bucketUnit
  split <;> decide

theorem sum_byPurpose (rows : List EventRow) :
    ((byPurpose order rows).map Prod.snd).sum = rows.length := by
  rw [((byPurpose_perm order rows).map Prod.snd).sum_eq, sum_counts]

theorem sum_total {unit : Vault.Time} (rows : List EventRow) :
    ((bucketsOf offset unit rows).map Bucket.total).sum = rows.length := by
  rw [(bucketsOf_perm.map Bucket.total).sum_eq, List.map_map,
    ← sum_counts (fun row => dateTrunc offset unit row.createdAt) rows, counts, List.map_map]
  exact congrArg List.sum (List.map_congr_left fun g _ => decided_total g.2)

end Figures

section Snapshots

variable {ι τ : Type*} [DecidableEq ι] [DecidableEq τ] {u : Unicode} {env : Vault.Env}
  {sink : LogSink} {acts more : List (Deed ι τ)} {start : Vault.Time} {j j' : Journal ι τ}

/-- The table has grown at its end. -/
theorem rows_prefix (hrun : Journal.Run u env sink acts start j)
    (hmore : Runs.Steps (Journal.step u env sink) j more j') (since : Vault.Time) :
    (recent since j.rows).IsPrefix (recent since j'.rows) := by
  have hsince : Journal.Since j j' :=
    Runs.Steps.invariant (fun _ k => Journal.Since j k)
      (Journal.Since.refl (Journal.Run.account hrun))
      (fun _ _ _ _ _ h hstep => h.moves (Journal.Moves.of_step hstep)) hmore
  exact (hsince.stored.map Prod.snd).filter _

end Snapshots

/-- **The figures agree with the log.** Take a run of log writers that goes on while `stats`
sends its SELECTs. The counts of `summary` add up and are those of the calls with a row in
the window, the rankings are those of the names in the rows, the buckets are those of the
instants. The figures of a later SELECT are not smaller, and they are the same where no row
of the window has come in between. -/
theorem stats_agree {ι τ κ : Type*} [DecidableEq ι] [DecidableEq τ] [LinearOrder κ] {u : Unicode}
    {env : Vault.Env} {sink : LogSink} {collate : String → κ} {order : RowOrder (Text × ℕ)}
    {offset start clock later : Vault.Time} {window : Text} {s : Stats}
    {acts more₂ more₃ more₄ more₅ : List (Deed ι τ)} {j₁ j₂ j₃ j₄ j₅ : Journal ι τ}
    (h₁ : Journal.Run u env sink acts start j₁)
    (h₂ : Runs.Steps (Journal.step u env sink) j₁ more₂ j₂)
    (h₃ : Runs.Steps (Journal.step u env sink) j₂ more₃ j₃)
    (h₄ : Runs.Steps (Journal.step u env sink) j₃ more₄ j₄)
    (h₅ : Runs.Steps (Journal.step u env sink) j₄ more₅ j₅)
    (hs : stats u collate order offset ⟨j₁.rows, j₂.rows, j₃.rows, j₄.rows, j₅.rows⟩ clock later
      window = .ok s) :
    ∃ minutes since, parseWindow u window = .ok minutes ∧ since = clock - minutes * minute ∧
      Totals j₁ since s.summary ∧
      Tallied ((recent since j₂.rows).map purposeName) s.byPurpose ∧
      s.byPurpose.Pairwise (fun a b => b.2 ≤ a.2) ∧
      Ranked collate (entityTypes (recent since j₃.rows)) s.byEntityType ∧
      Ranked collate (actions (recent since j₄.rows)) s.byAction ∧
      Charted (bucketUnit minutes) (recent since j₅.rows) s.buckets ∧
      s.Grows ∧ (recent since j₅.rows = recent since j₁.rows → s.Adds) := by
  obtain ⟨minutes, hminutes, hsummary, hpurpose, htype, haction, hbuckets⟩ := stats_ok hs
  generalize hsince : clock - minutes * minute = since at hsummary hpurpose htype haction hbuckets
  dsimp only at hsummary hpurpose htype haction hbuckets
  have h₁₂ := rows_prefix h₁ h₂ since
  have h₂₅ := rows_prefix (h₁.append h₂) ((h₃.append h₄).append h₅) since
  have h₁₅ := h₁₂.trans h₂₅
  have hevents : s.summary.events = (recent since j₁.rows).length := by
    rw [hsummary]
    rfl
  have hpurposes : (s.byPurpose.map Prod.snd).sum = (recent since j₂.rows).length := by
    rw [hpurpose, sum_byPurpose]
  have htotals : (s.buckets.map Bucket.total).sum = (recent since j₅.rows).length := by
    rw [hbuckets, sum_total]
  have hallow : (s.buckets.map Bucket.allow).sum = decided .allow (recent since j₅.rows) := by
    rw [hbuckets, sum_bucketsOf .allow Bucket.allow fun _ _ => rfl]
  have hblock : (s.buckets.map Bucket.block).sum = decided .block (recent since j₅.rows) := by
    rw [hbuckets, sum_bucketsOf .block Bucket.block fun _ _ => rfl]
  have htransform :
      (s.buckets.map Bucket.transform).sum = decided .transform (recent since j₅.rows) := by
    rw [hbuckets, sum_bucketsOf .transform Bucket.transform fun _ _ => rfl]
  have hverdicts : ∀ action, decided action (recent since j₁.rows) ≤
      decided action (recent since j₅.rows) := fun _ => h₁₅.sublist.countP_le
  refine ⟨minutes, since, hminutes, hsince.symm, ?_, ?_, ?_, ?_, ?_, ?_, ?_, fun hsame => ?_⟩
  · rw [hsummary]
    exact totals_of_run h₁ since
  · rw [hpurpose]
    exact Tallied.of_counts (byPurpose_perm order _).subperm
  · have : Std.Total fun a b : Text × ℕ => b.2 ≤ a.2 := ⟨fun a b => le_total b.2 a.2⟩
    have : IsTrans (Text × ℕ) fun a b => b.2 ≤ a.2 := ⟨fun _ _ _ hab hbc => hbc.trans hab⟩
    rw [hpurpose]
    exact List.pairwise_insertionSort _ _
  · rw [htype]
    exact topCounts_ranked collate _
  · rw [haction]
    exact topCounts_ranked collate _
  · rw [hbuckets]
    exact bucketsOf_charted (bucketUnit_pos minutes)
  · constructor
    case purposes => exact hevents ▸ hpurposes ▸ h₁₂.length_le
    case buckets => exact hpurposes ▸ htotals ▸ h₂₅.length_le
    case allow => rw [hallow, hsummary]; exact hverdicts .allow
    case block => rw [hblock, hsummary]; exact hverdicts .block
    case transform => rw [htransform, hsummary]; exact hverdicts .transform
  · rw [hsame] at htotals hallow hblock htransform
    constructor
    case purposes =>
      have hle := h₂₅.length_le
      rw [hsame] at hle
      rw [hevents, hpurposes]
      exact le_antisymm h₁₂.length_le hle
    case buckets => rw [hevents, htotals]
    case allow => rw [hallow, hsummary]; rfl
    case block => rw [hblock, hsummary]; rfl
    case transform => rw [htransform, hsummary]; rfl

/-- Two rows come in while the SELECTs are sent. -/
theorem stats_agree_crossed :
    let j := Journal.reached (Journal.init 0) Journal.crossed
    let j' := Journal.reached j Journal.afterwards
    ∃ s, stats .ascii id .stored 0 ⟨j.rows, j.rows, j'.rows, j'.rows, j'.rows⟩ 0 0 "1h".toList =
        .ok s ∧ s.summary.events = 1 ∧ s.buckets = [⟨0, 3, 0, 0⟩] ∧ s.Grows := by
  intro j j'
  have hsteps : ∀ {k : Journal ℕ Bool} {acts : List (Deed ℕ Bool)},
      (Runs.exec (Journal.step .ascii .sample .pg) k acts).isSome = true →
        Runs.Steps (Journal.step .ascii .sample .pg) k acts (Journal.reached k acts) := by
    intro k acts hsome
    obtain ⟨k', hk'⟩ := Option.isSome_iff_exists.mp hsome
    rw [Journal.reached, hk']
    exact Runs.Steps.of_exec hk'
  have hrun : Journal.Run .ascii .sample .pg Journal.crossed 0 j := hsteps (by decide +kernel)
  have hmore : Runs.Steps (Journal.step .ascii .sample .pg) j Journal.afterwards j' :=
    hsteps (by decide +kernel)
  have hfigures : (stats .ascii id .stored 0 ⟨j.rows, j.rows, j'.rows, j'.rows, j'.rows⟩ 0 0
      "1h".toList).toOption.map (fun s => (s.summary.events, s.buckets)) =
        some (1, [⟨0, 3, 0, 0⟩]) := by decide +kernel
  obtain ⟨s, hs, heq⟩ := Option.map_eq_some_iff.mp hfigures
  obtain ⟨hevents, hbuckets⟩ := Prod.mk.inj heq
  have hok : stats .ascii id .stored 0 ⟨j.rows, j.rows, j'.rows, j'.rows, j'.rows⟩ 0 0
      "1h".toList = .ok s := by
    generalize stats .ascii id .stored 0 ⟨j.rows, j.rows, j'.rows, j'.rows, j'.rows⟩ 0 0
      "1h".toList = answer at hs ⊢
    cases answer with
    | error e => cases hs
    | ok s' =>
        cases hs
        rfl
  obtain ⟨minutes, since, -, -, -, -, -, -, -, -, hgrows, -⟩ :=
    stats_agree hrun .nil hmore .nil .nil hok
  exact ⟨s, hok, hevents, hbuckets, hgrows⟩

end DlpServer.Logging
