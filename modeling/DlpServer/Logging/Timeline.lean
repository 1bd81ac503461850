import DlpServer.Logging.Accounting

/-!
# The timeline of a session

The rows come into the table in the order of the commits, which is neither that of their
instants nor that of their ids. A call that is made when a row is in the table gets a later
instant or the same, and a greater id, so the timeline of a session shows it after that
row; and what a timeline has shown, it shows in the same order ever after
(`timeline_grows`).
-/

namespace DlpServer.Logging

namespace Journal

variable {ι τ : Type*} [DecidableEq τ]

/-- A row that stands before another one, by its instant and by its id. -/
def Precedes (a b : EventRow) : Prop := a.createdAt ≤ b.createdAt ∧ a.eventId < b.eventId

theorem Precedes.key {a b : EventRow} (h : Precedes a b) : a.key < b.key := by
  rcases h.1.lt_or_eq with hlt | heq
  · exact Prod.Lex.toLex_lt_toLex.mpr (Or.inl hlt)
  · exact Prod.Lex.toLex_lt_toLex.mpr (Or.inr ⟨heq, h.2⟩)

/-! ## The invariant -/

/-- The instants are past, the ids are drawn and differ, and a row is preceded by those
that its call has seen. -/
structure Ordered (j : Journal ι τ) : Prop where
  past : ∀ p ∈ j.stored, p.2.createdAt ≤ j.now ∧ p.2.eventId < j.nextId
  distinct : (j.rows.map EventRow.eventId).Nodup
  seen : ∀ p ∈ j.stored, p.1.seen ≤ j.stored.length ∧
    ∀ q ∈ j.stored.take p.1.seen, Precedes q.2 p.2
  seen_le : ∀ t e, (j.phase t).entry = some e → e.seen ≤ j.stored.length
  begun : ∀ t e createdAt, j.phase t = .begun e createdAt →
    createdAt ≤ j.now ∧ ∀ q ∈ j.stored.take e.seen, q.2.createdAt ≤ createdAt
  inserted : ∀ t e row, j.phase t = .inserted e row →
    row.createdAt ≤ j.now ∧ row.eventId < j.nextId ∧
      (∀ q ∈ j.stored.take e.seen, Precedes q.2 row) ∧ ∀ q ∈ j.stored, q.2.eventId ≠ row.eventId
  apart : ∀ t t' e e' row row', j.phase t = .inserted e row → j.phase t' = .inserted e' row' →
    row.eventId = row'.eventId → t = t'

omit [DecidableEq τ] in
theorem Ordered.init (now : Vault.Time) : Ordered (Journal.init now : Journal ι τ) where
  past p hp := by cases hp
  distinct := List.nodup_nil
  seen p hp := by cases hp
  seen_le t e ht := by cases ht
  begun t e createdAt ht := by cases ht
  inserted t e row ht := by cases ht
  apart t t' e e' row row' ht := by cases ht

section Step

variable {j : Journal ι τ} {t : τ} {e : Entry}

omit [DecidableEq τ] in
/-- The clock goes on and ids are drawn. -/
theorem Ordered.later (h : Ordered j) {j' : Journal ι τ} (hnow : j.now ≤ j'.now)
    (hnextId : j.nextId ≤ j'.nextId) (hstored : j'.stored = j.stored)
    (hphase : j'.phase = j.phase) : Ordered j' := by
  have hrows : j'.rows = j.rows := congrArg (List.map Prod.snd) hstored
  refine ⟨?_, hrows ▸ h.distinct, hstored ▸ h.seen, hstored ▸ hphase ▸ h.seen_le, ?_, ?_,
    hphase ▸ h.apart⟩
  · intro p hp
    obtain ⟨hpast, hdrawn⟩ := h.past p (hstored ▸ hp)
    exact ⟨hpast.trans hnow, hdrawn.trans_le hnextId⟩
  · intro t e createdAt ht
    obtain ⟨hpast, hbefore⟩ := h.begun t e createdAt (hphase ▸ ht)
    exact ⟨hpast.trans hnow, hstored ▸ hbefore⟩
  · intro t e row ht
    obtain ⟨hpast, hdrawn, hrest⟩ := h.inserted t e row (hphase ▸ ht)
    exact ⟨hpast.trans hnow, hdrawn.trans_le hnextId, hstored ▸ hrest⟩

/-- A thread goes on, and the table stays as it is. -/
theorem Ordered.goto (h : Ordered j) (t : τ) (next : Phase)
    (hseen : ∀ e, next.entry = some e → e.seen ≤ j.stored.length)
    (hbegun : ∀ e createdAt, next = .begun e createdAt →
      createdAt ≤ j.now ∧ ∀ q ∈ j.stored.take e.seen, q.2.createdAt ≤ createdAt)
    (hinserted : ∀ e row, next ≠ .inserted e row) : Ordered (j.goto t next) where
  past := h.past
  distinct := h.distinct
  seen := h.seen
  seen_le t' e ht' := by
    obtain ⟨phase, hphase⟩ : ∃ phase, (j.goto t next).phase t' = phase := ⟨_, rfl⟩
    rw [hphase] at ht'
    rcases update_phase hphase with ⟨-, rfl⟩ | ⟨-, rfl⟩
    · exact hseen e ht'
    · exact h.seen_le t' e ht'
  begun t' e createdAt ht' := by
    rcases update_phase ht' with ⟨-, hnext⟩ | ⟨-, ht'⟩
    · exact hbegun e createdAt hnext
    · exact h.begun t' e createdAt ht'
  inserted t' e row ht' := by
    rcases update_phase ht' with ⟨-, hnext⟩ | ⟨-, ht'⟩
    · exact absurd hnext (hinserted e row)
    · exact h.inserted t' e row ht'
  apart t₁ t₂ e e' row row' h₁ h₂ hid := by
    rcases update_phase h₁ with ⟨-, hnext⟩ | ⟨-, hold₁⟩
    · exact absurd hnext (hinserted e row)
    · rcases update_phase h₂ with ⟨-, hnext⟩ | ⟨-, hold₂⟩
      · exact absurd hnext (hinserted e' row')
      · exact h.apart t₁ t₂ e e' row row' hold₁ hold₂ hid

/-- `INSERT` draws the id and takes the instant of the transaction. -/
theorem Ordered.insert (h : Ordered j) {createdAt : Vault.Time} {row : EventRow}
    (ht : j.phase t = .begun e createdAt) (hid : row.eventId = j.nextId)
    (hcreated : row.createdAt = createdAt) :
    Ordered { j.goto t (.inserted e row) with nextId := j.nextId + 1 } := by
  obtain ⟨hpast, hbefore⟩ := h.begun t e createdAt ht
  have hnew : ∀ t' e' row', j.phase t' = .inserted e' row' → row'.eventId ≠ row.eventId := by
    intro t' e' row' ht' heq
    have hdrawn := (h.inserted t' e' row' ht').2.1
    rw [heq, hid] at hdrawn
    exact lt_irrefl _ hdrawn
  refine ⟨?_, h.distinct, h.seen, ?_, ?_, ?_, ?_⟩
  · intro p hp
    exact ⟨(h.past p hp).1, Nat.lt_succ_of_lt (h.past p hp).2⟩
  · intro t' e' ht'
    obtain ⟨phase, hphase⟩ : ∃ phase, (j.goto t (.inserted e row)).phase t' = phase := ⟨_, rfl⟩
    rw [show Journal.phase _ t' = phase from hphase] at ht'
    rcases update_phase hphase with ⟨-, rfl⟩ | ⟨-, rfl⟩
    · cases ht'
      exact h.seen_le t e (by rw [ht]; rfl)
    · exact h.seen_le t' e' ht'
  · intro t' e' createdAt' ht'
    rcases update_phase ht' with ⟨-, hnext⟩ | ⟨-, ht'⟩
    · cases hnext
    · exact h.begun t' e' createdAt' ht'
  · intro t' e' row' ht'
    rcases update_phase ht' with ⟨-, hnext⟩ | ⟨-, ht'⟩
    · cases hnext
      refine ⟨hcreated ▸ hpast, hid ▸ Nat.lt_succ_self _, fun q hq => ⟨?_, ?_⟩, fun q hq => ?_⟩
      · exact hcreated ▸ hbefore q hq
      · exact hid ▸ (h.past q (List.mem_of_mem_take hq)).2
      · exact hid ▸ (h.past q hq).2.ne
    · obtain ⟨hpast', hdrawn', hrest'⟩ := h.inserted t' e' row' ht'
      exact ⟨hpast', Nat.lt_succ_of_lt hdrawn', hrest'⟩
  · intro t₁ t₂ e₁ e₂ row₁ row₂ h₁ h₂ hsame
    rcases update_phase h₁ with ⟨rfl, hnext₁⟩ | ⟨-, hold₁⟩
    · rcases update_phase h₂ with ⟨rfl, -⟩ | ⟨-, hold₂⟩
      · rfl
      · cases hnext₁
        exact absurd hsame.symm (hnew t₂ e₂ row₂ hold₂)
    · rcases update_phase h₂ with ⟨rfl, hnext₂⟩ | ⟨-, hold₂⟩
      · cases hnext₂
        exact absurd hsame (hnew t₁ e₁ row₁ hold₁)
      · exact h.apart t₁ t₂ e₁ e₂ row₁ row₂ hold₁ hold₂ hsame

/-- The row of a transaction goes into the table. -/
theorem Ordered.store (h : Ordered j) {row : EventRow} {next : Phase} {unsure : List Entry}
    (ht : j.phase t = .inserted e row) (hnext : next = .committed e row ∨ next = .failed e) :
    Ordered { j.goto t next with stored := j.stored ++ [(e, row)], unsure := unsure } := by
  obtain ⟨hpast, hdrawn, hbefore, hfresh⟩ := h.inserted t e row ht
  have hle := h.seen_le t e (by rw [ht]; rfl)
  have htake : ∀ {n}, n ≤ j.stored.length →
      (j.stored ++ [(e, row)]).take n = j.stored.take n := List.take_append_of_le_length
  have hgrown : j.stored.length ≤ (j.stored ++ [(e, row)]).length := by
    rw [List.length_append]
    exact Nat.le_add_right _ _
  refine ⟨?_, ?_, ?_, ?_, ?_, ?_, ?_⟩
  · intro p hp
    rcases List.mem_append.mp hp with hp | hp
    · exact h.past p hp
    · rw [List.mem_singleton.mp hp]
      exact ⟨hpast, hdrawn⟩
  · show ((j.stored ++ [(e, row)]).map Prod.snd |>.map EventRow.eventId).Nodup
    rw [List.map_append, List.map_append, List.nodup_append]
    refine ⟨h.distinct, List.nodup_singleton _, fun a ha b hb hab => ?_⟩
    obtain ⟨r, hr, rfl⟩ := List.mem_map.mp ha
    obtain ⟨q, hq, rfl⟩ := List.mem_map.mp hr
    exact hfresh q hq (hab.trans (List.mem_singleton.mp hb))
  · intro p hp
    rcases List.mem_append.mp hp with hp | hp
    · obtain ⟨hple, hpseen⟩ := h.seen p hp
      exact ⟨hple.trans hgrown, by rwa [htake hple]⟩
    · obtain rfl := List.mem_singleton.mp hp
      exact ⟨hle.trans hgrown, by rwa [htake hle]⟩
  · intro t' e' ht'
    obtain ⟨phase, hphase⟩ : ∃ phase, (j.goto t next).phase t' = phase := ⟨_, rfl⟩
    rw [show Journal.phase _ t' = phase from hphase] at ht'
    rcases update_phase hphase with ⟨-, rfl⟩ | ⟨-, rfl⟩
    · have he' : e' = e := by
        rcases hnext with rfl | rfl <;> cases ht' <;> rfl
      exact he' ▸ hle.trans hgrown
    · exact (h.seen_le t' e' ht').trans hgrown
  · intro t' e' createdAt ht'
    rcases update_phase ht' with ⟨-, heq⟩ | ⟨-, ht'⟩
    · rcases hnext with rfl | rfl <;> cases heq
    · obtain ⟨hpast', hbefore'⟩ := h.begun t' e' createdAt ht'
      exact ⟨hpast', by rwa [htake (h.seen_le t' e' (by rw [ht']; rfl))]⟩
  · intro t' e' row' ht'
    rcases update_phase ht' with ⟨-, heq⟩ | ⟨hne, ht'⟩
    · rcases hnext with rfl | rfl <;> cases heq
    · obtain ⟨hpast', hdrawn', hbefore', hfresh'⟩ := h.inserted t' e' row' ht'
      refine ⟨hpast', hdrawn', ?_, fun q hq => ?_⟩
      · rwa [htake (h.seen_le t' e' (by rw [ht']; rfl))]
      · rcases List.mem_append.mp hq with hq | hq
        · exact hfresh' q hq
        · rw [List.mem_singleton.mp hq]
          exact fun hsame => hne (h.apart t t' e e' row row' ht ht' hsame).symm
  · intro t₁ t₂ e₁ e₂ row₁ row₂ h₁ h₂ hsame
    rcases update_phase h₁ with ⟨-, heq⟩ | ⟨-, hold₁⟩
    · rcases hnext with rfl | rfl <;> cases heq
    · rcases update_phase h₂ with ⟨-, heq⟩ | ⟨-, hold₂⟩
      · rcases hnext with rfl | rfl <;> cases heq
      · exact h.apart t₁ t₂ e₁ e₂ row₁ row₂ hold₁ hold₂ hsame

end Step

variable [DecidableEq ι]

section Run

variable {u : Unicode} {env : Vault.Env} {sink : LogSink} {j j' : Journal ι τ}

theorem Ordered.moves {a : Deed ι τ} (h : Ordered j) (hmoves : Moves u env sink j a j') :
    Ordered j' := by
  cases hmoves with
  | @advance elapsed =>
      exact h.later (Int.le_add_of_nonneg_right (Int.natCast_nonneg elapsed)) le_rfl rfl rfl
  | burn => exact h.later le_rfl (Nat.le_succ _) rfl rfl
  | bus hbus hcopy => exact h.later le_rfl le_rfl rfl rfl
  | @emit t e e' ht he =>
      have hgoto := h.goto t (.emitted e')
        (fun e'' hentry => by cases hentry; exact he ▸ le_rfl) (by simp) (by simp)
      exact hgoto.later le_rfl le_rfl rfl rfl
  | @begin t e ht hsink =>
      refine h.goto _ _ (fun e' hentry => ?_) (fun e' createdAt heq => ?_) (by simp)
      · exact h.seen_le t e' (by rw [ht]; exact hentry)
      · cases heq
        exact ⟨le_rfl, fun q hq => (h.past q (List.mem_of_mem_take hq)).1⟩
  | insert ht hrow =>
      obtain ⟨-, heq⟩ := insertEvent_some hrow
      exact h.insert ht (by rw [heq]; rfl) (by rw [heq]; rfl)
  | commit ht => exact h.store ht (Or.inl rfl)
  | unanswered ht => exact h.store ht (Or.inr rfl)
  | @fail a t e ht =>
      refine h.goto _ _ (fun e' hentry => ?_) (by simp) (by simp)
      refine h.seen_le t e' ?_
      cases hphase : j.phase t <;> rw [hphase] at ht <;> first | exact ht.elim | skip
      case emitted e'' => exact ht.1 ▸ hentry
      case begun e'' createdAt => exact (show e'' = e from ht) ▸ hentry
      case inserted e'' row => exact (show e'' = e from ht) ▸ hentry
  | @publish t e row bus ht hbus =>
      have hgoto := h.goto t (.published e)
        (fun e' hentry => h.seen_le t e' (by rw [ht]; exact hentry)) (by simp) (by simp)
      exact hgoto.later le_rfl le_rfl rfl rfl
  | @append t e written ht =>
      have hgoto := h.goto t .idle (by simp [Phase.entry]) (by simp) (by simp)
      cases written with
      | true => exact hgoto.later le_rfl le_rfl rfl rfl
      | false => exact hgoto.later le_rfl le_rfl rfl rfl
  | finish ht hsink => exact h.goto _ _ (by simp [Phase.entry]) (by simp) (by simp)

theorem Run.ordered {acts : List (Deed ι τ)} {now : Vault.Time} (hrun : Run u env sink acts now j) :
    Ordered j :=
  Runs.Steps.invariant (fun _ j => Ordered j) (Ordered.init now)
    (fun _ _ _ _ _ h hstep => h.moves (Moves.of_step hstep)) hrun

/-- What has happened since `j`: rows have come in behind those that were there, and each
later call has seen those. -/
structure Since (j j' : Journal ι τ) : Prop where
  stored : j.stored <+: j'.stored
  issued : j.issued.length ≤ j'.issued.length
  called : ∀ e ∈ j'.issued, j.issued.length ≤ e.number → j.stored.length ≤ e.seen

omit [DecidableEq ι] [DecidableEq τ] in
theorem Since.refl (h : Account sink j) : Since j j where
  stored := List.prefix_rfl
  issued := le_rfl
  called e he hle := by
    obtain ⟨n, hn⟩ := List.mem_iff_getElem?.mp he
    have hlt := (List.getElem?_eq_some_iff.mp hn).1
    rw [h.numbered n e hn] at hle
    exact absurd hlt (not_lt.mpr hle)

theorem Since.moves {k : Journal ι τ} {a : Deed ι τ} (h : Since j j')
    (hmoves : Moves u env sink j' a k) : Since j k := by
  cases hmoves with
  | advance => exact ⟨h.stored, h.issued, h.called⟩
  | burn => exact ⟨h.stored, h.issued, h.called⟩
  | bus hbus hcopy => exact ⟨h.stored, h.issued, h.called⟩
  | begin ht hsink => exact ⟨h.stored, h.issued, h.called⟩
  | insert ht hrow => exact ⟨h.stored, h.issued, h.called⟩
  | fail ht => exact ⟨h.stored, h.issued, h.called⟩
  | publish ht hbus => exact ⟨h.stored, h.issued, h.called⟩
  | finish ht hsink => exact ⟨h.stored, h.issued, h.called⟩
  | @append t e written ht =>
      cases written with
      | true => exact ⟨h.stored, h.issued, h.called⟩
      | false => exact ⟨h.stored, h.issued, h.called⟩
  | commit ht => exact ⟨h.stored.trans (List.prefix_append _ _), h.issued, h.called⟩
  | unanswered ht => exact ⟨h.stored.trans (List.prefix_append _ _), h.issued, h.called⟩
  | @emit t e e' ht he =>
      refine ⟨h.stored, ?_, fun e'' he'' hle => ?_⟩
      · show j.issued.length ≤ (j'.issued ++ [e']).length
        rw [List.length_append]
        exact h.issued.trans (Nat.le_add_right _ _)
      · rcases List.mem_append.mp he'' with he'' | he''
        · exact h.called e'' he'' hle
        · rw [List.mem_singleton.mp he'', he]
          exact h.stored.length_le

end Run

/-! ## Timelines -/

theorem pairwise_timeline {rows : List EventRow} (h : (rows.map EventRow.eventId).Nodup)
    (session : Ids.Uuid) : (timeline rows session).Pairwise fun a b => a.key < b.key := by
  have hperm : (timeline rows session).Perm (rows.filter fun row => row.sessionId == session) :=
    List.perm_insertionSort Older _
  have hids : ((timeline rows session).map EventRow.eventId).Nodup :=
    (hperm.map _).nodup_iff.mpr (h.sublist (List.filter_sublist.map _))
  have hsorted : (timeline rows session).Pairwise Older := List.pairwise_insertionSort Older _
  refine hsorted.imp₂ (fun a b hab hne => lt_of_le_of_ne hab fun hkey => hne ?_)
    (List.pairwise_map.mp hids)
  exact congrArg (fun k => (ofLex k).2) hkey

/-- **The timeline of a session.** Take a run to a state `j` and on to `j'`, in which the
clock of the database never goes back (`Deed.advance`). What the timeline of a session shows at
`j`, it shows at `j'` in the same order, and each row of a call that was made after `j`
stands behind it. The instants and ids of a timeline grow, and it shows the rows of its
session, each once. -/
theorem timeline_grows {u : Unicode} {env : Vault.Env} {sink : LogSink}
    {acts more : List (Deed ι τ)} {now : Vault.Time} {j j' : Journal ι τ}
    (hrun : Run u env sink acts now j) (hmore : Runs.Steps (step u env sink) j more j')
    (session : Ids.Uuid) :
    (timeline j.rows session).Sublist (timeline j'.rows session) ∧
    (∀ p ∈ j'.stored, j.issued.length ≤ p.1.number → p.2.sessionId = session →
      ∀ a ∈ timeline j.rows session, [a, p.2].Sublist (timeline j'.rows session)) ∧
    (timeline j'.rows session).Pairwise (fun a b => a.key < b.key) ∧
    ∀ row, row ∈ timeline j'.rows session ↔ row ∈ j'.rows ∧ row.sessionId = session := by
  have hrun' : Run u env sink (acts ++ more) now j' := hrun.append hmore
  have hordered := Run.ordered hrun'
  have hsince : Since j j' :=
    Runs.Steps.invariant (fun _ k => Since j k) (Since.refl (Run.account hrun))
      (fun _ _ _ _ _ h hstep => h.moves (Moves.of_step hstep)) hmore
  have hsorted := pairwise_timeline hordered.distinct session
  have hrows : j.rows ⊆ j'.rows := (hsince.stored.map Prod.snd).subset
  have hsub : timeline j.rows session ⊆ timeline j'.rows session := by
    intro a ha
    obtain ⟨hrow, hsession⟩ := mem_timeline.mp ha
    exact mem_timeline.mpr ⟨hrows hrow, hsession⟩
  have : Std.Antisymm fun a b : EventRow => a.key < b.key :=
    ⟨fun _ _ hab hba => absurd (hab.trans hba) (lt_irrefl _)⟩
  refine ⟨?_, ?_, hsorted, fun row => mem_timeline⟩
  · have hold := pairwise_timeline (Run.ordered hrun).distinct session
    have hnodup : (timeline j.rows session).Nodup := hold.imp fun hlt heq => (heq ▸ hlt).ne rfl
    exact List.sublist_of_subperm_of_pairwise (List.subperm_of_subset hnodup hsub) hold hsorted
  · intro p hp hcall hsession a ha
    have hissued : p.1 ∈ j'.issued :=
      (Run.account hrun').known p.1 (Or.inl (List.mem_map_of_mem hp))
    have hseen := hsince.called p.1 hissued hcall
    obtain ⟨q, hq, rfl⟩ := List.mem_map.mp (mem_timeline.mp ha).1
    -- The call has seen all rows of `j`.
    have hqtake : q ∈ j'.stored.take p.1.seen := by
      rw [List.prefix_iff_eq_take.mp hsince.stored] at hq
      exact List.take_subset_take_left _ hseen hq
    exact timeline_order (hsub ha) (mem_timeline.mpr ⟨List.mem_map_of_mem hp, hsession⟩)
      ((hordered.seen p hp).2 q hqtake).key

/-- The first call to insert is the last to commit. -/
def crossed : List (Deed ℕ Bool) :=
  [.emit true (sampleEvent "input"), .begin true, .emit false (sampleEvent "input"),
    .begin false, .insert true, .insert false, .commit false]

/-- Another call, after a row is in the table. -/
def afterwards : List (Deed ℕ Bool) :=
  [.commit true, .publish false, .finish false, .emit false (sampleEvent "output"),
    .begin false, .insert false, .commit false]

/-- Where a schedule leads from `j`. -/
def reached (j : Journal ℕ Bool) (acts : List (Deed ℕ Bool)) : Journal ℕ Bool :=
  (Runs.exec (step .ascii .sample .pg) j acts).getD j

theorem timeline_grows_crossed :
    let j := reached (init 0) crossed
    let j' := reached j afterwards
    let session := Vault.Env.sample.coerce "s1"
    j.rows.map EventRow.eventId = [2] ∧
      (timeline j'.rows session).map EventRow.eventId = [1, 2, 3] ∧
      (timeline j.rows session).Sublist (timeline j'.rows session) := by
  intro j j' session
  have hsteps : ∀ {k : Journal ℕ Bool} {acts : List (Deed ℕ Bool)},
      (Runs.exec (step .ascii .sample .pg) k acts).isSome = true →
        Runs.Steps (step .ascii .sample .pg) k acts (reached k acts) := by
    intro k acts hsome
    obtain ⟨k', hk'⟩ := Option.isSome_iff_exists.mp hsome
    rw [reached, hk']
    exact Runs.Steps.of_exec hk'
  refine ⟨by decide +kernel, by decide +kernel, ?_⟩
  exact (timeline_grows (hsteps (by decide +kernel)) (hsteps (by decide +kernel)) session).1

end Journal

end DlpServer.Logging
