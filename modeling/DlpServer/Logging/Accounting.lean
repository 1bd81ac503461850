import DlpServer.Logging.Journal

/-!
# Every decision is logged

However the threads and the failures of the connection fall, each call that has returned
has left its row in the table, or its line in the file, or the line could not be written;
and no call leaves two rows or two lines (`logged`).
-/

namespace DlpServer.Logging

namespace Journal

variable {ι τ : Type*}

/-! ## What is booked of a call -/

/-- Whether the call has a row, whether its `COMMIT` was not answered, and whether its line
was written or dropped. -/
@[ext] structure Books where
  recorded : Prop
  unsure : Prop
  written : Prop
  dropped : Prop

def books (j : Journal ι τ) (e : Entry) : Books :=
  ⟨e ∈ j.recorded, e ∈ j.unsure, e ∈ j.lines, e ∈ j.dropped⟩

/-- What is booked of a call that a thread is at. -/
def Told (b : Books) : Phase → Prop
  | .idle => True
  | .emitted _ | .begun _ _ | .inserted _ _ => ¬ b.recorded ∧ ¬ b.unsure
  | .committed _ _ | .published _ => b.recorded ∧ ¬ b.unsure
  | .failed _ => b.recorded ↔ b.unsure

/-- What is booked of a call that has returned. -/
def Settled (sink : LogSink) (b : Books) : Prop :=
  (sink = .pg ∧ b.recorded ∧ ¬ b.unsure ∧ ¬ b.written ∧ ¬ b.dropped) ∨
    Xor b.written b.dropped ∧ (sink = .jsonl → ¬ b.recorded) ∧
      (sink = .pg → (b.recorded ↔ b.unsure))

/-- The calls have their numbers, each is at one thread at most, and what is booked of it
is right. -/
structure Account (sink : LogSink) (j : Journal ι τ) : Prop where
  numbered : ∀ (n : ℕ) (e : Entry), j.issued[n]? = some e → e.number = n
  known : ∀ e, (j.books e).recorded ∨ (j.books e).unsure ∨ (j.books e).written ∨
    (j.books e).dropped → e ∈ j.issued
  at_issued : ∀ t e, (j.phase t).entry = some e → e ∈ j.issued
  alone : ∀ t t' e, (j.phase t).entry = some e → (j.phase t').entry = some e → t = t'
  told : ∀ t e, (j.phase t).entry = some e →
    Told (j.books e) (j.phase t) ∧ ¬ (j.books e).written ∧ ¬ (j.books e).dropped
  settled : ∀ e ∈ j.issued, j.Returned e → Settled sink (j.books e)
  once : j.recorded.Nodup ∧ j.lines.Nodup ∧ j.dropped.Nodup
  onlyFiles : sink = .jsonl → j.stored = [] ∧ ∀ t, j.phase t = .idle ∨ ∃ e, j.phase t = .emitted e

theorem Account.init (sink : LogSink) (now : Vault.Time) :
    Account sink (Journal.init now : Journal ι τ) where
  numbered n e h := by cases h
  known e h := by rcases h with h | h | h | h <;> cases h
  at_issued t e h := by cases h
  alone t t' e h := by cases h
  told t e h := by cases h
  settled e he := by cases he
  once := ⟨List.nodup_nil, List.nodup_nil, List.nodup_nil⟩
  onlyFiles _ := ⟨rfl, fun _ => Or.inl rfl⟩

/-- What does not touch the calls keeps the account. -/
theorem Account.congr {sink : LogSink} {j j' : Journal ι τ} (h : Account sink j)
    (hstored : j'.stored = j.stored) (hlines : j'.lines = j.lines) (hphase : j'.phase = j.phase)
    (hissued : j'.issued = j.issued) (hdropped : j'.dropped = j.dropped)
    (hunsure : j'.unsure = j.unsure) : Account sink j' := by
  have hbooks : j'.books = j.books := by
    funext e
    simp only [books, recorded, hstored, hlines, hdropped, hunsure]
  have hrecorded : j'.recorded = j.recorded := congrArg (List.map Prod.fst) hstored
  refine ⟨?_, ?_, ?_, ?_, ?_, ?_, ?_, ?_⟩
  · rw [hissued]
    exact h.numbered
  · rw [hbooks, hissued]
    exact h.known
  · rw [hphase, hissued]
    exact h.at_issued
  · rw [hphase]
    exact h.alone
  · rw [hphase, hbooks]
    exact h.told
  · unfold Returned
    rw [hissued, hphase, hbooks]
    exact h.settled
  · rw [hrecorded, hlines, hdropped]
    exact h.once
  · rw [hstored, hphase]
    exact h.onlyFiles

variable [DecidableEq τ]

/-- **What one step of a thread does to the account.** The thread was at the call `e`,
nothing is booked of other calls, and `e` is booked right: told as the thread's next phase
says, or settled when the thread is through with it. -/
theorem Account.act {sink : LogSink} {j j' : Journal ι τ} (h : Account sink j) {t : τ} {e : Entry}
    {next : Phase} (ht : (j.phase t).entry = some e)
    (hphase : j'.phase = Function.update j.phase t next) (hissued : j'.issued = j.issued)
    (hother : ∀ e', e' ≠ e → j'.books e' = j.books e')
    (honce : j'.recorded.Nodup ∧ j'.lines.Nodup ∧ j'.dropped.Nodup)
    (hfiles : sink = .jsonl → j'.stored = [] ∧ (next = .idle ∨ ∃ e, next = .emitted e))
    (hnext : next.entry = some e ∧ Told (j'.books e) next ∧ ¬ (j'.books e).written ∧
        ¬ (j'.books e).dropped ∨
      next.entry = none ∧ Settled sink (j'.books e)) : Account sink j' := by
  have hat : ∀ t' e', (j'.phase t').entry = some e' → (j.phase t').entry = some e' := by
    intro t' e' ht'
    rw [hphase] at ht'
    by_cases htt : t' = t
    · subst htt
      rw [Function.update_self] at ht'
      rcases hnext with ⟨hentry, -⟩ | ⟨hentry, -⟩
      · rw [ht, ← hentry, ht']
      · rw [hentry] at ht'
        cases ht'
    · rwa [Function.update_of_ne htt] at ht'
  have hissued' := h.at_issued t e ht
  refine ⟨?_, ?_, ?_, ?_, ?_, ?_, honce, ?_⟩
  · rw [hissued]
    exact h.numbered
  · intro e' hbooked
    rw [hissued]
    by_cases he : e' = e
    · exact he ▸ hissued'
    · rw [hother e' he] at hbooked
      exact h.known e' hbooked
  · intro t' e' ht'
    rw [hissued]
    exact h.at_issued t' e' (hat t' e' ht')
  · intro t₁ t₂ e' h₁ h₂
    exact h.alone t₁ t₂ e' (hat t₁ e' h₁) (hat t₂ e' h₂)
  · intro t' e' ht'
    have hold := hat t' e' ht'
    by_cases htt : t' = t
    · subst htt
      obtain rfl : e' = e := Option.some.inj (hold.symm.trans ht)
      rw [hphase, Function.update_self] at ht' ⊢
      rcases hnext with ⟨-, htold⟩ | ⟨hentry, -⟩
      · exact htold
      · rw [hentry] at ht'
        cases ht'
    · have hne : e' ≠ e := by
        rintro rfl
        exact htt (h.alone t' t e' hold ht)
      rw [hphase, Function.update_of_ne htt, hother e' hne]
      exact h.told t' e' hold
  · intro e' he' hreturned
    rw [hissued] at he'
    by_cases hne : e' = e
    · subst hne
      rcases hnext with ⟨hentry, -⟩ | ⟨-, hsettled⟩
      · exact absurd (by rw [hphase, Function.update_self, hentry]) (hreturned t)
      · exact hsettled
    · rw [hother e' hne]
      refine h.settled e' he' fun t' ht' => ?_
      by_cases htt : t' = t
      · subst htt
        exact hne (Option.some.inj (ht'.symm.trans ht))
      · exact hreturned t' (by rw [hphase, Function.update_of_ne htt, ht'])
  · intro hsink
    obtain ⟨hstored, hnext⟩ := hfiles hsink
    refine ⟨hstored, fun t' => ?_⟩
    rw [hphase]
    by_cases htt : t' = t
    · subst htt
      rwa [Function.update_self]
    · rw [Function.update_of_ne htt]
      exact (h.onlyFiles hsink).2 t'

/-! ## One step -/

section Step

variable {sink : LogSink} {j : Journal ι τ} {t : τ} {e : Entry}

omit [DecidableEq τ] in
theorem Account.not_issued (h : Account sink j) (hnumber : e.number = j.issued.length) :
    e ∉ j.issued := by
  intro hmem
  obtain ⟨n, hn⟩ := List.mem_iff_getElem?.mp hmem
  have hlt := (List.getElem?_eq_some_iff.mp hn).1
  rw [← h.numbered n e hn, hnumber] at hlt
  exact lt_irrefl _ hlt

omit [DecidableEq τ] in
theorem Account.not_jsonl (h : Account sink j) {phase : Phase} (ht : j.phase t = phase)
    (hidle : phase ≠ .idle) (hemitted : ∀ e, phase ≠ .emitted e) : sink ≠ .jsonl := by
  intro hsink
  rcases (h.onlyFiles hsink).2 t with hphase | ⟨e, hphase⟩
  · exact hidle (ht.symm.trans hphase)
  · exact hemitted e (ht.symm.trans hphase)

/-- A new call. -/
theorem Account.emit (h : Account sink j) (ht : j.phase t = .idle)
    (hnumber : e.number = j.issued.length) :
    Account sink { j.goto t (.emitted e) with issued := j.issued ++ [e] } := by
  have hnew := h.not_issued hnumber
  have hunbooked : ¬ (j.books e).recorded ∧ ¬ (j.books e).unsure ∧ ¬ (j.books e).written ∧
      ¬ (j.books e).dropped := by
    have hknown := mt (h.known e) hnew
    simpa only [not_or] using hknown
  have hat : ∀ t' e', (Function.update j.phase t (.emitted e) t').entry = some e' →
      t' = t ∧ e' = e ∨ t' ≠ t ∧ (j.phase t').entry = some e' := by
    intro t' e' ht'
    by_cases htt : t' = t
    · subst htt
      rw [Function.update_self] at ht'
      exact Or.inl ⟨rfl, (Option.some.inj ht').symm⟩
    · rw [Function.update_of_ne htt] at ht'
      exact Or.inr ⟨htt, ht'⟩
  have hbooks : Journal.books
      ({ j.goto t (.emitted e) with issued := j.issued ++ [e] } : Journal ι τ) = j.books := rfl
  refine ⟨?_, ?_, ?_, ?_, ?_, ?_, h.once, ?_⟩
  · intro n e' hn
    rw [List.getElem?_append] at hn
    split at hn
    · exact h.numbered n e' hn
    · obtain ⟨hlt, rfl⟩ := List.getElem?_eq_some_iff.mp hn
      rw [List.getElem_singleton, hnumber]
      rw [List.length_singleton] at hlt
      omega
  · intro e' hbooked
    exact List.mem_append_left _ (h.known e' hbooked)
  · intro t' e' ht'
    rcases hat t' e' ht' with ⟨rfl, rfl⟩ | ⟨-, hold⟩
    · exact List.mem_append_right _ List.mem_cons_self
    · exact List.mem_append_left _ (h.at_issued t' e' hold)
  · intro t₁ t₂ e' h₁ h₂
    rcases hat t₁ e' h₁ with ⟨rfl, rfl⟩ | ⟨-, hold₁⟩
    · rcases hat t₂ e' h₂ with ⟨rfl, -⟩ | ⟨-, hold₂⟩
      · rfl
      · exact absurd (h.at_issued t₂ e' hold₂) hnew
    · rcases hat t₂ e' h₂ with ⟨rfl, rfl⟩ | ⟨-, hold₂⟩
      · exact absurd (h.at_issued t₁ e' hold₁) hnew
      · exact h.alone t₁ t₂ e' hold₁ hold₂
  · intro t' e' ht'
    rw [hbooks]
    rcases hat t' e' ht' with ⟨rfl, rfl⟩ | ⟨htt, hold⟩
    · show Told _ (Function.update j.phase t' (.emitted e') t') ∧ _
      rw [Function.update_self]
      exact ⟨⟨hunbooked.1, hunbooked.2.1⟩, hunbooked.2.2⟩
    · show Told _ (Function.update j.phase t (.emitted e) t') ∧ _
      rw [Function.update_of_ne htt]
      exact h.told t' e' hold
  · intro e' he' hreturned
    rw [hbooks]
    rcases List.mem_append.mp he' with he' | he'
    · refine h.settled e' he' fun t' ht' => hreturned t' ?_
      show (Function.update j.phase t (.emitted e) t').entry = some e'
      have htt : t' ≠ t := by
        rintro rfl
        rw [ht] at ht'
        cases ht'
      rwa [Function.update_of_ne htt]
    · obtain rfl := List.mem_singleton.mp he'
      refine absurd ?_ (hreturned t)
      show (Function.update j.phase t (.emitted e') t).entry = some e'
      rw [Function.update_self]
      rfl
  · intro hsink
    refine ⟨(h.onlyFiles hsink).1, fun t' => ?_⟩
    show Function.update j.phase t (.emitted e) t' = .idle ∨
      ∃ e', Function.update j.phase t (.emitted e) t' = .emitted e'
    by_cases htt : t' = t
    · subst htt
      rw [Function.update_self]
      exact Or.inr ⟨e, rfl⟩
    · rw [Function.update_of_ne htt]
      exact (h.onlyFiles hsink).2 t'

/-- A thread goes on, and nothing is booked. -/
theorem Account.goto (h : Account sink j) {next : Phase} (ht : (j.phase t).entry = some e)
    (hnext : next.entry = some e) (hfiles : sink ≠ .jsonl)
    (htold : Told (j.books e) (j.phase t) → Told (j.books e) next) :
    Account sink (j.goto t next) := by
  obtain ⟨hold, hopen⟩ := h.told t e ht
  exact h.act ht rfl rfl (fun _ _ => rfl) h.once (fun hsink => absurd hsink hfiles)
    (Or.inl ⟨hnext, htold hold, hopen⟩)

omit [DecidableEq τ] in
theorem mem_snoc_ne {e' : Entry} {l : List Entry} (hne : e' ≠ e) : (e' ∈ l ++ [e]) = (e' ∈ l) := by
  rw [eq_iff_iff, List.mem_append, List.mem_singleton]
  exact or_iff_left hne

omit [DecidableEq τ] in
theorem nodup_snoc {l : List Entry} (hl : l.Nodup) (he : e ∉ l) : (l ++ [e]).Nodup := by
  rw [List.nodup_append]
  refine ⟨hl, List.nodup_singleton e, fun a ha b hb hab => he ?_⟩
  exact List.mem_singleton.mp hb ▸ hab ▸ ha

/-- `write_pg` raises before it has committed. -/
theorem Account.fail (h : Account sink j) (hraises : Raises sink e (j.phase t)) :
    Account sink (j.goto t (.failed e)) := by
  obtain ⟨hentry, hsink, hunbooked⟩ : (j.phase t).entry = some e ∧ sink ≠ .jsonl ∧
      ∀ b, Told b (j.phase t) → ¬ b.recorded ∧ ¬ b.unsure := by
    cases ht : j.phase t <;> rw [ht] at hraises <;> first | exact hraises.elim | skip
    case emitted e' => exact ⟨congrArg some hraises.1, hraises.2, fun _ htold => htold⟩
    case begun e' createdAt =>
      exact ⟨congrArg some hraises, h.not_jsonl ht (by simp) (by simp), fun _ htold => htold⟩
    case inserted e' row =>
      exact ⟨congrArg some hraises, h.not_jsonl ht (by simp) (by simp), fun _ htold => htold⟩
  refine h.goto hentry rfl hsink fun htold => ?_
  obtain ⟨hrecorded, hunsure⟩ := hunbooked _ htold
  exact iff_of_false hrecorded hunsure

/-- `write_pg` was all there was to do. -/
theorem Account.finish (h : Account sink j) (ht : j.phase t = .published e) (hsink : sink = .pg) :
    Account sink (j.goto t .idle) := by
  have hentry : (j.phase t).entry = some e := by rw [ht]; rfl
  obtain ⟨htold, hopen⟩ := h.told t e hentry
  rw [ht] at htold
  refine h.act hentry rfl rfl (fun _ _ => rfl) h.once (fun hjsonl => ?_) (Or.inr ⟨rfl, Or.inl ?_⟩)
  · rw [hsink] at hjsonl
    cases hjsonl
  · exact ⟨hsink, htold.1, htold.2, hopen⟩

/-- The row of a call goes into the table. -/
theorem Account.store (h : Account sink j) {next : Phase} {row : EventRow} {unsure : List Entry}
    (ht : j.phase t = .inserted e row)
    (hnext : next = .committed e row ∧ unsure = j.unsure ∨
      next = .failed e ∧ unsure = j.unsure ++ [e]) :
    Account sink
      { j.goto t next with stored := j.stored ++ [(e, row)], unsure := unsure } := by
  have hentry : (j.phase t).entry = some e := by rw [ht]; rfl
  obtain ⟨htold, hopen⟩ := h.told t e hentry
  rw [ht] at htold
  obtain ⟨hrecorded, hunsure⟩ : e ∉ j.recorded ∧ e ∉ j.unsure := htold
  have hstored : Journal.recorded
      ({ j.goto t next with stored := j.stored ++ [(e, row)], unsure := unsure } :
        Journal ι τ) = j.recorded ++ [e] := List.map_append
  refine h.act hentry rfl rfl ?_ ?_ ?_ (Or.inl ?_)
  · intro e' hne
    ext
    · show e' ∈ Journal.recorded _ ↔ _
      rw [hstored, mem_snoc_ne hne]
      rfl
    · show e' ∈ unsure ↔ _
      rcases hnext with ⟨-, rfl⟩ | ⟨-, rfl⟩
      · rfl
      · rw [mem_snoc_ne hne]
        rfl
    · rfl
    · rfl
  · exact ⟨hstored ▸ nodup_snoc h.once.1 hrecorded, h.once.2⟩
  · exact fun hsink => absurd hsink (h.not_jsonl ht (by simp) (by simp))
  · have hrow : e ∈ Journal.recorded
        ({ j.goto t next with stored := j.stored ++ [(e, row)], unsure := unsure } :
          Journal ι τ) := hstored ▸ List.mem_append_right _ List.mem_cons_self
    rcases hnext with ⟨rfl, rfl⟩ | ⟨rfl, rfl⟩
    · exact ⟨rfl, ⟨hrow, hunsure⟩, hopen⟩
    · exact ⟨rfl, iff_of_true hrow (List.mem_append_right _ List.mem_cons_self), hopen⟩

/-- The line of a call is written or dropped. -/
theorem Account.file (h : Account sink j) (hdue : Files sink e (j.phase t)) (written : Bool) :
    Account sink (j.logEvent t e written) := by
  have hentry : (j.phase t).entry = some e := by
    cases hphase : j.phase t <;> rw [hphase] at hdue <;> first | exact hdue.elim | skip
    case emitted e' => exact congrArg some hdue.1
    case published e' => exact congrArg some hdue.1
    case failed e' => exact congrArg some hdue
  obtain ⟨htold, hwritten, hdropped⟩ := h.told t e hentry
  have hrows : (sink = .jsonl → ¬ (j.books e).recorded) ∧
      (sink = .pg → ((j.books e).recorded ↔ (j.books e).unsure)) := by
    refine ⟨fun hsink hmem => ?_, fun hsink => ?_⟩
    · have hstored := (h.onlyFiles hsink).1
      rw [books, recorded, hstored] at hmem
      cases hmem
    · cases hphase : j.phase t <;> rw [hphase] at hdue htold <;> first | exact hdue.elim | skip
      case emitted e' => rw [hdue.2] at hsink; cases hsink
      case published e' => rw [hdue.2] at hsink; cases hsink
      case failed e' => exact htold
  have hfiles : sink = .jsonl → j.stored = [] ∧ (Phase.idle = .idle ∨ ∃ e, Phase.idle = .emitted e) :=
    fun hsink => ⟨(h.onlyFiles hsink).1, Or.inl rfl⟩
  have hlast : ∀ l : List Entry, e ∈ l ++ [e] :=
    fun l => List.mem_append_right _ List.mem_cons_self
  cases written with
  | true =>
      refine h.act hentry rfl rfl ?_ ?_ hfiles (Or.inr ⟨rfl, Or.inr ⟨?_, hrows⟩⟩)
      · intro e' hne
        exact Books.ext rfl rfl (mem_snoc_ne hne) rfl
      · exact ⟨h.once.1, nodup_snoc h.once.2.1 hwritten, h.once.2.2⟩
      · exact Or.inl ⟨hlast j.lines, hdropped⟩
  | false =>
      refine h.act hentry rfl rfl ?_ ?_ hfiles (Or.inr ⟨rfl, Or.inr ⟨?_, hrows⟩⟩)
      · intro e' hne
        exact Books.ext rfl rfl rfl (mem_snoc_ne hne)
      · exact ⟨h.once.1, h.once.2.1, nodup_snoc h.once.2.2 hdropped⟩
      · exact Or.inr ⟨hlast j.dropped, hwritten⟩

end Step

variable [DecidableEq ι]

theorem Account.moves {u : Unicode} {env : Vault.Env} {sink : LogSink} {j j' : Journal ι τ}
    {a : Deed ι τ} (h : Account sink j) (hmoves : Moves u env sink j a j') : Account sink j' := by
  cases hmoves with
  | advance => exact h.congr rfl rfl rfl rfl rfl rfl
  | burn => exact h.congr rfl rfl rfl rfl rfl rfl
  | bus hbus hcopy => exact h.congr rfl rfl rfl rfl rfl rfl
  | emit ht he =>
      subst he
      exact h.emit ht rfl
  | begin ht hsink =>
      refine h.goto (by rw [ht]; rfl) rfl hsink fun htold => ?_
      rw [ht] at htold
      exact htold
  | insert ht hrow =>
      have hsink := h.not_jsonl ht (by simp) (by simp)
      refine (h.goto (by rw [ht]; rfl) rfl hsink fun htold => ?_).congr rfl rfl rfl rfl rfl rfl
      rw [ht] at htold
      exact htold
  | commit ht => exact h.store ht (Or.inl ⟨rfl, rfl⟩)
  | unanswered ht => exact h.store ht (Or.inr ⟨rfl, rfl⟩)
  | publish ht hbus =>
      have hsink := h.not_jsonl ht (by simp) (by simp)
      refine (h.goto (by rw [ht]; rfl) rfl hsink fun htold => ?_).congr rfl rfl rfl rfl rfl rfl
      rw [ht] at htold
      exact htold
  | append ht => exact h.file ht _
  | fail ht => exact h.fail ht
  | finish ht hsink => exact h.finish ht hsink

theorem Run.account {u : Unicode} {env : Vault.Env} {sink : LogSink} {acts : List (Deed ι τ)}
    {now : Vault.Time} {j : Journal ι τ} (hrun : Run u env sink acts now j) : Account sink j :=
  Runs.Steps.invariant (fun _ j => Account sink j) (Account.init sink now)
    (fun _ _ _ _ _ h hstep => h.moves (Moves.of_step hstep)) hrun

/-! ## What the rows say -/

/-- The row is what the database makes of the event. -/
def Holds (u : Unicode) (env : Vault.Env) (e : Entry) (row : EventRow) : Prop :=
  insertEvent u env row.eventId row.createdAt e.event = some row

/-- The rows, also those in a transaction, hold the events of their calls. -/
structure Content (u : Unicode) (env : Vault.Env) (j : Journal ι τ) : Prop where
  stored : ∀ p ∈ j.stored, Holds u env p.1 p.2
  inserted : ∀ t e row, j.phase t = .inserted e row → Holds u env e row
  committed : ∀ t e row, j.phase t = .committed e row → (e, row) ∈ j.stored

omit [DecidableEq ι] in
theorem update_phase {j : Journal ι τ} {t t' : τ} {next phase : Phase}
    (h : (j.goto t next).phase t' = phase) : t' = t ∧ next = phase ∨ t' ≠ t ∧ j.phase t' = phase := by
  change Function.update j.phase t next t' = phase at h
  by_cases htt : t' = t
  · subst htt
    rw [Function.update_self] at h
    exact Or.inl ⟨rfl, h⟩
  · rw [Function.update_of_ne htt] at h
    exact Or.inr ⟨htt, h⟩

section Content

variable {u : Unicode} {env : Vault.Env} {sink : LogSink} {j j' : Journal ι τ} {a : Deed ι τ}

omit [DecidableEq ι] in
/-- A thread goes on, and the table stays as it is. -/
theorem Content.goto (h : Content u env j) (t : τ) (next : Phase)
    (hinserted : ∀ e row, next = .inserted e row → Holds u env e row)
    (hcommitted : ∀ e row, next ≠ .committed e row) : Content u env (j.goto t next) where
  stored := h.stored
  inserted t' e row ht' := by
    rcases update_phase ht' with ⟨rfl, hnext⟩ | ⟨-, ht'⟩
    · exact hinserted e row hnext
    · exact h.inserted t' e row ht'
  committed t' e row ht' := by
    rcases update_phase ht' with ⟨rfl, hnext⟩ | ⟨-, ht'⟩
    · exact absurd hnext (hcommitted e row)
    · exact h.committed t' e row ht'

omit [DecidableEq ι] in
/-- The row of a transaction goes into the table. -/
theorem Content.store (h : Content u env j) {t : τ} {e : Entry} {row : EventRow} {next : Phase}
    {unsure : List Entry} (ht : j.phase t = .inserted e row)
    (hnext : next = .committed e row ∨ next = .failed e) :
    Content u env
      { j.goto t next with stored := j.stored ++ [(e, row)], unsure := unsure } where
  stored p hp := by
    rcases List.mem_append.mp hp with hp | hp
    · exact h.stored p hp
    · rw [List.mem_singleton.mp hp]
      exact h.inserted t e row ht
  inserted t' e' row' ht' := by
    rcases update_phase ht' with ⟨rfl, heq⟩ | ⟨-, ht'⟩
    · rcases hnext with rfl | rfl <;> cases heq
    · exact h.inserted t' e' row' ht'
  committed t' e' row' ht' := by
    rcases update_phase ht' with ⟨rfl, heq⟩ | ⟨-, ht'⟩
    · rcases hnext with rfl | rfl <;> cases heq
      exact List.mem_append_right _ List.mem_cons_self
    · exact List.mem_append_left _ (h.committed t' e' row' ht')

theorem Content.moves (h : Content u env j) (hmoves : Moves u env sink j a j') :
    Content u env j' := by
  cases hmoves with
  | advance => exact ⟨h.stored, h.inserted, h.committed⟩
  | burn => exact ⟨h.stored, h.inserted, h.committed⟩
  | bus hbus hcopy => exact ⟨h.stored, h.inserted, h.committed⟩
  | @emit t e e' ht he =>
      have hgoto := h.goto t (.emitted e') (by simp) (by simp)
      exact ⟨hgoto.stored, hgoto.inserted, hgoto.committed⟩
  | begin ht hsink => exact h.goto _ _ (by simp) (by simp)
  | @insert t e createdAt row ht hrow =>
      have hholds : Holds u env e row := by
        obtain ⟨-, heq⟩ := insertEvent_some hrow
        rw [Holds, show row.eventId = j.nextId by rw [heq]; rfl,
          show row.createdAt = createdAt by rw [heq]; rfl]
        exact hrow
      have hgoto := h.goto t (.inserted e row)
        (fun e' row' heq => by cases heq; exact hholds) (by simp)
      exact ⟨hgoto.stored, hgoto.inserted, hgoto.committed⟩
  | commit ht => exact h.store ht (Or.inl rfl)
  | unanswered ht => exact h.store ht (Or.inr rfl)
  | fail ht => exact h.goto _ _ (by simp) (by simp)
  | @publish t e row bus ht hbus =>
      have hgoto := h.goto t (.published e) (by simp) (by simp)
      exact ⟨hgoto.stored, hgoto.inserted, hgoto.committed⟩
  | @append t e written ht =>
      have hgoto := h.goto t .idle (by simp) (by simp)
      cases written with
      | true => exact ⟨hgoto.stored, hgoto.inserted, hgoto.committed⟩
      | false => exact ⟨hgoto.stored, hgoto.inserted, hgoto.committed⟩
  | finish ht hsink => exact h.goto _ _ (by simp) (by simp)

theorem Run.content {acts : List (Deed ι τ)} {now : Vault.Time} (hrun : Run u env sink acts now j) :
    Content u env j :=
  Runs.Steps.invariant (fun _ j => Content u env j)
    ⟨fun _ hp => by (cases hp), fun _ _ _ ht => by (cases ht), fun _ _ _ ht => by (cases ht)⟩
    (fun _ _ _ _ _ h hstep => h.moves (Moves.of_step hstep)) hrun

theorem Holds.eq {e : Entry} {row : EventRow} (h : Holds u env e row) :
    e.event.Fits u ∧ row = broadcastRow env row.eventId row.createdAt e.event :=
  ⟨(insertEvent_some h).1, (broadcastRow_eq e.fits_provider h).symm⟩

end Content

/-- **Every decision is logged.** In every run of the threads, of the clock and of the bus,
whatever fails: a call that has returned under the sink `pg`, whose `COMMIT` was answered
or failed, has a row and no line, or a line and no row, unless the file could not be
written; without an answer it has both. Under `jsonl` there are no rows, and under `both`
each call has its line in any case. No call has two rows or two lines, and a row says
what the event of its call says. -/
theorem logged {u : Unicode} {env : Vault.Env} {sink : LogSink} {acts : List (Deed ι τ)}
    {now : Vault.Time} {j : Journal ι τ} (hrun : Run u env sink acts now j) :
    (∀ e ∈ j.issued, j.Returned e →
      (sink = .pg ∧ e ∈ j.recorded ∧ e ∉ j.unsure ∧ e ∉ j.lines ∧ e ∉ j.dropped) ∨
        Xor (e ∈ j.lines) (e ∈ j.dropped) ∧ (sink = .jsonl → e ∉ j.recorded) ∧
          (sink = .pg → (e ∈ j.recorded ↔ e ∈ j.unsure))) ∧
    j.recorded.Nodup ∧ j.lines.Nodup ∧ j.dropped.Nodup ∧
    ∀ p ∈ j.stored, p.1 ∈ j.issued ∧ p.1.event.Fits u ∧
      p.2 = broadcastRow env p.2.eventId p.2.createdAt p.1.event := by
  have haccount := Run.account hrun
  refine ⟨fun e he hreturned => haccount.settled e he hreturned, haccount.once.1,
    haccount.once.2.1, haccount.once.2.2, fun p hp => ⟨?_, ((Run.content hrun).stored p hp).eq⟩⟩
  exact haccount.known p.1 (Or.inl (List.mem_map_of_mem hp))

/-- An event of an allowed request. -/
def sampleEvent (direction : String) : Emitted where
  event :=
    { sessionId := "s1"
      direction := direction
      provider := "gateway"
      verdictAction := .allow
      latencyMs := 3
      purpose := none
      transforms := []
      entitiesSummary := []
      guardrailHits := []
      failPolicyApplied := false
      reason := .failed
      createdAt := 0 }
  provider_mem := List.mem_cons_self

/-- A row, a direction that the column type rejects, and a `COMMIT` without an answer. -/
def mixed : List (Deed ℕ Bool) :=
  [.emit false (sampleEvent "input"), .begin false, .emit true (sampleEvent "sideways"),
    .begin true, .insert true, .insert false, .append true true, .commit false,
    .publish false, .finish false, .emit false (sampleEvent "output"), .begin false,
    .insert false, .unanswered false, .append false true]

theorem mixed_runs : (Runs.exec (step .ascii .sample .pg) (init 0) mixed).isSome = true := by
  decide +kernel

theorem logged_mixed :
    ∃ j : Journal ℕ Bool, Run .ascii .sample .pg mixed 0 j ∧
      j.recorded.map Entry.number = [0, 2] ∧ j.lines.map Entry.number = [1, 2] ∧
      j.recorded.Nodup := by
  have hrun : Run .ascii .sample .pg mixed 0 _ :=
    Runs.Steps.of_exec (Option.eq_some_of_isSome mixed_runs)
  refine ⟨_, hrun, ?_, ?_, (logged hrun).2.1⟩
  · decide +kernel
  · decide +kernel

end Journal

end DlpServer.Logging
