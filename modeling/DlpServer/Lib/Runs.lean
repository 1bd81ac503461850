import Mathlib

/-!
# Runs of a state machine

Two kinds of machine are used. A *total* machine is a step function
`σ → α → σ`; its run over a list of operations is the left fold. A *partial*
machine is a step function `σ → α → Option σ`, where `none` says that the
operation is not enabled (a statement that waits for a lock); its runs are the
inductive predicate `Steps`.

Both come with one induction rule each. The rule carries the history of the
run, so that an invariant may tie the state to the operations that led there.
-/

namespace DlpServer.Runs

variable {σ α : Type*}

/-! ## Total machines -/

/-- The state after the operations `ops`, started in `s`. -/
def run (step : σ → α → σ) (s : σ) (ops : List α) : σ :=
  ops.foldl step s

@[simp] theorem run_nil (step : σ → α → σ) (s : σ) : run step s [] = s := rfl

theorem run_snoc (step : σ → α → σ) (s : σ) (ops : List α) (a : α) :
    run step s (ops ++ [a]) = step (run step s ops) a := by
  simp [run, List.foldl_append]

/-- **Invariant rule.** What holds initially and is kept by every step, whose
history satisfies the guard `G`, holds after every run all of whose steps
satisfy the guard. -/
theorem run_invariant {step : σ → α → σ} {s₀ : σ} (I : List α → σ → Prop)
    (G : List α → α → Prop) (init : I [] s₀)
    (keep : ∀ ops a, G ops a → I ops (run step s₀ ops) →
      I (ops ++ [a]) (step (run step s₀ ops) a)) :
    ∀ ops, (∀ pre a post, ops = pre ++ a :: post → G pre a) →
      I ops (run step s₀ ops) := by
  intro ops
  induction ops using List.reverseRecOn with
  | nil => intro _; exact init
  | append_singleton ops a ih =>
      intro hG
      rw [run_snoc]
      refine keep ops a (hG ops a [] rfl) (ih ?_)
      intro pre b post heq
      exact hG pre b (post ++ [a]) (by simp [heq])

/-- What the steps of a run put out, in order: `out t a` is what the operation
`a` puts out in state `t`. -/
def collect {β : Type*} (step : σ → α → σ) (out : σ → α → List β) (s : σ) : List α → List β
  | [] => []
  | a :: ops => out s a ++ collect step out (step s a) ops

theorem collect_append {β : Type*} (step : σ → α → σ) (out : σ → α → List β) (s : σ)
    (ops ops' : List α) :
    collect step out s (ops ++ ops') =
      collect step out s ops ++ collect step out (run step s ops) ops' := by
  induction ops generalizing s with
  | nil => rfl
  | cons a ops ih => simp [collect, run, ih]

theorem collect_snoc {β : Type*} (step : σ → α → σ) (out : σ → α → List β) (s : σ)
    (ops : List α) (a : α) :
    collect step out s (ops ++ [a]) = collect step out s ops ++ out (run step s ops) a := by
  simp [collect_append, collect]

/-- Everything put out was put out by one operation of the run. -/
theorem mem_collect {β : Type*} {step : σ → α → σ} {out : σ → α → List β} {s : σ}
    {ops : List α} {b : β} :
    b ∈ collect step out s ops ↔
      ∃ pre a post, ops = pre ++ a :: post ∧ b ∈ out (run step s pre) a := by
  constructor
  · induction ops generalizing s with
    | nil => intro h; cases h
    | cons a ops ih =>
        intro h
        rcases List.mem_append.mp h with h | h
        · exact ⟨[], a, ops, rfl, h⟩
        · obtain ⟨pre, c, post, rfl, hb⟩ := ih h
          exact ⟨a :: pre, c, post, rfl, hb⟩
  · rintro ⟨pre, a, post, rfl, hb⟩
    rw [collect_append]
    exact List.mem_append_right _ (List.mem_append_left _ hb)

/-! ## Partial machines -/

/-- `Steps step s ops s'`: the operations `ops`, each of them enabled in its
turn, lead from `s` to `s'`. -/
inductive Steps (step : σ → α → Option σ) (s : σ) : List α → σ → Prop where
  | nil : Steps step s [] s
  | snoc {ops : List α} {t u : σ} {a : α} :
      Steps step s ops t → step t a = some u → Steps step s (ops ++ [a]) u

/-- Invariant rule for partial machines. -/
theorem Steps.invariant {step : σ → α → Option σ} {s₀ : σ} (I : List α → σ → Prop)
    (init : I [] s₀)
    (keep : ∀ ops s a s', Steps step s₀ ops s → I ops s → step s a = some s' →
      I (ops ++ [a]) s') :
    ∀ {ops s}, Steps step s₀ ops s → I ops s := by
  intro ops s h
  induction h with
  | nil => exact init
  | snoc hs hstep ih => exact keep _ _ _ _ hs ih hstep

/-- Where each operation leaves less to do, a run is not longer than what there was to do. -/
theorem Steps.length_le {step : σ → α → Option σ} {s : σ} (I : σ → Prop) (G : α → Prop)
    (todo : σ → ℕ) (init : I s)
    (keep : ∀ t a u, G a → I t → step t a = some u → I u ∧ todo u < todo t) {ops : List α} {t : σ}
    (h : Steps step s ops t) (hops : ∀ a ∈ ops, G a) : I t ∧ ops.length + todo t ≤ todo s := by
  induction h with
  | nil => exact ⟨init, (Nat.zero_add _).le⟩
  | @snoc ops t u a _ hstep ih =>
      obtain ⟨hinv, hle⟩ := ih fun b hb => hops b (List.mem_append_left _ hb)
      obtain ⟨hinv', hlt⟩ := keep t a u (hops a (List.mem_append_right _ List.mem_cons_self)) hinv
        hstep
      refine ⟨hinv', ?_⟩
      rw [List.length_append, List.length_singleton]
      omega

/-- A run goes on where another one has come to. -/
theorem Steps.append {step : σ → α → Option σ} {s t u : σ} {ops ops' : List α}
    (h : Steps step s ops t) (h' : Steps step t ops' u) : Steps step s (ops ++ ops') u := by
  induction h' with
  | nil => rwa [List.append_nil]
  | snoc _ hstep ih =>
      rw [← List.append_assoc]
      exact .snoc ih hstep

/-- **Projection.** Where the operations of `P` act on the image of a state as on the state,
and the others leave the image alone, the image of a run is a run of the operations
of `P`. -/
theorem Steps.project {σ' : Type*} {step : σ → α → Option σ} {step' : σ' → α → Option σ'}
    {s : σ} (image : σ → σ') (P : α → Bool)
    (hkeep : ∀ t a u, P a = true → step t a = some u → step' (image t) a = some (image u))
    (hdrop : ∀ t a u, P a = false → step t a = some u → image u = image t) {ops : List α} {t : σ}
    (h : Steps step s ops t) : Steps step' (image s) (ops.filter P) (image t) := by
  induction h with
  | nil => exact .nil
  | @snoc ops t u a _ hstep ih =>
      rw [List.filter_append]
      cases hP : P a with
      | true =>
          rw [List.filter_cons_of_pos hP, List.filter_nil]
          exact .snoc ih (hkeep t a u hP hstep)
      | false =>
          rw [List.filter_cons_of_neg (by rw [hP]; decide), List.filter_nil, List.append_nil,
            hdrop t a u hP hstep]
          exact ih

/-- Execute a schedule; `none` as soon as an operation is not enabled. -/
def exec (step : σ → α → Option σ) : σ → List α → Option σ
  | s, [] => some s
  | s, a :: ops => (step s a).bind (exec step · ops)

theorem exec_append (step : σ → α → Option σ) (s : σ) (ops ops' : List α) :
    exec step s (ops ++ ops') = (exec step s ops).bind (exec step · ops') := by
  induction ops generalizing s with
  | nil => rfl
  | cons a ops ih =>
      simp only [List.cons_append, exec]
      cases step s a with
      | none => rfl
      | some t => simpa using ih t

theorem exec_snoc {step : σ → α → Option σ} {s s' : σ} {ops : List α} {a : α} :
    exec step s (ops ++ [a]) = some s' ↔
      ∃ t, exec step s ops = some t ∧ step t a = some s' := by
  rw [exec_append, Option.bind_eq_some_iff]
  simp [exec]

/-- An executed schedule is a run. -/
theorem Steps.of_exec {step : σ → α → Option σ} {s s' : σ} {ops : List α}
    (h : exec step s ops = some s') : Steps step s ops s' := by
  induction ops using List.reverseRecOn generalizing s' with
  | nil =>
      obtain rfl : s = s' := by simpa [exec] using h
      exact .nil
  | append_singleton ops a ih =>
      obtain ⟨t, ht, hstep⟩ := exec_snoc.mp h
      exact .snoc (ih ht) hstep

/-- A run can be executed. -/
theorem Steps.exec {step : σ → α → Option σ} {s s' : σ} {ops : List α}
    (h : Steps step s ops s') : Runs.exec step s ops = some s' := by
  induction h with
  | nil => rfl
  | snoc _ hstep ih => exact exec_snoc.mpr ⟨_, ih, hstep⟩

/-- Each operation of a run is enabled where the run has come to it. -/
theorem Steps.enabled {step : σ → α → Option σ} {s t u : σ} {pre post : List α} {a : α}
    (h : Steps step s (pre ++ a :: post) u) (hpre : Steps step s pre t) :
    ∃ t', step t a = some t' := by
  have hexec := h.exec
  rw [exec_append, hpre.exec, Option.bind_some, Runs.exec] at hexec
  obtain ⟨t', ht', -⟩ := Option.bind_eq_some_iff.mp hexec
  exact ⟨t', ht'⟩

/-- What an evaluation of the schedule finds before each of its operations holds before the
operation in every run. -/
theorem Steps.of_check {step : σ → α → Option σ} {s : σ} {ops : List α} {P : σ → α → Prop}
    (hcheck : ∀ n < ops.length, ∀ t ∈ Runs.exec step s (ops.take n), ∀ a ∈ ops[n]?, P t a)
    {pre post : List α} {a : α} {t : σ} (heq : ops = pre ++ a :: post)
    (hpre : Steps step s pre t) : P t a := by
  have hlt : pre.length < ops.length := by
    rw [heq, List.length_append, List.length_cons]
    omega
  have htake : ops.take pre.length = pre := by rw [heq, List.take_left]
  have hget : ops[pre.length]? = some a := by
    rw [heq, List.getElem?_append_right le_rfl, Nat.sub_self, List.getElem?_cons_zero]
  exact hcheck pre.length hlt t (htake.symm ▸ hpre.exec) a hget

end DlpServer.Runs
