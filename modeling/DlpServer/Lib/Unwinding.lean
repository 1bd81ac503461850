import DlpServer.Lib.Runs

/-!
# Who can tell what happened

An observer sees a part of the state, and some of the operations are his. Where his
operations act on what he sees by what he sees, and the others leave it alone, he
cannot tell a run from the run of his own operations (`Unwinds.run`).
-/

namespace DlpServer.Runs

variable {σ α ω : Type*}

/-- The unwinding conditions, on the states of an invariant. -/
structure Unwinds (step : σ → α → σ) (Inv : σ → Prop) (sees : σ → ω) (own : α → Bool) : Prop where
  keeps : ∀ {s a}, Inv s → Inv (step s a)
  respects : ∀ {s s' a}, Inv s → Inv s' → own a = true → sees s = sees s' →
    sees (step s a) = sees (step s' a)
  ignores : ∀ {s a}, Inv s → own a = false → sees (step s a) = sees s

namespace Unwinds

variable {step : σ → α → σ} {Inv : σ → Prop} {sees : σ → ω} {own : α → Bool}

theorem run_inv (h : Unwinds step Inv sees own) {s : σ} (hs : Inv s) (ops : List α) :
    Inv (Runs.run step s ops) := by
  induction ops using List.reverseRecOn with
  | nil => exact hs
  | append_singleton ops a ih =>
      rw [run_snoc]
      exact h.keeps ih

/-- **Non-interference.** From states that look the same, a run and the run of the
observer's own operations lead to states that look the same. -/
theorem run (h : Unwinds step Inv sees own) {s s' : σ} (hs : Inv s) (hs' : Inv s')
    (hsame : sees s = sees s') (ops : List α) :
    sees (Runs.run step s ops) = sees (Runs.run step s' (ops.filter own)) := by
  induction ops using List.reverseRecOn with
  | nil => exact hsame
  | append_singleton ops a ih =>
      rw [run_snoc, List.filter_append]
      cases hown : own a with
      | true =>
          rw [List.filter_cons_of_pos hown, List.filter_nil, run_snoc]
          exact h.respects (h.run_inv hs ops) (h.run_inv hs' _) hown ih
      | false =>
          rw [List.filter_cons_of_neg (by rw [hown]; decide), List.filter_nil, List.append_nil]
          exact (h.ignores (h.run_inv hs ops) hown).trans ih

end Unwinds

end DlpServer.Runs
