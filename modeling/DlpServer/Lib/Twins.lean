import DlpServer.Lib.Runs

/-!
# Two runs side by side

Two machines whose states stay related while they take related steps, and what related
lists answer to questions that do not tell their elements apart. Mathlib's relational
lemmas for `map`, `filter` and `++` are used as they are; here are those it has not got.
-/

namespace DlpServer

universe u v

variable {α β γ δ σ τ : Type*} {R : α → β → Prop}

/-! ## Related lists -/

theorem forall₂_find? {p : α → Bool} {q : β → Bool} (hpq : ∀ a b, R a b → p a = q b)
    {as : List α} {bs : List β} (h : List.Forall₂ R as bs) :
    Option.Rel R (as.find? p) (bs.find? q) := by
  induction h with
  | nil => exact Option.Rel.none
  | cons hab _ ih =>
      rw [List.find?_cons, List.find?_cons, hpq _ _ hab]
      split
      · exact Option.Rel.some hab
      · exact ih

theorem forall₂_filter {p : α → Bool} {q : β → Bool} (hpq : ∀ a b, R a b → p a = q b)
    {as : List α} {bs : List β} (h : List.Forall₂ R as bs) :
    List.Forall₂ R (as.filter p) (bs.filter q) :=
  List.rel_filter (fun _ _ hab => Bool.eq_iff_iff.mp (hpq _ _ hab)) h

theorem forall₂_countP {p : α → Bool} {q : β → Bool} (hpq : ∀ a b, R a b → p a = q b)
    {as : List α} {bs : List β} (h : List.Forall₂ R as bs) : as.countP p = bs.countP q := by
  rw [List.countP_eq_length_filter, List.countP_eq_length_filter]
  exact (forall₂_filter hpq h).length_eq

/-! ## Related outcomes -/

theorem optionRel_cases {a : Option α} {b : Option β} (h : Option.Rel R a b) :
    (a = none ∧ b = none) ∨ ∃ x y, a = some x ∧ b = some y ∧ R x y := by
  cases h with
  | some hxy => exact Or.inr ⟨_, _, rfl, rfl, hxy⟩
  | none => exact Or.inl ⟨rfl, rfl⟩

/-- Both raise the same, or both return and what they return is related. -/
inductive ExceptRel {ε : Type*} (R : α → β → Prop) : Except ε α → Except ε β → Prop
  | ok {a : α} {b : β} : R a b → ExceptRel R (.ok a) (.ok b)
  | error (e : ε) : ExceptRel R (.error e) (.error e)

namespace ExceptRel

variable {ε : Type*}

theorem same (x : Except ε α) : ExceptRel Eq x x := by
  cases x with
  | ok a => exact ok rfl
  | error e => exact error e

theorem bind {α γ : Type u} {β δ : Type v} {R : α → β → Prop} {S : γ → δ → Prop}
    {x : Except ε α} {y : Except ε β} {f : α → Except ε γ} {g : β → Except ε δ}
    (h : ExceptRel R x y) (hfg : ∀ a b, R a b → ExceptRel S (f a) (g b)) :
    ExceptRel S (x >>= f) (y >>= g) := by
  cases h with
  | ok hab => exact hfg _ _ hab
  | error e => exact error e

end ExceptRel

/-! ## Related runs -/

namespace Runs

variable {step : σ → α → σ} {step' : τ → β → τ} {S : σ → τ → Prop}

/-- **Simulation rule.** States that related operations keep related stay related. -/
theorem run_related (keep : ∀ {s t a b}, S s t → R a b → S (step s a) (step' t b)) {s : σ} {t : τ}
    (hs : S s t) {as : List α} {bs : List β} (h : List.Forall₂ R as bs) :
    S (run step s as) (run step' t bs) := by
  induction h generalizing s t with
  | nil => exact hs
  | cons hab _ ih => exact ih (keep hs hab)

/-- What two such runs put out is related as well. -/
theorem collect_related {out : σ → α → List γ} {out' : τ → β → List δ} {T : γ → δ → Prop}
    (keep : ∀ {s t a b}, S s t → R a b → S (step s a) (step' t b))
    (answer : ∀ {s t a b}, S s t → R a b → List.Forall₂ T (out s a) (out' t b)) {s : σ} {t : τ}
    (hs : S s t) {as : List α} {bs : List β} (h : List.Forall₂ R as bs) :
    List.Forall₂ T (collect step out s as) (collect step' out' t bs) := by
  induction h generalizing s t with
  | nil => exact List.Forall₂.nil
  | cons hab _ ih => exact List.rel_append (answer hs hab) (ih (keep hs hab))

end Runs

end DlpServer
