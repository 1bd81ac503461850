import Mathlib

/-!
# The first of the best

`List.argmax` gives the first among the elements of the greatest key. Another
order of the list may give another one of them; what is read off the result does
not depend on the order exactly when all of them agree on it (`first_best_iff`).
-/

namespace Best

variable {α β κ : Type*} [LinearOrder κ]

/-- `a` has the greatest key of the list. -/
def IsBest (f : α → κ) (l : List α) (a : α) : Prop := a ∈ l ∧ ∀ b ∈ l, f b ≤ f a

variable {f : α → κ} {l l' : List α} {a b : α}

theorem IsBest.of_argmax (h : a ∈ l.argmax f) : IsBest f l a :=
  ⟨List.argmax_mem h, fun _ hb => List.le_of_mem_argmax hb h⟩

theorem IsBest.of_mem_iff (h : IsBest f l a) (hmem : ∀ c, c ∈ l' ↔ c ∈ l) : IsBest f l' a :=
  ⟨(hmem a).mpr h.1, fun b hb => h.2 b ((hmem b).mp hb)⟩

theorem exists_argmax (h : l ≠ []) : ∃ a, a ∈ l.argmax f :=
  Option.ne_none_iff_exists'.mp (mt List.argmax_eq_none.mp h)

/-- The first element that no earlier one reaches and no later one exceeds. -/
theorem argmax_append_cons {l₁ l₂ : List α} (hbefore : ∀ b ∈ l₁, f b < f a)
    (hafter : ∀ b ∈ l₂, f b ≤ f a) : (l₁ ++ a :: l₂).argmax f = some a := by
  obtain ⟨c, hc⟩ := exists_argmax (f := f) (l := l₁ ++ a :: l₂) (by simp)
  have hac : f a ≤ f c := List.le_of_mem_argmax (by simp) hc
  have hcmem := List.argmax_mem hc
  suffices c = a by rwa [this] at hc
  classical
  have ha₁ : a ∉ l₁ := fun h => lt_irrefl _ (hbefore a h)
  have hc₁ : c ∉ l₁ := fun h => not_lt.mpr hac (hbefore c h)
  -- The index of `c` is not greater than that of `a`, which comes first behind `l₁`.
  have hidx : (l₁ ++ a :: l₂).idxOf c ≤ (l₁ ++ a :: l₂).idxOf a := by
    refine List.index_of_argmax hc (by simp) ?_
    rcases List.mem_append.mp hcmem with h | h
    · exact absurd h hc₁
    · rcases List.mem_cons.mp h with rfl | h
      · exact le_rfl
      · exact hafter c h
  rw [List.idxOf_append_of_notMem hc₁, List.idxOf_append_of_notMem ha₁, List.idxOf_cons_self] at hidx
  by_contra hne
  rw [List.idxOf_cons_ne l₂ (Ne.symm hne)] at hidx
  omega

/-- Put to the front, each of the best that pass a test is the one that is taken. -/
theorem exists_first_best [DecidableEq α] {p : α → Bool} (ha : IsBest f (l.filter p) a) :
    ∃ l' : List α, l'.Perm l ∧ (l'.filter p).argmax f = some a := by
  obtain ⟨hal, hpa⟩ := List.mem_filter.mp ha.1
  refine ⟨a :: l.erase a, (List.perm_cons_erase hal).symm, ?_⟩
  rw [List.filter_cons_of_pos hpa]
  have hfirst : ([] ++ a :: (l.erase a).filter p).argmax f = some a := by
    apply argmax_append_cons
    · simp
    · intro b hb
      obtain ⟨hb, hpb⟩ := List.mem_filter.mp hb
      exact ha.2 b (List.mem_filter.mpr ⟨List.mem_of_mem_erase hb, hpb⟩)
  exact hfirst

/-- What holds of the first of the best that pass a test, in whatever order, holds of all
of the best. -/
theorem first_in_any_order [DecidableEq α] (f : α → κ) (p : α → Bool) (l : List α)
    (P : Option α → Prop) :
    (∀ l' : List α, l'.Perm l → P ((l'.filter p).argmax f)) ↔
      (∀ a, IsBest f (l.filter p) a → P (some a)) ∧ (l.filter p = [] → P none) := by
  constructor
  · intro h
    refine ⟨fun a ha => ?_, fun hnil => ?_⟩
    · obtain ⟨l', hperm, hfirst⟩ := exists_first_best ha
      exact hfirst ▸ h l' hperm
    · have hnone := h l (List.Perm.refl l)
      rwa [hnil, List.argmax_nil] at hnone
  · rintro ⟨hbest, hnone⟩ l' hperm
    have hmem : ∀ c, c ∈ l.filter p ↔ c ∈ l'.filter p := fun c =>
      (hperm.filter p).mem_iff.symm
    cases hfirst : (l'.filter p).argmax f with
    | none =>
        refine hnone (List.eq_nil_iff_forall_not_mem.mpr fun c hc => ?_)
        rw [hmem, List.argmax_eq_none.mp hfirst] at hc
        cases hc
    | some a => exact hbest a ((IsBest.of_argmax (Option.mem_def.mpr hfirst)).of_mem_iff hmem)

/-- **Order does not matter** for what is read off the first of the best elements
that pass a test, exactly when all of the best agree on it. -/
theorem first_best_iff [DecidableEq α] (f : α → κ) (g : α → β) (p : α → Bool) (l : List α) :
    (∀ l' : List α, l'.Perm l → ((l'.filter p).argmax f).map g = ((l.filter p).argmax f).map g) ↔
      ∀ a b, IsBest f (l.filter p) a → IsBest f (l.filter p) b → g a = g b := by
  rw [first_in_any_order f p l fun o => o.map g = ((l.filter p).argmax f).map g]
  constructor
  · rintro ⟨hall, -⟩ a b ha hb
    exact Option.some.inj ((hall a ha).trans (hall b hb).symm)
  · intro h
    refine ⟨fun a ha => ?_, fun hnil => by rw [hnil, List.argmax_nil]⟩
    obtain ⟨b, hb⟩ := exists_argmax (f := f) (List.ne_nil_of_mem ha.1)
    rw [hb, Option.map_some, Option.map_some, h a b ha (IsBest.of_argmax hb)]

/-- A list splits at the last of its greatest elements. -/
theorem exists_last_best (f : α → κ) (h : l ≠ []) :
    ∃ l₁ a l₂, l = l₁ ++ a :: l₂ ∧ (∀ b ∈ l₁, f b ≤ f a) ∧ ∀ b ∈ l₂, f b < f a := by
  induction l with
  | nil => exact absurd rfl h
  | cons x l ih =>
      by_cases hl : l = []
      · exact ⟨[], x, l, rfl, by simp, by simp [hl]⟩
      · obtain ⟨l₁, a, l₂, heq, hbefore, hafter⟩ := ih hl
        by_cases hx : f x ≤ f a
        · refine ⟨x :: l₁, a, l₂, congrArg (x :: ·) heq, fun b hb => ?_, hafter⟩
          rcases List.mem_cons.mp hb with rfl | hb
          · exact hx
          · exact hbefore b hb
        · refine ⟨[], x, l, rfl, by simp, fun b hb => ?_⟩
          have hlt := not_le.mp hx
          rw [heq] at hb
          rcases List.mem_append.mp hb with hb | hb
          · exact (hbefore b hb).trans_lt hlt
          · rcases List.mem_cons.mp hb with rfl | hb
            · exact hlt
            · exact (hafter b hb).trans hlt

end Best
