import Mathlib

/-!
# Check digits

Every symbol of a word counts something that depends on its place, and the word is valid
when all of it together is zero. Which slips such a system catches is decided at the places
concerned: a replaced symbol by what the two count there (`Valid.replace_iff`), two swapped
neighbours by what the pair counts either way round (`Valid.swap_iff`).
-/

namespace CheckDigits

variable {α G H : Type*}

/-! ## What a word counts -/

section Total

variable [AddCommMonoid G] [AddCommMonoid H] (count : ℕ → α → G)

/-- What the symbols of a word count together, the first one at place `i`. -/
def total : ℕ → List α → G
  | _, [] => 0
  | i, a :: w => count i a + total (i + 1) w

/-- The word is a valid one. -/
def Valid (w : List α) : Prop := total count 0 w = 0

@[simp] theorem total_nil (i : ℕ) : total count i [] = 0 := rfl

@[simp] theorem total_cons (i : ℕ) (a : α) (w : List α) :
    total count i (a :: w) = count i a + total count (i + 1) w := rfl

variable {count}

theorem total_append (i : ℕ) (x y : List α) :
    total count i (x ++ y) = total count i x + total count (i + x.length) y := by
  induction x generalizing i with
  | nil => simp
  | cons a x ih =>
      have hplace : i + (a :: x).length = i + 1 + x.length := by
        rw [List.length_cons, Nat.add_right_comm, Nat.add_assoc]
      rw [List.cons_append, total_cons, total_cons, ih, hplace, add_assoc (count i a)]

/-- The sum over the numbered word. -/
theorem sum_zipIdx (i : ℕ) (w : List α) :
    ((w.zipIdx i).map fun p => count p.2 p.1).sum = total count i w := by
  induction w generalizing i with
  | nil => rfl
  | cons a w ih => rw [List.zipIdx_cons, List.map_cons, List.sum_cons, ih, total_cons]

/-- Counting first and reducing afterwards. -/
theorem map_total (count : ℕ → α → G) (f : G →+ H) (i : ℕ) (w : List α) :
    f (total count i w) = total (fun j a => f (count j a)) i w := by
  induction w generalizing i with
  | nil => exact map_zero f
  | cons a w ih => rw [total_cons, total_cons, map_add, ih]

end Total

/-! ## What is caught -/

section Slips

variable [AddCancelCommMonoid G] {count : ℕ → α → G}

theorem total_replace_iff {i : ℕ} {x y : List α} {a b : α} :
    total count i (x ++ b :: y) = total count i (x ++ a :: y) ↔
      count (i + x.length) b = count (i + x.length) a := by
  rw [total_append, total_append, add_left_cancel_iff]
  rw [total_cons, total_cons, add_right_cancel_iff]

theorem total_swap_iff {i : ℕ} {x y : List α} {a b : α} :
    total count i (x ++ b :: a :: y) = total count i (x ++ a :: b :: y) ↔
      count (i + x.length) b + count (i + x.length + 1) a =
        count (i + x.length) a + count (i + x.length + 1) b := by
  rw [total_append, total_append, add_left_cancel_iff]
  rw [total_cons, total_cons, total_cons, total_cons, ← add_assoc, ← add_assoc,
    add_right_cancel_iff]

/-- **A replaced symbol** goes unnoticed exactly when the new one counts the same there. -/
theorem Valid.replace_iff {x y : List α} {a b : α} (h : Valid count (x ++ a :: y)) :
    Valid count (x ++ b :: y) ↔ count x.length b = count x.length a := by
  have hzero : total count 0 (x ++ a :: y) = 0 := h
  rw [Valid, ← hzero, total_replace_iff, Nat.zero_add]

/-- **Swapped neighbours** go unnoticed exactly when the pair counts the same either way
round. -/
theorem Valid.swap_iff {x y : List α} {a b : α} (h : Valid count (x ++ a :: b :: y)) :
    Valid count (x ++ b :: a :: y) ↔
      count x.length b + count (x.length + 1) a =
        count x.length a + count (x.length + 1) b := by
  have hzero : total count 0 (x ++ a :: b :: y) = 0 := h
  rw [Valid, ← hzero, total_swap_iff, Nat.zero_add]

end Slips

end CheckDigits
