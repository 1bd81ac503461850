import Mathlib

/-!
# Floats

A float is a number, an infinity or `nan`, which is neither above nor below
anything. Numbers are rationals, so what is computed with them is exact unless it
is rounded: `toDouble` is the double that a number is rounded to, and `nearest` the
float.
-/

namespace DlpServer

/-! ## Comparing -/

/-- `⊥` and `⊤` are the infinities. -/
inductive PyFloat where
  | nan
  | num (x : WithBot (WithTop ℚ))
deriving DecidableEq

namespace PyFloat

instance : Coe ℚ PyFloat := ⟨fun x => num x⟩

instance (n : ℕ) [OfNat ℚ n] : OfNat PyFloat n := ⟨((OfNat.ofNat n : ℚ) : PyFloat)⟩

/-- `x <= y`. -/
def le : PyFloat → PyFloat → Prop
  | num x, num y => x ≤ y
  | _, _ => False

instance : LE PyFloat := ⟨le⟩

instance : DecidableLE PyFloat
  | num x, num y => inferInstanceAs (Decidable (x ≤ y))
  | nan, _ => inferInstanceAs (Decidable False)
  | num _, nan => inferInstanceAs (Decidable False)

/-- `x < y`. -/
def lt (x y : PyFloat) : Prop := x ≤ y ∧ ¬ y ≤ x

instance : LT PyFloat := ⟨lt⟩

variable {x y z : PyFloat}

@[simp] theorem coe_le_coe {p q : ℚ} : (p : PyFloat) ≤ q ↔ p ≤ q :=
  WithBot.coe_le_coe.trans WithTop.coe_le_coe

theorem trans (hxy : x ≤ y) (hyz : y ≤ z) : x ≤ z := by
  cases x with
  | nan => cases hxy
  | num a =>
      cases y with
      | nan => cases hxy
      | num b =>
          cases z with
          | nan => cases hyz
          | num c =>
              have hab : a ≤ b := hxy
              have hbc : b ≤ c := hyz
              exact show a ≤ c from hab.trans hbc

/-- What is not at least `y` is below `y`, but for `nan`. -/
theorem not_le : ¬ y ≤ x ↔ x = nan ∨ y = nan ∨ x < y := by
  cases x with
  | nan =>
      refine iff_of_true (fun h => ?_) (Or.inl rfl)
      cases y <;> cases h
  | num a =>
      cases y with
      | nan => exact iff_of_true (fun h => h) (Or.inr (Or.inl rfl))
      | num b =>
          constructor
          · intro h
            have hlt : a < b := lt_of_not_ge h
            exact Or.inr (Or.inr ⟨hlt.le, h⟩)
          · rintro (h | h | h)
            · cases h
            · cases h
            · exact h.2

end PyFloat

/-- `f` of a number; the infinities and `nan` stay. -/
def PyFloat.map (f : ℚ → ℚ) : PyFloat → PyFloat
  | .nan => .nan
  | .num x => .num (WithBot.map (WithTop.map f) x)

/-- A number: neither `nan` nor an infinity. -/
def PyFloat.isFinite : PyFloat → Bool
  | .num (some (some _)) => true
  | _ => false

/-! ## Rounding -/

/-- Rounding to an integer, halves to even. -/
def roundHalfEven (x : ℚ) : ℤ :=
  let n := ⌊x⌋
  if x - n < 1 / 2 then n
  else if 1 / 2 < x - n then n + 1
  else if n % 2 = 0 then n else n + 1

/-- The exponent of the greatest power of two that is at most `x`, for `x > 0`. -/
def binade (x : ℚ) : ℤ :=
  let k := (Nat.log2 x.num.toNat : ℤ) - Nat.log2 x.den
  if (2 : ℚ) ^ k ≤ x then k else k - 1

/-- The double nearest to `x`, for `0 ≤ x` within range: a multiple of the unit in
the last place of 53 bits, and of `2⁻¹⁰⁷⁴`. -/
def toDouble (x : ℚ) : ℚ :=
  let unit := (2 : ℚ) ^ max (binade x - 52) (-1074)
  roundHalfEven (x / unit) * unit

example : toDouble (1 / 10) = 3602879701896397 / 2 ^ 55 := by decide +kernel

namespace PyFloat

/-- The float nearest to `x`, for `0 ≤ x`: infinite from the middle between the greatest
double and `2¹⁰²⁴` on. -/
def nearest (x : ℚ) : PyFloat :=
  if toDouble x < 2 ^ 1024 then (toDouble x : PyFloat) else num ⊤

/-- `x + y`, of floats that are not negative. -/
def add : PyFloat → PyFloat → PyFloat
  | num (some (some x)), num (some (some y)) => nearest (x + y)
  | num _, num _ => num ⊤
  | _, _ => nan

/-- `x / n`, of a float that is not negative. -/
def divNat : PyFloat → ℕ → PyFloat
  | num (some (some x)), n => nearest (x / n)
  | x, _ => x

example : add (nearest 9007199254740993) 1 = nearest 9007199254740992 := by decide +kernel

end PyFloat

end DlpServer
