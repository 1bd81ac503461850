import DlpServer.Detect.RegexRules
import DlpServer.Lib.CheckDigits

/-!
# What the checksums catch (`app/detect/regex_rules.py`)

Luhn's checksum and that of the business numbers are both sums modulo 10 of what the
digits count at their places, so both are check digit systems (`verifyLuhn_iff`,
`verifyBiznoChecksum_iff`). At every place of either one the ten digits count ten
different things, and under Luhn's a pair of different digits counts the same either way
round only if it is a 0 and a 9.
-/

namespace DlpServer.Detect.RegexRules

open CheckDigits

variable {u : Unicode} {digits x y : Text} {c d : Char} {i m n : ℕ}

/-! ## Digits -/

/-- The character is one of the ten decimal digits, in whatever script. Two of them are
the same digit when they have the same value. -/
def IsDecimalDigit (u : Unicode) (c : Char) : Prop := u.isDecimal c = true ∧ u.digitVal c < 10

instance (u : Unicode) (c : Char) : Decidable (IsDecimalDigit u c) :=
  inferInstanceAs (Decidable (_ ∧ _))

/-- A string of decimal digits. -/
def DigitString (u : Unicode) (digits : Text) : Prop := ∀ c ∈ digits, IsDecimalDigit u c

instance (u : Unicode) (digits : Text) : Decidable (DigitString u digits) :=
  List.decidableBAll (IsDecimalDigit u) digits

theorem IsDecimalDigit.isDigit (h : IsDecimalDigit u c) : u.isDigit c = true :=
  u.digit_of_decimal c h.1

theorem DigitString.digitAt_lt (h : DigitString u digits) : digitAt u digits i < 10 := by
  rw [digitAt]
  by_cases hi : i < digits.length
  · rw [List.getD_eq_getElem _ _ hi]
    exact (h _ (List.getElem_mem hi)).2
  · rw [List.getD_eq_default _ _ (by omega), u.digitVal_range (by decide)]
    decide

theorem DigitString.replace (h : DigitString u (x ++ c :: y)) (hd : IsDecimalDigit u d) :
    DigitString u (x ++ d :: y) := by
  intro e he
  obtain he | rfl | he : e ∈ x ∨ e = d ∨ e ∈ y := by simpa using he
  · exact h e (by simp [he])
  · exact hd
  · exact h e (by simp [he])

/-- A digit in the place of another leaves the string one that `isdigit` accepts. -/
theorem all_replace (h : (x ++ c :: y).all u.isDigit = true) (hd : IsDecimalDigit u d) :
    (x ++ d :: y).all u.isDigit = true := by
  simp only [List.all_append, List.all_cons, Bool.and_eq_true] at h ⊢
  exact ⟨h.1, hd.isDigit, h.2.2⟩

/-- `'0'` to `'9'` are digits, -/
theorem isDecimalDigit_range (h : '0' ≤ c ∧ c ≤ '9') : IsDecimalDigit u c := by
  have hle : c.toNat ≤ 57 := h.2
  refine ⟨u.isDecimal_range h, ?_⟩
  rw [u.digitVal_range h]
  omega

/-- and any two of them different ones. -/
theorem digitVal_inj_range (hc : '0' ≤ c ∧ c ≤ '9') (hd : '0' ≤ d ∧ d ≤ '9') :
    u.digitVal c = u.digitVal d ↔ c = d := by
  have hc' : 48 ≤ c.toNat := hc.1
  have hd' : 48 ≤ d.toNat := hd.1
  rw [u.digitVal_range hc, u.digitVal_range hd, ← Char.toNat_inj]
  omega

/-! ## Luhn's checksum -/

/-- What the character counts under Luhn's checksum, places counted from the right. -/
def luhnCount (u : Unicode) (i : ℕ) (c : Char) : ZMod 10 := luhnDigit i (u.digitVal c)

theorem luhn_total (digits : Text) :
    total (luhnCount u) 0 digits =
      ((digits.zipIdx.map fun p => luhnDigit p.2 (u.digitVal p.1)).sum : ℕ) := by
  have hmap := map_total (fun i c => luhnDigit i (u.digitVal c))
    (Nat.castAddMonoidHom (ZMod 10)) 0 digits
  rw [← sum_zipIdx] at hmap
  exact hmap.symm

/-- Luhn's checksum is a check digit system on the digits from the right. -/
theorem verifyLuhn_iff :
    verifyLuhn u digits = true ↔
      (digits.all u.isDigit = true ∧ 13 ≤ digits.length ∧ digits.length ≤ 19) ∧
        Valid (luhnCount u) digits.reverse := by
  rw [Valid, luhn_total, ZMod.natCast_eq_zero_iff, Nat.dvd_iff_mod_eq_zero, verifyLuhn]
  split
  case isTrue h =>
    simp only [Bool.false_eq_true, false_iff, not_and]
    intro hshape
    simp [hshape] at h
  case isFalse h =>
    have hshape : digits.all u.isDigit = true ∧ 13 ≤ digits.length ∧ digits.length ≤ 19 := by
      simpa using h
    rw [beq_iff_eq, and_iff_right hshape]

theorem luhnDigit_even (hi : i % 2 = 0) : luhnDigit i n = n := by
  rw [luhnDigit, if_neg (by omega)]

theorem luhnDigit_odd (hi : i % 2 = 1) : luhnDigit i n = luhnDigit 1 n := by
  rw [luhnDigit, luhnDigit, if_pos hi, if_pos rfl]

theorem doubled_inj :
    ∀ m < 10, ∀ n < 10, luhnDigit 1 m % 10 = luhnDigit 1 n % 10 → m = n := by
  decide

theorem doubled_swap_iff :
    ∀ m < 10, ∀ n < 10, (n + luhnDigit 1 m) % 10 = (m + luhnDigit 1 n) % 10 ↔
      m = n ∨ m = 0 ∧ n = 9 ∨ m = 9 ∧ n = 0 := by
  decide

/-- The ten digits count ten different things, doubled or not. -/
theorem luhnDigit_inj (hm : m < 10) (hn : n < 10)
    (h : luhnDigit i m % 10 = luhnDigit i n % 10) : m = n := by
  obtain hi | hi := Nat.mod_two_eq_zero_or_one i
  · rw [luhnDigit_even hi, luhnDigit_even hi] at h
    omega
  · rw [luhnDigit_odd hi, luhnDigit_odd hi] at h
    exact doubled_inj m hm n hn h

/-- Neighbours count the same either way round if they are equal, or a 0 and a 9. -/
theorem luhnDigit_swap_iff (hm : m < 10) (hn : n < 10) :
    (luhnDigit i n + luhnDigit (i + 1) m) % 10 = (luhnDigit i m + luhnDigit (i + 1) n) % 10 ↔
      m = n ∨ m = 0 ∧ n = 9 ∨ m = 9 ∧ n = 0 := by
  -- one of the two places doubles, whichever it is
  obtain hi | hi := Nat.mod_two_eq_zero_or_one i
  · have hi' : (i + 1) % 2 = 1 := by omega
    rw [luhnDigit_even hi, luhnDigit_even hi, luhnDigit_odd hi', luhnDigit_odd hi']
    exact doubled_swap_iff m hm n hn
  · have hi' : (i + 1) % 2 = 0 := by omega
    rw [luhnDigit_odd hi, luhnDigit_odd hi, luhnDigit_even hi', luhnDigit_even hi',
      Nat.add_comm _ m, Nat.add_comm _ n, eq_comm]
    exact doubled_swap_iff m hm n hn

theorem luhnCount_inj (hc : IsDecimalDigit u c) (hd : IsDecimalDigit u d) :
    luhnCount u i d = luhnCount u i c ↔ u.digitVal d = u.digitVal c := by
  rw [luhnCount, luhnCount, ZMod.natCast_eq_natCast_iff']
  constructor
  · intro h
    exact luhnDigit_inj hd.2 hc.2 h
  · intro h
    rw [h]

/-- **A replaced digit** of a valid card number leaves a valid one exactly when it is the
same digit again. -/
theorem verifyLuhn_replace_iff (h : verifyLuhn u (x ++ c :: y) = true)
    (hc : IsDecimalDigit u c) (hd : IsDecimalDigit u d) :
    verifyLuhn u (x ++ d :: y) = true ↔ u.digitVal d = u.digitVal c := by
  obtain ⟨⟨hall, hlen⟩, hvalid⟩ := verifyLuhn_iff.mp h
  have hlen' : 13 ≤ (x ++ d :: y).length ∧ (x ++ d :: y).length ≤ 19 := by
    simpa using hlen
  have hreverse : ∀ e : Char, (x ++ e :: y).reverse = y.reverse ++ e :: x.reverse := by simp
  rw [hreverse] at hvalid
  rw [verifyLuhn_iff, and_iff_right ⟨all_replace hall hd, hlen'⟩, hreverse, hvalid.replace_iff,
    luhnCount_inj hc hd]

/-- **Swapped neighbours** in a valid card number leave a valid one exactly when they are
the same digit, or a 0 and a 9. -/
theorem verifyLuhn_swap_iff (h : verifyLuhn u (x ++ c :: d :: y) = true)
    (hc : IsDecimalDigit u c) (hd : IsDecimalDigit u d) :
    verifyLuhn u (x ++ d :: c :: y) = true ↔
      u.digitVal c = u.digitVal d ∨ u.digitVal c = 0 ∧ u.digitVal d = 9 ∨
        u.digitVal c = 9 ∧ u.digitVal d = 0 := by
  obtain ⟨⟨hall, hlen⟩, hvalid⟩ := verifyLuhn_iff.mp h
  have hall' : (x ++ d :: c :: y).all u.isDigit = true := by
    simp only [List.all_append, List.all_cons, Bool.and_eq_true] at hall ⊢
    exact ⟨hall.1, hall.2.2.1, hall.2.1, hall.2.2.2⟩
  have hlen' : 13 ≤ (x ++ d :: c :: y).length ∧ (x ++ d :: c :: y).length ≤ 19 := by
    simpa using hlen
  have hreverse : ∀ e f : Char, (x ++ e :: f :: y).reverse = y.reverse ++ f :: e :: x.reverse := by
    simp
  rw [hreverse] at hvalid
  rw [verifyLuhn_iff, and_iff_right ⟨hall', hlen'⟩, hreverse, hvalid.swap_iff]
  simp only [luhnCount]
  rw [← Nat.cast_add, ← Nat.cast_add, ZMod.natCast_eq_natCast_iff', eq_comm,
    luhnDigit_swap_iff hc.2 hd.2]

/-! ## The checksum of the business numbers -/

/-- What the digit `n` counts at place `i` of a business number: itself times its weight, the
ninth one a carry besides, and the check digit once. -/
def biznoDigit (i n : ℕ) : ℕ :=
  n * [1, 3, 7, 1, 3, 7, 1, 3, 5, 1].getD i 0 + (if i = 8 then n * 5 / 10 else 0)

/-- What the character counts at place `i` of a business number. -/
def biznoCount (u : Unicode) (i : ℕ) (c : Char) : ZMod 10 := biznoDigit i (u.digitVal c)

/-- The ten digits count ten different things at each of the places. -/
theorem biznoDigit_inj (hi : i < 10) (hm : m < 10) (hn : n < 10)
    (h : biznoDigit i m % 10 = biznoDigit i n % 10) : m = n := by
  obtain rfl | hi' := eq_or_ne i 8
  · -- the weight 5 alone would not do: it is the carry that tells the digits apart
    have ninth : ∀ a < 10, ∀ b < 10, biznoDigit 8 a % 10 = biznoDigit 8 b % 10 → a = b := by
      decide
    exact ninth m hm n hn h
  · simp only [biznoDigit, if_neg hi', Nat.add_zero] at h
    interval_cases i <;> simp at h <;> omega

theorem bizno_total (hlen : digits.length = 10) :
    total (biznoCount u) 0 digits =
      (weightedSum u (digits.take 9) [1, 3, 7, 1, 3, 7, 1, 3, 5] +
        digitAt u digits 8 * 5 / 10 + digitAt u digits 9 : ℕ) := by
  have hmap := map_total (fun i c => biznoDigit i (u.digitVal c))
    (Nat.castAddMonoidHom (ZMod 10)) 0 digits
  refine hmap.symm.trans (congrArg Nat.cast ?_)
  match digits, hlen with
  | [c₀, c₁, c₂, c₃, c₄, c₅, c₆, c₇, c₈, c₉], _ =>
      simp [biznoDigit, weightedSum, digitAt]
      omega

/-- The checksum of the business numbers is a check digit system on ten digits. -/
theorem verifyBiznoChecksum_iff (hdigits : DigitString u digits) :
    verifyBiznoChecksum u digits = true ↔
      (digits.length = 10 ∧ digits.all u.isDigit = true) ∧ Valid (biznoCount u) digits := by
  have hlast : digitAt u digits 9 < 10 := hdigits.digitAt_lt
  by_cases hshape : digits.length = 10 ∧ digits.all u.isDigit = true
  · rw [and_iff_right hshape, Valid, bizno_total hshape.1, ZMod.natCast_eq_zero_iff,
      verifyBiznoChecksum, if_neg (by simpa using hshape), beq_iff_eq]
    omega
  · rw [verifyBiznoChecksum, if_pos (by simpa [imp_iff_not_or] using hshape)]
    constructor
    · intro h
      cases h
    · rintro ⟨hshape', -⟩
      exact absurd hshape' hshape

theorem biznoCount_inj (hi : i < 10) (hc : IsDecimalDigit u c) (hd : IsDecimalDigit u d) :
    biznoCount u i d = biznoCount u i c ↔ u.digitVal d = u.digitVal c := by
  rw [biznoCount, biznoCount, ZMod.natCast_eq_natCast_iff']
  constructor
  · intro h
    exact biznoDigit_inj hi hd.2 hc.2 h
  · intro h
    rw [h]

/-- **A replaced digit** of a valid business number leaves a valid one exactly when it is
the same digit again. -/
theorem verifyBiznoChecksum_replace_iff (h : verifyBiznoChecksum u (x ++ c :: y) = true)
    (hdigits : DigitString u (x ++ c :: y)) (hd : IsDecimalDigit u d) :
    verifyBiznoChecksum u (x ++ d :: y) = true ↔ u.digitVal d = u.digitVal c := by
  obtain ⟨⟨hlen, hall⟩, hvalid⟩ := (verifyBiznoChecksum_iff hdigits).mp h
  have hc : IsDecimalDigit u c := hdigits c (by simp)
  have hlen' : (x ++ d :: y).length = 10 := by simpa using hlen
  have hplace : x.length < 10 := by
    rw [List.length_append, List.length_cons] at hlen
    omega
  rw [verifyBiznoChecksum_iff (hdigits.replace hd), and_iff_right ⟨hlen', all_replace hall hd⟩,
    hvalid.replace_iff, biznoCount_inj hplace hc hd]

/-! ## Slips -/

/-- **The checksums catch slips**: in a digit string that passes, one digit replaced by a
different one is rejected, under either checksum and at any place, and under Luhn's so are
two neighbours swapped that are different and not a 0 and a 9. -/
theorem slips_caught (u : Unicode) :
    (∀ x y c d, DigitString u (x ++ c :: y) → verifyLuhn u (x ++ c :: y) = true →
      IsDecimalDigit u d → u.digitVal d ≠ u.digitVal c → verifyLuhn u (x ++ d :: y) = false) ∧
    (∀ x y c d, DigitString u (x ++ c :: y) → verifyBiznoChecksum u (x ++ c :: y) = true →
      IsDecimalDigit u d → u.digitVal d ≠ u.digitVal c →
        verifyBiznoChecksum u (x ++ d :: y) = false) ∧
    (∀ x y c d, DigitString u (x ++ c :: d :: y) → verifyLuhn u (x ++ c :: d :: y) = true →
      u.digitVal c ≠ u.digitVal d → ¬ (u.digitVal c = 0 ∧ u.digitVal d = 9) →
        ¬ (u.digitVal c = 9 ∧ u.digitVal d = 0) → verifyLuhn u (x ++ d :: c :: y) = false) := by
  refine ⟨?_, ?_, ?_⟩
  · intro x y c d hdigits h hd hne
    have hc : IsDecimalDigit u c := hdigits c (by simp)
    rw [← Bool.not_eq_true, verifyLuhn_replace_iff h hc hd]
    exact hne
  · intro x y c d hdigits h hd hne
    rw [← Bool.not_eq_true, verifyBiznoChecksum_replace_iff h hdigits hd]
    exact hne
  · intro x y c d hdigits h hne h09 h90
    have hc : IsDecimalDigit u c := hdigits c (by simp)
    have hd : IsDecimalDigit u d := hdigits d (by simp)
    rw [← Bool.not_eq_true, verifyLuhn_swap_iff h hc hd]
    rintro (heq | h | h)
    · exact hne heq
    · exact h09 h
    · exact h90 h

theorem slips_caught_sample :
    verifyLuhn .ascii "4111111111111112".toList = false ∧
    verifyBiznoChecksum .ascii "1288619637".toList = false ∧
    verifyLuhn .ascii "1411111111111111".toList = false :=
  ⟨(slips_caught .ascii).1 "411111111111111".toList [] '1' '2'
      (by decide +kernel) (by decide +kernel) (by decide +kernel) (by decide +kernel),
    (slips_caught .ascii).2.1 "128861963".toList [] '1' '7'
      (by decide +kernel) (by decide +kernel) (by decide +kernel) (by decide +kernel),
    (slips_caught .ascii).2.2 [] "11111111111111".toList '4' '1'
      (by decide +kernel) (by decide +kernel) (by decide +kernel) (by decide +kernel)
      (by decide +kernel)⟩

end DlpServer.Detect.RegexRules
