import DlpServer.Lib.Captures
import DlpServer.Policy.Order

/-!
# Which conditions hold

`eval_condition` knows two forms and no third (`evalCondition_iff`); a numeral is compared
as the double nearest to it. What holds by them holds at every higher score and after a hit
as well, so where all overrides block, `pick_action` does not come back from `block`.
-/

namespace DlpServer.Policy

open Regex Pattern

section Forms

variable (u : Unicode)

/-- The value of the digits behind the point. -/
def fractionValue : Text → ℚ
  | [] => 0
  | c :: d => (u.digitVal c + fractionValue d) / 10

/-- The numeral is `0`, `0.d+`, `1` or `1.0+`, and its value. -/
inductive Numeral : Text → ℚ → Prop
  | zero : Numeral ['0'] 0
  | fraction (d : Text) (hne : d ≠ []) (hd : ∀ c ∈ d, u.isDecimal c = true) :
      Numeral ('0' :: '.' :: d) (fractionValue u d)
  | one : Numeral ['1'] 1
  | ones (z : Text) (hne : z ≠ []) (hz : ∀ c ∈ z, c = '0') : Numeral ('1' :: '.' :: z) 1

/-- `risk_score`, perhaps white space, `>=`, perhaps white space, and `n`. -/
def Compares (expr n : Text) : Prop :=
  ∃ a b, expr = "risk_score".toList ++ (a ++ (['>', '='] ++ (b ++ n))) ∧
    (∀ c ∈ a, u.isSpace c = true) ∧ ∀ c ∈ b, u.isSpace c = true

/-- The two forms of a condition that holds, for some reading of the values of numerals
as floats. -/
def Holds (read : ℚ → ℚ) (riskScore : PyFloat) (injectionHit : Bool) (expr : Text) : Prop :=
  expr = "injection.hit".toList ∧ injectionHit = true ∨
    ∃ n v, Compares u expr n ∧ Numeral u n v ∧ (read v : PyFloat) ≤ riskScore

end Forms

variable {u : Unicode}

/-! ## The value of a numeral -/

theorem foldl_digits (d : Text) (n : ℕ) :
    d.foldl (fun n c => n * 10 + u.digitVal c) n = n * 10 ^ d.length + u.intOf d := by
  induction d generalizing n with
  | nil => simp [Unicode.intOf]
  | cons e d ih =>
      have hcons : u.intOf (e :: d) = (0 * 10 + u.digitVal e) * 10 ^ d.length + u.intOf d := ih _
      rw [List.foldl_cons, ih, hcons, List.length_cons]
      ring

theorem intOf_cons (c : Char) (d : Text) :
    u.intOf (c :: d) = u.digitVal c * 10 ^ d.length + u.intOf d := by
  rw [Unicode.intOf, List.foldl_cons, foldl_digits, Nat.zero_mul, Nat.zero_add]

theorem fractionValue_eq (d : Text) : fractionValue u d = u.intOf d / 10 ^ d.length := by
  induction d with
  | nil => simp [fractionValue, Unicode.intOf]
  | cons c d ih =>
      rw [fractionValue, ih, intOf_cons, List.length_cons]
      push_cast
      field_simp
      ring

theorem digitVal_zero : u.digitVal '0' = 0 := by
  rw [u.digitVal_range (by decide)]
  rfl

theorem digitVal_one : u.digitVal '1' = 1 := by
  rw [u.digitVal_range (by decide)]
  rfl

theorem fractionValue_zeros {z : Text} (hz : ∀ c ∈ z, c = '0') : fractionValue u z = 0 := by
  induction z with
  | nil => rfl
  | cons c z ih =>
      rw [fractionValue, hz c List.mem_cons_self, digitVal_zero,
        ih fun e he => hz e (List.mem_cons_of_mem c he)]
      norm_num

/-- One digit, a point and others. -/
theorem numeralValue_point {c : Char} (hc : c ≠ '.') (d : Text) :
    numeralValue u (c :: '.' :: d) = u.digitVal c + fractionValue u d := by
  have hkeep : (c != '.') = true := bne_iff_ne.mpr hc
  have hwhole : (c :: '.' :: d).takeWhile (· != '.') = [c] := by
    simp [hkeep]
  have hfraction : ((c :: '.' :: d).dropWhile (· != '.')).drop 1 = d := by
    simp [hkeep]
  unfold numeralValue
  dsimp only
  rw [hwhole, hfraction, List.singleton_append, intOf_cons, fractionValue_eq]
  push_cast
  field_simp

theorem numeralValue_digit {c : Char} (hc : c ≠ '.') : numeralValue u [c] = u.digitVal c := by
  have hkeep : (c != '.') = true := bne_iff_ne.mpr hc
  unfold numeralValue
  simp [hkeep, Unicode.intOf]

theorem Numeral.value_eq {n : Text} {v : ℚ} (h : Numeral u n v) : numeralValue u n = v := by
  cases h with
  | zero =>
      rw [numeralValue_digit (by decide), digitVal_zero]
      rfl
  | fraction d hne hd => rw [numeralValue_point (by decide), digitVal_zero, Nat.cast_zero, zero_add]
  | one =>
      rw [numeralValue_digit (by decide), digitVal_one]
      rfl
  | ones z hne hz =>
      rw [numeralValue_point (by decide), digitVal_one, fractionValue_zeros hz, Nat.cast_one,
        add_zero]

theorem Numeral.floatOf_eq {n : Text} {v : ℚ} (h : Numeral u n v) : floatOf u n = toDouble v := by
  rw [floatOf, h.value_eq]

/-! ## The pattern -/

/-- The group of `_RISK_SCORE_RE`. -/
theorem accepts_numeral {b n t : Text} :
    (Pattern.alt
        (.seq (.lit ['0']) (.opt (.seq (.lit ['.']) (.some1 u.isDecimal))))
        (.seq (.lit ['1']) (.opt (.seq (.lit ['.']) (.some1 fun c => c == '0'))))).Accepts b n t ↔
      ∃ v, Numeral u n v := by
  constructor
  · rintro (⟨x, y, rfl, hx, hy⟩ | ⟨x, y, rfl, hx, hy⟩)
    all_goals
      rw [accepts_lit.mp hx]
      rcases accepts_opt.mp hy with rfl | ⟨z, d, rfl, hz, hd⟩
    · exact ⟨0, .zero⟩
    · rw [accepts_lit.mp hz]
      obtain ⟨hne, hall⟩ := accepts_some1.mp hd
      exact ⟨_, .fraction d hne hall⟩
    · exact ⟨1, .one⟩
    · rw [accepts_lit.mp hz]
      obtain ⟨hne, hall⟩ := accepts_some1.mp hd
      exact ⟨1, .ones d hne fun c hc => beq_iff_eq.mp (hall c hc)⟩
  · rintro ⟨v, h⟩
    cases h with
    | zero => exact Or.inl ⟨['0'], [], rfl, accepts_lit.mpr rfl, accepts_opt.mpr (Or.inl rfl)⟩
    | fraction d hne hd =>
        refine Or.inl ⟨['0'], '.' :: d, rfl, accepts_lit.mpr rfl, accepts_opt.mpr (Or.inr ?_)⟩
        exact ⟨['.'], d, rfl, accepts_lit.mpr rfl, accepts_some1.mpr ⟨hne, hd⟩⟩
    | one => exact Or.inr ⟨['1'], [], rfl, accepts_lit.mpr rfl, accepts_opt.mpr (Or.inl rfl)⟩
    | ones z hne hz =>
        refine Or.inr ⟨['1'], '.' :: z, rfl, accepts_lit.mpr rfl, accepts_opt.mpr (Or.inr ?_)⟩
        exact ⟨['.'], z, rfl, accepts_lit.mpr rfl,
          accepts_some1.mpr ⟨hne, fun c hc => beq_iff_eq.mpr (hz c hc)⟩⟩

/-- A match gives the parts of the comparison, with the numeral in the group. -/
theorem compares_of_fullmatch {expr : Text} {m : Match Char}
    (h : (riskScoreRe u).fullmatch expr = some m) :
    Compares u expr (m.group 1) ∧ ∃ v, Numeral u (m.group 1) v := by
  obtain ⟨c, hc, hend, hgroups⟩ := fullmatch_reads h
  have hplain : (Pattern.alt
      (.seq (.lit ['0']) (.opt (.seq (.lit ['.']) (.some1 u.isDecimal))))
      (.seq (.lit ['1']) (.opt (.seq (.lit ['.']) (.some1 fun c => c == '0'))))).Plain :=
    ((plain_lit _).seq (((plain_lit _).seq ((plain_one _).rep 1 none)).rep 0 (some 1))).alt
      ((plain_lit _).seq (((plain_lit _).seq ((plain_one _).rep 1 none)).rep 0 (some 1)))
  have hspace : (Pattern.rep (.one u.isSpace) 0 none).Plain := (plain_one _).rep 0 none
  obtain ⟨x₁, c₁, hr₁, ha₁, hg₁, hc⟩ := (plain_lit _).seq_run hc
  obtain ⟨x₂, c₂, hr₂, ha₂, hg₂, hc⟩ := hspace.seq_run hc
  obtain ⟨x₃, c₃, hr₃, ha₃, hg₃, hc⟩ := (plain_lit _).seq_run hc
  obtain ⟨x₄, c₄, hr₄, ha₄, hg₄, hc⟩ := hspace.seq_run hc
  obtain ⟨n, hr₅, ha₅, hg₅⟩ := hplain.group_reads hc
  have hone : m.group 1 = n := by
    rw [Match.group, hgroups, hg₅, hg₄, hg₃, hg₂, hg₁]
    rfl
  have hexpr := (hr₁.trans (hr₂.trans (hr₃.trans (hr₄.trans hr₅)))).after
  rw [hend, List.append_nil, accepts_lit.mp ha₁, accepts_lit.mp ha₃] at hexpr
  rw [hone]
  exact ⟨⟨x₂, x₄, hexpr, accepts_many.mp ha₂, accepts_many.mp ha₄⟩, accepts_numeral.mp ha₅⟩

theorem fullmatch_of_compares {expr n : Text} {v : ℚ} (h : Compares u expr n)
    (hn : Numeral u n v) : ((riskScoreRe u).fullmatch expr).isSome = true := by
  obtain ⟨a, b, rfl, ha, hb⟩ := h
  refine fullmatch_isSome ⟨_, _, rfl, accepts_lit.mpr rfl, a, _, rfl, accepts_many.mpr ha, _, _, rfl,
    accepts_lit.mpr rfl, b, n, rfl, accepts_many.mpr hb, accepts_numeral.mpr ⟨v, hn⟩⟩

theorem Numeral.head {n : Text} {v : ℚ} (h : Numeral u n v) :
    ∃ c x, n = c :: x ∧ u.isSpace c = false := by
  have hzero : u.isSpace '0' = false := u.space_ascii '0' (by decide)
  have hone : u.isSpace '1' = false := u.space_ascii '1' (by decide)
  cases h with
  | zero => exact ⟨'0', [], rfl, hzero⟩
  | fraction d hne hd => exact ⟨'0', '.' :: d, rfl, hzero⟩
  | one => exact ⟨'1', [], rfl, hone⟩
  | ones z hne hz => exact ⟨'1', '.' :: z, rfl, hone⟩

/-- The parts of a comparison are determined. -/
theorem Compares.unique {expr n n' : Text} {v v' : ℚ} (h : Compares u expr n)
    (h' : Compares u expr n') (hn : Numeral u n v) (hn' : Numeral u n' v') : n = n' := by
  have hbehind : ∀ {a x : Text} {c : Char}, (∀ c ∈ a, u.isSpace c = true) →
      u.isSpace c = false → (a ++ c :: x).dropWhile u.isSpace = c :: x := by
    intro a x c ha hc
    rw [List.dropWhile_append_of_pos ha, List.dropWhile_cons_of_neg (by rw [hc]; decide)]
  have hsign : u.isSpace '>' = false := u.space_ascii '>' (by decide)
  obtain ⟨a, b, rfl, ha, hb⟩ := h
  obtain ⟨a', b', heq, ha', hb'⟩ := h'
  have hrest : '>' :: '=' :: (b ++ n) = '>' :: '=' :: (b' ++ n') :=
    (hbehind ha hsign).symm.trans
      ((congrArg (List.dropWhile u.isSpace) (List.append_cancel_left heq)).trans
        (hbehind ha' hsign))
  have hlast : b ++ n = b' ++ n' := (List.cons.inj (List.cons.inj hrest).2).2
  obtain ⟨c, x, rfl, hc⟩ := hn.head
  obtain ⟨c', x', rfl, hc'⟩ := hn'.head
  rw [← hbehind hb hc, ← hbehind hb' hc', hlast]

/-! ## The conditions -/

/-- **The whitelist.** A condition holds exactly in its two forms. -/
theorem evalCondition_iff (expr : Text) (riskScore : PyFloat) (injectionHit : Bool) :
    evalCondition u expr riskScore injectionHit = true ↔
      Holds u toDouble riskScore injectionHit (u.strip expr) := by
  unfold evalCondition
  dsimp only
  split
  · rename_i hhit
    constructor
    · exact fun htrue => Or.inl ⟨hhit, htrue⟩
    · rintro (⟨-, htrue⟩ | ⟨n, v, ⟨a, b, heq, -, -⟩, -, -⟩)
      · exact htrue
      · rw [hhit] at heq
        exact absurd (Option.some.inj (congrArg List.head? heq) : 'i' = 'r') (by decide)
  · rename_i hno
    constructor
    · intro htrue
      cases hm : (riskScoreRe u).fullmatch (u.strip expr) with
      | none =>
          rw [hm] at htrue
          cases htrue
      | some m =>
          rw [hm] at htrue
          obtain ⟨hcompares, v, hn⟩ := compares_of_fullmatch hm
          exact Or.inr ⟨_, v, hcompares, hn, hn.floatOf_eq ▸ of_decide_eq_true htrue⟩
    · rintro (⟨hhit, -⟩ | ⟨n, v, hcompares, hn, hle⟩)
      · exact absurd hhit hno
      · obtain ⟨m, hm⟩ := Option.isSome_iff_exists.mp (fullmatch_of_compares hcompares hn)
        obtain ⟨hcompares', v', hn'⟩ := compares_of_fullmatch hm
        have hgroup : m.group 1 = n := hcompares'.unique hcompares hn' hn
        rw [hm]
        exact decide_eq_true (by rw [hgroup, hn.floatOf_eq]; exact hle)

/-- At a score that is not lower, `nan` being as high as itself alone. -/
theorem Holds.mono {read : ℚ → ℚ} {riskScore riskScore' : PyFloat}
    {injectionHit injectionHit' : Bool} {expr : Text}
    (h : Holds u read riskScore injectionHit expr)
    (hscore : riskScore' = riskScore ∨ riskScore ≤ riskScore')
    (hhit : injectionHit = true → injectionHit' = true) :
    Holds u read riskScore' injectionHit' expr := by
  rcases h with ⟨heq, htrue⟩ | ⟨n, v, hcompares, hn, hle⟩
  · exact Or.inl ⟨heq, hhit htrue⟩
  · have hle' : (read v : PyFloat) ≤ riskScore' := by
      rcases hscore with rfl | hscore
      · exact hle
      · exact PyFloat.trans hle hscore
    exact Or.inr ⟨n, v, hcompares, hn, hle'⟩

theorem fires_mono {riskScore riskScore' : PyFloat} {injectionHit injectionHit' : Bool}
    {o : Override} (h : fires u riskScore injectionHit o = true)
    (hscore : riskScore' = riskScore ∨ riskScore ≤ riskScore')
    (hhit : injectionHit = true → injectionHit' = true) :
    fires u riskScore' injectionHit' o = true :=
  (evalCondition_iff ..).mpr (((evalCondition_iff ..).mp h).mono hscore hhit)

/-- Where all overrides block, more risk does not lift a block. -/
theorem pickAction_mono {rs : Ruleset} (hblock : ∀ o ∈ rs.overrides, o.action = .block)
    {purpose : String} {role : Option String} {entityType : String}
    {riskScore riskScore' : PyFloat} {injectionHit injectionHit' : Bool}
    (hscore : riskScore' = riskScore ∨ riskScore ≤ riskScore')
    (hhit : injectionHit = true → injectionHit' = true)
    (h : pickAction u rs purpose role entityType riskScore injectionHit = .block) :
    pickAction u rs purpose role entityType riskScore' injectionHit' = .block := by
  rw [pickAction_eq]
  cases hfired : overrideAction u riskScore' injectionHit' rs.overrides with
  | some action =>
      obtain ⟨o, ho, rfl⟩ := Option.map_eq_some_iff.mp hfired
      exact hblock o (List.mem_filter.mp (List.argmax_mem ho)).1
  | none =>
      -- What fires at the lower score fires at the higher one, so nothing did.
      have hnone : rs.overrides.filter (fires u riskScore injectionHit) = [] := by
        have hnone' := overrideAction_none.mp hfired
        rw [List.filter_eq_nil_iff] at hnone' ⊢
        exact fun o ho hfires => hnone' o ho (fires_mono hfires hscore hhit)
      rw [pickAction_eq, overrideAction_none.mpr hnone] at h
      exact h

/-- **Conditions and decisions.** A condition holds exactly in the two forms of the
whitelist, a numeral being read as a double, and with overrides that block a decision to
block stays at every higher score and after a hit. -/
theorem conditions_whitelisted (u : Unicode) :
    (∀ expr riskScore injectionHit, evalCondition u expr riskScore injectionHit = true ↔
      Holds u toDouble riskScore injectionHit (u.strip expr)) ∧
    ∀ (rs : Ruleset) purpose role entityType riskScore riskScore' injectionHit injectionHit',
      (∀ o ∈ rs.overrides, o.action = .block) →
      (riskScore' = riskScore ∨ riskScore ≤ riskScore') →
      (injectionHit = true → injectionHit' = true) →
      pickAction u rs purpose role entityType riskScore injectionHit = .block →
      pickAction u rs purpose role entityType riskScore' injectionHit' = .block :=
  ⟨evalCondition_iff, fun _ _ _ _ _ _ _ _ hblock hscore hhit => pickAction_mono hblock hscore hhit⟩

/-- The override of the seed above its threshold, and higher above it. -/
theorem conditions_whitelisted_threshold :
    pickAction .ascii ⟨[], [⟨"risk_score >= 0.8".toList, .block, 100⟩]⟩ "doc_summarize" none
      "NAME" 1 true = .block :=
  (conditions_whitelisted .ascii).2 _ _ _ _ (9 / 10 : ℚ) 1 false true (by decide)
    (Or.inr (by decide +kernel)) (fun _ => rfl) (by decide +kernel)

/-- A numeral above the score whose double is the score. -/
theorem greater_numeral_holds :
    let expr := "risk_score >= 0.30000000000000001".toList
    let riskScore := toDouble (3 / 10)
    evalCondition .ascii expr riskScore false = true ∧
      ¬ Holds .ascii id riskScore false (Unicode.ascii.strip expr) := by
  refine ⟨by decide +kernel, ?_⟩
  rintro (⟨-, hhit⟩ | ⟨n, v, hcompares, hn, hle⟩)
  · cases hhit
  · have hspace : ∀ c ∈ [' '], Unicode.ascii.isSpace c = true := by
      intro c hc
      rw [List.mem_singleton.mp hc]
      rfl
    have hparts : Compares .ascii "risk_score >= 0.30000000000000001".toList
        "0.30000000000000001".toList := ⟨[' '], [' '], by decide +kernel, hspace, hspace⟩
    have hdigits : ∀ c ∈ "30000000000000001".toList, Unicode.ascii.isDecimal c = true :=
      List.all_eq_true.mp (by decide +kernel)
    have hnumeral : Numeral .ascii "0.30000000000000001".toList _ :=
      .fraction "30000000000000001".toList (by decide) hdigits
    have hstrip : Unicode.ascii.strip "risk_score >= 0.30000000000000001".toList =
        "risk_score >= 0.30000000000000001".toList := by decide +kernel
    rw [hstrip] at hcompares
    obtain rfl := hcompares.unique hparts hn hnumeral
    rw [← hn.value_eq, id] at hle
    have hgreater : ¬ numeralValue .ascii "0.30000000000000001".toList ≤ toDouble (3 / 10) := by
      decide +kernel
    exact hgreater (PyFloat.coe_le_coe.mp hle)

end DlpServer.Policy
