import DlpServer.Context.FromScratch
import DlpServer.Lib.Best

/-!
# A turn sent twice

The risk is computed anew on every turn, from counts and timestamps that `accumulate`
adds to. So a turn with spans that is sent a second time is counted twice, and one
without spans still adds a timestamp. A velocity threshold does not tell the difference
only where it looks back to the time of the turn itself, or is met already (`resent_turn`).
-/

namespace DlpServer.Context

section Resend

variable (sha256Hex : Text → Text) (cfg : AccumulatorConfig)

/-- What one call of `accumulate` brings. -/
structure AccumulateCall where
  spans : List Span
  turnIndex : ℕ
  now : ℚ

abbrev accumulateCall (st : SessionState) (c : AccumulateCall) : SessionState :=
  accumulate sha256Hex cfg st c.spans c.turnIndex c.now

/-- How often an entity has been counted. -/
def entityCount (entities : Dict EntityKey EntityRecord) (key : EntityKey) : ℕ :=
  ((entities.get? key).map EntityRecord.count).getD 0

/-- Sent twice, the turn leaves counts, risk and later risks as if sent once. -/
structure CountedOnce (st : SessionState) (c : AccumulateCall) : Prop where
  counts : ∀ key,
    entityCount (accumulateCall sha256Hex cfg (accumulateCall sha256Hex cfg st c) c).entities key =
      entityCount (accumulateCall sha256Hex cfg st c).entities key
  risk : (accumulateCall sha256Hex cfg (accumulateCall sha256Hex cfg st c) c).riskScore =
    (accumulateCall sha256Hex cfg st c).riskScore
  later : ∀ calls : List AccumulateCall,
    (calls.foldl (accumulateCall sha256Hex cfg)
      (accumulateCall sha256Hex cfg (accumulateCall sha256Hex cfg st c) c)).riskScore =
    (calls.foldl (accumulateCall sha256Hex cfg) (accumulateCall sha256Hex cfg st c)).riskScore

/-- The threshold of `m` turns within `e` is met by a turn of this index at this time. -/
def Met (timestamps : List ℚ) (turnIndex : ℕ) (now : ℚ) (m : ℕ) (e : ℚ) : Prop :=
  m ≤ turnIndex ∧ m ≤ timestamps.length ∧ ∃ t ∈ fromEnd timestamps m, now - t ≤ e

instance (timestamps : List ℚ) (turnIndex : ℕ) (now : ℚ) (m : ℕ) (e : ℚ) :
    Decidable (Met timestamps turnIndex now m e) := inferInstanceAs (Decidable (_ ∧ _ ∧ _))

/-- Of as many turns as a velocity threshold asks for, all but the first came at this very
time. -/
def Steady (timestamps : List ℚ) (now : ℚ) : Prop :=
  ∀ v ∈ cfg.velocityThresholds, v.2.2 = 0 ∨ ∀ k < v.1 - 1, timestamps.reverse[k]? = some now

/-- A velocity threshold that a further turn at this time would meet is met already. -/
def Reached (timestamps : List ℚ) (turnIndex : ℕ) (now : ℚ) : Prop :=
  ∀ v ∈ cfg.velocityThresholds, v.2.2 = 0 ∨ (2 ≤ v.1 → v.1 ≤ turnIndex →
    (Met timestamps turnIndex now v.1 v.2.1 ↔ 0 ≤ v.2.1))

/-- No weight and no time of a velocity threshold is negative, and without entities the
risk is not cut off at 1. -/
structure Plain : Prop where
  weights : ∀ v ∈ cfg.velocityThresholds, 0 ≤ v.2.2
  elapsed : ∀ v ∈ cfg.velocityThresholds, 0 ≤ v.2.1
  uncapped : (scoreCombos cfg []).1 + (scoreRepeats cfg []).1 +
    (cfg.velocityThresholds.map (·.2.2)).sum ≤ 1

/-- What is in the state scores 1 and more with the time of the turn, so that the risk is cut
off. -/
def Capped (st : SessionState) (turnIndex : ℕ) (now : ℚ) : Prop :=
  1 ≤ (scoreCombos cfg (activeNodes cfg st.entities turnIndex)).1 +
    (scoreRepeats cfg (activeNodes cfg st.entities turnIndex)).1 +
    (scoreVelocity cfg (st.turnTimestamps ++ [now]) turnIndex now).1

end Resend

variable {sha256Hex : Text → Text} {cfg : AccumulatorConfig}

/-! ## Counts -/

/-- The counts stay as they are exactly when there is nothing to count. -/
theorem counts_same_iff (st : SessionState) (c : AccumulateCall) :
    (∀ key, entityCount
        (accumulateCall sha256Hex cfg (accumulateCall sha256Hex cfg st c) c).entities key =
      entityCount (accumulateCall sha256Hex cfg st c).entities key) ↔ c.spans = [] := by
  have htwice : ∀ key, entityCount
      (accumulateCall sha256Hex cfg (accumulateCall sha256Hex cfg st c) c).entities key =
      entityCount (accumulateCall sha256Hex cfg st c).entities key +
        (c.spans.map (spanKey sha256Hex)).count key :=
    fun key => registerSpans_count c.turnIndex _ c.spans key
  constructor
  · intro h
    refine List.eq_nil_iff_forall_not_mem.mpr fun span hspan => ?_
    have hpos : 0 < (c.spans.map (spanKey sha256Hex)).count (spanKey sha256Hex span) :=
      List.count_pos_iff.mpr (List.mem_map_of_mem hspan)
    have hsame := h (spanKey sha256Hex span)
    rw [htwice] at hsame
    omega
  · intro hnil key
    rw [htwice, hnil]
    rfl

/-! ## Thresholds -/

section Thresholds

variable {timestamps later : List ℚ} {n m : ℕ} {now e : ℚ}

theorem met_succ : Met timestamps n now (m + 1) e ↔
    m + 1 ≤ n ∧ ∃ t ∈ timestamps.reverse[m]?, now - t ≤ e := by
  refine and_congr_right fun _ => ?_
  rw [fromEnd, if_neg (Nat.succ_ne_zero m)]
  constructor
  · rintro ⟨hlen, t, ht, hle⟩
    refine ⟨t, ?_, hle⟩
    rw [List.getElem?_reverse (by omega), Nat.sub_sub, Nat.add_comm 1 m]
    exact ht
  · rintro ⟨t, ht, hle⟩
    have hlen : m < timestamps.length := by
      have := (List.getElem?_eq_some_iff.mp ht).1
      rwa [List.length_reverse] at this
    refine ⟨hlen, t, ?_, hle⟩
    rw [List.getElem?_reverse hlen, Nat.sub_sub, Nat.add_comm 1 m] at ht
    exact ht

theorem met_zero : Met timestamps n now 0 e ↔ ∃ t ∈ timestamps.head?, now - t ≤ e := by
  simp [Met, fromEnd]

/-- What the velocity adds to the risk. -/
theorem scoreVelocity_fst :
    (scoreVelocity cfg timestamps n now).1 =
      (cfg.velocityThresholds.map fun v =>
        if Met timestamps n now v.1 v.2.1 then v.2.2 else 0).sum := by
  have hrounds : ∀ (thresholds : List (ℕ × ℚ × ℚ)) (acc : ℚ × List RiskReason),
      (thresholds.foldl (velocityRound timestamps n now) acc).1 =
        acc.1 + (thresholds.map fun v =>
          if Met timestamps n now v.1 v.2.1 then v.2.2 else 0).sum := by
    intro thresholds
    induction thresholds with
    | nil => simp
    | cons v thresholds ih =>
        intro acc
        obtain ⟨m, e, w⟩ := v
        rw [List.foldl_cons, ih, velocityRound_fst, List.map_cons, List.sum_cons, ← add_assoc]
        exact congrArg (acc.1 + · + _) (if_congr Iff.rfl rfl rfl)
  rw [scoreVelocity, hrounds, zero_add]

/-- Thresholds that are met alike give one score. -/
theorem scoreVelocity_congr {timestamps' : List ℚ}
    (h : ∀ v ∈ cfg.velocityThresholds, v.2.2 = 0 ∨
      (Met timestamps n now v.1 v.2.1 ↔ Met timestamps' n now v.1 v.2.1)) :
    (scoreVelocity cfg timestamps n now).1 = (scoreVelocity cfg timestamps' n now).1 := by
  rw [scoreVelocity_fst, scoreVelocity_fst]
  refine congrArg List.sum (List.map_congr_left fun v hv => ?_)
  rcases h v hv with hzero | hsame
  · rw [hzero, ite_self, ite_self]
  · simp only [hsame]

/-- Where the weights are not negative, a threshold more makes the score greater. -/
theorem scoreVelocity_lt {timestamps' : List ℚ} (hplain : Plain cfg)
    (h : ∀ v ∈ cfg.velocityThresholds, v.2.2 = 0 ∨
      (Met timestamps n now v.1 v.2.1 → Met timestamps' n now v.1 v.2.1))
    {v : ℕ × ℚ × ℚ} (hv : v ∈ cfg.velocityThresholds) (hweight : v.2.2 ≠ 0)
    (hno : ¬ Met timestamps n now v.1 v.2.1) (hyes : Met timestamps' n now v.1 v.2.1) :
    (scoreVelocity cfg timestamps n now).1 < (scoreVelocity cfg timestamps' n now).1 := by
  rw [scoreVelocity_fst, scoreVelocity_fst]
  refine List.sum_lt_sum _ _ (fun v' hv' => ?_) ⟨v, hv, ?_⟩
  · have hpos := hplain.weights v' hv'
    rcases h v' hv' with hzero | himp
    · rw [hzero, ite_self, ite_self]
    · by_cases hmet : Met timestamps n now v'.1 v'.2.1
      · rw [if_pos hmet, if_pos (himp hmet)]
      · rw [if_neg hmet]
        split
        · exact hpos
        · exact le_rfl
  · rw [if_neg hno, if_pos hyes]
    exact lt_of_le_of_ne (hplain.weights v hv) hweight.symm

theorem scoreVelocity_le_sum (hplain : Plain cfg) :
    (scoreVelocity cfg timestamps n now).1 ≤ (cfg.velocityThresholds.map (·.2.2)).sum := by
  rw [scoreVelocity_fst]
  refine List.sum_le_sum fun v hv => ?_
  split
  · exact le_rfl
  · exact hplain.weights v hv

/-- Behind the time of the turn, a threshold looks one turn less far back. -/
theorem met_again (m : ℕ) : Met (timestamps ++ [now] ++ [now]) n now (m + 2) e ↔
    m + 2 ≤ n ∧ ∃ t ∈ (timestamps ++ [now]).reverse[m]?, now - t ≤ e := by
  rw [met_succ, List.reverse_append, List.reverse_singleton, List.singleton_append,
    List.getElem?_cons_succ]

/-- A threshold of at most one turn looks at the first time of all, or at that of the turn. -/
theorem met_short {later : List ℚ} {t : ℚ} (hm : m ≤ 1) :
    Met (timestamps ++ [now] ++ [now] ++ later) n t m e ↔
      Met (timestamps ++ [now] ++ later) n t m e := by
  have hcases : m = 0 ∨ m = 0 + 1 := by omega
  rcases hcases with rfl | rfl
  · rw [met_zero, met_zero]
    cases timestamps with
    | nil => rfl
    | cons t timestamps => rfl
  · rw [met_succ, met_succ, List.reverse_append, List.reverse_append]
    rcases List.eq_nil_or_concat later with rfl | ⟨later, l, rfl⟩
    · simp
    · simp

/-- Before later turns, a threshold looks less far back. -/
theorem met_before {t : ℚ} (hk : m < later.length) :
    Met (timestamps ++ later) n t (m + 1) e ↔ m + 1 ≤ n ∧ ∃ s ∈ later.reverse[m]?, t - s ≤ e := by
  rw [met_succ, List.reverse_append, List.getElem?_append_left (by rwa [List.length_reverse])]

theorem met_behind {t : ℚ} (k : ℕ) :
    Met (timestamps ++ later) n t (later.length + k + 1) e ↔
      later.length + k + 1 ≤ n ∧ ∃ s ∈ timestamps.reverse[k]?, t - s ≤ e := by
  rw [met_succ, List.reverse_append, List.getElem?_append_right (by rw [List.length_reverse]; omega),
    List.length_reverse, Nat.add_sub_cancel_left]

/-- Among the last timestamps that are that of the turn, one more changes nothing. -/
theorem met_within {t : ℚ}
    (hsteady : ∀ k, k + later.length < m → (timestamps ++ [now]).reverse[k]? = some now) :
    Met (timestamps ++ [now] ++ [now] ++ later) n t m e ↔
      Met (timestamps ++ [now] ++ later) n t m e := by
  rcases Nat.lt_or_ge later.length m with hfar | hnear
  · obtain ⟨k, rfl⟩ : ∃ k, m = later.length + k + 1 := ⟨m - later.length - 1, by omega⟩
    rw [met_behind, met_behind, List.reverse_concat' (timestamps ++ [now])]
    cases k with
    | zero => rw [hsteady 0 (by omega), List.getElem?_cons_zero]
    | succ k =>
        rw [List.getElem?_cons_succ, hsteady k (by omega), hsteady (k + 1) (by omega)]
  · cases m with
    | zero => exact met_short (Nat.zero_le 1)
    | succ m => rw [met_before hnear, met_before hnear]

/-- A threshold that looks back on one timestamp more is told by that one. -/
theorem met_at {t : ℚ} {k : ℕ} (hlast : (timestamps ++ [now]).reverse[k]? = some now)
    (hm : m = later.length + (k + 1) + 1) (hn : m ≤ n) :
    (Met (timestamps ++ [now] ++ [now] ++ later) n t m e ↔ t - now ≤ e) ∧
      (Met (timestamps ++ [now] ++ later) n t m e ↔
        ∃ s ∈ (timestamps ++ [now]).reverse[k + 1]?, t - s ≤ e) := by
  subst hm
  constructor
  · rw [met_behind, and_iff_right hn, List.reverse_concat' (timestamps ++ [now]),
      List.getElem?_cons_succ, hlast]
    simp
  · rw [met_behind, and_iff_right hn]

end Thresholds

/-! ## Two states that stay alike -/

/-- The states have the same entities, and later turns meet the same thresholds in both. -/
structure Alike (cfg : AccumulatorConfig) (st st' : SessionState) : Prop where
  entities : st.entities = st'.entities
  times : ∀ v ∈ cfg.velocityThresholds, v.2.2 = 0 ∨ ∀ (later : List ℚ) (n : ℕ) (now : ℚ),
    later ≠ [] → (Met (st.turnTimestamps ++ later) n now v.1 v.2.1 ↔
      Met (st'.turnTimestamps ++ later) n now v.1 v.2.1)

theorem accumulate_risk (st : SessionState) (c : AccumulateCall) :
    (accumulateCall sha256Hex cfg st c).riskScore =
      let nodes := activeNodes cfg (accumulateCall sha256Hex cfg st c).entities c.turnIndex
      min 1 ((scoreCombos cfg nodes).1 + (scoreRepeats cfg nodes).1 +
        (scoreVelocity cfg (accumulateCall sha256Hex cfg st c).turnTimestamps c.turnIndex
          c.now).1) := rfl

/-- **A call keeps states alike**, and the risk is the same behind it. -/
theorem Alike.accumulate {st st' : SessionState} (h : Alike cfg st st') (c : AccumulateCall) :
    Alike cfg (accumulateCall sha256Hex cfg st c) (accumulateCall sha256Hex cfg st' c) ∧
      (accumulateCall sha256Hex cfg st c).riskScore =
        (accumulateCall sha256Hex cfg st' c).riskScore := by
  have hentities : (accumulateCall sha256Hex cfg st c).entities =
      (accumulateCall sha256Hex cfg st' c).entities := by
    show registerSpans sha256Hex c.turnIndex st.entities c.spans = registerSpans _ _ _ _
    rw [h.entities]
  refine ⟨⟨hentities, fun v hv => (h.times v hv).imp_right fun hsame later n now _ => ?_⟩, ?_⟩
  · have := hsame ([c.now] ++ later) n now (by simp)
    rwa [← List.append_assoc, ← List.append_assoc] at this
  · rw [accumulate_risk, accumulate_risk, hentities]
    dsimp only
    congr 2
    exact scoreVelocity_congr fun v hv => (h.times v hv).imp_right fun hsame =>
      hsame [c.now] c.turnIndex c.now (by simp)

theorem Alike.run {st st' : SessionState} (h : Alike cfg st st') (calls : List AccumulateCall)
    (hrisk : st.riskScore = st'.riskScore) :
    (calls.foldl (accumulateCall sha256Hex cfg) st).riskScore =
      (calls.foldl (accumulateCall sha256Hex cfg) st').riskScore := by
  induction calls generalizing st st' with
  | nil => exact hrisk
  | cons c calls ih =>
      obtain ⟨halike, hrisk⟩ := h.accumulate c
      exact ih halike hrisk

/-! ## The second call -/

section Second

variable {st : SessionState} {c : AccumulateCall}

theorem entities_of_no_spans (hspans : c.spans = []) :
    (accumulateCall sha256Hex cfg st c).entities = st.entities := by
  show registerSpans sha256Hex c.turnIndex _ c.spans = _
  rw [hspans]
  rfl

theorem alike_of_steady (hspans : c.spans = [])
    (h : Steady cfg (st.turnTimestamps ++ [c.now]) c.now) :
    Alike cfg (accumulateCall sha256Hex cfg (accumulateCall sha256Hex cfg st c) c)
      (accumulateCall sha256Hex cfg st c) where
  entities := entities_of_no_spans hspans
  times v hv := (h v hv).imp_right fun hsteady later _ _ hlater => met_within fun k hk =>
    hsteady k (by have := List.length_pos_iff.mpr hlater; omega)

/-- What the second call meets, next to the first. -/
theorem met_second (h : Steady cfg (st.turnTimestamps ++ [c.now]) c.now) {v : ℕ × ℚ × ℚ}
    (hv : v ∈ cfg.velocityThresholds) (hweight : v.2.2 ≠ 0) :
    (v.1 ≤ 1 ∧ (Met (st.turnTimestamps ++ [c.now] ++ [c.now]) c.turnIndex c.now v.1 v.2.1 ↔
        Met (st.turnTimestamps ++ [c.now]) c.turnIndex c.now v.1 v.2.1)) ∨
      2 ≤ v.1 ∧ (Met (st.turnTimestamps ++ [c.now] ++ [c.now]) c.turnIndex c.now v.1 v.2.1 ↔
        v.1 ≤ c.turnIndex ∧ 0 ≤ v.2.1) := by
  obtain ⟨m, e, w⟩ := v
  rcases Nat.lt_or_ge 1 m with hlong | hshort
  · obtain ⟨m, rfl⟩ : ∃ k, m = k + 2 := ⟨m - 2, by omega⟩
    refine Or.inr ⟨hlong, ?_⟩
    have hlast := (h _ hv).resolve_left hweight m (by dsimp only; omega)
    rw [met_again, hlast]
    simp
  · refine Or.inl ⟨hshort, ?_⟩
    have hsame : Met (st.turnTimestamps ++ [c.now] ++ [c.now] ++ []) c.turnIndex c.now m e ↔
        Met (st.turnTimestamps ++ [c.now] ++ []) c.turnIndex c.now m e := met_short hshort
    rwa [List.append_nil, List.append_nil] at hsame

/-- A further turn that meets no more thresholds gives the same risk. -/
theorem risk_second (hspans : c.spans = [])
    (hsteady : Steady cfg (st.turnTimestamps ++ [c.now]) c.now)
    (hreached : Reached cfg (st.turnTimestamps ++ [c.now]) c.turnIndex c.now) :
    (accumulateCall sha256Hex cfg (accumulateCall sha256Hex cfg st c) c).riskScore =
      (accumulateCall sha256Hex cfg st c).riskScore := by
  rw [accumulate_risk, accumulate_risk st, entities_of_no_spans hspans]
  dsimp only
  congr 2
  refine scoreVelocity_congr fun v hv => ?_
  by_cases hweight : v.2.2 = 0
  · exact Or.inl hweight
  · refine Or.inr ?_
    rcases met_second hsteady hv hweight with ⟨-, hsame⟩ | ⟨hlong, hsecond⟩
    · exact hsame
    · refine hsecond.trans ⟨fun ⟨hturns, hpos⟩ => ?_, fun hmet => ⟨hmet.1, ?_⟩⟩
      · exact (((hreached v hv).resolve_left hweight) hlong hturns).mpr hpos
      · exact (((hreached v hv).resolve_left hweight) hlong hmet.1).mp hmet

/-- Under a plain configuration the second call meets all that the first does. -/
theorem met_of_first (hplain : Plain cfg)
    (hsteady : Steady cfg (st.turnTimestamps ++ [c.now]) c.now) :
    ∀ v ∈ cfg.velocityThresholds, v.2.2 = 0 ∨
      (Met (st.turnTimestamps ++ [c.now]) c.turnIndex c.now v.1 v.2.1 →
        Met (st.turnTimestamps ++ [c.now] ++ [c.now]) c.turnIndex c.now v.1 v.2.1) := by
  intro v hv
  by_cases hweight : v.2.2 = 0
  · exact Or.inl hweight
  · refine Or.inr fun hmet => ?_
    rcases met_second hsteady hv hweight with ⟨-, hsame⟩ | ⟨-, hsecond⟩
    · exact hsame.mpr hmet
    · exact hsecond.mpr ⟨hmet.1, hplain.elapsed v hv⟩

/-- Without spans the risk is at its greatest when the state is capped. -/
theorem capped_iff (sha256Hex : Text → Text) (hspans : c.spans = []) :
    (accumulateCall sha256Hex cfg st c).riskScore = 1 ↔ Capped cfg st c.turnIndex c.now := by
  rw [accumulate_risk, entities_of_no_spans hspans]
  exact min_eq_left_iff

/-- So the risk rises, unless it is at its greatest or the thresholds are met already. -/
theorem risk_second_iff (hplain : Plain cfg) (hspans : c.spans = [])
    (hsteady : Steady cfg (st.turnTimestamps ++ [c.now]) c.now) :
    (accumulateCall sha256Hex cfg (accumulateCall sha256Hex cfg st c) c).riskScore =
        (accumulateCall sha256Hex cfg st c).riskScore ↔
      Reached cfg (st.turnTimestamps ++ [c.now]) c.turnIndex c.now ∨
        Capped cfg st c.turnIndex c.now := by
  by_cases hreached : Reached cfg (st.turnTimestamps ++ [c.now]) c.turnIndex c.now
  · exact iff_of_true (risk_second hspans hsteady hreached) (Or.inl hreached)
  · have hrise := hreached
    unfold Reached at hrise
    push Not at hrise
    obtain ⟨v, hv, hweight, hlong, hturns, hdiffer⟩ := hrise
    have hpos := hplain.elapsed v hv
    have hno : ¬ Met (st.turnTimestamps ++ [c.now]) c.turnIndex c.now v.1 v.2.1 := fun hmet => by
      rcases hdiffer with ⟨-, hneg⟩ | ⟨hnot, -⟩
      · exact absurd hpos (not_le.mpr hneg)
      · exact hnot hmet
    have hyes : Met (st.turnTimestamps ++ [c.now] ++ [c.now]) c.turnIndex c.now v.1 v.2.1 := by
      rcases met_second hsteady hv hweight with ⟨hshort, -⟩ | ⟨-, hsecond⟩
      · omega
      · exact hsecond.mpr ⟨hturns, hpos⟩
    have hlt := scoreVelocity_lt hplain (met_of_first hplain hsteady) hv hweight hno hyes
    rw [or_iff_right hreached, ← capped_iff sha256Hex hspans, accumulate_risk, accumulate_risk st,
      entities_of_no_spans hspans]
    dsimp only
    generalize (scoreCombos cfg _).1 + (scoreRepeats cfg _).1 = base
    change (scoreVelocity cfg (accumulateCall sha256Hex cfg st c).turnTimestamps c.turnIndex
      c.now).1 < (scoreVelocity cfg (accumulateCall sha256Hex cfg (accumulateCall sha256Hex cfg st c)
        c).turnTimestamps c.turnIndex c.now).1 at hlt
    constructor
    · intro hsame
      by_contra hcapped
      have hbelow := lt_of_le_of_ne (min_le_left _ _) hcapped
      rcases min_lt_iff.mp hbelow with hone | hone
      · exact lt_irrefl _ hone
      · rw [min_eq_right hone.le] at hsame
        have hgreater := lt_min hone (add_lt_add_right hlt base)
        rw [hsame] at hgreater
        exact lt_irrefl _ hgreater
    · intro hone
      have hfirst := min_eq_left_iff.mp hone
      rw [hone]
      exact min_eq_left (hfirst.trans (add_le_add_right hlt.le base))

end Second

/-! ## Later turns -/

section Later

variable {st st' : SessionState} {c : AccumulateCall}

/-- Behind the window no entity is active any more. -/
theorem exists_inactive (cfg : AccumulatorConfig) (entities : Dict EntityKey EntityRecord) :
    ∃ bound, ∀ n, bound ≤ n → activeNodes cfg entities n = [] := by
  refine ⟨(entities.values.map EntityRecord.lastTurn).sum + cfg.windowSizeTurns.toNat, fun n hn => ?_⟩
  refine List.filter_eq_nil_iff.mpr fun r hr hactive => ?_
  have hle : r.lastTurn ≤ (entities.values.map EntityRecord.lastTurn).sum :=
    List.single_le_sum (fun _ _ => Nat.zero_le _) _ (List.mem_map_of_mem hr)
  have := of_decide_eq_true hactive
  omega

/-- Without active entities, the risk of a turn is told by its velocity. -/
theorem risk_inactive (hplain : Plain cfg) (hspans : c.spans = [])
    (hnone : activeNodes cfg st.entities c.turnIndex = []) :
    (accumulateCall sha256Hex cfg st c).riskScore =
      (scoreCombos cfg []).1 + (scoreRepeats cfg []).1 +
        (scoreVelocity cfg (st.turnTimestamps ++ [c.now]) c.turnIndex c.now).1 := by
  rw [accumulate_risk, entities_of_no_spans hspans]
  dsimp only
  rw [hnone]
  exact min_eq_right ((add_le_add_right (scoreVelocity_le_sum hplain) _).trans hplain.uncapped)

/-- Turns without spans add their time, and nothing else. -/
theorem quiet_turns (hspans : c.spans = []) (k : ℕ) :
    ((List.replicate k c).foldl (accumulateCall sha256Hex cfg) st).entities = st.entities ∧
      ((List.replicate k c).foldl (accumulateCall sha256Hex cfg) st).turnTimestamps =
        st.turnTimestamps ++ List.replicate k c.now := by
  induction k generalizing st with
  | zero => exact ⟨rfl, (List.append_nil _).symm⟩
  | succ k ih =>
      rw [List.replicate_succ, List.foldl_cons]
      obtain ⟨hentities, htimes⟩ := @ih (accumulateCall sha256Hex cfg st c)
      refine ⟨hentities.trans (entities_of_no_spans hspans), htimes.trans ?_⟩
      show st.turnTimestamps ++ [c.now] ++ _ = _
      rw [List.append_assoc, List.replicate_succ]
      rfl

/-- States of the same entities whose later risks agree give later turns one velocity. -/
theorem velocity_later (hplain : Plain cfg) (hentities : st.entities = st'.entities)
    (hlater : ∀ calls : List AccumulateCall,
      (calls.foldl (accumulateCall sha256Hex cfg) st).riskScore =
        (calls.foldl (accumulateCall sha256Hex cfg) st').riskScore) :
    ∃ bound, ∀ n, bound ≤ n → ∀ (k : ℕ) (t : ℚ),
      (scoreVelocity cfg (st.turnTimestamps ++ List.replicate (k + 1) t) n t).1 =
        (scoreVelocity cfg (st'.turnTimestamps ++ List.replicate (k + 1) t) n t).1 := by
  obtain ⟨bound, hinactive⟩ := exists_inactive cfg st.entities
  refine ⟨bound, fun n hn k t => ?_⟩
  have hrisk : ∀ s : SessionState, s.entities = st.entities →
      ((List.replicate (k + 1) (⟨[], n, t⟩ : AccumulateCall)).foldl
        (accumulateCall sha256Hex cfg) s).riskScore =
      (scoreCombos cfg []).1 + (scoreRepeats cfg []).1 +
        (scoreVelocity cfg (s.turnTimestamps ++ List.replicate (k + 1) t) n t).1 := by
    intro s hs
    obtain ⟨hkept, htimes⟩ :
        ((List.replicate k (⟨[], n, t⟩ : AccumulateCall)).foldl
          (accumulateCall sha256Hex cfg) s).entities = s.entities ∧
        ((List.replicate k (⟨[], n, t⟩ : AccumulateCall)).foldl
          (accumulateCall sha256Hex cfg) s).turnTimestamps =
            s.turnTimestamps ++ List.replicate k t := quiet_turns rfl k
    rw [List.replicate_succ', List.foldl_append, List.foldl_cons, List.foldl_nil,
      risk_inactive hplain rfl, htimes, List.append_assoc, ← List.replicate_succ']
    rw [hkept, hs]
    exact hinactive n hn
  have hsame := hlater (List.replicate (k + 1) ⟨[], n, t⟩)
  rw [hrisk st rfl, hrisk st' hentities.symm] at hsame
  exact add_left_cancel hsame

/-- Where `d + 1` later turns of one time cannot tell the difference, the timestamp that the
threshold of the most turns then looks at is that of the turn. -/
theorem stamp_of_later {timestamps : List ℚ} {now : ℚ} {d k n : ℕ} (hplain : Plain cfg)
    {v : ℕ × ℚ × ℚ} (hv : v ∈ cfg.velocityThresholds) (hweight : v.2.2 ≠ 0)
    (hmost : ∀ v' ∈ cfg.velocityThresholds, v'.2.2 ≠ 0 → v'.1 ≤ v.1) (hd : v.1 = d + k + 3)
    (hn : v.1 ≤ n) (hnear : ∀ i ≤ k, (timestamps ++ [now]).reverse[i]? = some now)
    (h : ∀ t : ℚ,
      (scoreVelocity cfg (timestamps ++ [now] ++ [now] ++ List.replicate (d + 1) t) n t).1 =
        (scoreVelocity cfg (timestamps ++ [now] ++ List.replicate (d + 1) t) n t).1) :
    (timestamps ++ [now]).reverse[k + 1]? = some now := by
  have hat : ∀ (t : ℚ) (v' : ℕ × ℚ × ℚ), v'.1 = v.1 →
      (Met (timestamps ++ [now] ++ [now] ++ List.replicate (d + 1) t) n t v'.1 v'.2.1 ↔
          t - now ≤ v'.2.1) ∧
        (Met (timestamps ++ [now] ++ List.replicate (d + 1) t) n t v'.1 v'.2.1 ↔
          ∃ s ∈ (timestamps ++ [now]).reverse[k + 1]?, t - s ≤ v'.2.1) := fun t v' hsame =>
    met_at (hnear k le_rfl) (by rw [List.length_replicate]; omega) (hsame ▸ hn)
  have hless : ∀ (t : ℚ), ∀ v' ∈ cfg.velocityThresholds, v'.2.2 ≠ 0 → v'.1 ≠ v.1 →
      (Met (timestamps ++ [now] ++ [now] ++ List.replicate (d + 1) t) n t v'.1 v'.2.1 ↔
        Met (timestamps ++ [now] ++ List.replicate (d + 1) t) n t v'.1 v'.2.1) := by
    intro t v' hv' hne hless
    have hle := hmost v' hv' hne
    refine met_within fun i hi => hnear i ?_
    rw [List.length_replicate] at hi
    omega
  have hearlier : ¬ ∀ s ∈ (timestamps ++ [now]).reverse[k + 1]?, s < now := by
    -- At the last moment for `now`, the second state alone meets the threshold.
    intro hbefore
    obtain ⟨hsecond, hfirst⟩ := hat (now + v.2.1) v rfl
    refine absurd (h (now + v.2.1)) (scoreVelocity_lt hplain (fun v' hv' => ?_) hv hweight ?_ ?_).ne'
    · refine or_iff_not_imp_left.mpr fun hne => ?_
      by_cases hsame : v'.1 = v.1
      · obtain ⟨hsecond', hfirst'⟩ := hat (now + v.2.1) v' hsame
        rw [hsecond', hfirst']
        rintro ⟨s, hs, hle⟩
        have := hbefore s hs
        linarith
      · exact (hless _ v' hv' hne hsame).mpr
    · rw [hfirst]
      rintro ⟨s, hs, hle⟩
      have := hbefore s hs
      linarith
    · rw [hsecond]
      linarith
  have hlater : ∀ s ∈ (timestamps ++ [now]).reverse[k + 1]?, ¬ now < s := by
    -- At the last moment for `s`, the first state alone meets it.
    intro s hs hafter
    obtain ⟨hsecond, hfirst⟩ := hat (s + v.2.1) v rfl
    refine absurd (h (s + v.2.1)) (scoreVelocity_lt hplain (fun v' hv' => ?_) hv hweight ?_ ?_).ne
    · refine or_iff_not_imp_left.mpr fun hne => ?_
      by_cases hsame : v'.1 = v.1
      · obtain ⟨hsecond', hfirst'⟩ := hat (s + v.2.1) v' hsame
        rw [hsecond', hfirst']
        intro hle
        exact ⟨s, hs, by linarith⟩
      · exact (hless _ v' hv' hne hsame).mp
    · rw [hsecond]
      intro hle
      linarith
    · rw [hfirst]
      exact ⟨s, hs, by linarith⟩
  push Not at hearlier
  obtain ⟨s, hs, hge⟩ := hearlier
  rw [Option.mem_def.mp hs, le_antisymm hge (not_lt.mp (hlater s hs))]

/-- **Where later turns cannot tell the difference, the thresholds look at one time.** -/
theorem steady_of_later {timestamps : List ℚ} {now : ℚ} (hplain : Plain cfg) {bound : ℕ}
    (h : ∀ n, bound ≤ n → ∀ (k : ℕ) (t : ℚ),
      (scoreVelocity cfg (timestamps ++ [now] ++ [now] ++ List.replicate (k + 1) t) n t).1 =
        (scoreVelocity cfg (timestamps ++ [now] ++ List.replicate (k + 1) t) n t).1) :
    Steady cfg (timestamps ++ [now]) now := by
  intro v hv
  refine or_iff_not_imp_left.mpr fun hweight => ?_
  -- The threshold of the most turns looks furthest back.
  have hne : cfg.velocityThresholds.filter (fun v => v.2.2 ≠ 0) ≠ [] :=
    List.ne_nil_of_mem (List.mem_filter.mpr ⟨hv, decide_eq_true hweight⟩)
  obtain ⟨far, hfar⟩ := Best.exists_argmax (f := Prod.fst) hne
  obtain ⟨hmem, hbest⟩ := Best.IsBest.of_argmax hfar
  obtain ⟨hmem, hfarweight⟩ := List.mem_filter.mp hmem
  have hmost : ∀ v' ∈ cfg.velocityThresholds, v'.2.2 ≠ 0 → v'.1 ≤ far.1 := fun v' hv' hne' =>
    hbest v' (List.mem_filter.mpr ⟨hv', decide_eq_true hne'⟩)
  have hall : ∀ k < far.1 - 1, (timestamps ++ [now]).reverse[k]? = some now := by
    intro k
    induction k using Nat.strong_induction_on with
    | _ k ih =>
        intro hk
        cases k with
        | zero =>
            rw [List.reverse_append]
            rfl
        | succ k =>
            exact stamp_of_later (d := far.1 - k - 3) (n := max bound far.1) hplain hmem
              (of_decide_eq_true hfarweight) hmost (by omega) (le_max_right _ _)
              (fun i hi => ih i (by omega) (by omega)) fun t => h _ (le_max_left _ _) _ t
  intro k hk
  have hle := hmost v hv hweight
  exact hall k (by omega)

end Later

/-- **When a turn sent twice counts once.** The counts stay as they are only if the turn
has no spans. Then the risk and all later risks stay as well if all the turns but the first
that a velocity threshold looks back on came at the time of this one, and the thresholds
that a further turn would meet are met. For a plain configuration that is the exact
condition, as long as the state is not capped. -/
theorem resent_turn (sha256Hex : Text → Text) (cfg : AccumulatorConfig) (st : SessionState)
    (c : AccumulateCall) :
    (CountedOnce sha256Hex cfg st c → c.spans = []) ∧
      (c.spans = [] ∧ Steady cfg (st.turnTimestamps ++ [c.now]) c.now ∧
          Reached cfg (st.turnTimestamps ++ [c.now]) c.turnIndex c.now →
        CountedOnce sha256Hex cfg st c) ∧
      (Plain cfg →
        (CountedOnce sha256Hex cfg st c ↔
          c.spans = [] ∧ Steady cfg (st.turnTimestamps ++ [c.now]) c.now ∧
            (Reached cfg (st.turnTimestamps ++ [c.now]) c.turnIndex c.now ∨
              Capped cfg st c.turnIndex c.now))) := by
  have hcounted : c.spans = [] → Steady cfg (st.turnTimestamps ++ [c.now]) c.now →
      (accumulateCall sha256Hex cfg (accumulateCall sha256Hex cfg st c) c).riskScore =
        (accumulateCall sha256Hex cfg st c).riskScore → CountedOnce sha256Hex cfg st c :=
    fun hspans hsteady hrisk => ⟨(counts_same_iff st c).mpr hspans, hrisk, fun calls =>
      (alike_of_steady hspans hsteady).run calls hrisk⟩
  refine ⟨fun h => (counts_same_iff st c).mp h.counts, ?_, fun hplain => ⟨fun h => ?_, ?_⟩⟩
  · rintro ⟨hspans, hsteady, hreached⟩
    exact hcounted hspans hsteady (risk_second hspans hsteady hreached)
  · have hspans := (counts_same_iff st c).mp h.counts
    obtain ⟨bound, hlater⟩ := velocity_later hplain (entities_of_no_spans hspans) h.later
    have hsteady : Steady cfg (st.turnTimestamps ++ [c.now]) c.now :=
      steady_of_later hplain hlater
    exact ⟨hspans, hsteady, (risk_second_iff hplain hspans hsteady).mp h.risk⟩
  · rintro ⟨hspans, hsteady, hrisk⟩
    exact hcounted hspans hsteady ((risk_second_iff hplain hspans hsteady).mpr hrisk)

/-- Four turns without spans at one time. -/
def quietState : SessionState :=
  [⟨[], 1, 0⟩, ⟨[], 2, 0⟩, ⟨[], 3, 0⟩, ⟨[], 4, 0⟩].foldl
    (accumulateCall sampleSha256 defaultConfig) (Store.freshState ⟨[], [], 1800⟩ 0 "s")

theorem resent_turn_sample : CountedOnce sampleSha256 defaultConfig quietState ⟨[], 5, 0⟩ := by
  have hplain : Plain defaultConfig := by
    constructor
    · decide +kernel
    · decide +kernel
    · decide +kernel
  refine ((resent_turn sampleSha256 defaultConfig quietState ⟨[], 5, 0⟩).2.2 hplain).mpr
    ⟨rfl, ?_, Or.inl ?_⟩
  · unfold Steady
    decide +kernel
  · unfold Reached
    decide +kernel

/-- A turn that mentions a number twice. -/
def rrnCall : AccumulateCall :=
  ⟨[⟨"RRN", "900101-1234567".toList, 0, 14, 1, "regex"⟩,
    ⟨"RRN", "900101-1234567".toList, 15, 29, 1, "regex"⟩], 1, 0⟩

/-- Sent twice, the number counts four times, and the risk rises. -/
theorem resent_turn_counted_twice :
    let first := accumulateCall sampleSha256 defaultConfig
      (Store.freshState ⟨[], [], 1800⟩ 0 "s") rrnCall
    let second := accumulateCall sampleSha256 defaultConfig first rrnCall
    (first.entities.values.map EntityRecord.count = [2] ∧ first.riskScore = 0) ∧
      second.entities.values.map EntityRecord.count = [4] ∧ second.riskScore = 1 / 10 := by
  decide +kernel

end DlpServer.Context
