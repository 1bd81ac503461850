import DlpServer.Context.FromScratch

/-!
# Spreading spans over turns

As long as no turn has left the window, what combos and repeats add to the risk
depends on the mentions alone and not on the turns they came in. Velocity can
only add to it: the one threshold that a single turn meets, that of one turn, is
met by the last turn of any conversation.
-/

namespace DlpServer.Context

open Mentions Runs

section Split

variable (sha256Hex : Text → Text) (cfg : AccumulatorConfig)

/-- `accumulate` for one turn after another, with turn indices 1, 2, .... -/
abbrev accumulateAll (st : SessionState) (calls : List StageCall) : SessionState :=
  run (fun st c => accumulate sha256Hex cfg st c.spans (st.turnCount + 1) c.accumulatedAt)
    st calls

/-- What `_score_combos` gave on the last turn. -/
def lastComboScore (st : SessionState) : ℚ :=
  (scoreCombos cfg (activeNodes cfg st.entities st.turnCount)).1

/-- What `_score_repeats` gave on the last turn. -/
def lastRepeatScore (st : SessionState) : ℚ :=
  (scoreRepeats cfg (activeNodes cfg st.entities st.turnCount)).1

end Split

variable {sha256Hex : Text → Text} {cfg : AccumulatorConfig}

theorem tracks_fresh (S : Store) (now : ℚ) (sid : String) :
    Tracks sha256Hex [] (S.freshState now sid) :=
  ⟨rfl, rfl, List.nodup_nil, fun _ => rfl⟩

theorem tracks_accumulateAll (S : Store) (now : ℚ) (sid : String) (calls : List StageCall) :
    Tracks sha256Hex calls (accumulateAll sha256Hex cfg (S.freshState now sid) calls) := by
  induction calls using List.reverseRecOn with
  | nil => exact tracks_fresh S now sid
  | append_singleton calls c ih =>
      rw [accumulateAll, run_snoc]
      exact ih.accumulate c

theorem fromScratch_accumulateAll (S : Store) (now : ℚ) (sid : String) {calls : List StageCall}
    (hne : calls ≠ []) :
    FromScratch sha256Hex cfg calls
      (accumulateAll sha256Hex cfg (S.freshState now sid) calls) := by
  induction calls using List.reverseRecOn with
  | nil => exact absurd rfl hne
  | append_singleton calls c =>
      rw [accumulateAll, run_snoc]
      exact (tracks_accumulateAll S now sid calls).fromScratch c

/-! ## The scores by the mentions alone -/

theorem lastComboScore_eq {calls : List StageCall} {st : SessionState}
    (h : Tracks sha256Hex calls st) :
    lastComboScore cfg st = comboScore sha256Hex cfg calls := by
  rw [lastComboScore, h.turn_count]
  exact scoreCombos_account h.entities

theorem lastRepeatScore_eq {calls : List StageCall} {st : SessionState}
    (h : Tracks sha256Hex calls st) :
    lastRepeatScore cfg st = repeatScore sha256Hex cfg calls := by
  rw [lastRepeatScore, h.turn_count]
  exact scoreRepeats_account h.entities

theorem mentions_flatten (calls : List StageCall) :
    (mentions sha256Hex calls).flatten =
      (calls.flatMap StageCall.spans).map (spanKey sha256Hex) := by
  rw [mentions, ← List.flatMap_def, List.map_flatMap]

/-- While nothing has left the window, every entity is active. -/
theorem active_all {calls : List StageCall} (hwindow : (calls.length : ℤ) ≤ cfg.windowSizeTurns) :
    active sha256Hex cfg calls =
      ((calls.flatMap StageCall.spans).map (spanKey sha256Hex)).toFinset := by
  rw [active, recentKeys_all _ (by omega), mentions_flatten]

section Perm

variable {calls calls' : List StageCall}
  (hperm : (calls.flatMap StageCall.spans).Perm (calls'.flatMap StageCall.spans))
  (hwindow : (calls.length : ℤ) ≤ cfg.windowSizeTurns)
  (hwindow' : (calls'.length : ℤ) ≤ cfg.windowSizeTurns)
include hperm hwindow hwindow'

theorem active_congr : active sha256Hex cfg calls = active sha256Hex cfg calls' := by
  rw [active_all hwindow, active_all hwindow']
  exact List.toFinset_eq_of_perm _ _ (hperm.map _)

theorem comboScore_congr : comboScore sha256Hex cfg calls = comboScore sha256Hex cfg calls' := by
  rw [comboScore, comboScore, active_congr hperm hwindow hwindow']

theorem repeatScore_congr :
    repeatScore sha256Hex cfg calls = repeatScore sha256Hex cfg calls' := by
  have hcount : ∀ k, (occurrences (mentions sha256Hex calls) k).length =
      (occurrences (mentions sha256Hex calls') k).length := by
    intro k
    rw [occurrences_length, occurrences_length, mentions_flatten, mentions_flatten]
    exact (hperm.map _).countP_eq _
  rw [repeatScore, repeatScore, active_congr hperm hwindow hwindow']
  simp only [hcount]

end Perm

/-! ## Velocity -/

/-- The last turn of a conversation is one turn in no time. -/
theorem velocityMet_one {calls : List StageCall} (hne : calls ≠ []) {e : ℚ} (he : 0 ≤ e) :
    velocityMet calls 1 e := by
  refine ⟨List.length_pos_iff.mpr hne, ?_⟩
  have hlast : (lastTurns calls 1).head? = calls.getLast? := by
    rw [lastTurns, if_neg one_ne_zero, List.head?_drop, List.getLast?_eq_getElem?]
  rw [hlast, List.getLast?_eq_some_getLast hne]
  exact ⟨_, rfl, _, rfl, by rwa [sub_self]⟩

/-- A threshold that a single turn meets is that of one turn. -/
theorem velocityMet_single {c : StageCall} {m : ℕ} {e : ℚ} (hm : 1 ≤ m)
    (h : velocityMet [c] m e) : m = 1 ∧ 0 ≤ e := by
  obtain ⟨hle, first, hfirst, last, hlast, helapsed⟩ := h
  obtain rfl : m = 1 := le_antisymm hle hm
  cases hfirst
  cases hlast
  change c.accumulatedAt - c.accumulatedAt ≤ e at helapsed
  rw [sub_self] at helapsed
  exact ⟨rfl, helapsed⟩

theorem velocityScore_single_le (hcfg : cfg.NonNeg)
    (hturns : ∀ v ∈ cfg.velocityThresholds, 1 ≤ v.1) {calls : List StageCall} (hne : calls ≠ [])
    (c : StageCall) : velocityScore cfg [c] ≤ velocityScore cfg calls := by
  have hsub : List.Sublist (cfg.velocityThresholds.filter fun v => velocityMet [c] v.1 v.2.1)
      (cfg.velocityThresholds.filter fun v => velocityMet calls v.1 v.2.1) := by
    have heq : cfg.velocityThresholds.filter (fun v => velocityMet [c] v.1 v.2.1) =
        (cfg.velocityThresholds.filter fun v => velocityMet calls v.1 v.2.1).filter
          fun v => velocityMet [c] v.1 v.2.1 := by
      rw [List.filter_filter]
      apply List.filter_congr
      intro v hv
      by_cases hmet : velocityMet [c] v.1 v.2.1
      · obtain ⟨hone, he⟩ := velocityMet_single (hturns v hv) hmet
        have hcalls : velocityMet calls v.1 v.2.1 := by
          rw [hone]
          exact velocityMet_one hne he
        simp [hmet, hcalls]
      · simp [hmet]
    rw [heq]
    exact List.filter_sublist
  apply (hsub.map fun v => v.2.2).sum_le_sum
  intro w hw
  obtain ⟨v, hv, rfl⟩ := List.mem_map.mp hw
  exact hcfg.velocity v (List.mem_filter.mp hv).1

/-! ## The law -/

/-- **Spreading spans over turns cannot lower the risk.** The spans of one turn,
in any order over the turns of a new session that fit in the window, give the
same combo and repeat scores and at least the same risk, at whatever times. -/
theorem spreading_keeps_risk (sha256Hex : Text → Text) (cfg : AccumulatorConfig)
    (S S' : Store) (createdAt createdAt' : ℚ) (sid sid' : String) (calls : List StageCall)
    (single : StageCall) (hcfg : cfg.NonNeg) (hne : calls ≠ [])
    (hwindow : (calls.length : ℤ) ≤ cfg.windowSizeTurns)
    (hperm : (calls.flatMap StageCall.spans).Perm single.spans) :
    let spread := accumulateAll sha256Hex cfg (S.freshState createdAt sid) calls
    let atOnce := accumulateAll sha256Hex cfg (S'.freshState createdAt' sid') [single]
    lastComboScore cfg spread = lastComboScore cfg atOnce ∧
      lastRepeatScore cfg spread = lastRepeatScore cfg atOnce ∧
      ((∀ v ∈ cfg.velocityThresholds, 1 ≤ v.1) → atOnce.riskScore ≤ spread.riskScore) := by
  intro spread atOnce
  have hspread : Tracks sha256Hex calls spread := tracks_accumulateAll S createdAt sid calls
  have honce : Tracks sha256Hex [single] atOnce := tracks_accumulateAll S' createdAt' sid' [single]
  have hperm' : (calls.flatMap StageCall.spans).Perm ([single].flatMap StageCall.spans) := by
    rwa [List.flatMap_singleton]
  have hwindow' : (([single] : List StageCall).length : ℤ) ≤ cfg.windowSizeTurns := by
    have := List.length_pos_iff.mpr hne
    simp only [List.length_singleton]
    omega
  have hcombo : comboScore sha256Hex cfg calls = comboScore sha256Hex cfg [single] :=
    comboScore_congr hperm' hwindow hwindow'
  have hrepeat : repeatScore sha256Hex cfg calls = repeatScore sha256Hex cfg [single] :=
    repeatScore_congr hperm' hwindow hwindow'
  refine ⟨?_, ?_, ?_⟩
  · rw [lastComboScore_eq hspread, lastComboScore_eq honce, hcombo]
  · rw [lastRepeatScore_eq hspread, lastRepeatScore_eq honce, hrepeat]
  · intro hturns
    rw [(fromScratch_accumulateAll S' createdAt' sid' (List.cons_ne_nil single [])).risk,
      (fromScratch_accumulateAll S createdAt sid hne).risk, hcombo, hrepeat]
    gcongr
    exact velocityScore_single_le hcfg hturns hne single

/-- One number, mentioned in the first of two turns. -/
def spreadCalls : List StageCall :=
  [⟨[⟨"RRN", "900101-1234567".toList, 0, 14, 1, "regex"⟩], 0, 0, 0⟩, ⟨[], 100, 100, 100⟩]

/-- The same number in one turn, at the time of the second. -/
def onceCall : StageCall :=
  ⟨[⟨"RRN", "900101-1234567".toList, 0, 14, 1, "regex"⟩], 100, 100, 100⟩

theorem spreading_keeps_risk_sample :
    let spread := accumulateAll sampleSha256 defaultConfig
      (Store.freshState ⟨[], [], 1800⟩ 0 "s") spreadCalls
    let atOnce := accumulateAll sampleSha256 defaultConfig
      (Store.freshState ⟨[], [], 1800⟩ 100 "s") [onceCall]
    lastComboScore defaultConfig spread = lastComboScore defaultConfig atOnce ∧
      lastRepeatScore defaultConfig spread = lastRepeatScore defaultConfig atOnce ∧
      atOnce.riskScore ≤ spread.riskScore := by
  intro spread atOnce
  obtain ⟨hcombo, hrepeat, hrisk⟩ := spreading_keeps_risk sampleSha256 defaultConfig
    ⟨[], [], 1800⟩ ⟨[], [], 1800⟩ 0 100 "s" "s" spreadCalls onceCall defaultConfig_nonNeg
    (List.cons_ne_nil _ _) (by decide +kernel) (by decide +kernel)
  exact ⟨hcombo, hrepeat, hrisk (by decide)⟩

/-- A velocity threshold of no turns looks at the first turn of the session
(`timestamps[-0]`), which is the only one of a single turn. -/
def zeroTurnsConfig : AccumulatorConfig :=
  { defaultConfig with velocityThresholds := [(0, 5, 1 / 10)] }

/-- Under that threshold the single turn is the riskier one. -/
theorem spreading_lowers_velocity :
    zeroTurnsConfig.NonNeg ∧
      (spreadCalls.flatMap StageCall.spans).Perm onceCall.spans ∧
      (spreadCalls.length : ℤ) ≤ zeroTurnsConfig.windowSizeTurns ∧
      (accumulateAll sampleSha256 zeroTurnsConfig (Store.freshState ⟨[], [], 1800⟩ 0 "s")
        spreadCalls).riskScore = 0 ∧
      (accumulateAll sampleSha256 zeroTurnsConfig (Store.freshState ⟨[], [], 1800⟩ 100 "s")
        [onceCall]).riskScore = 1 / 10 := by
  refine ⟨?_, ?_, ?_, ?_, ?_⟩
  · constructor <;> decide +kernel
  all_goals decide +kernel

end DlpServer.Context
