import DlpServer.Context.Splitting

/-!
# More disclosure, more risk

Of two conversations with turns at the same times, of which the second mentions in each
turn whatever the first mentions there, the second is at least as risky after every turn
(`disclosure_monotone`). Velocity looks at the times alone, and what is mentioned more
often is mentioned later and stays active longer.
-/

namespace DlpServer.Context

open Mentions Runs

/-- A turn at the same time that mentions at least as much. -/
structure More (c c' : StageCall) : Prop where
  time : c.accumulatedAt = c'.accumulatedAt
  spans : c.spans.Subperm c'.spans

variable {sha256Hex : Text → Text} {cfg : AccumulatorConfig} {calls calls' : List StageCall}

/-! ## Combos and repeats -/

theorem mentions_more (h : List.Forall₂ More calls calls') :
    List.Forall₂ List.Subperm (mentions sha256Hex calls) (mentions sha256Hex calls') := by
  refine List.forall₂_map_left_iff.mpr (List.forall₂_map_right_iff.mpr (h.imp ?_))
  intro c c' hmore
  obtain ⟨spans, hperm, hsub⟩ := hmore.spans
  exact ⟨spans.map (spanKey sha256Hex), hperm.map _, hsub.map _⟩

theorem active_mono (h : List.Forall₂ More calls calls') :
    active sha256Hex cfg calls ⊆ active sha256Hex cfg calls' := by
  unfold active
  rw [h.length_eq]
  exact recentKeys_mono (mentions_more h) _

theorem comboScore_mono (hcfg : cfg.NonNeg) (h : List.Forall₂ More calls calls') :
    comboScore sha256Hex cfg calls ≤ comboScore sha256Hex cfg calls' := by
  refine min_le_min_right _ ?_
  have htypes : (active sha256Hex cfg calls).image Prod.fst ⊆
      (active sha256Hex cfg calls').image Prod.fst := Finset.image_subset_image (active_mono h)
  have hsub : List.Sublist
      (cfg.comboWeights.filter fun c => c.1 ⊆ (active sha256Hex cfg calls).image Prod.fst)
      (cfg.comboWeights.filter fun c => c.1 ⊆ (active sha256Hex cfg calls').image Prod.fst) := by
    refine List.monotone_filter_right _ fun c hc => ?_
    exact decide_eq_true ((of_decide_eq_true hc).trans htypes)
  apply (hsub.map Prod.snd).sum_le_sum
  intro w hw
  obtain ⟨c, hc, rfl⟩ := List.mem_map.mp hw
  exact hcfg.combo c (List.mem_filter.mp hc).1

theorem repeatScore_mono (hcfg : cfg.NonNeg) (h : List.Forall₂ More calls calls') :
    repeatScore sha256Hex cfg calls ≤ repeatScore sha256Hex cfg calls' := by
  refine min_le_min_right _ ?_
  have hnonneg : ∀ (n : ℕ), 0 ≤ (n : ℚ) * cfg.repeatWeight :=
    fun n => mul_nonneg (Nat.cast_nonneg n) hcfg.repeatWeight
  calc ∑ k ∈ active sha256Hex cfg calls,
        (((occurrences (mentions sha256Hex calls) k).length - 2 : ℕ) : ℚ) * cfg.repeatWeight
      ≤ ∑ k ∈ active sha256Hex cfg calls,
        (((occurrences (mentions sha256Hex calls') k).length - 2 : ℕ) : ℚ) * cfg.repeatWeight := by
        refine Finset.sum_le_sum fun k _ => mul_le_mul_of_nonneg_right ?_ hcfg.repeatWeight
        have hle : (occurrences (mentions sha256Hex calls) k).length ≤
            (occurrences (mentions sha256Hex calls') k).length :=
          (occurrences_mono (mentions_more h) k).length_le
        exact Nat.cast_le.mpr (Nat.sub_le_sub_right hle 2)
    _ ≤ ∑ k ∈ active sha256Hex cfg calls',
        (((occurrences (mentions sha256Hex calls') k).length - 2 : ℕ) : ℚ) * cfg.repeatWeight :=
        Finset.sum_le_sum_of_subset_of_nonneg (active_mono h) fun k _ _ => hnonneg _

/-! ## Velocity -/

theorem velocityScore_same (h : List.Forall₂ More calls calls') :
    velocityScore cfg calls = velocityScore cfg calls' := by
  have htimes : calls.map StageCall.accumulatedAt = calls'.map StageCall.accumulatedAt := by
    induction h with
    | nil => rfl
    | cons hmore _ ih => rw [List.map_cons, List.map_cons, hmore.time, ih]
  have hmet : ∀ m e, velocityMet calls m e ↔ velocityMet calls' m e := by
    intro m e
    rw [velocityMet_times, velocityMet_times, htimes]
  unfold velocityScore
  simp only [hmet]

/-! ## The law -/

theorem risk_mono (hcfg : cfg.NonNeg) (h : List.Forall₂ More calls calls') {st st' : SessionState}
    (hst : FromScratch sha256Hex cfg calls st) (hst' : FromScratch sha256Hex cfg calls' st') :
    st.riskScore ≤ st'.riskScore := by
  rw [hst.risk, hst'.risk, velocityScore_same h]
  refine min_le_min_left _ (add_le_add_left (add_le_add ?_ ?_) _)
  · exact comboScore_mono hcfg h
  · exact repeatScore_mono hcfg h

/-- **More disclosure never means less risk**: after any number of turns the conversation
that mentions at least as much in each of them is at least as risky. -/
theorem disclosure_monotone (sha256Hex : Text → Text) (cfg : AccumulatorConfig) (S : Store)
    (createdAt : ℚ) (sid : String) (calls calls' : List StageCall) (hcfg : cfg.NonNeg)
    (h : List.Forall₂ More calls calls') (n : ℕ) :
    (accumulateAll sha256Hex cfg (S.freshState createdAt sid) (calls.take n)).riskScore ≤
      (accumulateAll sha256Hex cfg (S.freshState createdAt sid) (calls'.take n)).riskScore := by
  have htake : List.Forall₂ More (calls.take n) (calls'.take n) := List.forall₂_take n h
  cases hcalls : calls.take n with
  | nil =>
      rw [hcalls, List.forall₂_nil_left_iff] at htake
      rw [htake]
  | cons c rest =>
      have hne : calls.take n ≠ [] := hcalls ▸ List.cons_ne_nil c rest
      have hne' : calls'.take n ≠ [] := by
        intro hnil
        rw [hnil, List.forall₂_nil_right_iff] at htake
        exact hne htake
      rw [← hcalls]
      exact risk_mono hcfg htake (fromScratch_accumulateAll S createdAt sid hne)
        (fromScratch_accumulateAll S createdAt sid hne')

/-- The turns of the sample, with another mention in the first. -/
def fullerCalls : List StageCall :=
  let rrn : Span := ⟨"RRN", "900101-1234567".toList, 0, 14, 1, "regex"⟩
  let account : Span := ⟨"ACCOUNT", "123-456-789012".toList, 15, 29, 1, "regex"⟩
  [⟨[account, rrn], 0, 0, 0⟩, ⟨[rrn, rrn], 10, 10, 10⟩]

theorem disclosure_monotone_sample :
    (accumulateAll sampleSha256 defaultConfig (Store.freshState ⟨[], [], 1800⟩ 0 "s")
        (sampleCalls.take 2)).riskScore ≤
      (accumulateAll sampleSha256 defaultConfig (Store.freshState ⟨[], [], 1800⟩ 0 "s")
        (fullerCalls.take 2)).riskScore := by
  have hmore : List.Forall₂ More sampleCalls fullerCalls := by
    refine .cons ⟨rfl, ?_⟩ (.cons ⟨rfl, List.Subperm.refl _⟩ .nil)
    exact (List.sublist_cons_self _ _).subperm
  exact disclosure_monotone sampleSha256 defaultConfig ⟨[], [], 1800⟩ 0 "s" _ _
    defaultConfig_nonNeg hmore 2

end DlpServer.Context
