import DlpServer.Lib.Mentions
import DlpServer.Context.Stage

/-!
# The session state, from scratch

`FromScratch` says what a session state must be after a conversation, computed
from the list of its turns alone: no state, no order of updates. The result,
`session_state_from_scratch`, is that the incremental state agrees with it after
any number of calls. On the way, `Represents` ties the entity dictionary to the
mentions, one registered span at a time.
-/

namespace DlpServer.Context

open Mentions Runs

/-! ## The account -/

section Account

variable (sha256Hex : Text → Text) (cfg : AccumulatorConfig) (calls : List StageCall)

/-- The entities each turn mentions. -/
def mentions : List (List EntityKey) := calls.map fun c => c.spans.map (spanKey sha256Hex)

/-- First turn, last turn and number of mentions of an entity. -/
def recordOf (h : List (List EntityKey)) (k : EntityKey) : Option EntityRecord :=
  match occurrences h k with
  | [] => none
  | i :: is => some ⟨k.1, k.2, i, (i :: is).getLast (List.cons_ne_nil i is), (i :: is).length⟩

/-- What the last `window_size_turns` turns mention. -/
def active : Finset EntityKey :=
  recentKeys (mentions sha256Hex calls) (calls.length - cfg.windowSizeTurns + 1)

def comboScore : ℚ :=
  min ((cfg.comboWeights.filter fun c =>
    c.1 ⊆ (active sha256Hex cfg calls).image Prod.fst).map Prod.snd).sum cfg.comboCap

def repeatScore : ℚ :=
  min (∑ k ∈ active sha256Hex cfg calls,
    (((occurrences (mentions sha256Hex calls) k).length - 2 : ℕ) : ℚ) * cfg.repeatWeight)
    cfg.repeatCap

/-- The turns a velocity threshold looks at: the last `minTurns`, or all for 0. -/
def lastTurns (minTurns : ℕ) : List StageCall :=
  if minTurns = 0 then calls else calls.drop (calls.length - minTurns)

/-- A threshold is met: that many turns within that time. -/
def velocityMet (minTurns : ℕ) (maxElapsed : ℚ) : Prop :=
  minTurns ≤ calls.length ∧
    ∃ first ∈ (lastTurns calls minTurns).head?, ∃ last ∈ calls.getLast?,
      last.accumulatedAt - first.accumulatedAt ≤ maxElapsed

instance (minTurns : ℕ) (maxElapsed : ℚ) : Decidable (velocityMet calls minTurns maxElapsed) :=
  inferInstanceAs (Decidable (_ ∧ _))

def velocityScore : ℚ :=
  ((cfg.velocityThresholds.filter fun v => velocityMet calls v.1 v.2.1).map (·.2.2)).sum

/-- The session state after `calls`, as far as the account goes. -/
structure FromScratch (st : SessionState) : Prop where
  turn_count : st.turnCount = calls.length
  timestamps : st.turnTimestamps = calls.map StageCall.accumulatedAt
  one_record : st.entities.keys.Nodup
  records : ∀ k r, (k, r) ∈ st.entities ↔ recordOf (mentions sha256Hex calls) k = some r
  one_edge : (st.graphEdges.map fun e => s(e.nodeA, e.nodeB)).Nodup
  edges : ∀ p, p ∈ st.graphEdges.map (fun e => s(e.nodeA, e.nodeB)) ↔
    ∃ a ∈ active sha256Hex cfg calls, ∃ b ∈ active sha256Hex cfg calls, a ≠ b ∧ p = s(a, b)
  edges_turn : ∀ e ∈ st.graphEdges, e.turnIndex = calls.length
  risk : st.riskScore = min 1 (comboScore sha256Hex cfg calls +
    repeatScore sha256Hex cfg calls + velocityScore cfg calls)

end Account

/-- No weight and no cap is negative. -/
structure AccumulatorConfig.NonNeg (cfg : AccumulatorConfig) : Prop where
  combo : ∀ c ∈ cfg.comboWeights, 0 ≤ c.2
  comboCap : 0 ≤ cfg.comboCap
  repeatWeight : 0 ≤ cfg.repeatWeight
  repeatCap : 0 ≤ cfg.repeatCap
  velocity : ∀ v ∈ cfg.velocityThresholds, 0 ≤ v.2.2

variable {sha256Hex : Text → Text} {cfg : AccumulatorConfig}

/-! ## Entities -/

/-- The dictionary holds one record for each key mentioned. -/
structure Represents (entities : Dict EntityKey EntityRecord) (h : List (List EntityKey)) :
    Prop where
  nodup : entities.keys.Nodup
  get : ∀ k, entities.get? k = recordOf h k

theorem recordOf_congr {h h' : List (List EntityKey)} {k : EntityKey}
    (hocc : occurrences h k = occurrences h' k) : recordOf h k = recordOf h' k := by
  simp only [recordOf, hocc]

theorem recordOf_eq_none {h : List (List EntityKey)} {k : EntityKey} :
    recordOf h k = none ↔ occurrences h k = [] := by
  unfold recordOf
  split
  · rename_i hnil
    exact iff_of_true rfl hnil
  · rename_i hcons
    simp [hcons]

theorem recordOf_some {h : List (List EntityKey)} {k : EntityKey} {r : EntityRecord}
    (hr : recordOf h k = some r) :
    r.key = k ∧ r.count = (occurrences h k).length ∧
      ∃ hne : occurrences h k ≠ [], r.firstTurn = (occurrences h k).head hne ∧
        r.lastTurn = (occurrences h k).getLast hne := by
  unfold recordOf at hr
  split at hr
  · cases hr
  · rename_i i is hocc
    cases hr
    exact ⟨rfl, by rw [hocc], by simp [hocc], by simp [hocc], by simp [hocc]⟩

theorem recordOf_of_occurrences {h : List (List EntityKey)} {k : EntityKey} {i : ℕ}
    {is : List ℕ} (hocc : occurrences h k = i :: is) :
    recordOf h k = some ⟨k.1, k.2, i, (i :: is).getLast (List.cons_ne_nil i is),
      (i :: is).length⟩ := by
  unfold recordOf
  rw [hocc]

/-- Registering one more span of turn `h.length + 1`. -/
theorem Represents.registerSpan {entities : Dict EntityKey EntityRecord}
    {h : List (List EntityKey)} {ks : List EntityKey} (span : Span)
    (hrep : Represents entities (h ++ [ks])) :
    Represents (registerSpan sha256Hex (h.length + 1) entities span)
      (h ++ [ks ++ [spanKey sha256Hex span]]) := by
  obtain ⟨k₀, hk₀⟩ : ∃ k, k = spanKey sha256Hex span := ⟨_, rfl⟩
  have hother : ∀ k, k₀ ≠ k →
      entities.get? k = recordOf (h ++ [ks ++ [k₀]]) k := by
    intro k hne
    rw [hrep.get k]
    apply recordOf_congr
    rw [occurrences_mention, if_neg hne, List.append_nil]
  have hmention := occurrences_mention h ks k₀ k₀
  rw [if_pos rfl] at hmention
  simp only [Context.registerSpan, ← hk₀, hrep.get k₀]
  cases hocc : occurrences (h ++ [ks]) k₀ with
  | nil =>
      rw [recordOf_eq_none.mpr hocc]
      refine ⟨Dict.nodup_set hrep.nodup, fun k => ?_⟩
      rw [Dict.get?_set]
      by_cases hk : k₀ = k
      · subst hk
        rw [hocc, List.nil_append] at hmention
        rw [if_pos rfl, recordOf_of_occurrences hmention, hk₀]
        rfl
      · rw [if_neg hk, hother k hk]
  | cons i is =>
      rw [recordOf_of_occurrences hocc]
      refine ⟨Dict.nodup_set hrep.nodup, fun k => ?_⟩
      rw [Dict.get?_set]
      by_cases hk : k₀ = k
      · subst hk
        rw [hocc, List.cons_append] at hmention
        rw [if_pos rfl, recordOf_of_occurrences hmention]
        simp
      · rw [if_neg hk, hother k hk]

theorem Represents.registerSpans {h : List (List EntityKey)} (spans : List Span) :
    ∀ {entities : Dict EntityKey EntityRecord} {ks : List EntityKey},
      Represents entities (h ++ [ks]) →
      Represents (registerSpans sha256Hex (h.length + 1) entities spans)
        (h ++ [ks ++ spans.map (spanKey sha256Hex)]) := by
  induction spans with
  | nil =>
      intro entities ks hrep
      simpa [Context.registerSpans] using hrep
  | cons span spans ih =>
      intro entities ks hrep
      have hnext : Represents (Context.registerSpans sha256Hex (h.length + 1)
          (Context.registerSpan sha256Hex (h.length + 1) entities span) spans)
          (h ++ [ks ++ [spanKey sha256Hex span] ++ spans.map (spanKey sha256Hex)]) :=
        ih (hrep.registerSpan span)
      rwa [List.append_assoc] at hnext

/-- The spans of a whole turn. -/
theorem Represents.turn (sha256Hex : Text → Text) {entities : Dict EntityKey EntityRecord}
    {h : List (List EntityKey)} (spans : List Span) (hrep : Represents entities h) :
    Represents (Context.registerSpans sha256Hex (h.length + 1) entities spans)
      (h ++ [spans.map (spanKey sha256Hex)]) := by
  have hempty : Represents entities (h ++ [[]]) := by
    refine ⟨hrep.nodup, fun k => ?_⟩
    rw [hrep.get k]
    apply recordOf_congr
    rw [occurrences_snoc]
    simp
  simpa using hempty.registerSpans spans

/-! ## The active window -/

section Window

variable {entities : Dict EntityKey EntityRecord} {h : List (List EntityKey)}
  (hrep : Represents entities h)
include hrep

theorem Represents.mem_iff {k : EntityKey} {r : EntityRecord} :
    (k, r) ∈ entities ↔ recordOf h k = some r := by
  rw [Dict.mem_iff_get? hrep.nodup, hrep.get k]

theorem activeNodes_keys (n : ℕ) :
    (activeNodes cfg entities n).map EntityRecord.key =
      Dict.keys (entities.filter fun item =>
        (n : ℤ) - cfg.windowSizeTurns + 1 ≤ item.2.lastTurn) := by
  simp only [activeNodes, Dict.values, Dict.keys, List.filter_map, List.map_map]
  apply List.map_congr_left
  rintro ⟨k, r⟩ hitem
  obtain ⟨hmem, -⟩ := List.mem_filter.mp hitem
  exact (recordOf_some (hrep.mem_iff.mp hmem)).1

theorem activeNodes_nodup (n : ℕ) :
    ((activeNodes cfg entities n).map EntityRecord.key).Nodup := by
  rw [activeNodes_keys hrep]
  exact hrep.nodup.sublist (List.filter_sublist.map _)

/-- The nodes are the entities mentioned in the window. -/
theorem mem_activeNodes (n : ℕ) (k : EntityKey) :
    k ∈ (activeNodes cfg entities n).map EntityRecord.key ↔
      k ∈ recentKeys h (n - cfg.windowSizeTurns + 1) := by
  rw [activeNodes_keys hrep, Dict.keys, List.mem_map, mem_recentKeys]
  constructor
  · rintro ⟨⟨k', r⟩, hitem, rfl⟩
    obtain ⟨hmem, hwindow⟩ := List.mem_filter.mp hitem
    obtain ⟨-, -, hne, -, hlast⟩ := recordOf_some (hrep.mem_iff.mp hmem)
    exact ⟨r.lastTurn, hlast ▸ List.getLast_mem hne, by simpa using hwindow⟩
  · rintro ⟨i, hi, hstart⟩
    cases hrec : recordOf h k with
    | none => simp [recordOf_eq_none.mp hrec] at hi
    | some r =>
        obtain ⟨-, -, hne, -, hlast⟩ := recordOf_some hrec
        have hle := le_getLast hi
        refine ⟨(k, r), List.mem_filter.mpr ⟨hrep.mem_iff.mpr hrec, ?_⟩, rfl⟩
        rw [decide_eq_true_eq, hlast]
        omega

theorem activeNodes_count {n : ℕ} {r : EntityRecord} (hr : r ∈ activeNodes cfg entities n) :
    r.count = (occurrences h r.key).length := by
  obtain ⟨hmem, -⟩ := List.mem_filter.mp hr
  obtain ⟨⟨k, r'⟩, hitem, rfl⟩ := List.mem_map.mp hmem
  obtain ⟨hkey, hcount, -⟩ := recordOf_some (hrep.mem_iff.mp hitem)
  rw [hkey]
  exact hcount

end Window

/-! ## Edges -/

theorem buildEdges_mem {nodes : List EntityRecord} (hnodup : (nodes.map EntityRecord.key).Nodup)
    (n : ℕ) (p : Sym2 EntityKey) :
    p ∈ (buildEdges n nodes).map (fun e => s(e.nodeA, e.nodeB)) ↔
      ∃ a ∈ nodes.map EntityRecord.key, ∃ b ∈ nodes.map EntityRecord.key,
        a ≠ b ∧ p = s(a, b) := by
  induction nodes with
  | nil => simp [buildEdges]
  | cons node nodes ih =>
      obtain ⟨hnot, hnodup⟩ := List.nodup_cons.mp hnodup
      rw [buildEdges, List.map_append, List.mem_append, ih hnodup, List.map_map]
      constructor
      · rintro (hp | ⟨a, ha, b, hb, hab, rfl⟩)
        · obtain ⟨b, hb, rfl⟩ := List.mem_map.mp hp
          have hb := List.mem_map_of_mem (f := EntityRecord.key) hb
          refine ⟨node.key, List.mem_cons_self, b.key, List.mem_cons_of_mem _ hb, ?_, rfl⟩
          rintro heq
          exact hnot (heq ▸ hb)
        · exact ⟨a, List.mem_cons_of_mem _ ha, b, List.mem_cons_of_mem _ hb, hab, rfl⟩
      · rintro ⟨a, ha, b, hb, hab, rfl⟩
        rcases List.mem_cons.mp ha with rfl | ha <;> rcases List.mem_cons.mp hb with rfl | hb
        · exact absurd rfl hab
        · obtain ⟨r, hr, rfl⟩ := List.mem_map.mp hb
          exact Or.inl (List.mem_map.mpr ⟨r, hr, rfl⟩)
        · obtain ⟨r, hr, rfl⟩ := List.mem_map.mp ha
          exact Or.inl (List.mem_map.mpr ⟨r, hr, Sym2.eq_swap⟩)
        · exact Or.inr ⟨a, ha, b, hb, hab, rfl⟩

theorem buildEdges_nodup {nodes : List EntityRecord}
    (hnodup : (nodes.map EntityRecord.key).Nodup) (n : ℕ) :
    ((buildEdges n nodes).map fun e => s(e.nodeA, e.nodeB)).Nodup := by
  induction nodes with
  | nil => exact List.nodup_nil
  | cons node nodes ih =>
      obtain ⟨hnot, hrest⟩ := List.nodup_cons.mp hnodup
      rw [buildEdges, List.map_append, List.map_map]
      refine List.Nodup.append ?_ (ih hrest) ?_
      · have hinj : Function.Injective fun b : EntityKey => s(node.key, b) := by
          intro b b' hbb
          exact Sym2.congr_right.mp hbb
        have := hrest.map hinj
        rwa [List.map_map] at this
      · intro p hp hp'
        obtain ⟨b, -, rfl⟩ := List.mem_map.mp hp
        obtain ⟨a, ha, c, hc, -, heq⟩ := (buildEdges_mem hrest n _).mp hp'
        rcases Sym2.eq_iff.mp heq with ⟨rfl, -⟩ | ⟨rfl, -⟩
        · exact hnot ha
        · exact hnot hc

theorem buildEdges_turn (n : ℕ) (nodes : List EntityRecord) :
    ∀ e ∈ buildEdges n nodes, e.turnIndex = n := by
  induction nodes with
  | nil => simp [buildEdges]
  | cons node nodes ih =>
      intro e he
      rcases List.mem_append.mp he with he | he
      · obtain ⟨b, -, rfl⟩ := List.mem_map.mp he
        rfl
      · exact ih e he

/-! ## Scores -/

theorem capScore_fst (total cap : ℚ) (applied : ℚ → ℚ → RiskReason) (reasons : List RiskReason) :
    (capScore total cap applied reasons).1 = min total cap := rfl

/-- The loop of `_score_combos` adds up the weights of the combos it meets. -/
theorem combos_total (types : Finset String) (combos : List (Finset String × ℚ))
    (acc : ℚ × List RiskReason) :
    (combos.foldl (comboRound types) acc).1 =
      acc.1 + ((combos.filter fun c => c.1 ⊆ types).map Prod.snd).sum := by
  induction combos generalizing acc with
  | nil => simp
  | cons c combos ih =>
      rw [List.foldl_cons, ih, comboRound]
      by_cases hc : c.1 ⊆ types
      · simp [hc, add_assoc]
      · simp [hc]

/-- The loop of `_score_repeats`; an entity mentioned at most twice adds nothing. -/
theorem repeats_total (nodes : List EntityRecord) (acc : ℚ × List RiskReason) :
    (nodes.foldl (repeatRound cfg) acc).1 =
      acc.1 + (nodes.map fun r => ((r.count - 2 : ℕ) : ℚ) * cfg.repeatWeight).sum := by
  induction nodes generalizing acc with
  | nil => simp
  | cons r nodes ih =>
      rw [List.foldl_cons, ih, repeatRound]
      by_cases hr : 0 < r.count - 2
      · simp only [hr, if_true, List.map_cons, List.sum_cons, add_assoc]
      · have hzero : r.count - 2 = 0 := by omega
        simp [hzero]

theorem velocityRound_fst (timestamps : List ℚ) (n : ℕ) (now : ℚ) (acc : ℚ × List RiskReason)
    (m : ℕ) (e w : ℚ) :
    (velocityRound timestamps n now acc (m, e, w)).1 =
      acc.1 + if m ≤ n ∧ m ≤ timestamps.length ∧ ∃ t ∈ fromEnd timestamps m, now - t ≤ e
        then w else 0 := by
  unfold velocityRound
  dsimp only
  by_cases hturns : n < m ∨ timestamps.length < m
  · rw [if_pos hturns, if_neg, add_zero]
    rintro ⟨h₁, h₂, -⟩
    omega
  · rw [if_neg hturns]
    rw [not_or, not_lt, not_lt] at hturns
    cases ht : fromEnd timestamps m with
    | none => simp
    | some t =>
        dsimp only
        by_cases helapsed : now - t ≤ e
        · rw [if_pos helapsed, if_pos ⟨hturns.1, hturns.2, t, rfl, helapsed⟩]
        · rw [if_neg helapsed, if_neg, add_zero]
          rintro ⟨-, -, t', ht', hle⟩
          cases ht'
          exact helapsed hle

/-- The loop of `_score_velocity` adds up the weights of the thresholds met. -/
theorem velocity_total (now : ℚ) (met : ℕ → ℚ → Prop) [∀ m e, Decidable (met m e)]
    (timestamps : List ℚ) (n : ℕ)
    (hmet : ∀ m e, met m e ↔ m ≤ n ∧ m ≤ timestamps.length ∧
      ∃ t ∈ fromEnd timestamps m, now - t ≤ e)
    (thresholds : List (ℕ × ℚ × ℚ)) (acc : ℚ × List RiskReason) :
    (thresholds.foldl (velocityRound timestamps n now) acc).1 =
      acc.1 + ((thresholds.filter fun v => met v.1 v.2.1).map (·.2.2)).sum := by
  induction thresholds generalizing acc with
  | nil => simp
  | cons v thresholds ih =>
      obtain ⟨m, e, w⟩ := v
      rw [List.foldl_cons, ih, velocityRound_fst]
      simp only [← hmet]
      by_cases hm : met m e
      · simp [hm, add_assoc]
      · simp [hm]

/-! ## Counts -/

theorem registerSpan_count (turnIndex : ℕ) (entities : Dict EntityKey EntityRecord)
    (span : Span) (key : EntityKey) :
    (((registerSpan sha256Hex turnIndex entities span).get? key).map
        EntityRecord.count).getD 0 =
      ((entities.get? key).map EntityRecord.count).getD 0 + [spanKey sha256Hex span].count key := by
  unfold registerSpan
  dsimp only
  by_cases hkey : spanKey sha256Hex span = key
  · subst hkey
    rw [List.count_singleton_self]
    split
    · rename_i hnone
      rw [Dict.get?_set, if_pos rfl, hnone]
      rfl
    · rename_i record hsome
      rw [Dict.get?_set, if_pos rfl, hsome]
      rfl
  · have hzero : [spanKey sha256Hex span].count key = 0 :=
      List.count_eq_zero.mpr fun hmem => hkey (List.mem_singleton.mp hmem).symm
    rw [hzero]
    split
    · rw [Dict.get?_set, if_neg hkey]
      rfl
    · rw [Dict.get?_set, if_neg hkey]
      rfl

/-- Registering the spans of a turn counts each entity as often as it stands in them. -/
theorem registerSpans_count (turnIndex : ℕ) (entities : Dict EntityKey EntityRecord)
    (spans : List Span) (key : EntityKey) :
    (((registerSpans sha256Hex turnIndex entities spans).get? key).map
        EntityRecord.count).getD 0 =
      ((entities.get? key).map EntityRecord.count).getD 0 +
        (spans.map (spanKey sha256Hex)).count key := by
  unfold registerSpans
  induction spans generalizing entities with
  | nil => rfl
  | cons span spans ih =>
      have hcons : (spanKey sha256Hex span :: spans.map (spanKey sha256Hex)).count key =
          [spanKey sha256Hex span].count key + (spans.map (spanKey sha256Hex)).count key := by
        rw [← List.singleton_append, List.count_append]
      rw [List.foldl_cons, ih, registerSpan_count, List.map_cons, hcons, Nat.add_assoc]

/-! ## One turn -/

/-- What the state carries from turn to turn. -/
structure Tracks (sha256Hex : Text → Text) (calls : List StageCall) (st : SessionState) :
    Prop where
  turn_count : st.turnCount = calls.length
  timestamps : st.turnTimestamps = calls.map StageCall.accumulatedAt
  entities : Represents st.entities (mentions sha256Hex calls)

theorem mentions_length (calls : List StageCall) :
    (mentions sha256Hex calls).length = calls.length := List.length_map _

theorem mentions_snoc (calls : List StageCall) (c : StageCall) :
    mentions sha256Hex (calls ++ [c]) =
      mentions sha256Hex calls ++ [c.spans.map (spanKey sha256Hex)] := by
  simp [mentions]

/-- A threshold looks at the times of the turns alone. -/
theorem velocityMet_times (calls : List StageCall) (m : ℕ) (e : ℚ) :
    velocityMet calls m e ↔ m ≤ (calls.map StageCall.accumulatedAt).length ∧
      ∃ first ∈ fromEnd (calls.map StageCall.accumulatedAt) m,
        ∃ last ∈ (calls.map StageCall.accumulatedAt).getLast?, last - first ≤ e := by
  have hfirst : fromEnd (calls.map StageCall.accumulatedAt) m =
      ((lastTurns calls m).head?).map StageCall.accumulatedAt := by
    unfold fromEnd lastTurns
    split
    · rw [List.head?_map]
    · rw [List.head?_drop, List.getElem?_map, List.length_map]
  rw [hfirst]
  simp [velocityMet]

theorem velocityMet_snoc (calls : List StageCall) (c : StageCall) (m : ℕ) (e : ℚ) :
    velocityMet (calls ++ [c]) m e ↔ m ≤ calls.length + 1 ∧
      m ≤ (calls.map StageCall.accumulatedAt ++ [c.accumulatedAt]).length ∧
      ∃ t ∈ fromEnd (calls.map StageCall.accumulatedAt ++ [c.accumulatedAt]) m,
        c.accumulatedAt - t ≤ e := by
  rw [velocityMet_times]
  simp

theorem Tracks.accumulate {calls : List StageCall} {st : SessionState}
    (h : Tracks sha256Hex calls st) (c : StageCall) :
    Tracks sha256Hex (calls ++ [c])
      (accumulate sha256Hex cfg st c.spans (st.turnCount + 1) c.accumulatedAt) where
  turn_count := by simp [Context.accumulate, h.turn_count]
  timestamps := by simp [Context.accumulate, h.timestamps]
  entities := by
    have hturn := h.entities.turn sha256Hex c.spans
    rw [mentions_length, ← mentions_snoc, ← h.turn_count] at hturn
    exact hturn

section Nodes

variable {calls : List StageCall} {entities : Dict EntityKey EntityRecord}
  (hrep : Represents entities (mentions sha256Hex calls))
include hrep

/-- The nodes of the last turn are the active entities of the account. -/
theorem mem_activeNodes_account (k : EntityKey) :
    k ∈ (activeNodes cfg entities calls.length).map EntityRecord.key ↔
      k ∈ active sha256Hex cfg calls :=
  mem_activeNodes hrep _ k

theorem activeNodes_account :
    ((activeNodes cfg entities calls.length).map EntityRecord.key).toFinset =
      active sha256Hex cfg calls := by
  ext k
  rw [List.mem_toFinset, mem_activeNodes_account hrep]

theorem scoreCombos_account :
    (scoreCombos cfg (activeNodes cfg entities calls.length)).1 =
      comboScore sha256Hex cfg calls := by
  have htypes : ((activeNodes cfg entities calls.length).map EntityRecord.type).toFinset =
      (active sha256Hex cfg calls).image Prod.fst := by
    rw [← activeNodes_account hrep]
    ext t
    simp [EntityRecord.key]
  rw [scoreCombos, comboScore, capScore_fst, combos_total, htypes, zero_add]

theorem scoreRepeats_account :
    (scoreRepeats cfg (activeNodes cfg entities calls.length)).1 =
      repeatScore sha256Hex cfg calls := by
  rw [scoreRepeats, repeatScore, capScore_fst, repeats_total, zero_add,
    ← activeNodes_account hrep, List.sum_toFinset _ (activeNodes_nodup hrep _), List.map_map]
  congr 2
  apply List.map_congr_left
  intro r hr
  rw [Function.comp_apply, activeNodes_count hrep hr]

end Nodes

/-- **One turn.** The state after a turn is the account of the turns so far. -/
theorem Tracks.fromScratch {calls : List StageCall} {st : SessionState}
    (h : Tracks sha256Hex calls st) (c : StageCall) :
    FromScratch sha256Hex cfg (calls ++ [c])
      (Context.accumulate sha256Hex cfg st c.spans (st.turnCount + 1) c.accumulatedAt) := by
  have hnext : Tracks sha256Hex (calls ++ [c])
      (Context.accumulate sha256Hex cfg st c.spans (st.turnCount + 1) c.accumulatedAt) :=
    h.accumulate c
  have hrep := hnext.entities
  have hlen : (calls ++ [c]).length = st.turnCount + 1 := by simp [h.turn_count]
  -- The nodes of this turn are the active entities of the account.
  obtain ⟨nodes, hnodes⟩ : ∃ nodes, nodes = activeNodes cfg
      (Context.registerSpans sha256Hex (st.turnCount + 1) st.entities c.spans)
      (st.turnCount + 1) := ⟨_, rfl⟩
  have hmem : ∀ k, k ∈ nodes.map EntityRecord.key ↔ k ∈ active sha256Hex cfg (calls ++ [c]) := by
    intro k
    have hk : _ ↔ k ∈ active sha256Hex cfg _ := mem_activeNodes_account hrep k
    rw [hlen] at hk
    rw [hnodes]
    exact hk
  have hnodup : (nodes.map EntityRecord.key).Nodup := by
    rw [hnodes]
    exact activeNodes_nodup hrep _
  have hcombo : (scoreCombos cfg nodes).1 = comboScore sha256Hex cfg (calls ++ [c]) := by
    have hscore : _ = comboScore sha256Hex cfg _ := scoreCombos_account hrep
    rw [hlen] at hscore
    rw [hnodes]
    exact hscore
  have hrepeat : (scoreRepeats cfg nodes).1 = repeatScore sha256Hex cfg (calls ++ [c]) := by
    have hscore : _ = repeatScore sha256Hex cfg _ := scoreRepeats_account hrep
    rw [hlen] at hscore
    rw [hnodes]
    exact hscore
  have hvelocity : (scoreVelocity cfg (st.turnTimestamps ++ [c.accumulatedAt])
      (st.turnCount + 1) c.accumulatedAt).1 = velocityScore cfg (calls ++ [c]) := by
    rw [scoreVelocity, velocityScore, h.timestamps, h.turn_count,
      velocity_total _ (velocityMet (calls ++ [c])) _ _ (velocityMet_snoc calls c), zero_add]
  constructor
  case turn_count => exact hnext.turn_count
  case timestamps => exact hnext.timestamps
  case one_record => exact hrep.nodup
  case records => exact fun k r => hrep.mem_iff
  case one_edge =>
    rw [hnodes] at hnodup
    exact buildEdges_nodup hnodup _
  case edges =>
    intro p
    rw [hnodes] at hnodup hmem
    simp only [← hmem]
    exact buildEdges_mem hnodup _ p
  case edges_turn =>
    rw [hlen]
    exact buildEdges_turn _ _
  case risk =>
    rw [← hcombo, ← hrepeat, ← hvelocity, hnodes]
    rfl

/-! ## Bounds -/

theorem FromScratch.risk_bounds {calls : List StageCall} {st : SessionState}
    (h : FromScratch sha256Hex cfg calls st) (hcfg : cfg.NonNeg) :
    0 ≤ st.riskScore ∧ st.riskScore ≤ 1 := by
  have hcombo : 0 ≤ comboScore sha256Hex cfg calls := by
    refine le_min (List.sum_nonneg ?_) hcfg.comboCap
    intro w hw
    obtain ⟨c, hc, rfl⟩ := List.mem_map.mp hw
    exact hcfg.combo c (List.mem_filter.mp hc).1
  have hrepeat : 0 ≤ repeatScore sha256Hex cfg calls := by
    refine le_min (Finset.sum_nonneg fun k _ => ?_) hcfg.repeatCap
    exact mul_nonneg (Nat.cast_nonneg _) hcfg.repeatWeight
  have hvelocity : 0 ≤ velocityScore cfg calls := by
    refine List.sum_nonneg ?_
    intro w hw
    obtain ⟨v, hv, rfl⟩ := List.mem_map.mp hw
    exact hcfg.velocity v (List.mem_filter.mp hv).1
  rw [h.risk]
  exact ⟨le_min zero_le_one (add_nonneg (add_nonneg hcombo hrepeat) hvelocity),
    min_le_left _ _⟩

/-! ## The run -/

/-- After `calls` the session is stored, alive until `expiry`, and accounted for. -/
def Holds (sha256Hex : Text → Text) (cfg : AccumulatorConfig) (sid : String) (expiry : ℚ)
    (calls : List StageCall) (S : Store) : Prop :=
  ∃ r st, S.states.get? sid = some r ∧ S.heap[r]? = some st ∧ st.sessionId = sid ∧
    st.expiresAt = expiry ∧ Tracks sha256Hex calls st ∧ FromScratch sha256Hex cfg calls st

/-- Accumulating and saving, on an object of the session. -/
theorem holds_accumulate {S : Store} {r : Ref} {st : SessionState} {sid : String}
    {calls : List StageCall} (c : StageCall) (hst : S.heap[r]? = some st)
    (hsid : st.sessionId = sid) (htracks : Tracks sha256Hex calls st) :
    Holds sha256Hex cfg sid st.expiresAt (calls ++ [c])
      ((accumulateStep sha256Hex cfg S r c).save r) := by
  have hheap : (accumulateStep sha256Hex cfg S r c).heap[r]? =
      some (accumulate sha256Hex cfg st c.spans (st.turnCount + 1) c.accumulatedAt) := by
    simp [accumulateStep, Store.modify, List.getElem?_modify_eq, hst]
  have hframe := accumulate_frame sha256Hex cfg st c.spans (st.turnCount + 1) c.accumulatedAt
  refine ⟨r, _, ?_, ?_, hframe.1.trans hsid, hframe.2.2.1, htracks.accumulate c,
    htracks.fromScratch c⟩
  · simp only [Store.save, hheap, hframe.1, hsid, Dict.get?_set, if_true]
  · simp only [Store.save, hheap]

theorem holds_next {S : Store} {sid : String} {expiry : ℚ} {calls : List StageCall}
    {c : StageCall} (h : Holds sha256Hex cfg sid expiry calls S) (hlive : c.loadedAt < expiry) :
    Holds sha256Hex cfg sid expiry (calls ++ [c]) (multiturnStage sha256Hex cfg sid S c) := by
  obtain ⟨r, st, hr, hst, hsid, rfl, htracks, -⟩ := h
  rw [multiturnStage, loadOrNew, load_live hr hst hlive]
  exact holds_accumulate c hst hsid htracks

theorem holds_first {S : Store} {sid : String} (hnew : S.states.get? sid = none)
    (c : StageCall) :
    Holds sha256Hex cfg sid (c.createdAt + S.defaultTtlSeconds) [c]
      (multiturnStage sha256Hex cfg sid S c) := by
  have hload : S.load c.loadedAt sid = (none, [], S) := by simp only [Store.load, hnew]
  rw [multiturnStage, loadOrNew, hload]
  have htracks : Tracks sha256Hex [] (S.freshState c.createdAt sid) :=
    ⟨rfl, rfl, List.nodup_nil, fun k => rfl⟩
  exact holds_accumulate c List.getElem?_concat_length rfl htracks

/-- **The incremental session state is the account from scratch**, after any
calls of a session one after another, and the risk stays in `[0, 1]`. -/
theorem session_state_from_scratch (sha256Hex : Text → Text) (cfg : AccumulatorConfig)
    (sid : String) (S : Store) (first : StageCall) (rest : List StageCall)
    (hcfg : cfg.NonNeg) (hnew : S.states.get? sid = none)
    (hlive : ∀ c ∈ rest, c.loadedAt < first.createdAt + S.defaultTtlSeconds) :
    ∃ st, (runStages sha256Hex cfg sid S (first :: rest)).session sid = some st ∧
      FromScratch sha256Hex cfg (first :: rest) st ∧ 0 ≤ st.riskScore ∧ st.riskScore ≤ 1 := by
  have hrun : Holds sha256Hex cfg sid (first.createdAt + S.defaultTtlSeconds) (first :: rest)
      (runStages sha256Hex cfg sid S (first :: rest)) := by
    induction rest using List.reverseRecOn with
    | nil => exact holds_first hnew first
    | append_singleton rest c ih =>
        have ih := ih fun c' hc' => hlive c' (List.mem_append_left _ hc')
        show Holds _ _ _ _ (first :: rest ++ [c]) (run _ _ (first :: rest ++ [c]))
        rw [run_snoc]
        exact holds_next ih (hlive c (List.mem_append_right _ List.mem_cons_self))
  obtain ⟨r, st, hr, hst, -, -, -, hscratch⟩ := hrun
  refine ⟨st, ?_, hscratch, hscratch.risk_bounds hcfg⟩
  rw [Store.session, hr]
  exact hst

theorem defaultConfig_nonNeg : defaultConfig.NonNeg := by
  constructor <;> decide +kernel

/-- Two turns that mention one number, in an empty store. -/
def sampleCalls : List StageCall :=
  let span : Span := ⟨"RRN", "900101-1234567".toList, 0, 14, 1, "regex"⟩
  [⟨[span], 0, 0, 0⟩, ⟨[span, span], 10, 10, 10⟩]

/-- `hashlib.sha256` at that number. -/
def sampleSha256 (value : Text) : Text :=
  if value = "900101-1234567".toList then
    "96215a939a632afb5e6c3f3fee6c294930741331bfef0c7f5d32329458e4d26e".toList
  else []

theorem session_state_from_scratch_sample :
    ∃ st, (runStages sampleSha256 defaultConfig "s" ⟨[], [], 1800⟩ sampleCalls).session "s" =
        some st ∧
      FromScratch sampleSha256 defaultConfig sampleCalls st ∧
      0 ≤ st.riskScore ∧ st.riskScore ≤ 1 := by
  refine session_state_from_scratch sampleSha256 defaultConfig "s" ⟨[], [], 1800⟩ _ _
    defaultConfig_nonNeg rfl ?_
  decide +kernel

end DlpServer.Context
