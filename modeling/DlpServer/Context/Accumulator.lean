import DlpServer.Context.Store

/-!
# Accumulation and risk (`app/context/accumulator.py`)

`accumulate` registers the spans of a turn in the session state and computes
the risk anew from the entities mentioned in the last `window_size_turns`
turns. SHA-256 is a parameter; weights, caps and instants are rationals.
-/

namespace DlpServer.Context

structure AccumulatorConfig where
  windowSizeTurns : ℤ
  comboCap : ℚ
  repeatWeight : ℚ
  repeatCap : ℚ
  comboWeights : List (Finset String × ℚ)
  velocityThresholds : List (ℕ × ℚ × ℚ)

/-- `DEFAULT_CONFIG`. -/
def defaultConfig : AccumulatorConfig where
  windowSizeTurns := 5
  comboCap := 8 / 10
  repeatWeight := 5 / 100
  repeatCap := 15 / 100
  comboWeights :=
    [({"NAME", "RRN"}, 25 / 100), ({"NAME", "RRN", "ACCOUNT"}, 35 / 100),
     ({"NAME", "PHONE", "ACCOUNT"}, 30 / 100), ({"RRN", "ACCOUNT"}, 20 / 100),
     ({"RRN", "ACCOUNT", "PHONE"}, 35 / 100)]
  velocityThresholds := [(3, 60, 5 / 100), (5, 120, 10 / 100)]

section Accumulate

variable (sha256Hex : Text → Text) (cfg : AccumulatorConfig)

/-- `hash_value`: the session state never holds the value itself. -/
def hashValue (value : Text) : Text := (sha256Hex value).take 16

def spanKey (span : Span) : EntityKey := (span.type, hashValue sha256Hex span.value)

/-- One round of the loop of `_register_spans`. -/
def registerSpan (turnIndex : ℕ) (entities : Dict EntityKey EntityRecord) (span : Span) :
    Dict EntityKey EntityRecord :=
  let key := spanKey sha256Hex span
  match entities.get? key with
  | none =>
      entities.set key
        { type := span.type, valueHash := key.2, firstTurn := turnIndex, lastTurn := turnIndex,
          count := 1 }
  | some existing =>
      entities.set key { existing with lastTurn := turnIndex, count := existing.count + 1 }

def registerSpans (turnIndex : ℕ) (entities : Dict EntityKey EntityRecord)
    (spans : List Span) : Dict EntityKey EntityRecord :=
  spans.foldl (registerSpan sha256Hex turnIndex) entities

/-- `_active_nodes`. -/
def activeNodes (entities : Dict EntityKey EntityRecord) (turnIndex : ℕ) :
    List EntityRecord :=
  let windowStart : ℤ := turnIndex - cfg.windowSizeTurns + 1
  entities.values.filter fun rec => windowStart ≤ rec.lastTurn

/-- `_build_edges`: an edge for all positions `i < j`. -/
def buildEdges (turnIndex : ℕ) : List EntityRecord → List GraphEdge
  | [] => []
  | a :: nodes => nodes.map (fun b => ⟨a.key, b.key, turnIndex⟩) ++ buildEdges turnIndex nodes

/-- `min(total, cap)`, with a reason when the cap bites. -/
def capScore (total cap : ℚ) (applied : ℚ → ℚ → RiskReason) (reasons : List RiskReason) :
    ℚ × List RiskReason :=
  let capped := min total cap
  (capped, if capped < total then reasons ++ [applied total capped] else reasons)

/-- One round of the loop of `_score_combos`. -/
def comboRound (activeTypes : Finset String) (acc : ℚ × List RiskReason)
    (combo : Finset String × ℚ) : ℚ × List RiskReason :=
  if combo.1 ⊆ activeTypes then (acc.1 + combo.2, acc.2 ++ [.combo combo.1 combo.2])
  else acc

def scoreCombos (nodes : List EntityRecord) : ℚ × List RiskReason :=
  let activeTypes := (nodes.map EntityRecord.type).toFinset
  let (total, reasons) := cfg.comboWeights.foldl (comboRound activeTypes) (0, [])
  capScore total cfg.comboCap .comboCapApplied reasons

/-- One round of the loop of `_score_repeats`. -/
def repeatRound (acc : ℚ × List RiskReason) (rec : EntityRecord) : ℚ × List RiskReason :=
  let extra := rec.count - 2
  if 0 < extra then
    let delta := extra * cfg.repeatWeight
    (acc.1 + delta, acc.2 ++ [.repeated rec.type rec.valueHash rec.count delta])
  else acc

def scoreRepeats (nodes : List EntityRecord) : ℚ × List RiskReason :=
  let (total, reasons) := nodes.foldl (repeatRound cfg) (0, [])
  capScore total cfg.repeatCap .repeatCapApplied reasons

/-- `timestamps[-min_turns]`; `timestamps[-0]` is the first. -/
def fromEnd (timestamps : List ℚ) (minTurns : ℕ) : Option ℚ :=
  if minTurns = 0 then timestamps.head? else timestamps[timestamps.length - minTurns]?

/-- One round of the loop of `_score_velocity`. -/
def velocityRound (timestamps : List ℚ) (turnIndex : ℕ) (now : ℚ)
    (acc : ℚ × List RiskReason) (threshold : ℕ × ℚ × ℚ) : ℚ × List RiskReason :=
  let (minTurns, maxElapsed, weight) := threshold
  if turnIndex < minTurns ∨ timestamps.length < minTurns then acc
  else
    match fromEnd timestamps minTurns with
    | none => acc   -- `timestamps` holds `now`, so this is not reached
    | some t =>
        let elapsed := now - t
        if elapsed ≤ maxElapsed then
          (acc.1 + weight, acc.2 ++ [.velocity minTurns elapsed weight])
        else acc

def scoreVelocity (timestamps : List ℚ) (turnIndex : ℕ) (now : ℚ) : ℚ × List RiskReason :=
  cfg.velocityThresholds.foldl (velocityRound timestamps turnIndex now) (0, [])

/-- `accumulate`, on the state object it is given. -/
def accumulate (st : SessionState) (newTurnSpans : List Span) (turnIndex : ℕ) (now : ℚ) :
    SessionState :=
  let timestamps := st.turnTimestamps ++ [now]
  let entities := registerSpans sha256Hex turnIndex st.entities newTurnSpans
  let nodes := activeNodes cfg entities turnIndex
  let (comboDelta, comboReasons) := scoreCombos cfg nodes
  let (repeatDelta, repeatReasons) := scoreRepeats cfg nodes
  let (velocityDelta, velocityReasons) := scoreVelocity cfg timestamps turnIndex now
  { st with
    turnCount := max st.turnCount turnIndex
    turnTimestamps := timestamps
    entities := entities
    graphEdges := buildEdges turnIndex nodes
    riskScore := min 1 (comboDelta + repeatDelta + velocityDelta)
    riskReasons := comboReasons ++ repeatReasons ++ velocityReasons }

end Accumulate

end DlpServer.Context
