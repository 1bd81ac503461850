import DlpServer.Detect.Merge
import DlpServer.Detect.RegexRules
import DlpServer.Lib.Splice

/-!
# The detection layers (`app/detect/`)

`detect` runs the layers that are switched on and merges what they find. The
Aho-Corasick automaton and the NER model come from libraries; they are parameters
with what is relied on as fields.
-/

namespace DlpServer.Detect

open Regex Splice

/-! ## The dictionary (`dictionary.py`) -/

/-- `MIN_TERM_LENGTH`. -/
def minTermLength : ℕ := 2

/-- A line of the dictionary that `load_dictionary` registers. -/
structure Entry where
  term : Text
  type : String
  confidence : ℚ
  long : minTermLength ≤ term.length

/-- A built automaton: `iter` gives for the terms in a text the position of the
last character and the payload. -/
structure Automaton where
  entries : List Entry
  iter : Text → List (ℕ × Entry)
  iter_sound : ∀ text hit, hit ∈ iter text →
    ∃ b t, text = b ++ (hit.2.term ++ t) ∧ hit.1 + 1 = b.length + hit.2.term.length

/-- `dictionary.detect`. -/
def Automaton.detect (ac : Automaton) (text : Text) : List Span :=
  if ac.entries = [] then []
  else (ac.iter text).map fun (endIndex, entry) =>
    let start := endIndex + 1 - entry.term.length
    ⟨entry.type, slice text start (endIndex + 1), start, endIndex + 1, entry.confidence, "dict"⟩

/-! ## Named entities (`ner.py`) -/

/-- `LABEL_TO_SPAN_TYPE`. -/
def labelToSpanType : Dict String String :=
  [("사람 이름", "NAME"), ("주소", "ADDRESS"), ("회사명", "ORG"), ("내부 프로젝트명", "PROJECT"),
   ("연체 정보", "CREDIT_INFO"), ("대출 잔액", "CREDIT_INFO"), ("신용등급", "CREDIT_INFO")]

/-- An entity of the model. -/
structure Entity where
  label : String
  text : Text
  start : ℕ
  stop : ℕ
  score : ℚ

/-- The model with its labels and its threshold. `predict` is `none` when it
raises, or when the model cannot be loaded. -/
structure Gliner where
  predict : Text → Option (List Entity)
  predict_sound : ∀ text ents, predict text = some ents → ∀ e ∈ ents,
    e.start < e.stop ∧ e.stop ≤ text.length ∧ e.text = slice text e.start e.stop

/-- The alternatives of `_TRAILING_PARTICLES`. -/
def particles : List Text :=
  [['님', '의'], ['님'], ['씨', '가'], ['씨', '는'], ['씨'], ['이', '고'], ['이', '며'], ['으', '로'],
   ['에', '서'], ['에', '게'], ['은'], ['는'], ['이'], ['가'], ['을'], ['를'], ['의'], ['에'], ['로']]

/-- `_TRAILING_PARTICLES`; `$` also matches before a line feed at the end. -/
def trailingParticles : Pattern Char :=
  .seq (.group 1 (.oneOf particles)) (.look fun _ t => t.isEmpty || t == ['\n'])

/-- `_trim_trailing_particle`. -/
def trimTrailingParticle (text : Text) : Text :=
  let trimmed := (trailingParticles.sub (fun _ s => ([], s)) text ()).1
  if trimmed = [] then text else trimmed

/-- One round of the loop of `NEREngine.extract`. -/
def entitySpan (e : Entity) : Option Span := do
  let spanType ← labelToSpanType.get? e.label
  let trimmed := trimTrailingParticle e.text
  let (value, stop) :=
    if trimmed = e.text then (e.text, e.stop) else (trimmed, e.start + trimmed.length)
  if value = [] then none
  else some ⟨spanType, value, e.start, stop, e.score, "ner"⟩

/-- `NEREngine.extract`. -/
def Gliner.extract (u : Unicode) (model : Gliner) (text : Text) : List Span :=
  if text = [] ∨ u.strip text = [] then []
  else ((model.predict text).getD []).filterMap entitySpan

/-! ## The orchestrator (`__init__.py`) -/

/-- `DetectConfig`. -/
structure DetectConfig where
  regexMinConfidence : ℚ
  dictMinConfidence : ℚ
  nerThreshold : ℚ
  mergeOverlapBonus : ℚ
  enabledLayers : Text

/-- What the layers work with. The dictionary is `none` when its file cannot be
read, the configuration when it cannot be loaded. -/
structure Layers where
  automaton : Option Automaton
  model : Gliner
  config : Option DetectConfig

namespace Layers

variable (u : Unicode) (L : Layers)

/-- `_LAYER_FUNCS`; `none` is an exception. -/
def layerFuncs : List (String × (Text → Option (List Span))) :=
  [("regex", fun text => some (RegexRules.detect u text)),
   ("dict", fun text => L.automaton.map fun ac => ac.detect text),
   ("ner", fun text => some (L.model.extract u text))]

/-- `_active_layers`. -/
def activeLayers : List (Text → Option (List Span)) :=
  let raw := (L.config.map DetectConfig.enabledLayers).getD []
  if raw = [] then (L.layerFuncs u).map Prod.snd
  else
    let names := ((raw.splitOn ',').map u.strip).filter (· ≠ [])
    ((L.layerFuncs u).filter fun layer => layer.1.toList ∈ names).map Prod.snd

/-- `_merge_kwargs`. -/
def mergeKwargs : Option (Dict String ℚ) × Option ℚ :=
  match L.config with
  | some d =>
      (some [("regex", d.regexMinConfidence), ("dict", d.dictMinConfidence),
        ("ner", d.nerThreshold)], some d.mergeOverlapBonus)
  | none => (none, none)

/-- What the active layers find; a layer that raises finds nothing. -/
def rawSpans (text : Text) : List Span :=
  (L.activeLayers u).flatMap fun layer => (layer text).getD []

/-- `detect`. -/
def detect (text : Text) : List Span :=
  if text = [] then []
  else mergeSpans (L.rawSpans u text) L.mergeKwargs.1 L.mergeKwargs.2

/-- `analyze_turn`: the last turn is the one that is analysed. -/
def analyzeTurn (ctx : AnalysisContext) : AnalysisContext :=
  match ctx.turns.getLast? with
  | none => { ctx with newTurnSpans := [] }
  | some latestTurn => { ctx with newTurnSpans := L.detect u latestTurn.text }

/-- `pii_detect_stage`. -/
def piiDetectStage (ctx : AnalysisContext) : AnalysisContext := L.analyzeTurn u ctx

end Layers

/-! ## Where spans lie -/

/-- The span is not empty and lies in the text. -/
def Within (text : Text) (s : Span) : Prop := s.start < s.stop ∧ s.stop ≤ text.length

theorem Automaton.detect_within {ac : Automaton} {text : Text} {s : Span}
    (h : s ∈ ac.detect text) : Within text s := by
  unfold Automaton.detect at h
  split at h
  · cases h
  · obtain ⟨⟨endIndex, entry⟩, hhit, rfl⟩ := List.mem_map.mp h
    obtain ⟨b, t, rfl, hend⟩ := ac.iter_sound text _ hhit
    have hlong : 2 ≤ entry.term.length := entry.long
    show endIndex + 1 - entry.term.length < endIndex + 1 ∧ endIndex + 1 ≤ _
    simp only [List.length_append] at hend ⊢
    omega

theorem trimTrailingParticle_length (text : Text) :
    (trimTrailingParticle text).length ≤ text.length := by
  unfold trimTrailingParticle
  dsimp only
  split
  · exact le_rfl
  · exact (Pattern.sub_sublist (fun w _ => List.nil_sublist w) text ()).length_le

theorem entitySpan_within {text : Text} {e : Entity} {s : Span}
    (he : e.start < e.stop ∧ e.stop ≤ text.length ∧ e.text = slice text e.start e.stop)
    (h : entitySpan e = some s) : Within text s := by
  obtain ⟨hlt, hle, htext⟩ := he
  have hlen : e.text.length = e.stop - e.start := by
    rw [htext, slice, List.length_drop, List.length_take, min_eq_left hle]
  obtain ⟨spanType, -, h⟩ := Option.bind_eq_some_iff.mp h
  dsimp only at h
  by_cases hsame : trimTrailingParticle e.text = e.text
  · rw [if_pos hsame] at h
    dsimp only at h
    split at h
    · cases h
    · cases h
      exact ⟨hlt, hle⟩
  · rw [if_neg hsame] at h
    dsimp only at h
    split at h
    · cases h
    · rename_i hne
      cases h
      have hpos := List.length_pos_iff.mpr hne
      have hshort := trimTrailingParticle_length e.text
      show e.start < e.start + _ ∧ e.start + _ ≤ text.length
      omega

theorem Gliner.extract_within {u : Unicode} {model : Gliner} {text : Text} {s : Span}
    (h : s ∈ model.extract u text) : Within text s := by
  unfold Gliner.extract at h
  split at h
  · cases h
  · obtain ⟨e, he, hspan⟩ := List.mem_filterMap.mp h
    cases hpredict : model.predict text with
    | none =>
        rw [hpredict] at he
        cases he
    | some ents =>
        rw [hpredict] at he
        exact entitySpan_within (model.predict_sound text ents hpredict e he) hspan

namespace Layers

variable {u : Unicode} {L : Layers} {text : Text}

theorem rawSpans_within {s : Span} (h : s ∈ L.rawSpans u text) : Within text s := by
  obtain ⟨layer, hlayer, hs⟩ := List.mem_flatMap.mp h
  have hmem : layer ∈ (L.layerFuncs u).map Prod.snd := by
    unfold activeLayers at hlayer
    dsimp only at hlayer
    split at hlayer
    · exact hlayer
    · exact (List.filter_sublist.map _).subset hlayer
  simp only [layerFuncs, List.map_cons, List.map_nil, List.mem_cons, List.not_mem_nil,
    or_false] at hmem
  rcases hmem with rfl | rfl | rfl
  · exact (RegexRules.detect_found hs).within
  · cases hac : L.automaton with
    | none =>
        rw [hac] at hs
        cases hs
    | some ac =>
        rw [hac] at hs
        exact Automaton.detect_within hs
  · exact Gliner.extract_within hs

theorem detect_within {s : Span} (h : s ∈ L.detect u text) : Within text s := by
  unfold detect at h
  split at h
  · cases h
  · obtain ⟨r, hr, hstart, hstop⟩ := mergeSpans_place h
    have hwithin := rawSpans_within hr
    exact ⟨hstart ▸ hstop ▸ hwithin.1, hstop ▸ hwithin.2⟩

/-- **Detected spans do not overlap.** -/
theorem detect_follow : (L.detect u text).Pairwise fun a b => a.stop ≤ b.start := by
  unfold detect
  split
  · exact List.Pairwise.nil
  · exact mergeSpans_follow fun s hs => (rawSpans_within hs).1

end Layers

end DlpServer.Detect
