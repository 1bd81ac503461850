import DlpServer.Lib.Dict
import DlpServer.Lib.Sweep
import DlpServer.Models

/-!
# Merging the detection layers (`app/detect/merge.py`)

Spans below the threshold of their source are dropped, the others clustered by
transitive overlap, and each cluster gives one span: that of the highest source
priority, then confidence, then length.
-/

namespace DlpServer.Detect

open Sweep

/-! ## The constants -/

/-- `SOURCE_PRIORITY.get(source, 0)`. -/
def sourcePriority (source : String) : ℕ :=
  match source with
  | "regex" => 3
  | "dict" => 2
  | "ner" => 1
  | _ => 0

def overlapBonus : ℚ := 2 / 100

def maxConfidence : ℚ := 999 / 1000

/-- `DEFAULT_MIN_CONFIDENCE`. -/
def defaultMinConfidence : Dict String ℚ := [("regex", 1 / 2), ("dict", 0), ("ner", 55 / 100)]

/-! ## The functions -/

/-- `_passes_min_confidence`. -/
def passesMinConfidence (thresholds : Dict String ℚ) (span : Span) : Bool :=
  decide ((thresholds.get? span.source).getD 0 ≤ span.confidence)

/-- The order of `sorted(spans, key=lambda s: (s.start, s.end))`. -/
def startsFirst (a b : Span) : Prop := a.start < b.start ∨ a.start = b.start ∧ a.stop ≤ b.stop

instance (a b : Span) : Decidable (startsFirst a b) := inferInstanceAs (Decidable (_ ∨ _))

/-- `_cluster_overlapping`. -/
def clusterOverlapping (spans : List Span) : List (List Span) :=
  clusters Span.start Span.stop (spans.insertionSort startsFirst)

/-- What makes a span canonical: source priority, confidence, length. -/
def CanonicalKey : Type := ℕ ×ₗ ℚ ×ₗ ℤ

instance : LinearOrder CanonicalKey :=
  @Prod.Lex.instLinearOrder ℕ (ℚ ×ₗ ℤ) _ (@Prod.Lex.instLinearOrder ℚ ℤ _ Int.instLinearOrder)

def canonicalKey (s : Span) : CanonicalKey :=
  (toLex (sourcePriority s.source, toLex (s.confidence, (s.stop : ℤ) - s.start)) : ℕ ×ₗ ℚ ×ₗ ℤ)

/-- The sources of a cluster that agree with the canonical span, best first. -/
def distinctSources (cluster : List Span) (canonical : Span) : List String :=
  ((cluster.filter fun s => s.type = canonical.type).map Span.source).dedup.insertionSort
    fun a b => sourcePriority b ≤ sourcePriority a

/-- `_resolve_cluster`; `none` only for an empty cluster. -/
def resolveCluster (bonus : ℚ) (cluster : List Span) : Option Span :=
  match cluster with
  | [s] => some s
  | _ => (cluster.argmax canonicalKey).map fun canonical =>
      let sources := distinctSources cluster canonical
      if 1 < sources.length then
        { canonical with
          confidence := min (canonical.confidence + bonus * (sources.length - 1)) maxConfidence
          source := "+".intercalate sources }
      else canonical

/-- `min_confidence or DEFAULT_MIN_CONFIDENCE`. -/
def thresholdsOr : Option (Dict String ℚ) → Dict String ℚ
  | some (entry :: rest) => entry :: rest
  | _ => defaultMinConfidence

/-- `merge_spans`. -/
def mergeSpans (spans : List Span) (minConfidence : Option (Dict String ℚ))
    (bonus : Option ℚ) : List Span :=
  let filtered := spans.filter (passesMinConfidence (thresholdsOr minConfidence))
  let merged := (clusterOverlapping filtered).filterMap
    (resolveCluster (bonus.getD overlapBonus))
  merged.insertionSort fun a b => a.start ≤ b.start

/-! ## Clusters -/

theorem sorted_ordered {spans : List Span} (h : ∀ s ∈ spans, s.start < s.stop) :
    Sorted Span.start Span.stop (spans.insertionSort startsFirst) where
  proper s hs := h s ((List.mem_insertionSort _).mp hs)
  order := by
    have : Std.Total startsFirst := ⟨fun a b => by unfold startsFirst; omega⟩
    have : IsTrans Span startsFirst := ⟨fun a b c => by unfold startsFirst; omega⟩
    refine (List.pairwise_insertionSort startsFirst spans).imp fun hab => ?_
    rcases hab with hlt | ⟨heq, -⟩
    · exact hlt.le
    · exact heq.le

/-- A span is joined to another by a chain of overlaps exactly if one cluster
holds both. -/
theorem joined_iff_cluster {spans : List Span} (h : ∀ s ∈ spans, s.start < s.stop) {a b : Span}
    (ha : a ∈ spans) :
    Joined Span.start Span.stop spans a b ↔
      ∃ k ∈ clusterOverlapping spans, a ∈ k ∧ b ∈ k := by
  have hmem : ∀ s, s ∈ spans ↔ s ∈ spans.insertionSort startsFirst :=
    fun s => (List.mem_insertionSort _).symm
  refine Iff.trans ?_ (Sweep.joined_iff (sorted_ordered h) ((hmem a).mp ha))
  exact ⟨fun hab => hab.mono fun s => (hmem s).mp, fun hab => hab.mono fun s => (hmem s).mpr⟩

theorem mem_clusterOverlapping {spans : List Span} {a : Span} :
    a ∈ spans ↔ ∃ k ∈ clusterOverlapping spans, a ∈ k := by
  rw [clusterOverlapping, ← Sweep.mem_clusters, List.mem_insertionSort]

/-- A span is in one cluster. -/
theorem cluster_unique {spans : List Span} (h : ∀ s ∈ spans, s.start < s.stop) {a : Span}
    {k k' : List Span} (hk : k ∈ clusterOverlapping spans) (hk' : k' ∈ clusterOverlapping spans)
    (ha : a ∈ k) (ha' : a ∈ k') : k = k' := by
  have hproper : a.start < a.stop := h a (mem_clusterOverlapping.mpr ⟨k, hk, ha⟩)
  exact overlap_same (sorted_ordered h) hk hk' ha ha' ⟨hproper, hproper⟩

/-- The clusters are sorted inside. -/
theorem cluster_order {spans : List Span} (h : ∀ s ∈ spans, s.start < s.stop) {k : List Span}
    (hk : k ∈ clusterOverlapping spans) : k.Pairwise fun a b => a.start ≤ b.start := by
  have hall := (sorted_ordered h).order
  rw [← clusters_flatten Span.start Span.stop
    (spans.insertionSort startsFirst), List.pairwise_flatten] at hall
  exact hall.1 k hk

theorem canonicalKey_le {a b : Span} (h : canonicalKey a ≤ canonicalKey b) :
    sourcePriority a.source ≤ sourcePriority b.source := by
  rcases Prod.Lex.le_iff.mp h with hlt | ⟨heq, -⟩
  · exact hlt.le
  · exact heq.le

theorem canonicalKey_eq {a b : Span} (h : canonicalKey a = canonicalKey b) :
    (a.stop : ℤ) - a.start = b.stop - b.start := by
  have hrest := congrArg Prod.snd (toLex.injective h)
  exact congrArg Prod.snd (toLex.injective hrest)

/-- Of the spans with the greatest key the canonical one starts first. -/
theorem canonical_first {k : List Span} (hk : k.Pairwise fun a b => a.start ≤ b.start)
    {c s : Span} (hc : c ∈ k.argmax canonicalKey) (hs : s ∈ k)
    (hkey : canonicalKey c ≤ canonicalKey s) : c.start ≤ s.start := by
  have hidx : k.idxOf c ≤ k.idxOf s := List.index_of_argmax hc hs hkey
  have hcl := List.idxOf_lt_length_of_mem (List.argmax_mem hc)
  have hsl := List.idxOf_lt_length_of_mem hs
  rcases hidx.lt_or_eq with hlt | heq
  · have hle := List.pairwise_iff_getElem.mp hk _ _ hcl hsl hlt
    simpa only [List.getElem_idxOf] using hle
  · have hsame : c = s := (List.idxOf_inj (List.argmax_mem hc)).mp heq
    rw [hsame]

/-- **What a cluster gives**: its canonical span, with another confidence and
source at most. -/
theorem resolveCluster_spec {bonus : ℚ} {k : List Span} {m : Span}
    (h : resolveCluster bonus k = some m) :
    ∃ c ∈ k.argmax canonicalKey, m.type = c.type ∧ m.value = c.value ∧ m.start = c.start ∧
      m.stop = c.stop ∧ ((∀ s ∈ k, s.source = c.source) → m = c) := by
  unfold resolveCluster at h
  split at h
  · obtain rfl := Option.some.inj h
    exact ⟨_, rfl, rfl, rfl, rfl, rfl, fun _ => rfl⟩
  · obtain ⟨c, hc, rfl⟩ := Option.map_eq_some_iff.mp h
    refine ⟨c, hc, ?_⟩
    dsimp only
    split
    · rename_i hlen
      refine ⟨rfl, rfl, rfl, rfl, fun hall => absurd hlen (not_lt.mpr ?_)⟩
      -- One source leaves nothing to add.
      have hsub : ((k.filter fun s => s.type = c.type).map Span.source).dedup ⊆ [c.source] := by
        intro source hsource
        obtain ⟨s, hs, rfl⟩ := List.mem_map.mp (List.mem_dedup.mp hsource)
        exact List.mem_singleton.mpr (hall s (List.mem_of_mem_filter hs))
      rw [distinctSources, List.length_insertionSort]
      exact ((List.nodup_dedup _).subperm hsub).length_le
    · exact ⟨rfl, rfl, rfl, rfl, fun _ => rfl⟩

theorem resolveCluster_isSome (bonus : ℚ) {k : List Span} (h : k ≠ []) :
    ∃ m, resolveCluster bonus k = some m := by
  unfold resolveCluster
  split
  · exact ⟨_, rfl⟩
  · have hne : k.argmax canonicalKey ≠ none := mt List.argmax_eq_none.mp h
    obtain ⟨c, hc⟩ := Option.ne_none_iff_exists'.mp hne
    exact ⟨_, by rw [hc, Option.map_some]⟩

theorem mem_mergeSpans {spans : List Span} {minConfidence : Option (Dict String ℚ)}
    {bonus : Option ℚ} {m : Span} :
    m ∈ mergeSpans spans minConfidence bonus ↔
      ∃ k ∈ clusterOverlapping
          (spans.filter (passesMinConfidence (thresholdsOr minConfidence))),
        resolveCluster (bonus.getD overlapBonus) k = some m := by
  rw [mergeSpans, List.mem_insertionSort, List.mem_filterMap]

/-- Every span returned stands where one of the given spans stood. -/
theorem mergeSpans_place {spans : List Span} {minConfidence : Option (Dict String ℚ)}
    {bonus : Option ℚ} {m : Span} (h : m ∈ mergeSpans spans minConfidence bonus) :
    ∃ s ∈ spans, m.start = s.start ∧ m.stop = s.stop := by
  obtain ⟨k, hk, hresolve⟩ := mem_mergeSpans.mp h
  obtain ⟨c, hc, -, -, hstart, hstop, -⟩ := resolveCluster_spec hresolve
  have hmem := mem_clusterOverlapping.mpr ⟨k, hk, List.argmax_mem hc⟩
  exact ⟨c, List.mem_of_mem_filter hmem, hstart, hstop⟩

/-- **The returned spans follow one another** without overlap. -/
theorem mergeSpans_follow {spans : List Span} {minConfidence : Option (Dict String ℚ)}
    {bonus : Option ℚ} (h : ∀ s ∈ spans, s.start < s.stop) :
    (mergeSpans spans minConfidence bonus).Pairwise fun a b => a.stop ≤ b.start := by
  let filtered := spans.filter (passesMinConfidence (thresholdsOr minConfidence))
  have hproper : ∀ s ∈ filtered, s.start < s.stop := fun s hs => h s (List.mem_of_mem_filter hs)
  have hclusters : (clusterOverlapping filtered).Pairwise (LeftOf Span.start Span.stop) :=
    clusters_leftOf (sorted_ordered hproper)
  have hmerged : ((clusterOverlapping filtered).filterMap
      (resolveCluster (bonus.getD overlapBonus))).Pairwise fun a b => a.stop ≤ b.start := by
    refine List.pairwise_filterMap.mpr (hclusters.imp fun {k k'} hkk' m hm m' hm' => ?_)
    obtain ⟨c, hc, -, -, -, hstop, -⟩ := resolveCluster_spec hm
    obtain ⟨c', hc', -, -, hstart', -⟩ := resolveCluster_spec hm'
    rw [hstop, hstart']
    exact hkk' c (List.argmax_mem hc) c' (List.argmax_mem hc')
  have hstarts : ((clusterOverlapping filtered).filterMap
      (resolveCluster (bonus.getD overlapBonus))).Pairwise fun a b => a.start ≤ b.start := by
    refine hmerged.imp_of_mem fun {a b} ha _ hab => ?_
    obtain ⟨s, hs, hstart, hstop⟩ :=
      mergeSpans_place (mem_mergeSpans.mpr (List.mem_filterMap.mp ha))
    have := h s hs
    omega
  rw [mergeSpans, List.Pairwise.insertionSort_eq hstarts]
  exact hmerged

end DlpServer.Detect
