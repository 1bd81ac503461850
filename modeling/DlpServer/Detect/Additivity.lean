import DlpServer.Detect.Merge

/-!
# What a lower layer does to the regex layer

The dictionary and NER layers have lower priority than the regex layer, but a
span of theirs can bridge two clusters of regex spans, which then give one span
instead of two. Regex spans that are not bridged are kept; of those bridged
together the best is.
-/

namespace DlpServer.Detect

open Sweep

/-- The spans that pass the default thresholds. -/
def accepted (spans : List Span) : List Span :=
  spans.filter (passesMinConfidence defaultMinConfidence)

/-- The position is in the span. -/
def Covers (s : Span) (i : ℕ) : Prop := s.start ≤ i ∧ i < s.stop

instance (s : Span) (i : ℕ) : Decidable (Covers s i) := inferInstanceAs (Decidable (_ ∧ _))

/-- A chain of overlapping accepted spans leads from `a` to `b`. -/
def Bridged (spans : List Span) (a b : Span) : Prop :=
  Joined Span.start Span.stop (accepted spans) a b

theorem accepted_append (R L : List Span) : accepted (R ++ L) = accepted R ++ accepted L :=
  List.filter_append ..

theorem accepted_proper {spans : List Span} (h : ∀ s ∈ spans, s.start < s.stop) :
    ∀ s ∈ accepted spans, s.start < s.stop :=
  fun s hs => h s (List.mem_of_mem_filter hs)

section Layers

variable {R L : List Span}
  (hR : ∀ s ∈ R, s.source = "regex" ∧ s.start < s.stop)
  (hL : ∀ s ∈ L, (s.source = "dict" ∨ s.source = "ner") ∧ s.start < s.stop)
include hR

/-- The regex layer alone gives the canonical span of each cluster as it is. -/
theorem mem_merge_regex {m : Span} :
    m ∈ mergeSpans R none none ↔
      ∃ k ∈ clusterOverlapping (accepted R), m ∈ k.argmax canonicalKey := by
  have hsource : ∀ k ∈ clusterOverlapping (accepted R), ∀ s ∈ k, s.source = "regex" := by
    intro k hk s hs
    exact (hR s (List.mem_of_mem_filter (mem_clusterOverlapping.mpr ⟨k, hk, hs⟩))).1
  rw [mem_mergeSpans]
  refine exists_congr fun k => and_congr_right fun hk => ?_
  have hkeep : ∀ {m'}, resolveCluster (Option.getD none overlapBonus) k = some m' →
      m' ∈ k.argmax canonicalKey := by
    intro m' hm'
    obtain ⟨c, hc, -, -, -, -, hsame⟩ := resolveCluster_spec hm'
    have hsrc := hsource k hk
    rw [hsame fun s hs => (hsrc s hs).trans (hsrc c (List.argmax_mem hc)).symm]
    exact hc
  constructor
  · exact hkeep
  · intro hm
    have hne : k ≠ [] := List.ne_nil_of_mem (List.argmax_mem hm)
    obtain ⟨m', hm'⟩ := resolveCluster_isSome (Option.getD none overlapBonus) hne
    rw [hm', Option.some.inj ((hkeep hm').symm.trans hm)]

include hL

theorem layers_proper : ∀ s ∈ accepted (R ++ L), s.start < s.stop := by
  refine accepted_proper fun s hs => ?_
  rcases List.mem_append.mp hs with hs | hs
  · exact (hR s hs).2
  · exact (hL s hs).2

omit hR in
/-- A span of the highest priority is a regex span. -/
theorem regex_of_priority {s : Span} (hs : s ∈ accepted (R ++ L))
    (hprio : 3 ≤ sourcePriority s.source) : s ∈ accepted R := by
  rw [accepted_append] at hs
  rcases List.mem_append.mp hs with hs | hs
  · exact hs
  · rcases (hL s (List.mem_of_mem_filter hs)).1 with heq | heq <;> rw [heq] at hprio <;>
      exact absurd hprio (by decide)

/-- Of the regex spans bridged together the best stays where it is. -/
theorem best_kept {m : Span} (hm : m ∈ mergeSpans R none none) :
    ∃ m₁ ∈ mergeSpans R none none, Bridged (R ++ L) m m₁ ∧
      (∀ m₂ ∈ mergeSpans R none none, Bridged (R ++ L) m m₂ →
        canonicalKey m₂ ≤ canonicalKey m₁) ∧
      ∃ m' ∈ mergeSpans (R ++ L) none none, m'.start = m₁.start ∧ m'.stop = m₁.stop := by
  have hproperR := accepted_proper fun s hs => (hR s hs).2
  have hproper := layers_proper hR hL
  have hsub : ∀ s ∈ accepted R, s ∈ accepted (R ++ L) := by
    intro s hs
    rw [accepted_append]
    exact List.mem_append_left _ hs
  have hregex : ∀ s ∈ mergeSpans R none none, s ∈ accepted R := by
    intro s hs
    obtain ⟨k, hk, hs⟩ := (mem_merge_regex hR).mp hs
    exact mem_clusterOverlapping.mpr ⟨k, hk, List.argmax_mem hs⟩
  -- The cluster of `m` among all spans, and its canonical span `c`.
  obtain ⟨k, hk, hmk⟩ := mem_clusterOverlapping.mp (hsub m (hregex m hm))
  obtain ⟨m', hm'⟩ := resolveCluster_isSome (Option.getD none overlapBonus)
    (List.ne_nil_of_mem hmk)
  obtain ⟨c, hc, -, -, hstart, hstop, -⟩ := resolveCluster_spec hm'
  have hck := List.argmax_mem hc
  have hbest : ∀ s ∈ k, canonicalKey s ≤ canonicalKey c := fun s hs =>
    List.le_of_mem_argmax hs hc
  have hcregex : c ∈ accepted R := by
    have hsource := (hR m (List.mem_of_mem_filter (hregex m hm))).1
    have hprio := canonicalKey_le (hbest m hmk)
    rw [hsource] at hprio
    exact regex_of_priority hL (mem_clusterOverlapping.mpr ⟨k, hk, hck⟩) hprio
  -- The cluster of `c` among the regex spans, and its canonical span `m₁`.
  obtain ⟨k₁, hk₁, hck₁⟩ := mem_clusterOverlapping.mp hcregex
  have hne : k₁.argmax canonicalKey ≠ none :=
    mt List.argmax_eq_none.mp (List.ne_nil_of_mem hck₁)
  obtain ⟨m₁, hm₁⟩ := Option.ne_none_iff_exists'.mp hne
  have hm₁k₁ := List.argmax_mem hm₁
  have hjoin : Bridged (R ++ L) m c := (joined_iff_cluster hproper (hsub m (hregex m hm))).mpr
    ⟨k, hk, hmk, hck⟩
  have hjoin₁ : Bridged (R ++ L) c m₁ :=
    ((joined_iff_cluster hproperR hcregex).mpr ⟨k₁, hk₁, hck₁, hm₁k₁⟩).mono hsub
  have hcluster : ∀ s, Bridged (R ++ L) m s → s ∈ k := by
    intro s hs
    obtain ⟨k', hk', hmk', hsk'⟩ :=
      (joined_iff_cluster hproper (hsub m (hregex m hm))).mp hs
    exact cluster_unique hproper hk hk' hmk hmk' ▸ hsk'
  have hm₁k : m₁ ∈ k := hcluster m₁ (hjoin.trans hjoin₁)
  have hle : canonicalKey c ≤ canonicalKey m₁ := List.le_of_mem_argmax hck₁ hm₁
  have heq : canonicalKey m₁ = canonicalKey c := le_antisymm (hbest m₁ hm₁k) hle
  -- Equal keys have equal lengths, and each of the two starts first in a cluster of both.
  have hfirst : m₁.start = c.start := le_antisymm
    (canonical_first (cluster_order hproperR hk₁) hm₁ hck₁ heq.le)
    (canonical_first (cluster_order hproper hk) hc hm₁k heq.ge)
  have hlength : m₁.stop = c.stop := by
    have hlen := canonicalKey_eq heq
    omega
  refine ⟨m₁, (mem_merge_regex hR).mpr ⟨k₁, hk₁, hm₁⟩, hjoin.trans hjoin₁, ?_, m', ?_, ?_⟩
  · intro m₂ hm₂ hjoin₂
    exact (hbest m₂ (hcluster m₂ hjoin₂)).trans hle
  · exact mem_mergeSpans.mpr ⟨k, hk, hm'⟩
  · exact ⟨hstart.trans hfirst.symm, hstop.trans hlength.symm⟩

end Layers

/-- **Unbridged regex spans are never lost.** Every position that a span of the
regex layer protects stays protected unless a lower layer bridges that span to
another regex span; of the spans bridged together the best stays protected. -/
theorem unbridged_regex_kept (R L : List Span)
    (hR : ∀ s ∈ R, s.source = "regex" ∧ s.start < s.stop)
    (hL : ∀ s ∈ L, (s.source = "dict" ∨ s.source = "ner") ∧ s.start < s.stop) :
    (∀ m ∈ mergeSpans R none none,
      (∀ m₁ ∈ mergeSpans R none none, Bridged (R ++ L) m m₁ → m₁ = m) →
        ∀ i, Covers m i → ∃ m' ∈ mergeSpans (R ++ L) none none, Covers m' i) ∧
      ∀ m ∈ mergeSpans R none none, ∃ m₁ ∈ mergeSpans R none none, Bridged (R ++ L) m m₁ ∧
        (∀ m₂ ∈ mergeSpans R none none, Bridged (R ++ L) m m₂ →
          canonicalKey m₂ ≤ canonicalKey m₁) ∧
        ∀ i, Covers m₁ i → ∃ m' ∈ mergeSpans (R ++ L) none none, Covers m' i := by
  have hbest : ∀ m ∈ mergeSpans R none none, ∃ m₁ ∈ mergeSpans R none none,
      Bridged (R ++ L) m m₁ ∧
        (∀ m₂ ∈ mergeSpans R none none, Bridged (R ++ L) m m₂ →
          canonicalKey m₂ ≤ canonicalKey m₁) ∧
        ∀ i, Covers m₁ i → ∃ m' ∈ mergeSpans (R ++ L) none none, Covers m' i := by
    intro m hm
    obtain ⟨m₁, hm₁, hjoin, hmax, m', hm', hstart, hstop⟩ := best_kept hR hL hm
    refine ⟨m₁, hm₁, hjoin, hmax, fun i hi => ⟨m', hm', ?_⟩⟩
    rw [Covers, hstart, hstop]
    exact hi
  refine ⟨fun m hm halone i hi => ?_, hbest⟩
  obtain ⟨m₁, hm₁, hjoin, -, hcovers⟩ := hbest m hm
  exact hcovers i (halone m₁ hm₁ hjoin ▸ hi)

/-! ## A bridge -/

/-- An address and a number next to it. -/
def sampleRegex : List Span :=
  [⟨"EMAIL", "kim@corp.co".toList, 0, 11, 9 / 10, "regex"⟩,
   ⟨"PHONE", "02-123-4567".toList, 12, 23, 65 / 100, "regex"⟩]

/-- A span of the NER layer that runs from the one into the other. -/
def sampleBridge : List Span := [⟨"ORG", "corp.co,02".toList, 4, 14, 60 / 100, "ner"⟩]

/-- With the bridge the number is no longer covered. -/
theorem bridge_loses_a_number :
    ((∀ s ∈ sampleRegex, s.source = "regex" ∧ s.start < s.stop) ∧
      ∀ s ∈ sampleBridge, (s.source = "dict" ∨ s.source = "ner") ∧ s.start < s.stop) ∧
    (∃ m ∈ mergeSpans sampleRegex none none, Covers m 15) ∧
      ¬ ∃ m' ∈ mergeSpans (sampleRegex ++ sampleBridge) none none, Covers m' 15 := by
  decide +kernel

/-- One of the two is still covered. -/
theorem bridge_keeps_the_best :
    ∃ m₁ ∈ mergeSpans sampleRegex none none,
      ∀ i, Covers m₁ i →
        ∃ m' ∈ mergeSpans (sampleRegex ++ sampleBridge) none none, Covers m' i := by
  have hkept := (unbridged_regex_kept sampleRegex sampleBridge (by decide) (by decide)).2
  obtain ⟨m₁, hm₁, -, -, hcovers⟩ :=
    hkept ⟨"PHONE", "02-123-4567".toList, 12, 23, 65 / 100, "regex"⟩ (by decide +kernel)
  exact ⟨m₁, hm₁, hcovers⟩

end DlpServer.Detect
