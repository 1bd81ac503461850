import DlpServer.Detect.Merge
import DlpServer.Lib.Best

/-!
# What merging returns

`merge_spans` returns one span for each component of overlap among the accepted
spans (`merge_segments`). Which span stands for a component depends on the order of
the input only among the best spans of one place (`merge_order_iff`).
-/

namespace DlpServer.Detect

open Best Sweep

/-! ## Components -/

/-- The spans at or above the threshold of their source. -/
def passing (spans : List Span) (minConfidence : Option (Dict String ℚ)) : List Span :=
  spans.filter (passesMinConfidence (thresholdsOr minConfidence))

/-- The two spans lie in one component of overlap. -/
abbrev SameComponent (spans : List Span) (a b : Span) : Prop :=
  Joined Span.start Span.stop spans a b

/-- No span of its component comes before `c` in source priority, confidence and length. -/
structure Canonical (spans : List Span) (c : Span) : Prop where
  mem : c ∈ spans
  best : ∀ s, SameComponent spans c s → canonicalKey s ≤ canonicalKey c

/-- The sources in the component of `c` that share its type, each once, best first. -/
structure Agreeing (spans : List Span) (c : Span) (sources : List String) : Prop where
  nodup : sources.Nodup
  best_first : sources.Pairwise fun a b => sourcePriority b ≤ sourcePriority a
  mem_iff : ∀ source, source ∈ sources ↔
    ∃ s, SameComponent spans c s ∧ s.type = c.type ∧ s.source = source

/-- `m` stands for the component of `c`. -/
structure StandsFor (spans : List Span) (m c : Span) : Prop where
  canonical : Canonical spans c
  type_eq : m.type = c.type
  value_eq : m.value = c.value
  start_eq : m.start = c.start
  stop_eq : m.stop = c.stop
  source : ∃ sources, Agreeing spans c sources ∧
    m.source = if 1 < sources.length then "+".intercalate sources else c.source

section Segments

variable {spans : List Span} (h : ∀ s ∈ spans, s.start < s.stop)

theorem argmax_singleton (s : Span) : [s].argmax canonicalKey = some s := by
  rw [List.argmax_singleton]

/-- The case of one span is no exception. -/
theorem resolveCluster_eq (bonus : ℚ) (k : List Span) :
    resolveCluster bonus k = (k.argmax canonicalKey).map fun canonical =>
      if 1 < (distinctSources k canonical).length then
        { canonical with
          confidence := min (canonical.confidence +
            bonus * ((distinctSources k canonical).length - 1)) maxConfidence
          source := "+".intercalate (distinctSources k canonical) }
      else canonical := by
  unfold resolveCluster
  split
  · rename_i s
    have hone : (distinctSources [s] s).length = 1 := by
      rw [distinctSources, List.filter_cons_of_pos (by simp)]
      rfl
    rw [argmax_singleton, Option.map_some, hone, if_neg (lt_irrefl 1)]
  · rfl

theorem distinctSources_nodup (k : List Span) (c : Span) : (distinctSources k c).Nodup :=
  (List.perm_insertionSort _ _).nodup_iff.mpr (List.nodup_dedup _)

theorem mem_distinctSources {k : List Span} {c : Span} {source : String} :
    source ∈ distinctSources k c ↔ ∃ s ∈ k, s.type = c.type ∧ s.source = source := by
  rw [distinctSources, List.mem_insertionSort, List.mem_dedup, List.mem_map]
  constructor
  · rintro ⟨s, hs, rfl⟩
    obtain ⟨hs, htype⟩ := List.mem_filter.mp hs
    exact ⟨s, hs, of_decide_eq_true htype, rfl⟩
  · rintro ⟨s, hs, htype, rfl⟩
    exact ⟨s, List.mem_filter.mpr ⟨hs, decide_eq_true htype⟩, rfl⟩

theorem distinctSources_best_first (k : List Span) (c : Span) :
    (distinctSources k c).Pairwise fun a b => sourcePriority b ≤ sourcePriority a := by
  have : Std.Total fun a b : String => sourcePriority b ≤ sourcePriority a :=
    ⟨fun a b => le_total _ _⟩
  have : IsTrans String fun a b => sourcePriority b ≤ sourcePriority a :=
    ⟨fun _ _ _ hab hbc => hbc.trans hab⟩
  exact List.pairwise_insertionSort _ _

include h

/-- The cluster of a span is its component. -/
theorem mem_cluster_iff {k : List Span} (hk : k ∈ clusterOverlapping spans) {a : Span} (ha : a ∈ k)
    (b : Span) : b ∈ k ↔ SameComponent spans a b := by
  have hmem := mem_clusterOverlapping.mpr ⟨k, hk, ha⟩
  rw [SameComponent, joined_iff_cluster h hmem]
  constructor
  · intro hb
    exact ⟨k, hk, ha, hb⟩
  · rintro ⟨k', hk', ha', hb⟩
    rwa [cluster_unique h hk hk' ha ha']

theorem canonical_of_argmax {k : List Span} (hk : k ∈ clusterOverlapping spans) {c : Span}
    (hc : c ∈ k.argmax canonicalKey) : Canonical spans c where
  mem := mem_clusterOverlapping.mpr ⟨k, hk, List.argmax_mem hc⟩
  best s hs := (IsBest.of_argmax hc).2 s ((mem_cluster_iff h hk (List.argmax_mem hc) s).mpr hs)

theorem agreeing_distinctSources {k : List Span} (hk : k ∈ clusterOverlapping spans) {c : Span}
    (hc : c ∈ k) : Agreeing spans c (distinctSources k c) where
  nodup := distinctSources_nodup k c
  best_first := distinctSources_best_first k c
  mem_iff source := by
    rw [mem_distinctSources]
    simp only [mem_cluster_iff h hk hc]

/-- What a cluster gives stands for its component. -/
theorem standsFor_of_resolve {bonus : ℚ} {k : List Span} (hk : k ∈ clusterOverlapping spans)
    {m : Span} (hm : resolveCluster bonus k = some m) :
    ∃ c ∈ k.argmax canonicalKey, StandsFor spans m c := by
  rw [resolveCluster_eq] at hm
  obtain ⟨c, hc, rfl⟩ := Option.map_eq_some_iff.mp hm
  have hagree := agreeing_distinctSources h hk (List.argmax_mem hc)
  refine ⟨c, hc, canonical_of_argmax h hk hc, ?_, ?_, ?_, ?_, distinctSources k c, hagree, ?_⟩
  · split <;> rfl
  · split <;> rfl
  · split <;> rfl
  · split <;> rfl
  · split <;> rfl

omit h in
/-- Spans of one place lie in one component. -/
theorem SameComponent.of_place {a b : Span} (ha : a ∈ spans) (hb : b ∈ spans)
    (hproper : a.start < a.stop) (hstart : b.start = a.start) (hstop : b.stop = a.stop) :
    SameComponent spans a b := by
  refine Relation.ReflTransGen.single ⟨⟨ha, hb⟩, ?_, ?_⟩
  · rw [hstop]
    exact hproper
  · rw [hstart]
    exact hproper

/-- A component has one span standing for it. -/
theorem standsFor_unique {bonus : ℚ} {k k' : List Span} (hk : k ∈ clusterOverlapping spans)
    (hk' : k' ∈ clusterOverlapping spans) {m m' c c' : Span}
    (hm : resolveCluster bonus k = some m) (hm' : resolveCluster bonus k' = some m')
    (hc : StandsFor spans m c) (hc' : StandsFor spans m' c') (hsame : SameComponent spans c c') :
    m = m' := by
  -- The span that a cluster gives has the place of one of its members.
  have hin : ∀ {k : List Span} {m c : Span}, k ∈ clusterOverlapping spans →
      resolveCluster bonus k = some m → StandsFor spans m c → c ∈ k := by
    intro k m c hk hm hc
    obtain ⟨d, hd, hstands⟩ := standsFor_of_resolve h hk hm
    have hdmem := hstands.canonical.mem
    refine (mem_cluster_iff h hk (List.argmax_mem hd) c).mpr ?_
    refine SameComponent.of_place hdmem hc.canonical.mem (h d hdmem) ?_ ?_
    · rw [← hc.start_eq, hstands.start_eq]
    · rw [← hc.stop_eq, hstands.stop_eq]
  have hck := hin hk hm hc
  have hck' := (mem_cluster_iff h hk hck c').mpr hsame
  have hkk' : k = k' := cluster_unique h hk hk' hck' (hin hk' hm' hc')
  rw [hkk', hm'] at hm
  exact (Option.some.inj hm).symm

end Segments

/-- **Merging is a proper segmentation.** The returned spans are sorted and do not
overlap; each stands for a component of overlap among the passing spans, and each
component has exactly one that stands for it. -/
theorem merge_segments (spans : List Span) (minConfidence : Option (Dict String ℚ))
    (bonus : Option ℚ) (h : ∀ s ∈ spans, s.start < s.stop) :
    (mergeSpans spans minConfidence bonus).Pairwise (fun a b => a.start < a.stop ∧ a.stop ≤ b.start) ∧
      (∀ m ∈ mergeSpans spans minConfidence bonus,
        ∃ c, StandsFor (passing spans minConfidence) m c) ∧
      ∀ a ∈ passing spans minConfidence, ∃! m, m ∈ mergeSpans spans minConfidence bonus ∧
        ∃ c, SameComponent (passing spans minConfidence) a c ∧
          StandsFor (passing spans minConfidence) m c := by
  have hproper : ∀ s ∈ passing spans minConfidence, s.start < s.stop :=
    fun s hs => h s (List.mem_of_mem_filter hs)
  refine ⟨?_, ?_, ?_⟩
  · refine (mergeSpans_follow h).imp_of_mem fun {a b} ha _ hab => ⟨?_, hab⟩
    obtain ⟨s, hs, hstart, hstop⟩ := mergeSpans_place ha
    rw [hstart, hstop]
    exact h s hs
  · intro m hm
    obtain ⟨k, hk, hresolve⟩ := mem_mergeSpans.mp hm
    obtain ⟨c, -, hstands⟩ := standsFor_of_resolve hproper hk hresolve
    exact ⟨c, hstands⟩
  · intro a ha
    obtain ⟨k, hk, hak⟩ := mem_clusterOverlapping.mp ha
    obtain ⟨m, hm⟩ := resolveCluster_isSome (bonus.getD overlapBonus) (List.ne_nil_of_mem hak)
    obtain ⟨c, hc, hstands⟩ := standsFor_of_resolve hproper hk hm
    have hac := (mem_cluster_iff hproper hk hak c).mp (List.argmax_mem hc)
    refine ⟨m, ⟨mem_mergeSpans.mpr ⟨k, hk, hm⟩, c, hac, hstands⟩, ?_⟩
    rintro m' ⟨hm', c', hac', hstands'⟩
    obtain ⟨k', hk', hresolve'⟩ := mem_mergeSpans.mp hm'
    exact standsFor_unique hproper hk' hk hresolve' hm hstands' hstands
      (hac'.symm.trans hac)

/-- Two layers that overlap in a name, and a number apart. -/
def twoLayers : List Span :=
  [⟨"PHONE", "010-1234-5678".toList, 8, 21, 65 / 100, "regex"⟩,
   ⟨"NAME", "홍길동".toList, 0, 3, 9 / 10, "dict"⟩, ⟨"NAME", "홍길".toList, 0, 2, 8 / 10, "ner"⟩]

theorem merge_segments_sample :
    (mergeSpans twoLayers none none).map (fun m => (m.value, m.source)) =
        [("홍길동".toList, "dict+ner"), ("010-1234-5678".toList, "regex")] ∧
      ∀ a ∈ passing twoLayers none, ∃! m, m ∈ mergeSpans twoLayers none none ∧
        ∃ c, SameComponent (passing twoLayers none) a c ∧
          StandsFor (passing twoLayers none) m c :=
  ⟨by decide +kernel, (merge_segments twoLayers none none (by decide)).2.2⟩

/-! ## The order of the input -/

/-- Canonical, and the leftmost of those of its key. -/
structure Leading (spans : List Span) (a : Span) : Prop extends Canonical spans a where
  leftmost : ∀ s, SameComponent spans a s → canonicalKey s = canonicalKey a → a.start ≤ s.start

/-- No span has the place, the source and the confidence of a leading one but itself. -/
def Decided (spans : List Span) : Prop :=
  ∀ a b, Leading spans a → b ∈ spans → b.start = a.start → b.stop = a.stop →
    b.source = a.source → b.confidence = a.confidence → b = a

section Order

variable {spans : List Span}

theorem leading_of_argmax (h : ∀ s ∈ spans, s.start < s.stop) {k : List Span}
    (hk : k ∈ clusterOverlapping spans) {c : Span} (hc : c ∈ k.argmax canonicalKey) :
    Leading spans c where
  toCanonical := canonical_of_argmax h hk hc
  leftmost s hs hkey := by
    have hsk := (mem_cluster_iff h hk (List.argmax_mem hc) s).mpr hs
    exact canonical_first (cluster_order h hk) hc hsk hkey.ge

/-- Leading spans of one component have one place, one priority and one confidence. -/
theorem Leading.eq_of_same {a b : Span} (ha : Leading spans a) (hb : Leading spans b)
    (hab : SameComponent spans a b) :
    b.start = a.start ∧ b.stop = a.stop ∧ sourcePriority b.source = sourcePriority a.source ∧
      b.confidence = a.confidence := by
  have hkey : canonicalKey b = canonicalKey a :=
    le_antisymm (ha.best b hab) (hb.best a hab.symm)
  have hstart : b.start = a.start :=
    le_antisymm (hb.leftmost a hab.symm hkey.symm) (ha.leftmost b hab hkey)
  obtain ⟨hpriority, hrest⟩ := Prod.mk.inj (toLex.injective hkey)
  obtain ⟨hconfidence, hlength⟩ := Prod.mk.inj (toLex.injective hrest)
  refine ⟨hstart, ?_, hpriority, hconfidence⟩
  omega

theorem Canonical.of_mem_iff {spans' : List Span} (hmem : ∀ s, s ∈ spans' ↔ s ∈ spans) {a : Span}
    (ha : Canonical spans a) : Canonical spans' a where
  mem := (hmem a).mpr ha.mem
  best s hs := ha.best s (hs.mono fun t => (hmem t).mp)

theorem Leading.of_mem_iff {spans' : List Span} (hmem : ∀ s, s ∈ spans' ↔ s ∈ spans) {a : Span}
    (ha : Leading spans a) : Leading spans' a where
  toCanonical := ha.toCanonical.of_mem_iff hmem
  leftmost s hs := ha.leftmost s (hs.mono fun t => (hmem t).mp)

/-- `regex`, `dict` and `ner` have different priorities. -/
theorem source_of_priority {a b : String} (ha : a ∈ ["regex", "dict", "ner"])
    (hb : b ∈ ["regex", "dict", "ner"]) (heq : sourcePriority a = sourcePriority b) : a = b := by
  simp only [List.mem_cons, List.not_mem_nil, or_false] at ha hb
  rcases ha with rfl | rfl | rfl <;> rcases hb with rfl | rfl | rfl <;>
    first | rfl | cases heq

/-- The agreeing sources are determined by the component. -/
theorem Agreeing.unique {c : Span} {sources sources' : List String}
    (hknown : ∀ s ∈ spans, s.source ∈ ["regex", "dict", "ner"]) (hc : c ∈ spans)
    (ha : Agreeing spans c sources) (hb : Agreeing spans c sources') : sources = sources' := by
  have hsource : ∀ {sources}, Agreeing spans c sources → ∀ source ∈ sources,
      source ∈ ["regex", "dict", "ner"] := by
    intro sources hagree source hmem
    obtain ⟨s, hs, -, rfl⟩ := (hagree.mem_iff source).mp hmem
    refine hknown s ?_
    rcases Relation.ReflTransGen.cases_tail hs with rfl | ⟨_, -, hstep⟩
    · exact hc
    · exact hstep.1.2
  have hperm : sources.Perm sources' :=
    (List.perm_ext_iff_of_nodup ha.nodup hb.nodup).mpr fun source =>
      (ha.mem_iff source).trans (hb.mem_iff source).symm
  refine List.Perm.eq_of_pairwise ?_ ha.best_first hb.best_first hperm
  intro a b hma hmb hab hba
  exact source_of_priority (hsource ha a hma) (hsource hb b hmb) (le_antisymm hba hab)

theorem Agreeing.of_mem_iff {spans' : List Span} (hmem : ∀ s, s ∈ spans' ↔ s ∈ spans) {c : Span}
    {sources : List String} (ha : Agreeing spans c sources) : Agreeing spans' c sources where
  nodup := ha.nodup
  best_first := ha.best_first
  mem_iff source := by
    have hsame : ∀ s, SameComponent spans' c s ↔ SameComponent spans c s := fun s =>
      ⟨fun hs => hs.mono fun t => (hmem t).mp, fun hs => hs.mono fun t => (hmem t).mpr⟩
    simp only [ha.mem_iff, hsame]

/-! ### Decided components -/

/-- The span of a decided component is found in every order. -/
theorem resolve_of_decided {spans' : List Span} (h : ∀ s ∈ spans, s.start < s.stop)
    (hknown : ∀ s ∈ spans, s.source ∈ ["regex", "dict", "ner"]) (hdecided : Decided spans)
    (hmem : ∀ s, s ∈ spans' ↔ s ∈ spans) {bonus : ℚ} {k : List Span}
    (hk : k ∈ clusterOverlapping spans) {m : Span} (hm : resolveCluster bonus k = some m) :
    ∃ k' ∈ clusterOverlapping spans', resolveCluster bonus k' = some m := by
  have h' : ∀ s ∈ spans', s.start < s.stop := fun s hs => h s ((hmem s).mp hs)
  rw [resolveCluster_eq] at hm
  obtain ⟨c, hc, hresult⟩ := Option.map_eq_some_iff.mp hm
  have hleading := leading_of_argmax h hk hc
  obtain ⟨k', hk', hck'⟩ := mem_clusterOverlapping.mp ((hmem c).mpr hleading.mem)
  obtain ⟨c', hc'⟩ := exists_argmax (f := canonicalKey) (List.ne_nil_of_mem hck')
  have hleading' : Leading spans c' :=
    (leading_of_argmax h' hk' hc').of_mem_iff fun s => (hmem s).symm
  have hsame : SameComponent spans c c' :=
    ((mem_cluster_iff h' hk' hck' c').mp (List.argmax_mem hc')).mono fun s => (hmem s).mp
  obtain ⟨hstart, hstop, hpriority, hconfidence⟩ := hleading.eq_of_same hleading' hsame
  have hsource := source_of_priority (hknown c' hleading'.mem) (hknown c hleading.mem) hpriority
  obtain rfl := hdecided c c' hleading hleading'.mem hstart hstop hsource hconfidence
  have hagree' := (agreeing_distinctSources h' hk' hck').of_mem_iff fun s => (hmem s).symm
  have hsources := (agreeing_distinctSources h hk (List.argmax_mem hc)).unique hknown
    hleading.mem hagree'
  refine ⟨k', hk', ?_⟩
  rw [resolveCluster_eq, hc', Option.map_some, ← hsources, hresult]

/-- Sorted spans that do not overlap are determined by their set. -/
theorem eq_of_segments {xs ys : List Span}
    (hx : xs.Pairwise fun a b => a.start < a.stop ∧ a.stop ≤ b.start)
    (hy : ys.Pairwise fun a b => a.start < a.stop ∧ a.stop ≤ b.start)
    (hmem : ∀ m, m ∈ xs ↔ m ∈ ys) : xs = ys := by
  have hnodup : ∀ {zs : List Span}, zs.Pairwise (fun a b => a.start < a.stop ∧ a.stop ≤ b.start) →
      zs.Nodup := by
    intro zs hz
    refine hz.imp ?_
    rintro a b ⟨hproper, hle⟩ rfl
    omega
  refine List.Perm.eq_of_pairwise ?_ hx hy ((List.perm_ext_iff_of_nodup (hnodup hx)
    (hnodup hy)).mpr hmem)
  intro a b _ _ hab hba
  omega

/-! ### Undecided components -/

/-- Given first, a leading span is the canonical one of its cluster. -/
theorem argmax_of_front {a : Span} {rest : List Span} (h : ∀ s ∈ a :: rest, s.start < s.stop)
    (ha : Leading (a :: rest) a) {k : List Span} (hk : k ∈ clusterOverlapping (a :: rest))
    (hak : a ∈ k) : k.argmax canonicalKey = some a := by
  -- In the sorted list `a` comes before every span that does not start or end earlier.
  obtain ⟨front, back, hsorted, hfront⟩ : ∃ front back,
      (a :: rest).insertionSort startsFirst = front ++ a :: back ∧
        ∀ s ∈ front, ¬ startsFirst a s := by
    refine ⟨_, _, List.insertionSort_cons_eq_take_drop startsFirst a rest, fun s hs => ?_⟩
    simpa using List.mem_takeWhile_imp hs
  obtain ⟨before, after, hclusters⟩ := List.append_of_mem hk
  have hflat := clusters_flatten Span.start Span.stop ((a :: rest).insertionSort startsFirst)
  rw [← clusterOverlapping, hclusters, List.flatten_append, List.flatten_cons, hsorted] at hflat
  have hself : startsFirst a a := Or.inr ⟨rfl, le_rfl⟩
  have hnot : a ∉ before.flatten := by
    intro hmem
    obtain ⟨k', hk', hak'⟩ := List.mem_flatten.mp hmem
    have hpair := clusters_leftOf (sorted_ordered h)
    rw [← clusterOverlapping, hclusters, List.pairwise_append] at hpair
    have hleft := hpair.2.2 k' hk' k List.mem_cons_self a hak' a hak
    have := h a List.mem_cons_self
    omega
  -- So the cluster is a part of the front, `a`, and a part of the back.
  obtain ⟨x, y, hkxy, hx⟩ : ∃ x y, k = x ++ a :: y ∧ ∀ s ∈ x, s ∈ front := by
    rcases List.append_eq_append_iff.mp hflat with ⟨x, hfrontx, hrest⟩ | ⟨x, hbeforex, hrest⟩
    · rcases List.append_eq_append_iff.mp hrest with ⟨z, hz, -⟩ | ⟨z, hz, hback⟩
      · refine absurd (hfrontx ▸ List.mem_append_right _ (hz ▸ List.mem_append_left z hak))
          fun hmem => hfront a hmem hself
      · cases z with
        | nil =>
            rw [List.append_nil] at hz
            exact absurd (hfrontx ▸ List.mem_append_right _ (hz ▸ hak)) fun hmem =>
              hfront a hmem hself
        | cons b z =>
            obtain ⟨rfl, -⟩ := List.cons.inj hback
            exact ⟨x, z, hz, fun s hs => hfrontx ▸ List.mem_append_right _ hs⟩
    · cases x with
      | nil =>
          cases k with
          | nil => cases hak
          | cons b k =>
              obtain ⟨rfl, -⟩ := List.cons.inj hrest
              exact ⟨[], k, rfl, fun s hs => absurd hs List.not_mem_nil⟩
      | cons b x =>
          obtain ⟨rfl, -⟩ := List.cons.inj hrest
          exact absurd (hbeforex ▸ List.mem_append_right _ List.mem_cons_self) hnot
  rw [hkxy]
  have hcomponent : ∀ s ∈ k, SameComponent (a :: rest) a s :=
    fun s hs => (mem_cluster_iff h hk hak s).mp hs
  refine argmax_append_cons (fun s hs => ?_) fun s hs => ?_
  · have hsk : s ∈ k := hkxy ▸ List.mem_append_left _ hs
    refine lt_of_le_of_ne (ha.best s (hcomponent s hsk)) fun hkey => hfront s (hx s hs) ?_
    have hstart := ha.leftmost s (hcomponent s hsk) hkey
    have hlength := canonicalKey_eq hkey
    unfold startsFirst
    omega
  · exact ha.best s (hcomponent s (hkxy ▸ List.mem_append_right _ (List.mem_cons_of_mem _ hs)))

/-- A leading span given first is what its component gives. -/
theorem front_returned {spans : List Span} {minConfidence : Option (Dict String ℚ)}
    (bonus : Option ℚ) {a : Span} (h : ∀ s ∈ spans, s.start < s.stop)
    (ha : Leading (passing spans minConfidence) a) :
    ∃ m ∈ mergeSpans (a :: spans.erase a) minConfidence bonus,
      m.type = a.type ∧ m.value = a.value ∧ m.start = a.start ∧ m.stop = a.stop := by
  obtain ⟨hmem, hpass⟩ := List.mem_filter.mp ha.mem
  have hperm : (a :: spans.erase a).Perm spans := (List.perm_cons_erase hmem).symm
  have hfilter : passing (a :: spans.erase a) minConfidence =
      a :: passing (spans.erase a) minConfidence := List.filter_cons_of_pos hpass
  have hsame : ∀ s, s ∈ passing (a :: spans.erase a) minConfidence ↔
      s ∈ passing spans minConfidence := fun s => (hperm.filter _).mem_iff
  have hleading := ha.of_mem_iff hsame
  have hproper : ∀ s ∈ passing (a :: spans.erase a) minConfidence, s.start < s.stop :=
    fun s hs => h s (hperm.subset (List.mem_of_mem_filter hs))
  obtain ⟨k, hk, hak⟩ := mem_clusterOverlapping.mp hleading.mem
  obtain ⟨m, hm⟩ := resolveCluster_isSome (bonus.getD overlapBonus) (List.ne_nil_of_mem hak)
  obtain ⟨c, hc, hstands⟩ := standsFor_of_resolve hproper hk hm
  rw [hfilter] at hproper hleading hk
  rw [argmax_of_front hproper hleading hk hak] at hc
  obtain rfl := Option.some.inj hc
  refine ⟨m, mem_mergeSpans.mpr ⟨k, ?_, hm⟩, hstands.type_eq, hstands.value_eq, hstands.start_eq,
    hstands.stop_eq⟩
  rw [← passing, hfilter]
  exact hk

end Order

/-- **Merging does not depend on the order** exactly when no two accepted spans that
lead a component have one place, source and confidence. -/
theorem merge_order_iff (spans : List Span) (minConfidence : Option (Dict String ℚ))
    (bonus : Option ℚ) (h : ∀ s ∈ spans, s.start < s.stop)
    (hknown : ∀ s ∈ spans, s.source ∈ ["regex", "dict", "ner"]) :
    (∀ spans' : List Span, spans'.Perm spans →
        mergeSpans spans' minConfidence bonus = mergeSpans spans minConfidence bonus) ↔
      Decided (passing spans minConfidence) := by
  constructor
  · intro horder a b ha hb hstart hstop hsource hconfidence
    have hkey : canonicalKey b = canonicalKey a := by
      rw [canonicalKey, canonicalKey, hsource, hconfidence, hstart, hstop]
    have hproper := h a (List.mem_of_mem_filter ha.mem)
    have hab := SameComponent.of_place ha.mem hb hproper hstart hstop
    have hleading : Leading (passing spans minConfidence) b := by
      refine ⟨⟨hb, fun s hs => ?_⟩, fun s hs hs' => ?_⟩
      · rw [hkey]
        exact ha.best s (hab.trans hs)
      · rw [hstart]
        exact ha.leftmost s (hab.trans hs) (hs'.trans hkey)
    -- Each of the two, given first, stands in the result, at one place.
    have hfront : ∀ c, Leading (passing spans minConfidence) c →
        ∃ m ∈ mergeSpans spans minConfidence bonus,
          m.type = c.type ∧ m.value = c.value ∧ m.start = c.start ∧ m.stop = c.stop := by
      intro c hc
      have hcmem := List.mem_of_mem_filter hc.mem
      obtain ⟨m, hm, htype, hvalue, hstart, hstop⟩ := front_returned bonus h hc
      rw [horder _ (List.perm_cons_erase hcmem).symm] at hm
      exact ⟨m, hm, htype, hvalue, hstart, hstop⟩
    obtain ⟨m, hm, htype, hvalue, hmstart, hmstop⟩ := hfront a ha
    obtain ⟨m', hm', htype', hvalue', hmstart', hmstop'⟩ := hfront b hleading
    have hone : m' = m := by
      by_contra hne
      have hpair : (mergeSpans spans minConfidence bonus).Pairwise
          fun a b => a.stop ≤ b.start ∨ b.stop ≤ a.start :=
        (mergeSpans_follow h).imp fun hle => Or.inl hle
      have : Std.Symm fun a b : Span => a.stop ≤ b.start ∨ b.stop ≤ a.start :=
        ⟨fun _ _ => Or.symm⟩
      have hapart := hpair.forall hm' hm hne
      omega
    have hatype : b.type = a.type := by rw [← htype', hone, htype]
    have havalue : b.value = a.value := by rw [← hvalue', hone, hvalue]
    obtain ⟨_, _, _, _, _, _⟩ := a
    obtain ⟨_, _, _, _, _, _⟩ := b
    cases hatype
    cases havalue
    cases hstart
    cases hstop
    cases hsource
    cases hconfidence
    rfl
  · intro hdecided spans' hperm
    have h' : ∀ s ∈ spans', s.start < s.stop := fun s hs => h s (hperm.subset hs)
    have hmem : ∀ s, s ∈ passing spans' minConfidence ↔ s ∈ passing spans minConfidence :=
      fun s => (hperm.filter _).mem_iff
    have hproper : ∀ s ∈ passing spans minConfidence, s.start < s.stop :=
      fun s hs => h s (List.mem_of_mem_filter hs)
    have hsources : ∀ s ∈ passing spans minConfidence, s.source ∈ ["regex", "dict", "ner"] :=
      fun s hs => hknown s (List.mem_of_mem_filter hs)
    have hproper' : ∀ s ∈ passing spans' minConfidence, s.start < s.stop :=
      fun s hs => hproper s ((hmem s).mp hs)
    have hsources' : ∀ s ∈ passing spans' minConfidence, s.source ∈ ["regex", "dict", "ner"] :=
      fun s hs => hsources s ((hmem s).mp hs)
    have hdecided' : Decided (passing spans' minConfidence) := fun a b ha hb =>
      hdecided a b (ha.of_mem_iff fun s => (hmem s).symm) ((hmem b).mp hb)
    refine eq_of_segments (merge_segments spans' minConfidence bonus h').1
      (merge_segments spans minConfidence bonus h).1 fun m => ?_
    rw [mem_mergeSpans, mem_mergeSpans]
    constructor
    · rintro ⟨k, hk, hm⟩
      exact resolve_of_decided hproper' hsources' hdecided' (fun s => (hmem s).symm) hk hm
    · rintro ⟨k, hk, hm⟩
      exact resolve_of_decided hproper hsources hdecided hmem hk hm

theorem decided_of_places {spans : List Span}
    (h : ∀ a ∈ spans, ∀ b ∈ spans, b.start = a.start → b.stop = a.stop → b = a) : Decided spans :=
  fun a b ha hb hstart hstop _ _ => h a ha.mem b hb hstart hstop

/-- Spans of different places: the other order gives the same. -/
theorem merge_order_iff_sample :
    mergeSpans twoLayers.reverse none none = mergeSpans twoLayers none none :=
  (merge_order_iff twoLayers none none (by decide) (by decide)).mpr
    (decided_of_places (by decide +kernel)) _ (List.reverse_perm twoLayers)

/-- One place in two dictionaries: the type is that of the span given first. -/
theorem two_types_differ :
    let name : Span := ⟨"NAME", "한빛".toList, 0, 2, 9 / 10, "dict"⟩
    let org : Span := ⟨"ORG", "한빛".toList, 0, 2, 9 / 10, "dict"⟩
    [org, name].Perm [name, org] ∧
      (mergeSpans [name, org] none none).map Span.type = ["NAME"] ∧
      (mergeSpans [org, name] none none).map Span.type = ["ORG"] := by
  decide +kernel

end DlpServer.Detect
