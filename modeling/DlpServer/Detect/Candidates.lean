import DlpServer.Detect.Additivity
import DlpServer.Detect.RegexRules
import DlpServer.Detect.Segmentation
import DlpServer.Lib.Search

/-!
# What stays of the regex layer

`merge_spans` drops a number that fails its checksum, but only after `detect` has
dropped the account numbers that overlap it. `candidates` lists the matches that
survive both. A stretch of the text is covered in the end exactly when one of them
overlaps it and leads its component (`covered_iff`).
-/

namespace DlpServer.Detect

open Best Sweep

/-- The span overlaps the places from `i` to `j`. -/
def Touches (s : Span) (i j : ℕ) : Prop := s.start < j ∧ i < s.stop

instance (s : Span) (i j : ℕ) : Decidable (Touches s i j) := inferInstanceAs (Decidable (_ ∧ _))

/-- `b` comes before `a`: by its key, or it begins further left. -/
def Beats (b a : Span) : Prop :=
  canonicalKey a < canonicalKey b ∨ canonicalKey a = canonicalKey b ∧ b.start < a.start

/-- In each component that touches the places, some span beats all that touch them. -/
def Outdone (spans : List Span) (i j : ℕ) : Prop :=
  ∀ c ∈ spans, Touches c i j → ∃ b, SameComponent spans c b ∧
    ∀ a, SameComponent spans c a → Touches a i j → Beats b a

/-- **When a leading span touches the places**: when one does that is not outdone. -/
theorem leads_iff {spans : List Span} (h : ∀ s ∈ spans, s.start < s.stop) (i j : ℕ) :
    (∃ c, Leading spans c ∧ Touches c i j) ↔
      (∃ c ∈ spans, Touches c i j) ∧ ¬ Outdone spans i j := by
  constructor
  · rintro ⟨c, hc, htouch⟩
    refine ⟨⟨c, hc.mem, htouch⟩, fun hout => ?_⟩
    obtain ⟨b, hb, hbeats⟩ := hout c hc.mem htouch
    rcases hbeats c .refl htouch with hlt | ⟨heq, hlt⟩
    · exact absurd (hc.best b hb) (not_le.mpr hlt)
    · exact absurd (hc.leftmost b hb heq.symm) (not_le.mpr hlt)
  · rintro ⟨-, hout⟩
    unfold Outdone at hout
    push Not at hout
    obtain ⟨c, hc, -, hnone⟩ := hout
    obtain ⟨k, hk, hck⟩ := mem_clusterOverlapping.mp hc
    obtain ⟨l, hl⟩ := exists_argmax (f := canonicalKey) (List.ne_nil_of_mem hck)
    have hlead := leading_of_argmax h hk hl
    have hcl : SameComponent spans c l := (mem_cluster_iff h hk hck l).mp (List.argmax_mem hl)
    obtain ⟨a, ha, htouch, hno⟩ := hnone l hcl
    have hla : SameComponent spans l a := hcl.symm.trans ha
    have hkey : canonicalKey a = canonicalKey l :=
      le_antisymm (hlead.best a hla) (not_lt.mp fun hlt => hno (Or.inl hlt))
    have hstart : a.start ≤ l.start := not_lt.mp fun hlt => hno (Or.inr ⟨hkey, hlt⟩)
    have hleft := hlead.leftmost a hla hkey
    have hlength := canonicalKey_eq hkey
    have hplace : l.start = a.start ∧ l.stop = a.stop := by omega
    refine ⟨l, hlead, ?_⟩
    rw [Touches, hplace.1, hplace.2]
    exact htouch

/-- What no other span overlaps is not outdone. -/
theorem not_outdone_of_alone {spans : List Span} {c : Span} {i j : ℕ} (hc : c ∈ spans)
    (htouch : Touches c i j) (halone : ∀ s ∈ spans, Touches s c.start c.stop → s = c) :
    ¬ Outdone spans i j := by
  intro hout
  obtain ⟨b, hb, hbeats⟩ := hout c hc htouch
  have hsame : ∀ s, SameComponent spans c s → s = c := by
    intro s hs
    induction hs with
    | refl => rfl
    | tail _ hstep ih =>
        obtain ⟨⟨-, hmem⟩, hover⟩ := hstep
        rw [ih] at hover
        exact halone _ hmem hover.symm
  obtain rfl := hsame b hb
  rcases hbeats b .refl htouch with hlt | ⟨-, hlt⟩
  · exact lt_irrefl _ hlt
  · exact lt_irrefl _ hlt

/-- **What the regex layer covers**: the places of the spans that lead a component. -/
theorem covered_iff {R : List Span} (hR : ∀ s ∈ R, s.source = "regex" ∧ s.start < s.stop)
    (i j : ℕ) :
    (∃ m ∈ mergeSpans R none none, Touches m i j) ↔
      ∃ c, Leading (accepted R) c ∧ Touches c i j := by
  have hproper := accepted_proper fun s hs => (hR s hs).2
  constructor
  · rintro ⟨m, hm, htouch⟩
    obtain ⟨k, hk, hmax⟩ := (mem_merge_regex hR).mp hm
    exact ⟨m, leading_of_argmax hproper hk hmax, htouch⟩
  · rintro ⟨c, hc, htouch⟩
    obtain ⟨k, hk, hck⟩ := mem_clusterOverlapping.mp hc.mem
    obtain ⟨m, hm⟩ := exists_argmax (f := canonicalKey) (List.ne_nil_of_mem hck)
    have hsame := (mem_cluster_iff hproper hk hck m).mp (List.argmax_mem hm)
    obtain ⟨hstart, hstop, -⟩ := hc.eq_of_same (leading_of_argmax hproper hk hm) hsame
    refine ⟨m, (mem_merge_regex hR).mpr ⟨k, hk, hm⟩, ?_⟩
    rw [Touches, hstart, hstop]
    exact htouch

namespace RegexRules

open Regex

variable (u : Unicode)

/-! ## Candidates -/

/-- The spans of the matches that pass a test. -/
def passed (type : String) (pattern : Pattern Char) (confidence : ℚ) (test : Match Char → Bool)
    (text : Text) : List Span :=
  ((pattern.finditer text).filter test).map (spanOf type confidence)

/-- A card or phone number overlaps the match, with or without a valid checksum. -/
def givesWay (text : Text) (m : Match Char) : Bool :=
  ((cardPattern u).finditer text ++ (phonePattern u).finditer text).any fun m' =>
    decide (m.start < m'.stop ∧ m'.start < m.stop)

/-- The matches that survive: those with a valid checksum where there is one, all phone
numbers and addresses, and the account numbers that do not give way. -/
def candidates (text : Text) : List Span :=
  passed "RRN" (rrnPattern u) (97 / 100)
      (fun m => verifyRrnChecksum u (m.group 1 ++ m.group 2)) text ++
    passed "CARD" (cardPattern u) (97 / 100)
      (fun m => verifyLuhn u (m.text.filter fun c => c ≠ ' ' ∧ c ≠ '-')) text ++
    passed "BIZNO" (biznoPattern u) (97 / 100)
      (fun m => verifyBiznoChecksum u (m.group 1 ++ m.group 2 ++ m.group 3)) text ++
    passed "PHONE" (phonePattern u) (65 / 100) (fun _ => true) text ++
    passed "EMAIL" (emailPattern u) (9 / 10) (fun _ => true) text ++
    passed "ACCOUNT" (accountPattern u) (65 / 100) (fun m => !givesWay u text m) text

variable {u}

theorem detect_regex {text : Text} : ∀ s ∈ detect u text, s.source = "regex" ∧ s.start < s.stop := by
  intro s hs
  have hproper := (detect_found hs).within.1
  refine ⟨?_, hproper⟩
  have hlayer : ∀ {type r confidence}, s ∈ detectBy type r confidence text → s.source = "regex" := by
    intro type r confidence h
    obtain ⟨m, -, rfl⟩ := List.mem_map.mp h
    rfl
  simp only [detect, List.mem_append] at hs
  rcases hs with ((((h | h) | h) | h) | h) | h
  · exact hlayer h
  · exact hlayer h
  · exact hlayer h
  · exact hlayer h
  · exact hlayer h
  · exact hlayer (List.mem_filter.mp h).1

/-- Of a layer that fixes the confidence, everything passes. -/
theorem passing_fixed {type : String} {pattern : Pattern Char} {confidence : ℚ}
    (hconfidence : 1 / 2 ≤ confidence) (text : Text) :
    accepted (detectBy type pattern (fun _ => confidence) text) =
      passed type pattern confidence (fun _ => true) text := by
  rw [passed, List.filter_true, accepted, List.filter_eq_self.mpr]
  · rfl
  · intro s hs
    obtain ⟨m, -, rfl⟩ := List.mem_map.mp hs
    exact decide_eq_true hconfidence

/-- Of a layer with a checksum, what has a valid one passes. -/
theorem passing_checked {type : String} {pattern : Pattern Char} (test : Match Char → Bool)
    (text : Text) :
    accepted (detectBy type pattern (fun m => checksumConfidence (test m)) text) =
      passed type pattern (97 / 100) test text := by
  rw [accepted, detectBy, List.filter_map, passed]
  have hpass : ∀ m, passesMinConfidence defaultMinConfidence
      (spanOf type (checksumConfidence (test m)) m) = test m := by
    intro m
    cases test m with
    | true => exact decide_eq_true (show (1 / 2 : ℚ) ≤ 97 / 100 by norm_num)
    | false => exact decide_eq_false (show ¬ (1 / 2 : ℚ) ≤ 4 / 10 by norm_num)
  have hfilter : (passesMinConfidence defaultMinConfidence ∘ fun m =>
      spanOf type (checksumConfidence (test m)) m) = test := funext hpass
  rw [hfilter]
  apply List.map_congr_left
  intro m hm
  rw [(List.mem_filter.mp hm).2]
  rfl

theorem filter_account (text : Text) :
    ((detectAccount u text).filter fun s =>
        !(detectCard u text ++ detectPhone u text).any (spansOverlap s)) =
      passed "ACCOUNT" (accountPattern u) noChecksumConfidence (fun m => !givesWay u text m)
        text := by
  rw [detectAccount, detectBy, List.filter_map, passed]
  congr 1
  apply List.filter_congr
  intro m _
  have hany : (detectCard u text ++ detectPhone u text).any
      (spansOverlap (spanOf "ACCOUNT" noChecksumConfidence m)) = givesWay u text m := by
    rw [givesWay, List.any_append, List.any_append, detectCard, detectPhone, detectBy, detectBy,
      List.any_map, List.any_map]
    rfl
  exact congrArg not hany

/-- The spans that pass the thresholds are the candidates. -/
theorem accepted_detect (text : Text) : accepted (detect u text) = candidates u text := by
  have haccount : accepted (passed "ACCOUNT" (accountPattern u) noChecksumConfidence
      (fun m => !givesWay u text m) text) =
      passed "ACCOUNT" (accountPattern u) noChecksumConfidence
        (fun m => !givesWay u text m) text := by
    apply List.filter_eq_self.mpr
    intro s hs
    obtain ⟨m, -, rfl⟩ := List.mem_map.mp hs
    exact decide_eq_true (show (1 / 2 : ℚ) ≤ 65 / 100 by norm_num)
  simp only [detect, accepted_append]
  rw [filter_account, haccount, detectRrn, passing_checked, detectCard, passing_checked,
    detectBizno, passing_checked, detectPhone, passing_fixed (by norm_num [noChecksumConfidence]),
    detectEmail, passing_fixed (by norm_num [emailConfidence])]
  rfl

theorem candidates_proper (text : Text) : ∀ s ∈ candidates u text, s.start < s.stop := by
  rw [← accepted_detect]
  exact accepted_proper fun s hs => (detect_regex s hs).2

/-- **What the default detection covers**: what a candidate touches, unless those that do
are outdone. -/
theorem covered_iff_touched (text : Text) (i j : ℕ) :
    (∃ m ∈ mergeSpans (detect u text) none none, Touches m i j) ↔
      (∃ c ∈ candidates u text, Touches c i j) ∧ ¬ Outdone (candidates u text) i j := by
  rw [covered_iff detect_regex, accepted_detect, leads_iff (candidates_proper text)]

end RegexRules

end DlpServer.Detect
