import DlpServer.Lib.Search

/-!
# Patterns whose preferred match is the longest

A backtracking engine prefers what its repetitions prefer, more rounds before fewer.
For a sequence that is the longest match as long as what a shorter first part leaves
cannot begin the second one (`longest_seq`).
-/

namespace Regex

variable {α : Type*}

namespace Pattern

/-- The matches at a place come from long to short. -/
def Longest (r : Pattern α) : Prop :=
  ∀ c, (r.run c).Pairwise fun c₁ c₂ => c₁.after.length < c₂.after.length

/-- There is at most one match at a place. -/
def Single (r : Pattern α) : Prop := ∀ c, (r.run c).length ≤ 1

/-- The pattern moves nothing; it holds or it does not. -/
def Test (r : Pattern α) : Prop := ∀ c, r.run c = [c] ∨ r.run c = []

/-- What the pattern matches begins with an element of the class. -/
def Starts (r : Pattern α) (p : α → Bool) : Prop :=
  ∀ c, r.run c ≠ [] → ∃ a rest, c.after = a :: rest ∧ p a = true

/-- What a match leaves that is not the longest begins with an element of the class. -/
def Leaves (r : Pattern α) (q : α → Bool) : Prop :=
  ∀ c, ∀ c₁ ∈ r.run c, ∀ c₂ ∈ r.run c, c₁.after.length < c₂.after.length →
    ∃ a rest, c₂.after = a :: rest ∧ q a = true

variable {r s : Pattern α} {p q : α → Bool}

theorem after_le {c c' : Cursor α} (h : c' ∈ r.run c) : c'.after.length ≤ c.after.length := by
  obtain ⟨w, hw, -⟩ := run_sound h
  rw [hw.after, List.length_append]
  omega

theorem after_lt (hpos : 0 < r.leastLength) {c c' : Cursor α} (h : c' ∈ r.run c) :
    c'.after.length < c.after.length := by
  obtain ⟨w, hw, hacc⟩ := run_sound h
  have hw' := hpos.trans_le (leastLength_le hacc)
  rw [hw.after, List.length_append]
  omega

/-! ## The preferred match -/

/-- No word at the place is longer than the preferred one. -/
theorem Longest.le_of_matchAt (h : r.Longest) {b w t : List α} {m : Match α}
    (hm : r.matchAt b (w ++ t) = some m) (hw : r.Accepts b w t) :
    w.length ≤ m.text.length := by
  obtain ⟨g, hg⟩ := run_complete [] hw
  have hsorted := h ⟨b, w ++ t, []⟩
  unfold matchAt at hm
  cases hrun : r.run ⟨b, w ++ t, []⟩ with
  | nil =>
      rw [hrun] at hm
      cases hm
  | cons c cs =>
      rw [hrun] at hm hg hsorted
      have hle : c.after.length ≤ t.length := by
        rcases List.mem_cons.mp hg with heq | hmem
        · rw [← heq]
        · exact (List.rel_of_pairwise_cons hsorted hmem).le
      cases hm
      show w.length ≤ ((w ++ t).take _).length
      rw [List.length_take, List.length_append]
      omega

/-! ## Small patterns -/

theorem Single.run_eq (h : r.Single) (c : Cursor α) : r.run c = [] ∨ ∃ d, r.run c = [d] := by
  rcases Nat.le_one_iff_eq_zero_or_eq_one.mp (h c) with hlen | hlen
  · exact Or.inl (List.length_eq_zero_iff.mp hlen)
  · exact Or.inr (List.length_eq_one_iff.mp hlen)

theorem Single.longest (h : r.Single) : r.Longest := by
  intro c
  rcases h.run_eq c with hrun | ⟨d, hrun⟩ <;> rw [hrun]
  · exact List.Pairwise.nil
  · exact List.pairwise_singleton _ _

theorem single_one (p : α → Bool) : (one p).Single := by
  intro c
  rw [run]
  cases c.after with
  | nil => exact Nat.zero_le _
  | cons a rest =>
      dsimp only
      split
      · exact le_rfl
      · exact Nat.zero_le _

theorem Test.single (h : r.Test) : r.Single := by
  intro c
  rcases h c with heq | heq <;> rw [heq]
  · exact le_rfl
  · exact Nat.zero_le _

theorem test_look (p : List α → List α → Bool) : (look p).Test := by
  intro c
  rw [run]
  split
  · exact Or.inl rfl
  · exact Or.inr rfl

theorem Test.seq (hr : r.Test) (hs : s.Test) : (Pattern.seq r s).Test := by
  intro c
  rcases hr c with heq | heq
  · rcases hs c with heq' | heq'
    · exact Or.inl (by rw [run, heq, List.flatMap_singleton, heq'])
    · exact Or.inr (by rw [run, heq, List.flatMap_singleton, heq'])
  · exact Or.inr (by rw [run, heq]; rfl)

theorem Single.group (h : r.Single) (n : ℕ) : (Pattern.group n r).Single := by
  intro c
  rw [run, List.length_map]
  exact h c

theorem Single.seq (hr : r.Single) (hs : s.Single) : (Pattern.seq r s).Single := by
  intro c
  rw [run]
  rcases hr.run_eq c with hrun | ⟨d, hrun⟩ <;> rw [hrun]
  · exact Nat.zero_le _
  · rw [List.flatMap_singleton]
    exact hs d

theorem single_lit [DecidableEq α] (w : List α) : (lit w).Single := by
  induction w with
  | nil => exact (test_look _).single
  | cons a w ih => exact (single_one _).seq ih

/-! ## Sequences -/

theorem longest_seq_single (hr : r.Single) (hs : s.Longest) : (seq r s).Longest := by
  intro c
  rw [run]
  rcases hr.run_eq c with hrun | ⟨d, hrun⟩ <;> rw [hrun]
  · exact List.Pairwise.nil
  · rw [List.flatMap_singleton]
    exact hs d

theorem longest_seq_test (hr : r.Longest) (hs : s.Test) : (seq r s).Longest := by
  intro c
  rw [run]
  refine List.pairwise_flatMap.mpr ⟨fun d _ => hs.single.longest d, (hr c).imp ?_⟩
  intro d e hde x hx y hy
  have hsub : ∀ {d x : Cursor α}, x ∈ s.run d → x = d := by
    intro d x hx
    rcases hs d with heq | heq <;> rw [heq] at hx
    · exact List.mem_singleton.mp hx
    · cases hx
  rwa [hsub hx, hsub hy]

/-- **A sequence is longest first** where what a shorter first part leaves cannot
begin the second part. -/
theorem longest_seq (hr : r.Longest) (hleave : r.Leaves q) (hstart : s.Starts p)
    (hdisjoint : ∀ a, q a = true → p a = false) (hs : s.Longest) : (seq r s).Longest := by
  intro c
  rw [run]
  refine List.pairwise_flatMap.mpr ⟨fun d _ => hs d, (hr c).imp_of_mem ?_⟩
  intro d e hd he hde x _ y hy
  obtain ⟨a, rest, hafter, hq⟩ := hleave c d hd e he hde
  obtain ⟨a', rest', hafter', hp⟩ := hstart e (List.ne_nil_of_mem hy)
  rw [hafter] at hafter'
  obtain ⟨rfl, -⟩ := List.cons.inj hafter'
  rw [hdisjoint a hq] at hp
  cases hp

/-! ## Repetitions -/

/-- **A repetition is longest first** where a shorter round leaves what cannot begin
another one. -/
theorem longest_rep (hr : r.Longest) (hpos : 0 < r.leastLength)
    (hblock : ∀ c, ∀ c₁ ∈ r.run c, ∀ c₂ ∈ r.run c, c₁.after.length < c₂.after.length →
      r.run c₂ = []) (least : ℕ) (most : Option ℕ) : (rep r least most).Longest := by
  have hle : ∀ {least most : ℕ} {c c' : Cursor α}, c' ∈ greedy r.run least most c →
      c'.after.length ≤ c.after.length := fun {least most c c'} h =>
    after_le (r := rep r least (some most)) h
  have hstuck : ∀ {least most : ℕ} {c c' : Cursor α}, r.run c = [] →
      c' ∈ greedy r.run least most c → c' = c := by
    intro least most c c' hnil h
    cases most with
    | zero =>
        rw [greedy] at h
        split at h
        · exact List.mem_singleton.mp h
        · cases h
    | succ most =>
        rw [greedy, hnil, List.flatMap_nil, List.nil_append] at h
        split at h
        · exact List.mem_singleton.mp h
        · cases h
  intro c
  show (greedy r.run least (most.getD c.after.length) c).Pairwise _
  generalize most.getD c.after.length = rounds
  induction rounds generalizing least c with
  | zero =>
      rw [greedy]
      split
      · exact List.pairwise_singleton _ _
      · exact List.Pairwise.nil
  | succ rounds ih =>
      rw [greedy]
      refine List.pairwise_append.mpr ⟨?_, ?_, ?_⟩
      · refine List.pairwise_flatMap.mpr ⟨fun d _ => ih _ d, (hr c).imp_of_mem ?_⟩
        intro d e hd he hde x hx y hy
        rw [hstuck (hblock c d hd e he hde) hy]
        exact (hle hx).trans_lt hde
      · split
        · exact List.pairwise_singleton _ _
        · exact List.Pairwise.nil
      · intro x hx y hy
        obtain ⟨d, hd, hx⟩ := List.mem_flatMap.mp hx
        have hy : y = c := by
          split at hy
          · exact List.mem_singleton.mp hy
          · cases hy
        rw [hy]
        exact (hle hx).trans_lt (after_lt hpos hd)

theorem longest_rep_single (hr : r.Single) (hpos : 0 < r.leastLength) (least : ℕ)
    (most : Option ℕ) : (rep r least most).Longest := by
  refine longest_rep hr.longest hpos ?_ least most
  intro c c₁ h₁ c₂ h₂ hlt
  rcases hr.run_eq c with hrun | ⟨d, hrun⟩ <;> rw [hrun] at h₁ h₂
  · cases h₁
  · rw [List.mem_singleton.mp h₁, List.mem_singleton.mp h₂] at hlt
    exact absurd hlt (lt_irrefl _)

theorem longest_rep_one (p : α → Bool) (least : ℕ) (most : Option ℕ) :
    (rep (one p) least most).Longest :=
  longest_rep_single (single_one p) Nat.one_pos least most

theorem leaves_rep_one (p : α → Bool) (least : ℕ) (most : Option ℕ) :
    (rep (one p) least most).Leaves p := by
  intro c c₁ h₁ c₂ h₂ hlt
  obtain ⟨w₁, hw₁, n, -, -, hR⟩ := run_sound h₁
  obtain ⟨w₂, hw₂, -⟩ := run_sound h₂
  have hall := (rounds_one.mp hR).2
  have heq : w₂ ++ c₂.after = w₁ ++ c₁.after := hw₂.after.symm.trans hw₁.after
  rcases List.append_eq_append_iff.mp heq with ⟨v, hv, hrest⟩ | ⟨v, -, hrest⟩
  · cases v with
    | nil =>
        rw [hrest, List.nil_append] at hlt
        exact absurd hlt (lt_irrefl _)
    | cons a v =>
        refine ⟨a, _, hrest, hall a ?_⟩
        rw [hv]
        exact List.mem_append_right _ List.mem_cons_self
  · rw [hrest, List.length_append] at hlt
    omega

theorem Leaves.after_single (hs : s.Leaves q) (hr : r.Single) : (Pattern.seq r s).Leaves q := by
  intro c c₁ h₁ c₂ h₂ hlt
  rw [run] at h₁ h₂
  rcases hr.run_eq c with hrun | ⟨d, hrun⟩ <;> rw [hrun] at h₁ h₂
  · cases h₁
  · rw [List.flatMap_singleton] at h₁ h₂
    exact hs d c₁ h₁ c₂ h₂ hlt

theorem single_times_one (p : α → Bool) (n : ℕ) : ((one p).times n).Single := by
  intro c
  show (greedy (one p).run n n c).length ≤ 1
  induction n generalizing c with
  | zero => exact le_rfl
  | succ n ih =>
      rw [greedy, if_neg (Nat.succ_ne_zero n), List.append_nil]
      rcases (single_one p).run_eq c with hrun | ⟨d, hrun⟩ <;> rw [hrun]
      · exact Nat.zero_le _
      · rw [List.flatMap_singleton]
        exact ih d

/-! ## What a pattern starts with -/

theorem starts_one (p : α → Bool) : (one p).Starts p := by
  intro c h
  rw [run] at h
  cases hafter : c.after with
  | nil => simp [hafter] at h
  | cons a rest =>
      refine ⟨a, rest, rfl, ?_⟩
      rw [hafter] at h
      by_contra hp
      simp [hp] at h

theorem Starts.mono (h : r.Starts p) (hpq : ∀ a, p a = true → q a = true) : r.Starts q := by
  intro c hc
  obtain ⟨a, rest, hafter, hp⟩ := h c hc
  exact ⟨a, rest, hafter, hpq a hp⟩

theorem Starts.seq (h : r.Starts p) (s : Pattern α) : (seq r s).Starts p := by
  intro c hc
  refine h c fun hnil => hc ?_
  rw [run, hnil, List.flatMap_nil]

theorem Starts.after_look (h : s.Starts p) (t : List α → List α → Bool) :
    (Pattern.seq (look t) s).Starts p := by
  intro c hc
  refine h c fun hnil => hc ?_
  rw [run]
  rcases test_look t c with heq | heq <;> rw [heq]
  · rw [List.flatMap_singleton, hnil]
  · rfl

theorem Starts.alt (hr : r.Starts p) (hs : s.Starts p) : (Pattern.alt r s).Starts p := by
  intro c hc
  rw [run] at hc
  by_cases hnil : r.run c = []
  · rw [hnil, List.nil_append] at hc
    exact hs c hc
  · exact hr c hnil

theorem Starts.group (h : r.Starts p) (n : ℕ) : (group n r).Starts p := by
  intro c hc
  refine h c fun hnil => hc ?_
  rw [run, hnil, List.map_nil]

theorem Starts.rep (h : r.Starts p) (least : ℕ) (most : Option ℕ) :
    (rep r (least + 1) most).Starts p := by
  intro c hc
  refine h c fun hnil => hc ?_
  show greedy r.run (least + 1) (most.getD c.after.length) c = []
  cases most.getD c.after.length with
  | zero => rw [greedy, if_neg (Nat.succ_ne_zero least)]
  | succ rounds => rw [greedy, hnil, List.flatMap_nil, if_neg (Nat.succ_ne_zero least)]; rfl

theorem starts_lit [DecidableEq α] (a : α) (w : List α) :
    (lit (a :: w)).Starts fun b => decide (b = a) :=
  (starts_one _).seq _

/-! ## What a search takes

A search takes the first word that begins where it looks on and, of those that begin
there, the longest; and it looks on behind it (`found_iff_taken`). -/

end Pattern

/-- The word from `i` to `j` is the first from `p` on and the longest at its place. -/
structure First (P : ℕ → ℕ → Prop) (p i j : ℕ) : Prop where
  word : P i j
  behind : p ≤ i
  first : ∀ i' j', P i' j' → p ≤ i' → i ≤ i'
  longest : ∀ j', P i j' → j' ≤ j

/-- The places where the search looks on. -/
inductive Resumes (P : ℕ → ℕ → Prop) : ℕ → Prop
  | start : Resumes P 0
  | behind {p i j : ℕ} : Resumes P p → First P p i j → Resumes P j

/-- The search takes the word from `i` to `j`. -/
def Taken (P : ℕ → ℕ → Prop) (i j : ℕ) : Prop := ∃ p, Resumes P p ∧ First P p i j

section Taken

variable {P : ℕ → ℕ → Prop} {i j n p : ℕ}

theorem Taken.word (h : Taken P i j) : P i j := h.choose_spec.2.word

/-- From a place with a word behind it there is a first one. -/
theorem exists_first (hbound : ∀ i j, P i j → i < j ∧ j ≤ n) (hword : P i j) (hp : p ≤ i) :
    ∃ a b, First P p a b ∧ a ≤ i := by
  classical
  have hex : ∃ a, p ≤ a ∧ ∃ b, P a b := ⟨i, hp, j, hword⟩
  obtain ⟨hpa, b, hb⟩ := Nat.find_spec hex
  have hlast : P (Nat.find hex) (Nat.findGreatest (P (Nat.find hex)) n) :=
    Nat.findGreatest_spec (hbound _ _ hb).2 hb
  refine ⟨_, _, ⟨hlast, hpa, fun i' j' h' hi' => Nat.find_min' hex ⟨hi', j', h'⟩,
    fun j' h' => Nat.le_findGreatest (hbound _ _ h').2 h'⟩, Nat.find_min' hex ⟨hp, j, hword⟩⟩

/-- **A word that no other runs into from the left is taken**, if it is the longest at its
place. -/
theorem Taken.of_unentered (hbound : ∀ i j, P i j → i < j ∧ j ≤ n) (hword : P i j)
    (hlongest : ∀ j', P i j' → j' ≤ j) (hfree : ∀ a b, P a b → a < i → b ≤ i) : Taken P i j := by
  obtain ⟨p, hp, hle, hlast⟩ : ∃ p, Resumes P p ∧ p ≤ i ∧ ∀ q, Resumes P q → q ≤ i → q ≤ p := by
    classical
    exact ⟨Nat.findGreatest (Resumes P) i, Nat.findGreatest_spec (Nat.zero_le i) .start,
      Nat.findGreatest_le i, fun q hq hqi => Nat.le_findGreatest hqi hq⟩
  obtain ⟨a, b, hfirst, ha⟩ := exists_first hbound hword hle
  rcases ha.lt_or_eq with hlt | rfl
  · -- The search would look on behind it, before `i`.
    have hb := hlast b (.behind hp hfirst) (hfree a b hfirst.word hlt)
    have hab := (hbound a b hfirst.word).1
    have hpa := hfirst.behind
    omega
  · obtain rfl : b = j := le_antisymm (hlongest b hfirst.word) (hfirst.longest j hword)
    exact ⟨p, hp, hfirst⟩

end Taken

namespace Pattern

variable {r : Pattern α} {text : List α} {i j p : ℕ}

/-- A word of the pattern stands from `i` to `j`. -/
def WordAt (r : Pattern α) (text : List α) (i j : ℕ) : Prop :=
  ∃ b w t, text = b ++ (w ++ t) ∧ i = b.length ∧ j = b.length + w.length ∧
    r.Accepts b.reverse w t

theorem wordAt_of_found {m : Match α} (hm : m ∈ r.finditer text) :
    r.WordAt text m.start m.stop := by
  obtain ⟨b, t, htext, hstart, -, hacc⟩ := mem_finditer hm
  exact ⟨b, m.text, t, htext, hstart, by rw [Match.stop, hstart], hacc⟩

/-- Where a word begins, there is a preferred match. -/
theorem WordAt.matchFrom (hpos : 0 < r.leastLength) (h : r.WordAt text i j) :
    ∃ m, r.matchFrom text i = some m ∧ m.start = i ∧ m.text ≠ [] := by
  obtain ⟨b, w, t, rfl, rfl, -, hacc⟩ := h
  obtain ⟨m, hm⟩ := matchAt_isSome hacc
  obtain ⟨t', -, hacc'⟩ := matchAt_some hm
  refine ⟨m, (matchFrom_append b (w ++ t)).trans hm, ?_,
    List.ne_nil_of_length_pos (hpos.trans_le (leastLength_le hacc'))⟩
  rw [matchAt_start hm, List.length_reverse]

/-- A match is as long as any word that begins there. -/
theorem Longest.le_of_found (h : r.Longest) {m : Match α} (hm : m ∈ r.finditer text)
    (hword : r.WordAt text m.start j) : j ≤ m.stop := by
  obtain ⟨b, w, t, rfl, hstart, rfl, hacc⟩ := hword
  have hfrom := matchFrom_of_mem hm
  rw [hstart, matchFrom_append] at hfrom
  have hle := h.le_of_matchAt hfrom hacc
  rw [Match.stop, hstart]
  omega

/-- A match is the first from a place on that the matches before it do not reach. -/
theorem first_of_found (hpos : 0 < r.leastLength) (hr : r.Longest) {m : Match α}
    (hm : m ∈ r.finditer text) (hp : p ≤ m.start)
    (hbefore : ∀ m' ∈ r.finditer text, m'.start < m.start → m'.stop ≤ p) :
    First (r.WordAt text) p m.start m.stop where
  word := wordAt_of_found hm
  behind := hp
  longest _ hword := hr.le_of_found hm hword
  first i' j' hword hi' := by
    obtain ⟨m', hfrom, hstart, hne⟩ := hword.matchFrom hpos
    by_contra hlt
    have hlen := List.length_pos_iff.mpr hne
    rcases found_or_inside hfrom hne with hin | ⟨m'', hin, hleft, hright⟩
    · have hstop := hbefore m' hin (by omega)
      rw [Match.stop] at hstop
      omega
    · have hstop := hbefore m'' hin (by omega)
      omega

/-- What is first behind a match is one. -/
theorem found_of_first (hpos : 0 < r.leastLength) (hr : r.Longest)
    (hp : p = 0 ∨ ∃ m ∈ r.finditer text, m.stop = p) (h : First (r.WordAt text) p i j) :
    ∃ m ∈ r.finditer text, m.start = i ∧ m.stop = j := by
  obtain ⟨m, hfrom, hstart, hne⟩ := h.word.matchFrom hpos
  rcases found_or_inside hfrom hne with hin | ⟨m', hin, hleft, hright⟩
  · refine ⟨m, hin, hstart, le_antisymm (h.longest _ ?_) ?_⟩
    · exact hstart ▸ wordAt_of_found hin
    · exact hr.le_of_found hin (hstart.symm ▸ h.word)
  · -- The match that it would begin inside begins before `p`, and so ends there.
    exfalso
    have hbefore : m'.start < p := by
      by_contra hno
      have := h.first _ _ (wordAt_of_found hin) (not_lt.mp hno)
      omega
    have hbehind := h.behind
    rcases hp with rfl | ⟨m₀, hin₀, rfl⟩
    · omega
    · by_cases heq : m' = m₀
      · rw [heq] at hright
        omega
      · have hapart := finditer_apart hin hin₀ heq
        obtain ⟨_, _, -, -, hne₀, -⟩ := mem_finditer hin₀
        have hlen := List.length_pos_iff.mpr hne₀
        have hstop : m₀.stop = m₀.start + m₀.text.length := rfl
        omega

theorem found_of_resumes (hpos : 0 < r.leastLength) (hr : r.Longest)
    (h : Resumes (r.WordAt text) p) : p = 0 ∨ ∃ m ∈ r.finditer text, m.stop = p := by
  induction h with
  | start => exact Or.inl rfl
  | behind _ hfirst ih =>
      obtain ⟨m, hm, -, hstop⟩ := found_of_first hpos hr ih hfirst
      exact Or.inr ⟨m, hm, hstop⟩

theorem taken_of_found (hpos : 0 < r.leastLength) (hr : r.Longest) {m : Match α}
    (hm : m ∈ r.finditer text) : Taken (r.WordAt text) m.start m.stop := by
  -- From left to right; the search looks on behind the match before.
  induction hn : m.start using Nat.strong_induction_on generalizing m with
  | _ n ih =>
      subst hn
      obtain ⟨front, back, hsplit⟩ := List.append_of_mem hm
      have hfollow := finditer_follow r text
      rw [hsplit] at hfollow
      obtain ⟨hfront, hback, hcross⟩ := List.pairwise_append.mp hfollow
      have hearlier : ∀ m' ∈ r.finditer text, m'.start < m.start → m' ∈ front := by
        intro m' hm' hlt
        rw [hsplit] at hm'
        rcases List.mem_append.mp hm' with hin | hin
        · exact hin
        · rcases List.mem_cons.mp hin with rfl | hin
          · exact absurd hlt (lt_irrefl _)
          · have hle := (List.pairwise_cons.mp hback).1 m' hin
            rw [Match.stop] at hle
            omega
      rcases List.eq_nil_or_concat front with rfl | ⟨front', m₀, hlast⟩
      · exact ⟨0, .start, first_of_found hpos hr hm (Nat.zero_le _) fun m' hm' hlt =>
          absurd (hearlier m' hm' hlt) List.not_mem_nil⟩
      · rw [List.concat_eq_append] at hlast
        have hmem₀ : m₀ ∈ front := by rw [hlast]; simp
        have hin₀ : m₀ ∈ r.finditer text := hsplit ▸ List.mem_append_left _ hmem₀
        have hle₀ := hcross m₀ hmem₀ m List.mem_cons_self
        obtain ⟨_, _, -, -, hne₀, -⟩ := mem_finditer hin₀
        have hlen₀ := List.length_pos_iff.mpr hne₀
        have hstop₀ : m₀.stop = m₀.start + m₀.text.length := rfl
        obtain ⟨q, hq, hfirst⟩ := ih m₀.start (by omega) hin₀ rfl
        refine ⟨m₀.stop, .behind hq hfirst, first_of_found hpos hr hm hle₀ fun m' hm' hlt => ?_⟩
        have hin := hearlier m' hm' hlt
        rw [hlast] at hin hfront
        rcases List.mem_append.mp hin with hin | hin
        · have hle := (List.pairwise_append.mp hfront).2.2 m' hin m₀ (List.mem_singleton_self _)
          omega
        · rw [List.mem_singleton.mp hin]

/-- **What a search finds** are the words that it takes from left to right. -/
theorem found_iff_taken (hpos : 0 < r.leastLength) (hr : r.Longest) :
    (∃ m ∈ r.finditer text, m.start = i ∧ m.stop = j) ↔ Taken (r.WordAt text) i j := by
  constructor
  · rintro ⟨m, hm, rfl, rfl⟩
    exact taken_of_found hpos hr hm
  · rintro ⟨p, hp, hfirst⟩
    exact found_of_first hpos hr (found_of_resumes hpos hr hp) hfirst

end Pattern

end Regex
