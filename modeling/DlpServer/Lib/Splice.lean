import Mathlib

/-!
# Replacing stretches of a text

An edit puts a new text in the place of a half-open stretch. Edits made from
the right keep the offsets left of them valid. For stretches that do not
overlap this is the same as one pass from the left: the parts between the
stretches are copied, and each stretch gives its new text.
-/

namespace Splice

/-! ## Edits -/

structure Edit (α : Type*) where
  start : ℕ
  stop : ℕ
  new : List α
deriving DecidableEq

variable {α : Type*}

/-- `text[i:j]`. -/
def slice (text : List α) (i j : ℕ) : List α := (text.take j).drop i

/-- `text[:start] + new + text[stop:]`. -/
def Edit.apply (text : List α) (e : Edit α) : List α :=
  text.take e.start ++ e.new ++ text.drop e.stop

/-- The edits by their start, edits with one start in the given order. -/
def ascending (es : List (Edit α)) : List (Edit α) :=
  es.insertionSort fun a b => a.start ≤ b.start

def descending (es : List (Edit α)) : List (Edit α) :=
  es.insertionSort fun a b => b.start ≤ a.start

/-- The edits one after another, the rightmost first. -/
def rightToLeft (text : List α) (es : List (Edit α)) : List α :=
  (descending es).foldl Edit.apply text

/-- The text from `pos` on, with the edits made on the way. -/
def weave (text : List α) : ℕ → List (Edit α) → List α
  | pos, [] => text.drop pos
  | pos, e :: es => slice text pos e.start ++ e.new ++ weave text e.stop es

/-- One pass over the text. -/
def onePass (text : List α) (es : List (Edit α)) : List α := weave text 0 (ascending es)

/-- The two stretches do not overlap. -/
def Edit.Apart (a b : Edit α) : Prop := a.stop ≤ b.start ∨ b.stop ≤ a.start

instance : Std.Symm (@Edit.Apart α) := ⟨fun _ _ => Or.symm⟩

/-- The stretches are not empty, lie in the text and do not overlap. -/
structure Fit (text : List α) (es : List (Edit α)) : Prop where
  within : ∀ e ∈ es, e.start < e.stop ∧ e.stop ≤ text.length
  apart : es.Pairwise Edit.Apart

/-- The stretches follow one another between `lo` and `hi`. -/
def Ordered (hi : ℕ) : ℕ → List (Edit α) → Prop
  | lo, [] => lo ≤ hi
  | lo, e :: es => lo ≤ e.start ∧ e.start ≤ e.stop ∧ Ordered hi e.stop es

/-! ## Slices -/

theorem slice_append_slice (text : List α) {i j k : ℕ} (hij : i ≤ j) (hjk : j ≤ k) :
    slice text i j ++ slice text j k = slice text i k := by
  have htake : (text.take k).take j = text.take j := by
    rw [List.take_take, min_eq_left hjk]
  calc slice text i j ++ slice text j k
      = ((text.take k).drop i).take (j - i) ++ ((text.take k).drop i).drop (j - i) := by
        rw [slice, ← htake, List.drop_take, List.drop_drop, Nat.add_sub_cancel' hij, slice]
    _ = slice text i k := List.take_append_drop _ _

theorem slice_append_drop (text : List α) {i j : ℕ} (hij : i ≤ j) :
    slice text i j ++ text.drop j = text.drop i := by
  rw [slice, List.drop_take]
  calc (text.drop i).take (j - i) ++ text.drop j
      = (text.drop i).take (j - i) ++ (text.drop i).drop (j - i) := by
        rw [List.drop_drop, Nat.add_sub_cancel' hij]
    _ = text.drop i := List.take_append_drop _ _

theorem take_append_slice (text : List α) {i j : ℕ} (hij : i ≤ j) :
    text.take i ++ slice text i j = text.take j := by
  have h := slice_append_slice text (Nat.zero_le i) hij
  simpa [slice] using h

theorem slice_within (text : List α) (i j : ℕ) : slice text i j <:+: text :=
  (List.drop_suffix i _).isInfix.trans (List.take_prefix j text).isInfix

/-! ## Order -/

theorem Fit.perm {text : List α} {es es' : List (Edit α)} (h : Fit text es)
    (hperm : es'.Perm es) : Fit text es' where
  within e he := h.within e (hperm.mem_iff.mp he)
  apart := (hperm.pairwise_iff fun hab => hab.symm).mpr h.apart

/-- Edits fit when they stand where edits that fit stand. -/
theorem Fit.of_places {text : List α} {es es' : List (Edit α)} (h : Fit text es)
    (hplaces : (es'.map fun e => (e.start, e.stop)).Perm (es.map fun e => (e.start, e.stop))) :
    Fit text es' where
  within e he := by
    have hmem := hplaces.mem_iff.mp (List.mem_map_of_mem he)
    obtain ⟨e', he', heq⟩ := List.mem_map.mp hmem
    obtain ⟨hstart, hstop⟩ := Prod.mk.inj heq
    rw [← hstart, ← hstop]
    exact h.within e' he'
  apart := by
    have hes : (es.map fun e => (e.start, e.stop)).Pairwise
        fun p q => p.2 ≤ q.1 ∨ q.2 ≤ p.1 := List.pairwise_map.mpr h.apart
    have hes' : (es'.map fun e => (e.start, e.stop)).Pairwise
        fun p q => p.2 ≤ q.1 ∨ q.2 ≤ p.1 :=
      (hplaces.pairwise_iff fun hpq => hpq.symm).mpr hes
    have hback := List.pairwise_map.mp hes'
    exact hback

theorem Fit.filter {text : List α} {es : List (Edit α)} (h : Fit text es) (p : Edit α → Bool) :
    Fit text (es.filter p) where
  within e he := h.within e (List.mem_filter.mp he).1
  apart := h.apart.filter p

/-- Of two stretches that do not overlap, the one that starts first ends first. -/
theorem Fit.pairwise_follow {text : List α} {es : List (Edit α)} (h : Fit text es)
    (hsort : es.Pairwise fun a b => a.start ≤ b.start) :
    es.Pairwise fun a b => a.stop ≤ b.start := by
  refine (hsort.and h.apart).imp_of_mem fun ha hb hab => ?_
  obtain ⟨hle, hstop | hstop⟩ := hab
  · exact hstop
  · have := (h.within _ hb).1
    omega

theorem Fit.ordered {text : List α} {es : List (Edit α)} (h : Fit text es)
    (hsort : es.Pairwise fun a b => a.start ≤ b.start) : Ordered text.length 0 es := by
  have hfollow := h.pairwise_follow hsort
  have hrec : ∀ (lo : ℕ), lo ≤ text.length → (∀ e ∈ es, lo ≤ e.start) →
      Ordered text.length lo es := by
    clear hsort
    induction es with
    | nil => exact fun lo hlo _ => hlo
    | cons e es ih =>
        intro lo hlo hall
        obtain ⟨hlt, hle⟩ := h.within e List.mem_cons_self
        have htail : Fit text es :=
          ⟨fun e he => h.within e (List.mem_cons_of_mem _ he), h.apart.of_cons⟩
        refine ⟨hall e List.mem_cons_self, hlt.le, ?_⟩
        exact ih htail hfollow.of_cons e.stop hle fun _ he => List.rel_of_pairwise_cons hfollow he
  exact hrec 0 (Nat.zero_le _) fun e _ => Nat.zero_le _

theorem pairwise_ascending (es : List (Edit α)) :
    (ascending es).Pairwise fun a b => a.start ≤ b.start :=
  have : Std.Total fun a b : Edit α => a.start ≤ b.start := ⟨fun _ _ => le_total _ _⟩
  have : IsTrans (Edit α) fun a b => a.start ≤ b.start := ⟨fun _ _ _ => le_trans⟩
  List.pairwise_insertionSort _ es

theorem pairwise_descending (es : List (Edit α)) :
    (descending es).Pairwise fun a b => b.start ≤ a.start :=
  have : Std.Total fun a b : Edit α => b.start ≤ a.start := ⟨fun _ _ => le_total _ _⟩
  have : IsTrans (Edit α) fun a b => b.start ≤ a.start := ⟨fun _ _ _ h h' => le_trans h' h⟩
  List.pairwise_insertionSort _ es

theorem ascending_perm (es : List (Edit α)) : (ascending es).Perm es :=
  List.perm_insertionSort _ es

theorem descending_perm (es : List (Edit α)) : (descending es).Perm es :=
  List.perm_insertionSort _ es

/-- Stretches that do not overlap are told apart by their starts. -/
theorem Fit.start_inj {text : List α} {es : List (Edit α)} (h : Fit text es) {a b : Edit α}
    (ha : a ∈ es) (hb : b ∈ es) (hab : a.start = b.start) : a = b := by
  by_contra hne
  have hapart : a.Apart b := h.apart.forall ha hb hne
  have hawithin := (h.within a ha).1
  have hbwithin := (h.within b hb).1
  rcases hapart with hle | hle <;> omega

/-- There is one way to sort them. -/
theorem Fit.eq_ascending {text : List α} {es es' : List (Edit α)} (h : Fit text es)
    (hperm : es'.Perm es) (hsort : es'.Pairwise fun a b => a.start ≤ b.start) :
    es' = ascending es := by
  refine List.Perm.eq_of_pairwise ?_ hsort (pairwise_ascending es)
    (hperm.trans (ascending_perm es).symm)
  intro a b ha hb hab hba
  exact h.start_inj (hperm.mem_iff.mp ha) ((ascending_perm es).mem_iff.mp hb) (le_antisymm hab hba)

/-- The order of the edits does not matter. -/
theorem Fit.onePass_perm {text : List α} {es es' : List (Edit α)} (h : Fit text es)
    (hperm : es'.Perm es) : onePass text es' = onePass text es := by
  have hsort := h.eq_ascending ((ascending_perm es').trans hperm) (pairwise_ascending es')
  rw [onePass, onePass, hsort]

theorem Fit.descending_eq {text : List α} {es : List (Edit α)} (h : Fit text es) :
    descending es = (ascending es).reverse := by
  have hperm : (descending es).reverse.Perm es :=
    (descending es).reverse_perm.trans (descending_perm es)
  have hsort := List.pairwise_reverse.mpr (pairwise_descending es)
  rw [← h.eq_ascending hperm hsort, List.reverse_reverse]

/-! ## From the right, or in one pass -/

theorem Ordered.le {lo hi : ℕ} {es : List (Edit α)} (h : Ordered hi lo es) : lo ≤ hi := by
  induction es generalizing lo with
  | nil => exact h
  | cons e es ih =>
      obtain ⟨hlo, hle, hrest⟩ := h
      exact hlo.trans (hle.trans (ih hrest))

theorem foldr_apply {text : List α} {lo : ℕ} {es : List (Edit α)}
    (h : Ordered text.length lo es) :
    es.foldr (fun e t => Edit.apply t e) text = text.take lo ++ weave text lo es := by
  induction es generalizing lo with
  | nil => exact (List.take_append_drop lo text).symm
  | cons e es ih =>
      obtain ⟨hlo, hle, hrest⟩ := h
      have hbound : e.stop ≤ text.length := hrest.le
      have hlen : (text.take e.stop).length = e.stop := List.length_take_of_le hbound
      rw [List.foldr_cons, ih hrest, Edit.apply, weave]
      have htake : (text.take e.stop ++ weave text e.stop es).take e.start = text.take e.start := by
        rw [List.take_append_of_le_length (by omega), List.take_take, min_eq_left hle]
      have hdrop : (text.take e.stop ++ weave text e.stop es).drop e.stop =
          weave text e.stop es := by
        rw [List.drop_append_of_le_length (by omega), List.drop_of_length_le (by omega),
          List.nil_append]
      rw [htake, hdrop, ← take_append_slice text hlo]
      simp only [List.append_assoc]

/-- **Right to left is one pass**, for stretches that do not overlap. -/
theorem rightToLeft_eq_onePass {text : List α} {es : List (Edit α)} (h : Fit text es) :
    rightToLeft text es = onePass text es := by
  have hordered := (h.perm (ascending_perm es)).ordered (pairwise_ascending es)
  rw [rightToLeft, h.descending_eq, List.foldl_reverse, foldr_apply hordered]
  rfl

/-! ## Edits that change nothing -/

theorem weave_advance {text : List α} {lo pos hi : ℕ} {es : List (Edit α)}
    (hlo : lo ≤ pos) (h : Ordered hi pos es) :
    slice text lo pos ++ weave text pos es = weave text lo es := by
  cases es with
  | nil => exact slice_append_drop text hlo
  | cons e es =>
      rw [weave, weave, ← List.append_assoc, ← List.append_assoc,
        slice_append_slice text hlo h.1]

theorem Ordered.mono {lo lo' hi : ℕ} {es : List (Edit α)} (h : Ordered hi lo es)
    (hle : lo' ≤ lo) : Ordered hi lo' es := by
  cases es with
  | nil => exact hle.trans h
  | cons e es => exact ⟨hle.trans h.1, h.2⟩

theorem Ordered.filter {lo hi : ℕ} {es : List (Edit α)} (h : Ordered hi lo es)
    (p : Edit α → Bool) : Ordered hi lo (es.filter p) := by
  induction es generalizing lo with
  | nil => exact h
  | cons e es ih =>
      obtain ⟨hlo, hle, hrest⟩ := h
      by_cases hp : p e = true
      · rw [List.filter_cons_of_pos hp]
        exact ⟨hlo, hle, ih hrest⟩
      · rw [List.filter_cons_of_neg hp]
        exact (ih hrest).mono (hlo.trans hle)

/-- Edits that put back what was there may be left out. -/
theorem weave_filter {text : List α} {lo hi : ℕ} {es : List (Edit α)} (h : Ordered hi lo es)
    (p : Edit α → Bool)
    (hsame : ∀ e ∈ es, p e = false → e.new = slice text e.start e.stop) :
    weave text lo es = weave text lo (es.filter p) := by
  induction es generalizing lo with
  | nil => rfl
  | cons e es ih =>
      obtain ⟨hlo, hle, hrest⟩ := h
      have ih := ih hrest fun e he => hsame e (List.mem_cons_of_mem _ he)
      by_cases hp : p e = true
      · rw [List.filter_cons_of_pos hp, weave, weave, ih]
      · have hnew := hsame e List.mem_cons_self (Bool.eq_false_of_not_eq_true hp)
        rw [List.filter_cons_of_neg hp, weave, ih, hnew, slice_append_slice text hlo hle]
        exact weave_advance (hlo.trans hle) (hrest.filter p)

/-- In one pass, edits that put back what was there may be left out. -/
theorem Fit.onePass_filter {text : List α} {es : List (Edit α)} (h : Fit text es)
    (p : Edit α → Bool)
    (hsame : ∀ e ∈ es, p e = false → e.new = slice text e.start e.stop) :
    onePass text es = onePass text (es.filter p) := by
  have hperm := ascending_perm es
  have hordered := (h.perm hperm).ordered (pairwise_ascending es)
  have hfilter : (ascending es).filter p = ascending (es.filter p) :=
    (h.filter p).eq_ascending (hperm.filter p) ((pairwise_ascending es).filter p)
  rw [onePass, weave_filter hordered p fun e he => hsame e (hperm.mem_iff.mp he), hfilter,
    onePass]

/-! ## The parts of a woven text -/

/-- Each edit with the text copied before it. -/
def gaps (text : List α) : ℕ → List (Edit α) → List (List α × List α)
  | _, [] => []
  | pos, e :: es => (slice text pos e.start, e.new) :: gaps text e.stop es

/-- What is copied after the last edit. -/
def rest (text : List α) (pos : ℕ) (es : List (Edit α)) : List α :=
  text.drop ((es.getLast?.map Edit.stop).getD pos)

theorem weave_eq_gaps (text : List α) (f : List α → List α) (pos : ℕ) (es : List (Edit α)) :
    weave text pos (es.map fun e => { e with new := f e.new }) =
      (gaps text pos es).flatMap (fun p => p.1 ++ f p.2) ++ rest text pos es := by
  induction es generalizing pos with
  | nil => rfl
  | cons e es ih =>
      have hrest : rest text pos (e :: es) = rest text e.stop es := by
        rw [rest, rest, List.getLast?_cons]
        cases es.getLast? <;> rfl
      rw [List.map_cons, weave, ih, gaps, List.flatMap_cons, hrest]
      simp only [List.append_assoc]

/-- One pass with new texts computed from old ones, part by part. -/
theorem Fit.onePass_eq_gaps {text : List α} {es : List (Edit α)} (h : Fit text es)
    (f : List α → List α) :
    onePass text (es.map fun e => { e with new := f e.new }) =
      (gaps text 0 (ascending es)).flatMap (fun p => p.1 ++ f p.2) ++
        rest text 0 (ascending es) := by
  have hfit : Fit text (es.map fun e => { e with new := f e.new }) := by
    constructor
    · intro e he
      obtain ⟨e', he', rfl⟩ := List.mem_map.mp he
      exact h.within e' he'
    · exact List.pairwise_map.mpr h.apart
  have hperm := (ascending_perm es).map fun e => { e with new := f e.new }
  have hsort : ((ascending es).map fun e => { e with new := f e.new }).Pairwise
      fun a b => a.start ≤ b.start := List.pairwise_map.mpr (pairwise_ascending es)
  rw [onePass, ← hfit.eq_ascending hperm hsort, weave_eq_gaps]

theorem mem_gaps {text : List α} {pos : ℕ} {es : List (Edit α)} {p : List α × List α}
    (h : p ∈ gaps text pos es) : p.1 <:+: text ∧ ∃ e ∈ es, p.2 = e.new := by
  induction es generalizing pos with
  | nil => cases h
  | cons e es ih =>
      rcases List.mem_cons.mp h with rfl | h
      · exact ⟨slice_within _ _ _, e, List.mem_cons_self, rfl⟩
      · obtain ⟨hin, e', he', heq⟩ := ih h
        exact ⟨hin, e', List.mem_cons_of_mem _ he', heq⟩

theorem rest_within (text : List α) (pos : ℕ) (es : List (Edit α)) : rest text pos es <:+: text :=
  (List.drop_suffix _ text).isInfix

/-! ## What stands outside -/

/-- The parts of a text between the stretches, the last one after them. -/
def outside (text : List α) : ℕ → List (ℕ × ℕ) → List (List α)
  | pos, [] => [text.drop pos]
  | pos, (i, j) :: places => slice text pos i :: outside text j places

/-- The woven text is made of the parts outside and of the new texts. -/
theorem weave_congr {text text' : List α} {pos pos' : ℕ} {es es' : List (Edit α)}
    (hout : outside text pos (es.map fun e => (e.start, e.stop)) =
      outside text' pos' (es'.map fun e => (e.start, e.stop)))
    (hnew : es.map Edit.new = es'.map Edit.new) : weave text pos es = weave text' pos' es' := by
  induction es generalizing pos pos' es' with
  | nil =>
      rcases es' with - | ⟨e', es'⟩
      · exact (List.cons.inj hout).1
      · cases hnew
  | cons e es ih =>
      rcases es' with - | ⟨e', es'⟩
      · cases hnew
      · obtain ⟨hpart, hrest⟩ := List.cons.inj hout
        obtain ⟨hfirst, hnews⟩ := List.cons.inj hnew
        rw [weave, weave, hpart, hfirst, ih hrest hnews]

/-- Edits that follow one another need no sorting. -/
theorem onePass_sorted (text : List α) {es : List (Edit α)}
    (hsort : es.Pairwise fun a b => a.start ≤ b.start) : onePass text es = weave text 0 es := by
  rw [onePass, ascending, hsort.insertionSort_eq]

/-! ## Edits around parts that stay

Edits that do not shrink what they replace never reach, made from the right,
into what stands right of them, even when they overlap one another.
-/

/-- The new text is at least as long as the stretch, which is not empty. -/
def Edit.Grows (e : Edit α) : Prop := e.start < e.stop ∧ e.stop ≤ e.start + e.new.length

/-- The edit in a text from which `n` elements in front were dropped. -/
def Edit.shift (n : ℕ) (e : Edit α) : Edit α := ⟨e.start - n, e.stop - n, e.new⟩

theorem apply_left {u v : List α} {e : Edit α} (hle : e.start ≤ e.stop)
    (hstop : e.stop ≤ u.length) : e.apply (u ++ v) = e.apply u ++ v := by
  rw [Edit.apply, Edit.apply, List.take_append_of_le_length (hle.trans hstop),
    List.drop_append_of_le_length hstop, List.append_assoc]
  simp only [List.append_assoc]

theorem apply_right {u v : List α} {e : Edit α} (hstart : u.length ≤ e.start)
    (hle : e.start ≤ e.stop) : e.apply (u ++ v) = u ++ (e.shift u.length).apply v := by
  rw [Edit.apply, Edit.apply, Edit.shift, List.take_append, List.drop_append,
    List.take_of_length_le hstart, List.drop_eq_nil_of_le (hstart.trans hle)]
  simp only [List.append_assoc, List.nil_append]

theorem length_le_apply {u : List α} {e : Edit α} (hgrow : e.Grows) (hstop : e.stop ≤ u.length) :
    u.length ≤ (e.apply u).length := by
  obtain ⟨hlt, hle⟩ := hgrow
  rw [Edit.apply, List.length_append, List.length_append, List.length_take, List.length_drop]
  omega

theorem foldl_apply_left {u v : List α} {n : ℕ} {es : List (Edit α)} (hn : n ≤ u.length)
    (hes : ∀ e ∈ es, e.Grows ∧ e.stop ≤ n) :
    es.foldl Edit.apply (u ++ v) = es.foldl Edit.apply u ++ v := by
  induction es generalizing u with
  | nil => rfl
  | cons e es ih =>
      obtain ⟨hgrow, hstop⟩ := hes e List.mem_cons_self
      have hlen := length_le_apply hgrow (hstop.trans hn)
      rw [List.foldl_cons, List.foldl_cons, apply_left hgrow.1.le (hstop.trans hn)]
      exact ih (hn.trans hlen) fun e he => hes e (List.mem_cons_of_mem _ he)

theorem foldl_apply_right {u v : List α} {es : List (Edit α)}
    (hes : ∀ e ∈ es, e.Grows ∧ u.length ≤ e.start) :
    es.foldl Edit.apply (u ++ v) = u ++ (es.map (Edit.shift u.length)).foldl Edit.apply v := by
  induction es generalizing v with
  | nil => rfl
  | cons e es ih =>
      obtain ⟨hgrow, hstart⟩ := hes e List.mem_cons_self
      rw [List.foldl_cons, List.map_cons, List.foldl_cons, apply_right hstart hgrow.1.le]
      exact ih fun e he => hes e (List.mem_cons_of_mem _ he)

/-- In a list that falls, what is large comes first. -/
theorem filter_append_filter_not {β : Type*} {p : β → Bool} {l : List β}
    (h : l.Pairwise fun a b => p b = true → p a = true) :
    l.filter p ++ l.filter (fun a => !p a) = l := by
  induction l with
  | nil => rfl
  | cons a l ih =>
      obtain ⟨ha, hl⟩ := List.pairwise_cons.mp h
      by_cases hp : p a = true
      · rw [List.filter_cons_of_pos hp, List.filter_cons_of_neg (by simp [hp]),
          List.cons_append, ih hl]
      · have hnone : l.filter p = [] := List.filter_eq_nil_iff.mpr fun b hb hpb => hp (ha b hb hpb)
        rw [hnone] at ih
        rw [List.filter_cons_of_neg hp, List.filter_cons_of_pos (by simp [hp]), hnone,
          List.nil_append]
        exact congrArg (a :: ·) (ih hl)

/-- **Parts that no edit touches stay**, whole and in their order. Between them
the edits leave what `Q` is kept of. -/
theorem foldl_apply_tiles {Q : List α → Prop} {N : List α → Prop}
    (hQ : ∀ (text : List α) (e : Edit α), N e.new → Q text → Q (e.apply text))
    {tiles : List (List α × List α)} {last : List α} {es : List (Edit α)}
    (hsort : es.Pairwise fun a b => b.start ≤ a.start)
    (hes : ∀ e ∈ es, e.Grows ∧ N e.new)
    (hclear : ∀ e ∈ es, ∀ pre p post, tiles = pre ++ p :: post →
      e.stop ≤ (pre.flatMap (fun p => p.1 ++ p.2) ++ p.1).length ∨
        (pre.flatMap (fun p => p.1 ++ p.2) ++ p.1).length + p.2.length ≤ e.start) :
    ∃ (tiles' : List (List α × List α)) (last' : List α),
      es.foldl Edit.apply (tiles.flatMap (fun p => p.1 ++ p.2) ++ last) =
        tiles'.flatMap (fun p => p.1 ++ p.2) ++ last' ∧
      tiles'.map Prod.snd = tiles.map Prod.snd ∧
      ((∀ p ∈ tiles, Q p.1) → ∀ p ∈ tiles', Q p.1) ∧ (Q last → Q last') := by
  have hfold : ∀ (es : List (Edit α)) (text : List α), (∀ e ∈ es, N e.new) → Q text →
      Q (es.foldl Edit.apply text) := by
    intro es
    induction es with
    | nil => exact fun _ _ h => h
    | cons e es ih =>
        intro text hnew h
        exact ih _ (fun e he => hnew e (List.mem_cons_of_mem _ he))
          (hQ text e (hnew e List.mem_cons_self) h)
  induction tiles generalizing es with
  | nil => exact ⟨[], es.foldl Edit.apply last, rfl, rfl, fun h => h,
      hfold es last fun e he => (hes e he).2⟩
  | cons p tiles ih =>
      obtain ⟨gap, part⟩ := p
      -- The edits right of the part come first.
      let right : Edit α → Bool := fun e => decide ((gap ++ part).length ≤ e.start)
      have hsplit : es.filter right ++ es.filter (fun e => !right e) = es :=
        filter_append_filter_not (hsort.imp fun hab hb =>
          decide_eq_true ((of_decide_eq_true hb).trans hab))
      have hright : ∀ e ∈ es.filter right, e.Grows ∧ (gap ++ part).length ≤ e.start := by
        intro e he
        obtain ⟨he, hr⟩ := List.mem_filter.mp he
        exact ⟨(hes e he).1, of_decide_eq_true hr⟩
      have hleft : ∀ e ∈ es.filter (fun e => !right e), e.Grows ∧ e.stop ≤ gap.length := by
        intro e he
        obtain ⟨he, hr⟩ := List.mem_filter.mp he
        refine ⟨(hes e he).1, ?_⟩
        have hnot : ¬ (gap ++ part).length ≤ e.start := by simpa [right] using hr
        rcases hclear e he [] (gap, part) tiles rfl with hstop | hstart
        · exact hstop
        · rw [List.length_append] at hnot
          exact absurd hstart hnot
      have hsort' : ((es.filter right).map (Edit.shift (gap ++ part).length)).Pairwise
          fun a b => b.start ≤ a.start := by
        refine List.pairwise_map.mpr ((hsort.filter _).imp fun {a b} hab => ?_)
        exact Nat.sub_le_sub_right hab _
      obtain ⟨tiles', last', heq, hparts, hgaps, hlast⟩ := ih hsort' (by
        intro e he
        obtain ⟨e', he', rfl⟩ := List.mem_map.mp he
        obtain ⟨⟨hlt, hle⟩, hstart⟩ := hright e' he'
        refine ⟨⟨?_, ?_⟩, (hes e' (List.mem_filter.mp he').1).2⟩
        · show e'.start - _ < e'.stop - _
          omega
        · show e'.stop - _ ≤ e'.start - _ + e'.new.length
          omega) (by
        intro e he pre q post htiles
        obtain ⟨e', he', rfl⟩ := List.mem_map.mp he
        have hmem := (List.mem_filter.mp he').1
        have hstart := (hright e' he').2
        have hclear' := hclear e' hmem ((gap, part) :: pre) q post (by rw [htiles]; rfl)
        rw [List.flatMap_cons, List.append_assoc, List.length_append] at hclear'
        dsimp only at hclear'
        show e'.stop - _ ≤ _ ∨ _ ≤ e'.start - _
        omega)
      refine ⟨((es.filter fun e => !right e).foldl Edit.apply gap, part) :: tiles', last', ?_,
        congrArg (part :: ·) hparts, ?_, hlast⟩
      · rw [List.flatMap_cons, List.flatMap_cons, ← hsplit, List.foldl_append,
          List.append_assoc, foldl_apply_right hright, heq, hsplit, List.append_assoc,
          foldl_apply_left le_rfl hleft]
        simp only [List.append_assoc]
      · intro hall q hq
        rcases List.mem_cons.mp hq with rfl | hq
        · refine hfold _ gap (fun e he => ?_) (hall _ List.mem_cons_self)
          exact (hes e (List.mem_filter.mp he).1).2
        · exact hgaps (fun q hq => hall q (List.mem_cons_of_mem _ hq)) q hq

/-- The same for edits made from the right. -/
theorem rightToLeft_tiles {Q : List α → Prop} {N : List α → Prop}
    (hQ : ∀ (text : List α) (e : Edit α), N e.new → Q text → Q (e.apply text))
    {tiles : List (List α × List α)} {last : List α} {es : List (Edit α)}
    (hes : ∀ e ∈ es, e.Grows ∧ N e.new)
    (hclear : ∀ e ∈ es, ∀ pre p post, tiles = pre ++ p :: post →
      e.stop ≤ (pre.flatMap (fun p => p.1 ++ p.2) ++ p.1).length ∨
        (pre.flatMap (fun p => p.1 ++ p.2) ++ p.1).length + p.2.length ≤ e.start) :
    ∃ (tiles' : List (List α × List α)) (last' : List α),
      rightToLeft (tiles.flatMap (fun p => p.1 ++ p.2) ++ last) es =
        tiles'.flatMap (fun p => p.1 ++ p.2) ++ last' ∧
      tiles'.map Prod.snd = tiles.map Prod.snd ∧
      ((∀ p ∈ tiles, Q p.1) → ∀ p ∈ tiles', Q p.1) ∧ (Q last → Q last') := by
  have hmem : ∀ e, e ∈ descending es ↔ e ∈ es := fun e => (descending_perm es).mem_iff
  exact foldl_apply_tiles hQ (pairwise_descending es) (fun e he => hes e ((hmem e).mp he))
    fun e he => hclear e ((hmem e).mp he)

end Splice
