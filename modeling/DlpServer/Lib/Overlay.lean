import DlpServer.Lib.Splice

/-!
# Edits over one another

Edits that overlap, made one after another at the places of the first text. While no
edit changes the length, a place shows what the last edit over it put there
(`getElem?_foldl`). An edit that makes the text longer pushes what stands behind it
past the end of every edit that still covers it, where it stays (`twice`).
-/

namespace Splice

variable {α β ι : Type*}

/-- The place lies in the stretch. -/
def Edit.Over (e : Edit α) (i : ℕ) : Prop := e.start ≤ i ∧ i < e.stop

instance (e : Edit α) (i : ℕ) : Decidable (e.Over i) := inferInstanceAs (Decidable (_ ∧ _))

/-- The last of the edits over a place. -/
def topmost (es : List (Edit α)) (i : ℕ) : Option (Edit α) :=
  es.reverse.find? fun e => decide (e.Over i)

/-- The edit does not change the length of a text of length `n`. -/
def Edit.Even (n : ℕ) (e : Edit α) : Prop :=
  e.start ≤ e.stop ∧ e.stop ≤ n ∧ e.new.length = e.stop - e.start

/-! ## Edits that keep the length -/

theorem length_apply {n : ℕ} {text : List α} {e : Edit α} (hn : text.length = n) (he : e.Even n) :
    (e.apply text).length = n := by
  obtain ⟨hle, hstop, hlen⟩ := he
  rw [Edit.apply, List.length_append, List.length_append, List.length_take, List.length_drop,
    hlen, hn]
  omega

theorem getElem?_apply {n : ℕ} {text : List α} {e : Edit α} (hn : text.length = n) (he : e.Even n)
    (i : ℕ) : (e.apply text)[i]? = if e.Over i then e.new[i - e.start]? else text[i]? := by
  obtain ⟨hle, hstop, hlen⟩ := he
  have htake : (text.take e.start).length = e.start := by
    rw [List.length_take]
    omega
  rw [Edit.apply, List.append_assoc]
  by_cases hi : i < e.start
  · have hnot : ¬ e.Over i := fun h => absurd h.1 (by omega)
    rw [if_neg hnot, List.getElem?_append_left (by omega), List.getElem?_take_of_lt hi]
  · rw [List.getElem?_append_right (by omega), htake]
    by_cases hi' : i < e.stop
    · have hover : e.Over i := ⟨by omega, hi'⟩
      rw [if_pos hover, List.getElem?_append_left (by omega)]
    · have hnot : ¬ e.Over i := fun h => hi' h.2
      rw [if_neg hnot, List.getElem?_append_right (by omega), List.getElem?_drop, hlen]
      congr 1
      omega

theorem length_foldl {n : ℕ} {text : List α} {es : List (Edit α)} (hn : text.length = n)
    (hes : ∀ e ∈ es, e.Even n) : (es.foldl Edit.apply text).length = n := by
  induction es generalizing text with
  | nil => exact hn
  | cons e es ih =>
      exact ih (length_apply hn (hes e List.mem_cons_self))
        fun e he => hes e (List.mem_cons_of_mem _ he)

/-- **The last edit over a place decides.** -/
theorem getElem?_foldl {n : ℕ} {text : List α} {es : List (Edit α)} (hn : text.length = n)
    (hes : ∀ e ∈ es, e.Even n) (i : ℕ) :
    (es.foldl Edit.apply text)[i]? =
      match topmost es i with
      | some e => e.new[i - e.start]?
      | none => text[i]? := by
  induction es using List.reverseRecOn with
  | nil => rfl
  | append_singleton es e ih =>
      have hmem : ∀ e' ∈ es, e'.Even n := fun e' he' => hes e' (List.mem_append_left _ he')
      have heven : e.Even n := hes e (List.mem_append_right _ List.mem_cons_self)
      have htop : topmost (es ++ [e]) i = if e.Over i then some e else topmost es i := by
        rw [topmost, List.reverse_append, List.reverse_singleton, List.singleton_append,
          List.find?_cons]
        by_cases h : e.Over i
        · rw [if_pos h, decide_eq_true h]
        · rw [if_neg h, decide_eq_false h]
          rfl
      rw [List.foldl_append, List.foldl_cons, List.foldl_nil,
        getElem?_apply (length_foldl hn hmem) heven, ih hmem, htop]
      by_cases h : e.Over i
      · rw [if_pos h, if_pos h]
      · rw [if_neg h, if_neg h]

/-! ## Related texts -/

theorem forall₂_apply {R : α → β → Prop} {text : List α} {text' : List β} {e : Edit α}
    {e' : Edit β} (htext : List.Forall₂ R text text') (hstart : e.start = e'.start)
    (hstop : e.stop = e'.stop) (hnew : List.Forall₂ R e.new e'.new) :
    List.Forall₂ R (e.apply text) (e'.apply text') := by
  rw [Edit.apply, Edit.apply, hstart, hstop]
  exact List.rel_append (List.rel_append (List.forall₂_take _ htext) hnew)
    (List.forall₂_drop _ htext)

/-- Edits at the places of the items of a list are sorted as the items are. -/
theorem descending_map {f : ι → Edit α} {place : ι → ℕ} (hplace : ∀ x, (f x).start = place x)
    (l : List ι) :
    descending (l.map f) = (l.insertionSort fun a b => place b ≤ place a).map f := by
  refine (List.map_insertionSort _ _ f l fun a _ b _ => ?_).symm
  rw [hplace, hplace]

/-- Texts stay related under edits that put related texts at the same places. -/
theorem forall₂_rightToLeft {R : α → β → Prop} {text : List α} {text' : List β} {l : List ι}
    {f : ι → Edit α} {g : ι → Edit β} (htext : List.Forall₂ R text text')
    (hstart : ∀ x, (f x).start = (g x).start) (hstop : ∀ x, (f x).stop = (g x).stop)
    (hnew : ∀ x ∈ l, List.Forall₂ R (f x).new (g x).new) :
    List.Forall₂ R (rightToLeft text (l.map f)) (rightToLeft text' (l.map g)) := by
  have hplace : ∀ x, (g x).start = (fun x => (g x).start) x := fun _ => rfl
  rw [rightToLeft, rightToLeft, descending_map (fun x => hstart x) l, descending_map hplace l]
  have hmem : ∀ x ∈ l.insertionSort fun a b => (g b).start ≤ (g a).start,
      List.Forall₂ R (f x).new (g x).new :=
    fun x hx => hnew x ((List.perm_insertionSort _ l).mem_iff.mp hx)
  generalize l.insertionSort (fun a b => (g b).start ≤ (g a).start) = sorted at hmem ⊢
  induction sorted generalizing text text' with
  | nil => exact htext
  | cons x sorted ih =>
      refine ih ?_ fun y hy => hmem y (List.mem_cons_of_mem _ hy)
      exact forall₂_apply htext (hstart x) (hstop x) (hmem x List.mem_cons_self)

/-! ## Edits that make the text longer -/

/-- An edit moves what stands behind it by as much as it makes the text longer. -/
theorem drop_suffix_apply {text : List α} {e : Edit α} {k d : ℕ} (hle : e.start ≤ e.stop)
    (hlonger : e.stop + d ≤ e.start + e.new.length) (hstop : e.stop ≤ k) :
    text.drop k <:+ (e.apply text).drop (k + d) := by
  by_cases hk : text.length ≤ k
  · rw [List.drop_of_length_le hk]
    exact List.nil_suffix
  · have hin : text.drop k <:+ e.apply text := by
      have hsplit : text.drop k = (text.drop e.stop).drop (k - e.stop) := by
        rw [List.drop_drop, Nat.add_sub_cancel' hstop]
      rw [hsplit, Edit.apply]
      exact (List.drop_suffix _ _).trans (List.suffix_append _ _)
    refine List.suffix_of_suffix_length_le hin (List.drop_suffix _ _) ?_
    rw [List.length_drop, List.length_drop, Edit.apply, List.length_append, List.length_append,
      List.length_take, List.length_drop]
    omega

theorem Edit.Grows.drop_suffix {text : List α} {e : Edit α} (h : e.Grows) {k : ℕ}
    (hstop : e.stop ≤ k) : text.drop k <:+ (e.apply text).drop k :=
  drop_suffix_apply (d := 0) h.1.le (by rw [Nat.add_zero]; exact h.2) hstop

theorem drop_suffix_foldl {text : List α} {es : List (Edit α)} {k : ℕ}
    (hes : ∀ e ∈ es, e.Grows ∧ e.stop ≤ k) :
    text.drop k <:+ (es.foldl Edit.apply text).drop k := by
  induction es generalizing text with
  | nil => exact List.suffix_rfl
  | cons e es ih =>
      obtain ⟨hgrow, hstop⟩ := hes e List.mem_cons_self
      exact (hgrow.drop_suffix hstop).trans (ih fun e he => hes e (List.mem_cons_of_mem _ he))

/-- The edit shows `x` at the place `k`. -/
def Edit.Puts (e : Edit α) (k : ℕ) (x : α) : Prop :=
  e.start ≤ k ∧ e.new[k - e.start]? = some x

theorem Edit.Puts.getElem? {text : List α} {e : Edit α} {k : ℕ} {x : α} (h : e.Puts k x)
    (hk : k ≤ text.length) : (e.apply text)[k]? = some x := by
  obtain ⟨hstart, hx⟩ := h
  have htake : (text.take e.start).length = e.start := by
    rw [List.length_take]
    omega
  obtain ⟨hlt, -⟩ := List.getElem?_eq_some_iff.mp hx
  rw [Edit.apply, List.append_assoc, List.getElem?_append_right (by omega), htake,
    List.getElem?_append_left hlt, hx]

theorem mem_drop_of_getElem? {text : List α} {k : ℕ} {x : α} (h : text[k]? = some x) :
    x ∈ text.drop k := by
  have : (text.drop k)[0]? = some x := by rw [List.getElem?_drop, Nat.add_zero, h]
  exact List.mem_of_getElem? this

theorem length_of_mem_drop {text : List α} {k : ℕ} {x : α} (h : x ∈ text.drop k) :
    k < text.length := by
  have hpos := List.length_pos_of_mem h
  rw [List.length_drop] at hpos
  omega

/-- What stands at a place or behind it stays there under edits that end before it or
show it. -/
theorem mem_drop_foldl {text : List α} {es : List (Edit α)} {k : ℕ} {x : α}
    (hes : ∀ e ∈ es, e.Grows ∧ (e.stop ≤ k ∨ e.Puts k x)) (hx : x ∈ text.drop k) :
    x ∈ (es.foldl Edit.apply text).drop k := by
  induction es generalizing text with
  | nil => exact hx
  | cons e es ih =>
      refine ih (fun e he => hes e (List.mem_cons_of_mem _ he)) ?_
      obtain ⟨hgrow, hstop | hputs⟩ := hes e List.mem_cons_self
      · exact (hgrow.drop_suffix hstop).subset hx
      · exact mem_drop_of_getElem? (hputs.getElem? (length_of_mem_drop hx).le)

theorem getElem?_foldl_before {text : List α} {es : List (Edit α)} {k : ℕ} {x : α}
    (hes : ∀ e ∈ es, k < e.start) (hx : text[k]? = some x) :
    (es.foldl Edit.apply text)[k]? = some x := by
  induction es generalizing text with
  | nil => exact hx
  | cons e es ih =>
      refine ih (fun e he => hes e (List.mem_cons_of_mem _ he)) ?_
      have hstart := hes e List.mem_cons_self
      obtain ⟨hlt, -⟩ := List.getElem?_eq_some_iff.mp hx
      rw [Edit.apply, List.append_assoc, List.getElem?_append_left (by
        rw [List.length_take]
        omega), List.getElem?_take_of_lt hstart, hx]

/-- **What no edit hides is shown**, at its place or behind it, by edits made from the
right. -/
theorem mem_drop_sorted {text : List α} {es : List (Edit α)} {k : ℕ} {x : α}
    (hsort : es.Pairwise fun a b => b.start ≤ a.start)
    (hes : ∀ e ∈ es, e.Grows ∧ (k < e.start ∨ e.stop ≤ k ∨ e.Puts k x)) (hx : text[k]? = some x) :
    x ∈ (es.foldl Edit.apply text).drop k := by
  have hsplit : es.filter (fun e => decide (k < e.start)) ++
      es.filter (fun e => !decide (k < e.start)) = es :=
    filter_append_filter_not (hsort.imp fun hab hb =>
      decide_eq_true ((of_decide_eq_true hb).trans_le hab))
  rw [← hsplit, List.foldl_append]
  refine mem_drop_foldl (fun e he => ?_) (mem_drop_of_getElem? (getElem?_foldl_before
    (fun e he => of_decide_eq_true (List.mem_filter.mp he).2) hx))
  obtain ⟨he, hnot⟩ := List.mem_filter.mp he
  obtain ⟨hgrow, hlt | hrest⟩ := hes e he
  · rw [decide_eq_true hlt] at hnot
    cases hnot
  · exact ⟨hgrow, hrest⟩

/-- What an edit shows stays, where the later ones end before it. -/
theorem mem_of_puts {text : List α} {es es' : List (Edit α)} {e : Edit α} {k : ℕ} {x : α}
    (hbefore : ∀ e ∈ es, e.Grows ∧ e.stop ≤ text.length) (hk : k ≤ text.length)
    (hputs : e.Puts k x) (hafter : ∀ e ∈ es', e.Grows ∧ e.stop ≤ k) :
    x ∈ (es ++ e :: es').foldl Edit.apply text := by
  rw [List.foldl_append, List.foldl_cons]
  have hlen : text.length ≤ (es.foldl Edit.apply text).length := by
    have hgen : ∀ (es : List (Edit α)) (text' : List α), text.length ≤ text'.length →
        (∀ e ∈ es, e.Grows ∧ e.stop ≤ text.length) →
        text.length ≤ (es.foldl Edit.apply text').length := by
      intro es
      induction es with
      | nil => exact fun _ h _ => h
      | cons e es ih =>
          intro text' h hes
          obtain ⟨hgrow, hstop⟩ := hes e List.mem_cons_self
          exact ih _ (h.trans (length_le_apply hgrow (hstop.trans h)))
            fun e he => hes e (List.mem_cons_of_mem _ he)
    exact hgen es text le_rfl hbefore
  have hmem := mem_drop_of_getElem? (hputs.getElem? (hk.trans hlen))
  exact List.mem_of_mem_drop ((drop_suffix_foldl hafter).subset hmem)

/-- **What was pushed past an edit is shown again.** `x` stands behind the place `k`,
where the last edit that reaches so far ends with `x` too. -/
theorem twice {text : List α} {es es' : List (Edit α)} {e : Edit α} {k : ℕ} {x : α}
    (hbefore : ∀ e ∈ es, e.Grows ∧ e.stop ≤ k + 1) (hle : e.start ≤ e.stop)
    (hlen : e.new.length = e.stop - e.start) (hstop : e.stop = k + 1) (hlast : e.new.getLast? = some x)
    (hafter : ∀ e ∈ es', e.Grows ∧ e.stop ≤ k) (hx : x ∈ text.drop (k + 1)) :
    [x, x].Sublist ((es ++ e :: es').foldl Edit.apply text) := by
  rw [List.foldl_append, List.foldl_cons]
  have hmem := (drop_suffix_foldl hbefore).subset hx
  generalize es.foldl Edit.apply text = text' at hmem ⊢
  have hk := length_of_mem_drop hmem
  have hshown : [x, x].Sublist ((e.apply text').drop k) := by
    obtain ⟨new, hnew⟩ := List.getLast?_eq_some_iff.mp hlast
    have hfront : (text'.take e.start ++ new).length = k := by
      rw [hnew, List.length_append, List.length_singleton] at hlen
      rw [List.length_append, List.length_take]
      omega
    have happly : e.apply text' = (text'.take e.start ++ new) ++ x :: text'.drop (k + 1) := by
      rw [Edit.apply, hnew, hstop]
      simp only [List.append_assoc, List.singleton_append]
    rw [happly, List.drop_append, hfront, Nat.sub_self, List.drop_zero,
      List.drop_of_length_le hfront.le, List.nil_append]
    exact (List.singleton_sublist.mpr hmem).cons_cons x
  exact hshown.trans ((drop_suffix_foldl hafter).sublist.trans (List.drop_sublist _ _))

/-! ## Edits in blocks -/

/-- The edit of blocks as an edit of what they hold. -/
def Edit.flat (e : Edit (List α)) : Edit α := ⟨e.start, e.stop, e.new.flatten⟩

theorem flatten_split {B : List (List α)} {k : ℕ} (hk : k ≤ B.length)
    (hsingle : ∀ b ∈ B.take k, b.length = 1) :
    B.flatten.take k = (B.take k).flatten ∧ B.flatten.drop k = (B.drop k).flatten := by
  have hlen : (B.take k).flatten.length = k := by
    have hmap : (B.take k).map List.length = List.replicate k 1 := by
      rw [List.eq_replicate_iff]
      refine ⟨by rw [List.length_map, List.length_take, min_eq_left hk], fun n hn => ?_⟩
      obtain ⟨b, hb, rfl⟩ := List.mem_map.mp hn
      exact hsingle b hb
    rw [List.length_flatten, hmap, List.sum_replicate, smul_eq_mul, Nat.mul_one]
  have hsplit : B.flatten = (B.take k).flatten ++ (B.drop k).flatten := by
    rw [← List.flatten_append, List.take_append_drop]
  constructor
  · rw [hsplit, List.take_left' hlen]
  · rw [hsplit, List.drop_left' hlen]

theorem flatten_apply {B : List (List α)} {e : Edit (List α)} (he : e.Even B.length)
    (hsingle : ∀ b ∈ B.take e.stop, b.length = 1) :
    (e.apply B).flatten = e.flat.apply B.flatten := by
  obtain ⟨hle, hstop, -⟩ := he
  have hfront : ∀ b ∈ B.take e.start, b.length = 1 := fun b hb =>
    hsingle b (List.take_subset_take_left B hle hb)
  rw [Edit.apply, Edit.apply, Edit.flat, (flatten_split (hle.trans hstop) hfront).1,
    (flatten_split hstop hsingle).2, List.flatten_append, List.flatten_append]

/-- **Blocks and what they hold are edited alike**, as long as every edit finds single
elements before its end. -/
theorem flatten_foldl {B : List (List α)} {es : List (Edit (List α))}
    (heven : ∀ e ∈ es, e.Even B.length)
    (hpair : es.Pairwise fun a b => (∀ x ∈ a.new, x.length = 1) ∨ b.stop ≤ a.start)
    (hsingle : ∀ e ∈ es, ∀ b ∈ B.take e.stop, b.length = 1) :
    (es.foldl Edit.apply B).flatten = (es.map Edit.flat).foldl Edit.apply B.flatten := by
  induction es generalizing B with
  | nil => rfl
  | cons e es ih =>
      have he := heven e List.mem_cons_self
      have hlen := length_apply rfl he
      obtain ⟨hhead, htail⟩ := List.pairwise_cons.mp hpair
      rw [List.foldl_cons, List.map_cons, List.foldl_cons,
        ← flatten_apply he (hsingle e List.mem_cons_self)]
      refine ih (fun e' he' => ?_) htail fun e' he' b hb => ?_
      · rw [hlen]
        exact heven e' (List.mem_cons_of_mem _ he')
      · obtain ⟨i, hi⟩ := List.mem_iff_getElem?.mp hb
        obtain ⟨hlt, -⟩ := List.getElem?_eq_some_iff.mp hi
        have histop : i < e'.stop := by
          rw [List.length_take] at hlt
          omega
        rw [List.getElem?_take_of_lt histop, getElem?_apply rfl he] at hi
        split at hi
        · rename_i hover
          rcases hhead e' he' with hall | hapart
          · exact hall b (List.mem_of_getElem? hi)
          · have := hover.1
            omega
        · refine hsingle e' (List.mem_cons_of_mem _ he') b (List.mem_of_getElem? (i := i) ?_)
          rw [List.getElem?_take_of_lt histop, hi]

/-- A text in `n` blocks, of which all but the last are single. -/
def blocks (n : ℕ) (text : List α) : List (List α) :=
  (text.take (n - 1)).map (fun a => [a]) ++ [text.drop (n - 1)]

theorem flatten_singletons (l : List α) : (l.map fun a => [a]).flatten = l := by
  induction l with
  | nil => rfl
  | cons a l ih => exact congrArg (a :: ·) ih

theorem flatten_blocks (n : ℕ) (text : List α) : (blocks n text).flatten = text := by
  rw [blocks, List.flatten_append, flatten_singletons, List.flatten_singleton, List.take_append_drop]

theorem length_blocks {n : ℕ} {text : List α} (hpos : 0 < n) (hn : n ≤ text.length) :
    (blocks n text).length = n := by
  rw [blocks, List.length_append, List.length_map, List.length_take, List.length_singleton]
  omega

theorem blocks_single {n : ℕ} {text : List α} (hpos : 0 < n) (hn : text.length = n) :
    ∀ b ∈ blocks n text, b.length = 1 := by
  intro b hb
  rcases List.mem_append.mp hb with hb | hb
  · obtain ⟨a, -, rfl⟩ := List.mem_map.mp hb
    rfl
  · rw [List.mem_singleton.mp hb, List.length_drop]
    omega

/-- A block holds the element of its place, the last one those of the rest. -/
theorem blocks_getElem? {n i : ℕ} {text b : List α} (hn : n ≤ text.length)
    (h : (blocks n text)[i]? = some b) :
    i + 1 < n ∧ (∃ a, b = [a] ∧ text[i]? = some a) ∨ n ≤ i + 1 ∧ b = text.drop (n - 1) := by
  by_cases hi : i < (text.take (n - 1)).length
  · rw [blocks, List.getElem?_append_left (by rwa [List.length_map]), List.getElem?_map,
      List.getElem?_take_of_lt (by rw [List.length_take] at hi; omega)] at h
    obtain ⟨a, ha, rfl⟩ := Option.map_eq_some_iff.mp h
    rw [List.length_take] at hi
    exact Or.inl ⟨by omega, a, rfl, ha⟩
  · rw [blocks, List.getElem?_append_right (by rw [List.length_map]; omega)] at h
    rw [List.length_take] at hi
    exact Or.inr ⟨by omega, List.mem_singleton.mp (List.mem_of_getElem? h)⟩

/-! ## The last of the sorted -/

/-- Items that start together stay in their order. -/
theorem pairwise_insertionSort_stable {Q : ι → ι → Prop} (place : ι → ℕ) {l : List ι}
    (h : l.Pairwise Q) :
    (l.insertionSort fun a b => place b ≤ place a).Pairwise fun a b =>
      place b < place a ∨ place b = place a ∧ Q a b := by
  have : Std.Total fun a b : ι => place b ≤ place a := ⟨fun _ _ => le_total _ _⟩
  have : IsTrans ι fun a b => place b ≤ place a := ⟨fun _ _ _ h h' => le_trans h' h⟩
  have hinsert : ∀ (x : ι) (l : List ι), l.Pairwise (fun a b => place b ≤ place a) →
      (∀ b ∈ l, Q x b) → l.Pairwise (fun a b => place b < place a ∨ place b = place a ∧ Q a b) →
      (l.orderedInsert (fun a b => place b ≤ place a) x).Pairwise fun a b =>
        place b < place a ∨ place b = place a ∧ Q a b := by
    intro x l hsort hx hl
    induction l with
    | nil => exact List.pairwise_singleton _ _
    | cons b l ih =>
        obtain ⟨hhead, htail⟩ := List.pairwise_cons.mp hsort
        obtain ⟨hb, hrest⟩ := List.pairwise_cons.mp hl
        rw [List.orderedInsert_cons]
        split
        · rename_i hle
          refine List.pairwise_cons.mpr ⟨fun c hc => ?_, hl⟩
          have hcx : place c ≤ place x := by
            rcases List.mem_cons.mp hc with rfl | hmem
            · exact hle
            · exact (hhead c hmem).trans hle
          exact hcx.lt_or_eq.imp_right fun heq => ⟨heq, hx c hc⟩
        · rename_i hlt
          refine List.pairwise_cons.mpr ⟨fun c hc => ?_,
            ih htail (fun c hc => hx c (List.mem_cons_of_mem _ hc)) hrest⟩
          rcases (List.mem_orderedInsert _).mp hc with rfl | hc
          · exact Or.inl (not_le.mp hlt)
          · exact hb c hc
  induction l with
  | nil => exact List.Pairwise.nil
  | cons x l ih =>
      obtain ⟨hx, hl⟩ := List.pairwise_cons.mp h
      exact hinsert x _ (List.pairwise_insertionSort _ l)
        (fun b hb => hx b ((List.perm_insertionSort _ l).mem_iff.mp hb)) (ih hl)

/-- The last of the items, sorted from the right, that passes a test is the leftmost
of those that do, the last one listed where several are. -/
theorem find?_reverse_insertionSort (place : ι → ℕ) (p : ι → Bool) (l : List ι) :
    (l.insertionSort fun a b => place b ≤ place a).reverse.find? p =
      (l.filter p).reverse.argmin place := by
  have hcons : ∀ (x : ι) (l : List ι), (x :: l).reverse.find? p =
      (l.reverse.find? p).or (if p x then some x else none) := by
    intro x l
    rw [List.reverse_cons, List.find?_append]
    by_cases hp : p x = true
    · rw [if_pos hp, List.find?_cons_of_pos hp]
    · rw [if_neg hp, List.find?_cons_of_neg hp, List.find?_nil]
  -- Where a further item comes in, it is the last that passes if it is left of it.
  have hinsert : ∀ (x : ι) (l : List ι), l.Pairwise (fun a b => place b ≤ place a) →
      (l.orderedInsert (fun a b => place b ≤ place a) x).reverse.find? p =
        match l.reverse.find? p with
        | none => if p x then some x else none
        | some y => if p x = true ∧ place x < place y then some x else some y := by
    intro x l hsort
    induction l with
    | nil =>
        rw [List.orderedInsert_nil, hcons]
        rfl
    | cons b l ih =>
        obtain ⟨hhead, htail⟩ := List.pairwise_cons.mp hsort
        by_cases hle : place b ≤ place x
        · rw [List.orderedInsert_cons, if_pos hle, hcons x]
          cases hfind : (b :: l).reverse.find? p with
          | none => rfl
          | some y =>
              have hy : place y ≤ place x := by
                rcases List.mem_cons.mp (List.mem_reverse.mp (List.mem_of_find?_eq_some hfind)) with
                  rfl | hy
                · exact hle
                · exact (hhead y hy).trans hle
              dsimp only [Option.or]
              rw [if_neg fun h => absurd h.2 (not_lt.mpr hy)]
        · rw [List.orderedInsert_cons, if_neg hle, hcons b, hcons b, ih htail]
          cases hfind : l.reverse.find? p with
          | some y =>
              by_cases h : p x = true ∧ place x < place y
              · simp only [Option.or, if_pos h]
              · simp only [Option.or, if_neg h]
          | none =>
              by_cases hpx : p x = true <;> by_cases hpb : p b = true <;>
                simp [hpx, hpb, not_le.mp hle]
  induction l with
  | nil => rfl
  | cons x l ih =>
      have : Std.Total fun a b : ι => place b ≤ place a := ⟨fun _ _ => le_total _ _⟩
      have : IsTrans ι fun a b => place b ≤ place a := ⟨fun _ _ _ h h' => le_trans h' h⟩
      rw [List.insertionSort_cons, hinsert x _ (List.pairwise_insertionSort _ l), ih]
      by_cases hp : p x = true
      · rw [List.filter_cons_of_pos hp, List.reverse_cons, List.argmin_concat]
        cases (l.filter p).reverse.argmin place with
        | none => simp [hp]
        | some y => simp [hp]
      · rw [List.filter_cons_of_neg hp]
        cases (l.filter p).reverse.argmin place with
        | none => simp [hp]
        | some y => simp [hp]

end Splice
