import Mathlib

/-!
# Reading the items of a list and writing them back by position

A list holds cells among other items. A reader walks over the list, skips what
is no cell and returns a label and a content for each cell. A writer is given
new contents and pairs them with the items by position: it counts the items
that are no cells, the reader does not.

The reader gets back what the writer was given, whatever that is among contents with
some property, exactly when no cell stands behind an item that is none
(`put_get_iff`).
-/

namespace Traversal

variable {α ρ τ : Type*}

/-- How one item is read and written. `read` fails (`none`) when the reader
raises; a cell has a label, which writing keeps, and a content. -/
structure Cell (α ρ τ : Type*) where
  isCell : α → Bool
  read : α → Option (ρ × τ)
  write : α → τ → α
  isCell_write : ∀ a t, isCell (write a t) = isCell a
  read_write : ∀ a r t t', isCell a = true → read a = some (r, t) →
    read (write a t') = some (r, t')

variable (C : Cell α ρ τ)

/-- The cells of the list, in order. -/
def Cell.readAll : List α → Option (List (ρ × τ))
  | [] => some []
  | a :: as =>
      if C.isCell a then do
        let cell ← C.read a
        let cells ← readAll as
        some (cell :: cells)
      else readAll as

/-- `for a, t in zip(items, contents)`: a cell gets the content at its
position, the items left over stay as they are. -/
def Cell.writeAll : List α → List τ → List α
  | [], _ => []
  | a :: as, [] => a :: as
  | a :: as, t :: ts => (if C.isCell a then C.write a t else a) :: writeAll as ts

/-- Cells come first. -/
def Cell.Leading (items : List α) : Prop :=
  items.Pairwise fun a b => C.isCell b = true → C.isCell a = true

variable {C}

namespace Cell

theorem readAll_cell {a : α} {as : List α} {cells : List (ρ × τ)} (ha : C.isCell a = true) :
    C.readAll (a :: as) = some cells ↔
      ∃ cell rest, C.read a = some cell ∧ C.readAll as = some rest ∧ cells = cell :: rest := by
  rw [readAll, if_pos ha]
  cases hcell : C.read a with
  | none => simp
  | some cell =>
      cases hrest : C.readAll as with
      | none => simp
      | some rest => simp [eq_comm]

theorem readAll_skip {a : α} (as : List α) (ha : C.isCell a = false) :
    C.readAll (a :: as) = C.readAll as := by
  rw [readAll, if_neg (by simp [ha])]

theorem readAll_none {items : List α} (h : ∀ a ∈ items, C.isCell a = false) :
    C.readAll items = some [] := by
  induction items with
  | nil => rfl
  | cons a as ih =>
      rw [readAll_skip as (h a List.mem_cons_self)]
      exact ih fun b hb => h b (List.mem_cons_of_mem a hb)

theorem readAll_eq_nil {items : List α} (h : C.readAll items = some []) :
    ∀ a ∈ items, C.isCell a = false := by
  induction items with
  | nil => exact fun a ha => absurd ha List.not_mem_nil
  | cons a as ih =>
      cases ha : C.isCell a with
      | true =>
          obtain ⟨_, _, _, _, heq⟩ := (readAll_cell ha).mp h
          cases heq
      | false =>
          intro b hb
          rcases List.mem_cons.mp hb with rfl | hb
          · exact ha
          · exact ih (readAll_skip as ha ▸ h) b hb

theorem writeAll_nil (items : List α) : C.writeAll items [] = items := by
  cases items <;> rfl

/-- Where no cell is left, writing changes nothing. -/
theorem writeAll_none {items : List α} (h : ∀ a ∈ items, C.isCell a = false) (ts : List τ) :
    C.writeAll items ts = items := by
  induction items generalizing ts with
  | nil => rfl
  | cons a as ih =>
      cases ts with
      | nil => rfl
      | cons t ts =>
          rw [writeAll, if_neg (by simp [h a List.mem_cons_self]),
            ih fun b hb => h b (List.mem_cons_of_mem a hb)]

theorem leading_cell {a : α} {as : List α} (ha : C.isCell a = true) :
    C.Leading (a :: as) ↔ C.Leading as := by
  refine ⟨fun h => (List.pairwise_cons.mp h).2, fun h => List.pairwise_cons.mpr ⟨?_, h⟩⟩
  intro b _ _
  exact ha

theorem leading_skip {a : α} {as : List α} (ha : C.isCell a = false) :
    C.Leading (a :: as) ↔ ∀ b ∈ as, C.isCell b = false := by
  constructor
  · intro h b hb
    by_contra hcell
    have := (List.pairwise_cons.mp h).1 b hb (by simpa using hcell)
    simp [ha] at this
  · intro h
    refine List.pairwise_cons.mpr ⟨fun b hb hcell => ?_, ?_⟩
    · simp [h b hb] at hcell
    · refine List.pairwise_of_forall_mem_list fun x _ b hb hcell => ?_
      simp [h b hb] at hcell

/-- Writing keeps the cells and their labels, in order. -/
theorem readAll_writeAll_labels {items : List α} {cells : List (ρ × τ)}
    (hread : C.readAll items = some cells) (ts : List τ) :
    ∃ cells', C.readAll (C.writeAll items ts) = some cells' ∧
      cells'.map Prod.fst = cells.map Prod.fst := by
  induction items generalizing cells ts with
  | nil => exact ⟨cells, hread, rfl⟩
  | cons a as ih =>
      cases ts with
      | nil => exact ⟨cells, hread, rfl⟩
      | cons t ts =>
          rw [writeAll]
          cases ha : C.isCell a with
          | true =>
              obtain ⟨⟨r, t₀⟩, rest, hcell, hrest, rfl⟩ := (readAll_cell ha).mp hread
              obtain ⟨rest', hrest', hlabels⟩ := ih hrest ts
              have hwrite : C.isCell (C.write a t) = true := (C.isCell_write a t).trans ha
              rw [if_pos rfl]
              refine ⟨(r, t) :: rest', (readAll_cell hwrite).mpr ?_, by simp [hlabels]⟩
              exact ⟨_, _, C.read_write a r t₀ t ha hcell, hrest', rfl⟩
          | false =>
              rw [if_neg (by decide), readAll_skip _ ha]
              exact ih (readAll_skip as ha ▸ hread) ts

/-- **Put-get.** Where the cells lead, the reader gets back what was written. -/
theorem readAll_writeAll {items : List α} (hlead : C.Leading items) {cells cells' : List (ρ × τ)}
    (hread : C.readAll items = some cells)
    (hlabels : cells'.map Prod.fst = cells.map Prod.fst) :
    C.readAll (C.writeAll items (cells'.map Prod.snd)) = some cells' := by
  induction items generalizing cells cells' with
  | nil =>
      cases hread
      rw [List.map_nil, List.map_eq_nil_iff] at hlabels
      subst hlabels
      rfl
  | cons a as ih =>
      cases ha : C.isCell a with
      | true =>
          obtain ⟨⟨r, t⟩, rest, hcell, hrest, rfl⟩ := (readAll_cell ha).mp hread
          obtain ⟨⟨r', t'⟩, rest', rfl⟩ : ∃ cell' rest', cells' = cell' :: rest' := by
            cases cells' with
            | nil => simp at hlabels
            | cons cell' rest' => exact ⟨cell', rest', rfl⟩
          simp only [List.map_cons, List.cons.injEq] at hlabels
          obtain ⟨hr, hlabels⟩ := hlabels
          subst hr
          rw [List.map_cons, writeAll, if_pos ha]
          have hwrite : C.isCell (C.write a t') = true := (C.isCell_write a t').trans ha
          refine (readAll_cell hwrite).mpr ⟨_, _, C.read_write a r' t t' ha hcell, ?_, rfl⟩
          exact ih ((leading_cell ha).mp hlead) hrest hlabels
      | false =>
          have hnone := (leading_skip ha).mp hlead
          rw [readAll_skip as ha, readAll_none hnone] at hread
          cases hread
          rw [List.map_nil, List.map_eq_nil_iff] at hlabels
          subst hlabels
          rw [List.map_nil, writeAll_nil, readAll_skip as ha, readAll_none hnone]

/-- Copies of one content, however many there are: the first cell has it, or is out of
their reach. -/
theorem head_writeAll_replicate {items : List α} {r : ρ} {t : τ} {rest : List (ρ × τ)}
    (hread : C.readAll items = some ((r, t) :: rest)) (t' : τ) {cells : List (ρ × τ)} (n : ℕ)
    (hwritten : C.readAll (C.writeAll items (List.replicate n t')) = some cells) :
    cells.head? = some (r, t) ∨ cells.head? = some (r, t') := by
  induction items generalizing n with
  | nil => cases hread
  | cons a as ih =>
      cases n with
      | zero =>
          rw [List.replicate_zero, writeAll_nil, hread] at hwritten
          cases hwritten
          exact Or.inl rfl
      | succ n =>
          rw [List.replicate_succ, writeAll] at hwritten
          cases ha : C.isCell a with
          | true =>
              obtain ⟨cell, _, hcell, _, heq⟩ := (readAll_cell ha).mp hread
              cases heq
              rw [if_pos ha] at hwritten
              have hwrite : C.isCell (C.write a t') = true := (C.isCell_write a t').trans ha
              obtain ⟨cell', _, hcell', _, rfl⟩ := (readAll_cell hwrite).mp hwritten
              rw [C.read_write a r t t' ha hcell] at hcell'
              cases hcell'
              exact Or.inr rfl
          | false =>
              rw [if_neg (by simp [ha]), readAll_skip _ ha] at hwritten
              exact ih (readAll_skip as ha ▸ hread) n hwritten

/-- Contents with a property, two of which differ from any one content and from each
other. -/
def Varied (P : τ → Prop) : Prop := ∀ t, ∃ x y, P x ∧ P y ∧ x ≠ t ∧ x ≠ y

/-- Where a cell stands behind another item, some contents are not read back. -/
theorem exists_drift {P : τ → Prop} (hP : Varied P) {items : List α} (hlead : ¬ C.Leading items)
    {cells : List (ρ × τ)} (hread : C.readAll items = some cells) :
    ∃ cells' : List (ρ × τ), cells'.map Prod.fst = cells.map Prod.fst ∧
      (∀ cell ∈ cells', P cell.2) ∧
      C.readAll (C.writeAll items (cells'.map Prod.snd)) ≠ some cells' := by
  induction items generalizing cells with
  | nil => exact absurd List.Pairwise.nil hlead
  | cons a as ih =>
      cases ha : C.isCell a with
      | true =>
          obtain ⟨⟨r, t⟩, rest, hcell, hrest, rfl⟩ := (readAll_cell ha).mp hread
          obtain ⟨rest', hlabels, hcontents, hdrift⟩ :=
            ih (fun h => hlead ((leading_cell ha).mpr h)) hrest
          obtain ⟨x, -, hx, -⟩ := hP t
          refine ⟨(r, x) :: rest', by simp [hlabels],
            List.forall_mem_cons.mpr ⟨hx, hcontents⟩, fun h => hdrift ?_⟩
          rw [List.map_cons, writeAll, if_pos ha] at h
          have hwrite : C.isCell (C.write a x) = true := (C.isCell_write a x).trans ha
          obtain ⟨_, _, _, hrest', heq⟩ := (readAll_cell hwrite).mp h
          cases heq
          exact hrest'
      | false =>
          rw [readAll_skip as ha] at hread
          -- the first cell of the rest keeps its content or is given that of a later one
          cases cells with
          | nil =>
              exact absurd ((leading_skip ha).mpr (readAll_eq_nil hread)) hlead
          | cons cell rest =>
              obtain ⟨r, t⟩ := cell
              obtain ⟨x, y, hx, hy, hxt, hxy⟩ := hP t
              refine ⟨(r, x) :: rest.map fun c => (c.1, y), by simp, ?_, fun h => ?_⟩
              · refine List.forall_mem_cons.mpr ⟨hx, fun cell hcell => ?_⟩
                obtain ⟨_, -, rfl⟩ := List.mem_map.mp hcell
                exact hy
              have hcontents : (((r, x) :: rest.map fun c => (c.1, y)).map Prod.snd : List τ) =
                  x :: List.replicate rest.length y := by
                rw [List.map_cons, List.map_map]
                show x :: rest.map (fun _ => y) = _
                rw [List.map_const']
              rw [hcontents, writeAll, if_neg (by simp [ha]), readAll_skip _ ha] at h
              rcases head_writeAll_replicate hread y rest.length h with hhead | hhead
              · cases hhead
                exact hxt rfl
              · cases hhead
                exact hxy rfl

/-- **When the writer and the reader agree.** Every list of contents with the property
is read back, exactly when the cells lead. -/
theorem put_get_iff {P : τ → Prop} (hP : Varied P) {items : List α} {cells : List (ρ × τ)}
    (hread : C.readAll items = some cells) :
    (∀ cells' : List (ρ × τ), cells'.map Prod.fst = cells.map Prod.fst →
      (∀ cell ∈ cells', P cell.2) →
      C.readAll (C.writeAll items (cells'.map Prod.snd)) = some cells') ↔ C.Leading items := by
  constructor
  · intro h
    by_contra hlead
    obtain ⟨cells', hlabels, hcontents, hdrift⟩ := exists_drift hP hlead hread
    exact hdrift (h cells' hlabels hcontents)
  · intro hlead cells' hlabels _
    exact readAll_writeAll hlead hread hlabels

/-- An item after the writer is an item from before, or a cell written to. -/
theorem mem_writeAll {items : List α} {ts : List τ} {b : α} (h : b ∈ C.writeAll items ts) :
    b ∈ items ∨ ∃ a ∈ items, ∃ t ∈ ts, C.isCell a = true ∧ b = C.write a t := by
  induction items generalizing ts with
  | nil => cases h
  | cons a as ih =>
      cases ts with
      | nil => exact Or.inl h
      | cons t ts =>
          rw [writeAll] at h
          rcases List.mem_cons.mp h with heq | hrest
          · split at heq
            · rename_i ha
              exact Or.inr ⟨a, List.mem_cons_self, t, List.mem_cons_self, ha, heq⟩
            · exact Or.inl (heq ▸ List.mem_cons_self)
          · rcases ih hrest with hmem | ⟨a', ha', t', ht', hcell, heq⟩
            · exact Or.inl (List.mem_cons_of_mem a hmem)
            · exact Or.inr ⟨a', List.mem_cons_of_mem a ha', t', List.mem_cons_of_mem t ht',
                hcell, heq⟩

/-- A test of all items after the writer, where the cells lead and each is written to:
`g` tests what is left of the items, `p` the contents. -/
theorem all_writeAll {f g : α → Bool} {p : τ → Bool}
    (hcell : ∀ a t, C.isCell a = true → f (C.write a t) = (g a && p t))
    (hskip : ∀ a, C.isCell a = false → f a = g a) {items : List α} (hlead : C.Leading items)
    {ts : List τ} (hlength : ts.length = items.countP C.isCell) :
    (C.writeAll items ts).all f = (items.all g && ts.all p) := by
  induction items generalizing ts with
  | nil =>
      obtain rfl := List.eq_nil_of_length_eq_zero hlength
      rfl
  | cons a as ih =>
      cases ha : C.isCell a with
      | true =>
          rw [List.countP_cons_of_pos ha] at hlength
          obtain ⟨t, ts, rfl⟩ := List.exists_cons_of_length_eq_add_one hlength
          rw [writeAll, if_pos ha, List.all_cons, List.all_cons, List.all_cons, hcell a t ha,
            ih ((leading_cell ha).mp hlead) (Nat.succ.inj hlength)]
          ac_rfl
      | false =>
          have hnone : ∀ b ∈ a :: as, C.isCell b = false :=
            List.forall_mem_cons.mpr ⟨ha, (leading_skip ha).mp hlead⟩
          have hzero : (a :: as).countP C.isCell = 0 :=
            List.countP_eq_zero.mpr fun b hb => by simp [hnone b hb]
          obtain rfl := List.eq_nil_of_length_eq_zero (hlength.trans hzero)
          rw [writeAll_nil, List.all_nil, Bool.and_true, Bool.eq_iff_iff, List.all_eq_true,
            List.all_eq_true]
          exact forall₂_congr fun b hb => by rw [hskip b (hnone b hb)]

/-- Every cell was read. -/
theorem read_of_readAll {items : List α} {cells : List (ρ × τ)}
    (hread : C.readAll items = some cells) {a : α} (ha : a ∈ items) (hcell : C.isCell a = true) :
    ∃ r t, C.read a = some (r, t) := by
  induction items generalizing cells with
  | nil => cases ha
  | cons b as ih =>
      cases hb : C.isCell b with
      | true =>
          obtain ⟨⟨r, t⟩, rest, hcell', hrest, -⟩ := (readAll_cell hb).mp hread
          rcases List.mem_cons.mp ha with rfl | ha
          · exact ⟨r, t, hcell'⟩
          · exact ih hrest ha
      | false =>
          rcases List.mem_cons.mp ha with rfl | ha
          · rw [hb] at hcell
            cases hcell
          · exact ih (readAll_skip as hb ▸ hread) ha

theorem length_of_readAll {items : List α} {cells : List (ρ × τ)}
    (hread : C.readAll items = some cells) : cells.length = items.countP C.isCell := by
  induction items generalizing cells with
  | nil =>
      cases hread
      rfl
  | cons a as ih =>
      cases ha : C.isCell a with
      | true =>
          obtain ⟨cell, rest, -, hrest, rfl⟩ := (readAll_cell ha).mp hread
          rw [List.length_cons, ih hrest, List.countP_cons_of_pos ha]
      | false =>
          rw [readAll_skip as ha] at hread
          rw [ih hread, List.countP_cons_of_neg (by simp [ha])]

end Cell

/-! ## What the writer leaves alone

The frame law: a cell whose content is not new is left as it is, and so is what
is no cell. The writer keeps the law for every list of contents exactly when,
as far as it reaches, cells come first and each of them is the same after its
own content is written to it (`frame_iff`). -/

/-- `bs` are the items `as` when only the cells with a new content are touched;
the pairs are the content read and the content given, cell by cell. -/
inductive Frame (isCell : α → Bool) (touch : α → α → Prop) :
    List α → List (τ × τ) → List α → Prop
  | nil : Frame isCell touch [] [] []
  | skip {a : α} {as bs : List α} {pairs : List (τ × τ)} :
      isCell a = false → Frame isCell touch as pairs bs →
      Frame isCell touch (a :: as) pairs (a :: bs)
  | same {a : α} {as bs : List α} {t : τ} {pairs : List (τ × τ)} :
      isCell a = true → Frame isCell touch as pairs bs →
      Frame isCell touch (a :: as) ((t, t) :: pairs) (a :: bs)
  | changed {a b : α} {as bs : List α} {t t' : τ} {pairs : List (τ × τ)} :
      isCell a = true → t ≠ t' → touch a b → Frame isCell touch as pairs bs →
      Frame isCell touch (a :: as) ((t, t') :: pairs) (b :: bs)

namespace Frame

variable {isCell : α → Bool} {touch : α → α → Prop} {a b : α} {as bs : List α} {t t' : τ}
  {pairs : List (τ × τ)}

theorem of_skip (ha : isCell a = false) (h : Frame isCell touch (a :: as) pairs (b :: bs)) :
    Frame isCell touch as pairs bs := by
  cases h with
  | skip _ h => exact h
  | same hcell _ => simp [ha] at hcell
  | changed hcell _ _ _ => simp [ha] at hcell

theorem of_cell (ha : isCell a = true)
    (h : Frame isCell touch (a :: as) ((t, t') :: pairs) (b :: bs)) :
    (t = t' → b = a) ∧ Frame isCell touch as pairs bs := by
  cases h with
  | skip hcell _ => simp [ha] at hcell
  | same _ h => exact ⟨fun _ => rfl, h⟩
  | changed _ hne _ h => exact ⟨fun heq => absurd heq hne, h⟩

theorem cell (ha : isCell a = true) (hsame : t = t' → b = a) (htouch : touch a b)
    (h : Frame isCell touch as pairs bs) :
    Frame isCell touch (a :: as) ((t, t') :: pairs) (b :: bs) := by
  by_cases ht : t = t'
  · rw [hsame ht, ← ht]
    exact same ha h
  · exact changed ha ht htouch h

/-- With no new content, nothing is touched. -/
theorem eq_of_same {items items' : List α} (h : Frame isCell touch items pairs items')
    (hsame : ∀ pair ∈ pairs, pair.1 = pair.2) : items' = items := by
  induction h with
  | nil => rfl
  | skip _ _ ih => rw [ih hsame]
  | same _ _ ih => rw [ih (List.forall_mem_cons.mp hsame).2]
  | changed _ hne _ _ _ => exact absurd (List.forall_mem_cons.mp hsame).1 hne

/-- Leaving everything alone keeps the law. -/
theorem refl (htouch : ∀ a, touch a a) {items : List α} {pairs : List (τ × τ)}
    (hlength : pairs.length = items.countP isCell) : Frame isCell touch items pairs items := by
  induction items generalizing pairs with
  | nil =>
      obtain rfl := List.eq_nil_of_length_eq_zero hlength
      exact nil
  | cons a as ih =>
      cases ha : isCell a with
      | true =>
          rw [List.countP_cons_of_pos ha] at hlength
          obtain ⟨⟨t, t'⟩, rest, rfl⟩ := List.exists_cons_of_length_eq_add_one hlength
          exact cell ha (fun _ => rfl) (htouch a) (ih (Nat.succ.inj hlength))
      | false =>
          rw [List.countP_cons_of_neg (by simp [ha])] at hlength
          exact skip ha (ih hlength)

end Frame

namespace Cell

/-- Writing its own content back changes nothing. -/
def Stable (C : Cell α ρ τ) (a : α) : Prop := ∀ r t, C.read a = some (r, t) → C.write a t = a

/-- Each content given is the one read, or has the property. -/
def Allowed (P : τ → Prop) (pairs : List (τ × τ)) : Prop :=
  ∀ pair ∈ pairs, pair.2 = pair.1 ∨ P pair.2

theorem allowed_same {P : τ → Prop} (ts : List τ) : Allowed P (ts.zip ts) := by
  intro pair hpair
  rw [List.zip_eq_zipWith, List.zipWith_self] at hpair
  obtain ⟨t, -, rfl⟩ := List.mem_map.mp hpair
  exact Or.inl rfl

/-- Where no cell is in reach of the contents, writing changes nothing. -/
theorem writeAll_of_no_cell {items : List α} {ts : List τ}
    (h : ∀ a ∈ items.take ts.length, C.isCell a = false) : C.writeAll items ts = items := by
  induction items generalizing ts with
  | nil => rfl
  | cons a as ih =>
      cases ts with
      | nil => rfl
      | cons t ts =>
          rw [List.length_cons, List.take_succ_cons, List.forall_mem_cons] at h
          rw [writeAll, if_neg (by simp [h.1]), ih h.2]

/-- A first content that is kept, and others that are not its own: the first
cell of the items is out of reach. -/
theorem no_cell_of_frame {touch : α → α → Prop} {items : List α} {r : ρ} {t t' : τ}
    {rest : List (ρ × τ)} {pairs : List (τ × τ)} (hne : t' ≠ t)
    (hread : C.readAll items = some ((r, t) :: rest)) {n : ℕ}
    (hframe : Frame C.isCell touch items ((t, t) :: pairs)
      (C.writeAll items (List.replicate n t'))) :
    ∀ a ∈ items.take n, C.isCell a = false := by
  induction items generalizing n with
  | nil => cases hread
  | cons a as ih =>
      cases n with
      | zero => simp
      | succ n =>
          rw [List.replicate_succ, writeAll] at hframe
          cases ha : C.isCell a with
          | true =>
              obtain ⟨_, _, hcell, -, heq⟩ := (readAll_cell ha).mp hread
              cases heq
              rw [if_pos ha] at hframe
              have hkeep : C.write a t' = a := (Frame.of_cell ha hframe).1 rfl
              have hwritten := C.read_write a r t t' ha hcell
              rw [hkeep, hcell] at hwritten
              cases hwritten
              exact absurd rfl hne
          | false =>
              rw [if_neg (by simp [ha])] at hframe
              rw [readAll_skip as ha] at hread
              rw [List.take_succ_cons, List.forall_mem_cons]
              exact ⟨ha, ih hread (Frame.of_skip ha hframe)⟩

theorem frame_of_leading {touch : α → α → Prop} (htouch : ∀ a, touch a a)
    (hwrite : ∀ a t, touch a (C.write a t)) {items : List α} {cells : List (ρ × τ)}
    (hread : C.readAll items = some cells) (hlead : C.Leading (items.take cells.length))
    (hstable : ∀ a ∈ items.take cells.length, C.isCell a = true → C.Stable a) {ts : List τ}
    (hlength : ts.length = cells.length) :
    Frame C.isCell touch items ((cells.map Prod.snd).zip ts) (C.writeAll items ts) := by
  induction items generalizing cells ts with
  | nil =>
      cases hread
      exact Frame.nil
  | cons a as ih =>
      cases ha : C.isCell a with
      | true =>
          obtain ⟨⟨r, t⟩, rest, hcell, hrest, rfl⟩ := (readAll_cell ha).mp hread
          obtain ⟨t', ts, rfl⟩ := List.exists_cons_of_length_eq_add_one hlength
          rw [List.length_cons, List.take_succ_cons] at hlead hstable
          obtain ⟨hkeep, hstable⟩ := List.forall_mem_cons.mp hstable
          rw [List.map_cons, List.zip_cons_cons, writeAll, if_pos ha]
          refine Frame.cell ha ?_ (hwrite a t') (ih hrest ((leading_cell ha).mp hlead) hstable
            (Nat.succ.inj hlength))
          rintro rfl
          exact hkeep ha r t hcell
      | false =>
          have hcount := length_of_readAll hread
          have hnone : ∀ b ∈ (a :: as).take ts.length, C.isCell b = false := by
            rw [hlength]
            cases hn : cells.length with
            | zero => simp
            | succ n =>
                rw [hn, List.take_succ_cons] at hlead
                rw [List.take_succ_cons, List.forall_mem_cons]
                exact ⟨ha, (leading_skip ha).mp hlead⟩
          rw [writeAll_of_no_cell hnone]
          apply Frame.refl htouch
          rw [← hcount, List.length_zip, List.length_map, hlength, Nat.min_self]

theorem leading_of_frame {P : τ → Prop} (hP : Varied P) {touch : α → α → Prop} {items : List α}
    {cells : List (ρ × τ)} (hread : C.readAll items = some cells)
    (h : ∀ ts : List τ, ts.length = cells.length → Allowed P ((cells.map Prod.snd).zip ts) →
      Frame C.isCell touch items ((cells.map Prod.snd).zip ts) (C.writeAll items ts)) :
    C.Leading (items.take cells.length) ∧
      ∀ a ∈ items.take cells.length, C.isCell a = true → C.Stable a := by
  induction items generalizing cells with
  | nil =>
      rw [List.take_nil]
      exact ⟨List.Pairwise.nil, by simp⟩
  | cons a as ih =>
      cases ha : C.isCell a with
      | true =>
          obtain ⟨⟨r, t⟩, rest, hcell, hrest, rfl⟩ := (readAll_cell ha).mp hread
          have hcons : ∀ ts : List τ, ts.length = rest.length →
              Allowed P ((rest.map Prod.snd).zip ts) → C.write a t = a ∧
              Frame C.isCell touch as ((rest.map Prod.snd).zip ts) (C.writeAll as ts) := by
            intro ts hlength hallowed
            have hframe := h (t :: ts) (by rw [List.length_cons, List.length_cons, hlength])
              (List.forall_mem_cons.mpr ⟨Or.inl rfl, hallowed⟩)
            rw [List.map_cons, List.zip_cons_cons, writeAll, if_pos ha] at hframe
            exact ⟨(Frame.of_cell ha hframe).1 rfl, (Frame.of_cell ha hframe).2⟩
          obtain ⟨hlead, hstable⟩ := ih hrest fun ts hlength hallowed =>
            (hcons ts hlength hallowed).2
          rw [List.length_cons, List.take_succ_cons]
          refine ⟨(leading_cell ha).mpr hlead, List.forall_mem_cons.mpr ⟨fun _ r' t' hcell' => ?_,
            hstable⟩⟩
          rw [hcell] at hcell'
          cases hcell'
          exact (hcons (rest.map Prod.snd) (List.length_map _) (allowed_same _)).1
      | false =>
          rw [readAll_skip as ha] at hread
          cases cells with
          | nil => exact ⟨List.Pairwise.nil, by simp⟩
          | cons cell rest =>
              obtain ⟨r, t⟩ := cell
              obtain ⟨t', -, ht', -, hne, -⟩ := hP t
              -- The first content stands beside what is no cell; the others are given `t'`.
              have hothers : Allowed P ((rest.map Prod.snd).zip (List.replicate rest.length t')) :=
                fun pair hpair => Or.inr
                  ((List.eq_of_mem_replicate (List.of_mem_zip hpair).2).symm ▸ ht')
              have hframe := h (t :: List.replicate rest.length t') (by simp)
                (List.forall_mem_cons.mpr ⟨Or.inl rfl, hothers⟩)
              rw [List.map_cons, List.zip_cons_cons, writeAll, if_neg (by simp [ha])] at hframe
              have hnone := no_cell_of_frame hne hread (Frame.of_skip ha hframe)
              rw [List.length_cons, List.take_succ_cons]
              refine ⟨(leading_skip ha).mpr hnone, List.forall_mem_cons.mpr ⟨?_, ?_⟩⟩
              · intro hcell
                simp [ha] at hcell
              · intro b hb hcell
                simp [hnone b hb] at hcell

/-- **When the writer touches only what is new.** -/
theorem frame_iff {P : τ → Prop} (hP : Varied P) (touch : α → α → Prop) (htouch : ∀ a, touch a a)
    (hwrite : ∀ a t, touch a (C.write a t)) {items : List α} {cells : List (ρ × τ)}
    (hread : C.readAll items = some cells) :
    (∀ ts : List τ, ts.length = cells.length → Allowed P ((cells.map Prod.snd).zip ts) →
      Frame C.isCell touch items ((cells.map Prod.snd).zip ts) (C.writeAll items ts)) ↔
      C.Leading (items.take cells.length) ∧
        ∀ a ∈ items.take cells.length, C.isCell a = true → C.Stable a := by
  constructor
  · exact leading_of_frame hP hread
  · rintro ⟨hlead, hstable⟩ ts hlength _
    exact frame_of_leading htouch hwrite hread hlead hstable hlength

end Cell

end Traversal
