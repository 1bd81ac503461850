import Mathlib

/-!
# Grouping and ordering rows

`ORDER BY`, `LIMIT` and `GROUP BY` of SQL, on lists of rows. Two rows of an ordered list
stand as the order says (`pair_sublist`), what a limit cuts off stands behind the rest
(`mem_take_or_full`), and a count over the groups adds up to the count over the rows
(`sum_groups`).
-/

namespace DlpServer.Grouping

variable {α κ : Type*}

/-- The order in which a SELECT gives its rows, where the query leaves it open. -/
structure RowOrder (α : Type*) where
  arrange : List α → List α
  perm : ∀ rows, (arrange rows).Perm rows

/-- The order in which they are stored. -/
def RowOrder.stored : RowOrder α := ⟨id, List.Perm.refl⟩

/-! ## `ORDER BY` -/

/-- Where the order has one direction only, two members stand in it. -/
theorem pair_sublist {r : α → α → Prop} {l : List α} (hl : l.Pairwise r) {a b : α} (ha : a ∈ l)
    (hb : b ∈ l) (hba : ¬ r b a) (hne : a ≠ b) : [a, b].Sublist l := by
  induction l with
  | nil => cases ha
  | cons x l ih =>
      obtain ⟨hx, hl⟩ := List.pairwise_cons.mp hl
      rcases List.mem_cons.mp ha with rfl | hmem
      · have hb := List.mem_of_ne_of_mem hne.symm hb
        exact (List.singleton_sublist.mpr hb).cons_cons a
      · rcases List.mem_cons.mp hb with rfl | hb
        · exact absurd (hx a hmem) hba
        · exact (ih hl hmem hb).cons x

/-- A member of an ordered list is among its first `n`, or these are `n` and none of them
stands behind it. -/
theorem mem_take_or_full {r : α → α → Prop} {l : List α} (hl : l.Pairwise r) {a : α} (ha : a ∈ l)
    (n : ℕ) : a ∈ l.take n ∨ (l.take n).length = n ∧ ∀ b ∈ l.take n, r b a := by
  rw [← List.take_append_drop n l] at ha hl
  rcases List.mem_append.mp ha with htake | hdrop
  · exact Or.inl htake
  · refine Or.inr ⟨?_, fun b hb => (List.pairwise_append.mp hl).2.2 b hb a hdrop⟩
    have hlt := List.length_pos_of_mem hdrop
    rw [List.length_drop] at hlt
    rw [List.length_take]
    omega

/-! ## `GROUP BY` -/

section Groups

variable [DecidableEq κ]

/-- The keys that occur, each with its rows. -/
def groupBy (key : α → κ) (rows : List α) : List (κ × List α) :=
  (rows.map key).dedup.map fun k => (k, rows.filter fun r => key r = k)

theorem nodup_keys (key : α → κ) (rows : List α) :
    ((groupBy key rows).map Prod.fst).Nodup := by
  rw [groupBy, List.map_map, Function.comp_def, List.map_id'']
  · exact List.nodup_dedup _
  · exact fun _ => rfl

theorem mem_groupBy {key : α → κ} {rows : List α} {g : κ × List α} (hg : g ∈ groupBy key rows) :
    g.2 = rows.filter (fun r => key r = g.1) ∧ ∃ r ∈ rows, key r = g.1 := by
  obtain ⟨k, hk, rfl⟩ := List.mem_map.mp hg
  exact ⟨rfl, List.mem_map.mp (List.mem_dedup.mp hk)⟩

/-- Distinct keys that contain the key of every row split the rows. -/
theorem sum_filter_keys (key : α → κ) (p : α → Bool) {keys : List κ} (hkeys : keys.Nodup)
    {rows : List α} (hmem : ∀ r ∈ rows, key r ∈ keys) :
    (keys.map fun k => (rows.filter fun r => key r = k).countP p).sum = rows.countP p := by
  induction rows with
  | nil =>
      have hzero : ∀ k ∈ keys, (([] : List α).filter fun r => key r = k).countP p = 0 :=
        fun _ _ => rfl
      rw [List.map_congr_left hzero, List.map_const', List.sum_replicate, smul_zero,
        List.countP_nil]
  | cons r rows ih =>
      have hrest := ih fun r' hr' => hmem r' (List.mem_cons_of_mem _ hr')
      have hone : ∀ k, ((r :: rows).filter fun r => key r = k).countP p =
          (if key r = k then if p r then 1 else 0 else 0) +
            (rows.filter fun r => key r = k).countP p := by
        intro k
        by_cases hk : key r = k
        · rw [List.filter_cons_of_pos (by simpa using hk), List.countP_cons, if_pos hk, add_comm]
        · rw [List.filter_cons_of_neg (by simpa using hk), if_neg hk, zero_add]
      rw [List.map_congr_left fun k _ => hone k, List.sum_map_add, hrest, List.countP_cons,
        add_comm]
      congr 1
      have hr := hmem r List.mem_cons_self
      clear hone hrest ih hmem
      induction keys with
      | nil => cases hr
      | cons k keys ihk =>
          obtain ⟨hnot, hkeys⟩ := List.nodup_cons.mp hkeys
          rw [List.map_cons, List.sum_cons]
          by_cases hk : key r = k
          · have hzero : ∀ k' ∈ keys, (if key r = k' then if p r then 1 else 0 else 0) = 0 := by
              rintro k' hk'
              refine if_neg ?_
              rintro rfl
              exact hnot (hk ▸ hk')
            rw [if_pos hk, List.map_congr_left hzero, List.map_const', List.sum_replicate,
              smul_zero, add_zero]
          · rcases List.mem_cons.mp hr with hr | hr
            · exact absurd hr hk
            · rw [if_neg hk, zero_add]
              exact ihk hkeys hr

/-- **A count over the groups adds up to the count over the rows.** -/
theorem sum_groups (key : α → κ) (p : α → Bool) (rows : List α) :
    ((groupBy key rows).map fun g => g.2.countP p).sum = rows.countP p := by
  rw [groupBy, List.map_map]
  exact sum_filter_keys key p (List.nodup_dedup _)
    fun r hr => List.mem_dedup.mpr (List.mem_map_of_mem hr)

/-- `SELECT key, count(*) ... GROUP BY 1`. -/
def counts (key : α → κ) (rows : List α) : List (κ × ℕ) :=
  (groupBy key rows).map fun g => (g.1, g.2.length)

theorem nodup_counts (key : α → κ) (rows : List α) : ((counts key rows).map Prod.fst).Nodup := by
  rw [counts, List.map_map]
  exact nodup_keys key rows

/-- A key is listed with the number of its rows, when it has one. -/
theorem mem_counts {key : α → κ} {rows : List α} {k : κ} {n : ℕ} :
    (k, n) ∈ counts key rows ↔ n = rows.countP (fun r => key r = k) ∧ 0 < n := by
  constructor
  · intro h
    obtain ⟨g, hg, heq⟩ := List.mem_map.mp h
    obtain ⟨rfl, rfl⟩ := Prod.mk.inj heq
    obtain ⟨hrows, r, hr, hk⟩ := mem_groupBy hg
    have hmem : r ∈ g.2 := by
      rw [hrows]
      exact List.mem_filter.mpr ⟨hr, decide_eq_true hk⟩
    exact ⟨by rw [List.countP_eq_length_filter, hrows], List.length_pos_of_mem hmem⟩
  · rintro ⟨rfl, hpos⟩
    obtain ⟨r, hr, hk⟩ := List.countP_pos_iff.mp hpos
    have hkey : k ∈ (rows.map key).dedup :=
      List.mem_dedup.mpr (List.mem_map.mpr ⟨r, hr, of_decide_eq_true hk⟩)
    refine List.mem_map.mpr ⟨_, List.mem_map_of_mem hkey, ?_⟩
    rw [List.countP_eq_length_filter]

/-- **The counts add up to the number of rows.** -/
theorem sum_counts (key : α → κ) (rows : List α) :
    ((counts key rows).map Prod.snd).sum = rows.length := by
  have hsum := sum_groups key (fun _ => true) rows
  simp only [List.countP_true] at hsum
  rw [counts, List.map_map, ← hsum]
  rfl

end Groups

end DlpServer.Grouping
