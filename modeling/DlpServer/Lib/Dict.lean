import Mathlib

/-!
# Insertion-ordered dictionaries

A Python `dict` as the list of its items: assignment to a key that is there
replaces the value in place, to a new key appends. Keys are distinct in every
dictionary built from the empty one by these operations (`keys_set`).
-/

namespace DlpServer

abbrev Dict (κ ν : Type*) : Type _ := List (κ × ν)

namespace Dict

variable {κ ν : Type*} [DecidableEq κ]

/-- `d.get(k)`. -/
def get? (k : κ) : Dict κ ν → Option ν
  | [] => none
  | (k', v) :: d => if k' = k then some v else get? k d

/-- `d[k] = v`. -/
def set (k : κ) (v : ν) : Dict κ ν → Dict κ ν
  | [] => [(k, v)]
  | (k', v') :: d => if k' = k then (k, v) :: d else (k', v') :: set k v d

/-- `del d[k]`, `d.pop(k, None)`. -/
def erase (k : κ) (d : Dict κ ν) : Dict κ ν := d.filter (·.1 ≠ k)

def keys (d : Dict κ ν) : List κ := d.map Prod.fst

def values (d : Dict κ ν) : List ν := d.map Prod.snd

theorem get?_set (k k' : κ) (v : ν) (d : Dict κ ν) :
    get? k' (set k v d) = if k = k' then some v else get? k' d := by
  induction d with
  | nil => rfl
  | cons item d ih =>
      obtain ⟨k₀, v₀⟩ := item
      by_cases h : k₀ = k
      · subst h
        simp only [set, get?, if_true]
        split <;> rfl
      · simp only [set, if_neg h, get?, ih]
        by_cases h₀ : k₀ = k'
        · subst h₀
          rw [if_pos rfl, if_neg (Ne.symm h), if_pos rfl]
        · simp only [if_neg h₀]

/-- Assigning the value that is there changes nothing. -/
theorem set_get? {k : κ} {v : ν} {d : Dict κ ν} (h : get? k d = some v) : set k v d = d := by
  induction d with
  | nil => cases h
  | cons item d ih =>
      obtain ⟨k₀, v₀⟩ := item
      rw [get?] at h
      by_cases hk : k₀ = k
      · rw [if_pos hk] at h
        cases h
        rw [set, if_pos hk, hk]
      · rw [if_neg hk] at h
        rw [set, if_neg hk, ih h]

theorem get?_eq_none {k : κ} {d : Dict κ ν} : get? k d = none ↔ k ∉ keys d := by
  induction d with
  | nil => simp [get?, keys]
  | cons item d ih =>
      by_cases h : item.1 = k
      · simp [get?, keys, h]
      · simp only [get?, if_neg h, ih, keys, List.map_cons, List.mem_cons, not_or]
        exact ⟨fun hd => ⟨Ne.symm h, hd⟩, fun hd => hd.2⟩

theorem mem_of_get? {k : κ} {v : ν} {d : Dict κ ν} (h : get? k d = some v) : (k, v) ∈ d := by
  induction d with
  | nil => cases h
  | cons item d ih =>
      obtain ⟨k₀, v₀⟩ := item
      simp only [get?] at h
      split at h
      · rename_i hk
        cases h
        rw [hk]
        exact List.mem_cons_self
      · exact List.mem_cons_of_mem _ (ih h)

theorem mem_iff_get? {k : κ} {v : ν} {d : Dict κ ν} (hd : (keys d).Nodup) :
    (k, v) ∈ d ↔ get? k d = some v := by
  refine ⟨fun h => ?_, mem_of_get?⟩
  induction d with
  | nil => cases h
  | cons item d ih =>
      obtain ⟨hnot, hd⟩ := List.nodup_cons.mp hd
      rcases List.mem_cons.mp h with rfl | h
      · simp [get?]
      · have hne : item.1 ≠ k := by
          rintro rfl
          exact hnot (List.mem_map.mpr ⟨_, h, rfl⟩)
        rw [get?, if_neg hne]
        exact ih hd h

theorem keys_set (k : κ) (v : ν) (d : Dict κ ν) :
    keys (set k v d) = if k ∈ keys d then keys d else keys d ++ [k] := by
  induction d with
  | nil => rfl
  | cons item d ih =>
      by_cases h : item.1 = k
      · simp [set, keys, h]
      · simp only [keys] at ih
        simp only [set, keys, if_neg h, List.map_cons, ih, List.mem_cons, Ne.symm h, false_or]
        by_cases hk : k ∈ d.map Prod.fst <;> simp [hk]

theorem nodup_set {k : κ} {v : ν} {d : Dict κ ν} (hd : (keys d).Nodup) :
    (keys (set k v d)).Nodup := by
  rw [keys_set]
  split
  · exact hd
  · rename_i hk
    exact hd.append (List.nodup_singleton k) (by simpa using hk)

/-- Assignment to a key that is there changes one item. -/
theorem set_split {k : κ} {v : ν} {d : Dict κ ν} (h : get? k d = some v) :
    ∃ front back, d = front ++ (k, v) :: back ∧ ∀ w, set k w d = front ++ (k, w) :: back := by
  induction d with
  | nil => cases h
  | cons item d ih =>
      rw [get?] at h
      by_cases hk : item.1 = k
      · rw [if_pos hk] at h
        refine ⟨[], d, ?_, fun w => ?_⟩
        · rw [← hk, ← Option.some.inj h]
          rfl
        · rw [set, if_pos hk]
          rfl
      · rw [if_neg hk] at h
        obtain ⟨front, back, hd, hset⟩ := ih h
        refine ⟨item :: front, back, ?_, fun w => ?_⟩
        · rw [hd]
          rfl
        · rw [set, if_neg hk, hset]
          rfl

/-- The items under a key. -/
theorem filter_key {k : κ} {v : ν} {d : Dict κ ν} (hd : (keys d).Nodup) (h : get? k d = some v) :
    d.filter (·.1 = k) = [(k, v)] := by
  induction d with
  | nil => cases h
  | cons item d ih =>
      obtain ⟨hnot, hd⟩ := List.nodup_cons.mp hd
      rw [get?] at h
      by_cases hk : item.1 = k
      · rw [if_pos hk] at h
        have hrest : d.filter (·.1 = k) = [] := by
          refine List.filter_eq_nil_iff.mpr fun p hp heq => hnot ?_
          rw [hk, ← of_decide_eq_true heq]
          exact List.mem_map.mpr ⟨p, hp, rfl⟩
        have hitem : item = (k, v) := Prod.ext hk (Option.some.inj h)
        rw [List.filter_cons_of_pos (by simp [hk]), hrest, hitem]
      · rw [if_neg hk] at h
        rw [List.filter_cons_of_neg (by simp [hk]), ih hd h]

end Dict

end DlpServer
