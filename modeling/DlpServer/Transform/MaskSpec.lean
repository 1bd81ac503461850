import DlpServer.Transform.Apply

/-!
# What a mask shows

A mask shows characters of the value, stars and a hyphen, and is as long as the
value unless the value is a number of another form than it is taken for.
-/

namespace DlpServer.Transform

variable {u : Unicode}

/-! ## Characters -/

theorem mem_maskMiddle {value : Text} {c : Char} (h : c ∈ maskMiddle value) :
    c ∈ value ∨ c = '*' := by
  unfold maskMiddle at h
  split at h
  · cases h
  · exact Or.inr (List.mem_singleton.mp h)
  · rcases List.mem_cons.mp h with rfl | h
    · exact Or.inl List.mem_cons_self
    · exact Or.inr (List.mem_singleton.mp h)
  · rename_i a b rest
    rcases List.mem_cons.mp h with rfl | h
    · exact Or.inl List.mem_cons_self
    · rcases List.mem_append.mp h with h | h
      · exact Or.inr (List.eq_of_mem_replicate h)
      · rw [List.mem_singleton.mp h]
        exact Or.inl (List.mem_cons_of_mem _ (List.getLast_mem _))

theorem mem_maskKeepLastDigits {value : Text} {keep : ℕ} {c : Char}
    (h : c ∈ maskKeepLastDigits u value keep) : c ∈ value ∨ c = '*' := by
  unfold maskKeepLastDigits at h
  dsimp only at h
  split at h
  · exact Or.inl h
  · obtain ⟨p, hp, rfl⟩ := List.mem_map.mp h
    split
    · exact Or.inl (List.fst_mem_of_mem_zipIdx hp)
    · exact Or.inr rfl

theorem mem_maskRrn {value : Text} {c : Char} (h : c ∈ maskRrn u value) :
    c ∈ value ∨ c = '*' ∨ c = '-' := by
  unfold maskRrn at h
  dsimp only at h
  split at h
  · exact (mem_maskMiddle h).imp_right Or.inl
  · rcases List.mem_append.mp h with h | h
    · exact Or.inl (List.mem_filter.mp (List.mem_of_mem_take h)).1
    · rcases List.mem_cons.mp h with h | h
      · exact Or.inr (Or.inr h)
      · exact Or.inr (Or.inl (List.eq_of_mem_replicate h))

/-- The value around its first `@`. -/
theorem partition_at (value : Text) :
    (∃ domain, value.dropWhile (· != '@') = '@' :: domain ∧
      value = value.takeWhile (· != '@') ++ '@' :: domain) ∨
    value.dropWhile (· != '@') = [] ∧ '@' ∉ value := by
  have hsplit : value.takeWhile (· != '@') ++ value.dropWhile (· != '@') = value :=
    List.takeWhile_append_dropWhile
  cases hdrop : value.dropWhile (· != '@') with
  | nil =>
      refine Or.inr ⟨rfl, fun hmem => ?_⟩
      have := List.dropWhile_eq_nil_iff.mp hdrop '@' hmem
      simp at this
  | cons c domain =>
      have hc : c = '@' := by
        have hne : value.dropWhile (· != '@') ≠ [] := by
          rw [hdrop]
          exact List.cons_ne_nil _ _
        have hhead := List.head_dropWhile_not (· != '@') hne
        simpa [hdrop] using hhead
      subst hc
      rw [hdrop] at hsplit
      exact Or.inl ⟨domain, rfl, hsplit.symm⟩

theorem mem_maskEmail {value : Text} {c : Char} (h : c ∈ maskEmail value) :
    c ∈ value ∨ c = '*' := by
  unfold maskEmail at h
  rcases partition_at value with ⟨domain, hdrop, hvalue⟩ | ⟨hdrop, -⟩
  · rw [hdrop] at h
    rcases List.mem_append.mp h with h | h
    · refine (mem_maskMiddle h).imp_left fun h => ?_
      rw [hvalue]
      exact List.mem_append_left _ h
    · rw [hvalue]
      exact Or.inl (List.mem_append_right _ h)
  · rw [hdrop] at h
    exact mem_maskMiddle h

/-- **A mask shows nothing foreign.** -/
theorem mem_mask {s : Span} {c : Char} (h : c ∈ mask u s) :
    c ∈ s.value ∨ c = '*' ∨ c = '-' := by
  unfold mask at h
  split at h
  · exact mem_maskRrn h
  · split at h
    · exact (mem_maskKeepLastDigits h).imp_right Or.inl
    · split at h
      · exact (mem_maskEmail h).imp_right Or.inl
      · split at h <;> exact (mem_maskMiddle h).imp_right Or.inl

/-! ## Length -/

theorem length_maskMiddle (value : Text) : (maskMiddle value).length = value.length := by
  unfold maskMiddle
  split
  · rfl
  · rfl
  · rfl
  · simp only [List.length_cons, List.length_append, List.length_replicate, List.length_nil]

theorem length_maskKeepLastDigits (value : Text) (keep : ℕ) :
    (maskKeepLastDigits u value keep).length = value.length := by
  unfold maskKeepLastDigits
  dsimp only
  split
  · rfl
  · rw [List.length_map, List.length_zipIdx]

theorem length_maskEmail (value : Text) : (maskEmail value).length = value.length := by
  unfold maskEmail
  rcases partition_at value with ⟨domain, hdrop, hvalue⟩ | ⟨hdrop, -⟩
  · rw [hdrop]
    dsimp only
    rw [List.length_append, length_maskMiddle, ← List.length_append, ← hvalue]
  · rw [hdrop]
    exact length_maskMiddle value

/-- A mask is no shorter than the value, if a resident number has at most one
character between its digits. -/
theorem length_le_mask (s : Span) (hrrn : s.type = "RRN" → s.value.length ≤ 14) :
    s.value.length ≤ (mask u s).length := by
  unfold mask
  split
  · rename_i htype
    unfold maskRrn
    dsimp only
    split
    · exact (length_maskMiddle s.value).ge
    · rename_i hdigits
      rw [not_not] at hdigits
      rw [List.length_append, List.length_take, hdigits, List.length_cons, List.length_replicate]
      exact hrrn htype
  · split
    · exact (length_maskKeepLastDigits s.value _).ge
    · split
      · exact (length_maskEmail s.value).ge
      · split <;> exact (length_maskMiddle s.value).ge

/-! ## Stars -/

theorem star_mem_maskMiddle {value : Text} (h : 3 ≤ value.length) : '*' ∈ maskMiddle value := by
  match value, h with
  | a :: b :: c :: rest, _ =>
      exact List.mem_cons_of_mem _ (List.mem_append_left _ List.mem_cons_self)

/-- The places of the hits in a stretch that begins at `start`. -/
theorem length_places (value : Text) (p : Char → Bool) (start : ℕ) :
    (((value.zipIdx start).filter fun q => p q.1).map Prod.snd).length =
      (value.filter p).length := by
  have hfst := List.filter_map (f := Prod.fst) (p := p) (l := value.zipIdx start)
  rw [List.zipIdx_map_fst] at hfst
  rw [hfst, List.length_map, List.length_map]
  rfl

/-- Where more digits stand than are kept, one is starred. -/
theorem star_mem_maskKeepLastDigits {value : Text} {keep : ℕ}
    (h : keep < (value.filter u.isDigit).length) : '*' ∈ maskKeepLastDigits u value keep := by
  let positions := (value.zipIdx.filter fun p => u.isDigit p.1).map Prod.snd
  have hlen : positions.length = (value.filter u.isDigit).length :=
    length_places value u.isDigit 0
  have hnodup : positions.Nodup := by
    have hall : (value.zipIdx.map Prod.snd).Nodup := by
      rw [List.zipIdx_map_snd]
      exact List.nodup_range'
    exact hall.sublist (List.filter_sublist.map _)
  -- The first digit position is not among the last ones.
  obtain ⟨i, rest, hcons⟩ : ∃ i rest, positions = i :: rest :=
    List.exists_cons_of_length_pos (by omega)
  have hdrop : i ∉ positions.drop (positions.length - keep) := by
    obtain ⟨k, hk⟩ : ∃ k, positions.length - keep = k + 1 :=
      ⟨positions.length - keep - 1, by omega⟩
    rw [hk, hcons, List.drop_succ_cons]
    rw [hcons] at hnodup
    exact fun hmem => (List.nodup_cons.mp hnodup).1 (List.mem_of_mem_drop hmem)
  have hi : i ∈ positions := by
    rw [hcons]
    exact List.mem_cons_self
  obtain ⟨p, hp, hpi⟩ := List.mem_map.mp hi
  obtain ⟨hp, hdigit⟩ := List.mem_filter.mp hp
  unfold maskKeepLastDigits
  dsimp only
  have hmany : ¬ positions.length ≤ keep := by omega
  rw [if_neg hmany]
  refine List.mem_map.mpr ⟨p, hp, ?_⟩
  rw [if_neg]
  rw [hdigit, hpi, Bool.not_true, Bool.false_or, decide_eq_true_eq]
  exact hdrop

end DlpServer.Transform
