import DlpServer.Transform.MaskSpec

/-!
# Where the characters of a mask come from

Beside each helper of `_mask` stands the list of the places in the value from which it
copies, `none` for a star or a hyphen of its own.
-/

namespace DlpServer.Transform

variable (u : Unicode)

/-! ## Origins -/

/-- `_mask_middle`. -/
def middleOrigins : ℕ → List (Option ℕ)
  | 0 => []
  | 1 => [none]
  | 2 => [some 0, none]
  | n + 3 => some 0 :: (List.replicate (n + 1) none ++ [some (n + 2)])

/-- `_mask_rrn`. -/
def rrnOrigins (value : Text) : List (Option ℕ) :=
  let positions := (value.zipIdx.filter fun p => u.isDecimal p.1).map Prod.snd
  if positions.length ≠ 13 then middleOrigins value.length
  else (positions.take 6).map some ++ none :: List.replicate 7 none

/-- `_mask_keep_last_digits`. -/
def keepLastOrigins (value : Text) (keep : ℕ) : List (Option ℕ) :=
  let digitPositions := (value.zipIdx.filter fun p => u.isDigit p.1).map Prod.snd
  if digitPositions.length ≤ keep then (List.range value.length).map some
  else
    let keepSet := digitPositions.drop (digitPositions.length - keep)
    value.zipIdx.map fun p =>
      if !u.isDigit p.1 || decide (p.2 ∈ keepSet) then some p.2 else none

/-- `_mask_email`. -/
def emailOrigins (value : Text) : List (Option ℕ) :=
  match value.dropWhile (· != '@') with
  | _ :: domain =>
      let start := (value.takeWhile (· != '@')).length
      middleOrigins start ++ (List.range' start (domain.length + 1)).map some
  | [] => middleOrigins value.length

/-- `_mask`. -/
def maskOrigins (span : Span) : List (Option ℕ) :=
  if span.type = "RRN" then rrnOrigins u span.value
  else if span.type ∈ ["CARD", "PHONE", "ACCOUNT"] then
    keepLastOrigins u span.value maskKeepLastN
  else if span.type = "EMAIL" then emailOrigins span.value
  else middleOrigins span.value.length

/-- The character is copied from the place, or made. -/
def Comes (text : Text) (o : Option ℕ) (c : Char) : Prop :=
  match o with
  | some i => text[i]? = some c
  | none => c = '*' ∨ c = '-'

/-! ## The mask and its origins -/

theorem forall₂_stars (text : Text) (n : ℕ) :
    List.Forall₂ (Comes text) (List.replicate n none) (List.replicate n '*') := by
  induction n with
  | zero => exact .nil
  | succ n ih => exact .cons (Or.inl rfl) ih

theorem Comes.append {text : Text} {o : Option ℕ} {c : Char} (h : Comes text o c) (t : Text) :
    Comes (text ++ t) o c := by
  cases o with
  | none => exact h
  | some i =>
      obtain ⟨hlt, -⟩ := List.getElem?_eq_some_iff.mp h
      show (text ++ t)[i]? = some c
      rw [List.getElem?_append_left hlt]
      exact h

/-- A stretch that is copied. -/
theorem forall₂_copied (b w t : Text) :
    List.Forall₂ (Comes (b ++ (w ++ t))) ((List.range' b.length w.length).map some) w := by
  induction w generalizing b with
  | nil => exact .nil
  | cons a w ih =>
      refine .cons ?_ ?_
      · show (b ++ (a :: w ++ t))[b.length]? = some a
        rw [List.getElem?_append_right le_rfl, Nat.sub_self]
        rfl
      · have h := ih (b ++ [a])
        rw [List.length_append, List.length_singleton, List.append_assoc] at h
        exact h

theorem forall₂_middle (value : Text) :
    List.Forall₂ (Comes value) (middleOrigins value.length) (maskMiddle value) := by
  match value with
  | [] => exact .nil
  | [c] => exact .cons (Or.inl rfl) .nil
  | [c, d] => exact .cons rfl (.cons (Or.inl rfl) .nil)
  | c :: d :: e :: rest =>
      have hlast : (c :: d :: e :: rest)[rest.length + 2]? =
          some ((d :: e :: rest).getLast (List.cons_ne_nil d _)) := by
        rw [List.getLast_eq_getElem, ← List.getElem?_eq_getElem]
        rfl
      refine .cons rfl (List.rel_append (forall₂_stars _ _) (.cons ?_ .nil))
      exact hlast

/-- The places that pass a test and what stands there. -/
theorem forall₂_places (value : Text) (p : Char → Bool) (n : ℕ) :
    List.Forall₂ (Comes value)
      ((((value.zipIdx.filter fun q => p q.1).map Prod.snd).take n).map some)
      ((value.filter p).take n) := by
  have hfst : value.filter p = (value.zipIdx.filter fun q => p q.1).map Prod.fst := by
    have := List.filter_map (f := Prod.fst) (p := p) (l := value.zipIdx)
    rwa [List.zipIdx_map_fst] at this
  have hget : ∀ q ∈ value.zipIdx.filter fun q => p q.1, Comes value (some q.2) q.1 :=
    fun q hq => List.mem_zipIdx_iff_getElem?.mp (List.mem_filter.mp hq).1
  rw [hfst, ← List.map_take, ← List.map_take, List.map_map, List.forall₂_map_left_iff,
    List.forall₂_map_right_iff, List.forall₂_same]
  exact fun q hq => hget q (List.mem_of_mem_take hq)

theorem forall₂_rrn (value : Text) :
    List.Forall₂ (Comes value) (rrnOrigins u value) (maskRrn u value) := by
  unfold rrnOrigins maskRrn digitsOf
  dsimp only
  rw [length_places]
  split
  · exact forall₂_middle value
  · exact List.rel_append (forall₂_places value u.isDecimal 6)
      (.cons (Or.inr rfl) (forall₂_stars value 7))

theorem forall₂_keepLast (value : Text) (keep : ℕ) :
    List.Forall₂ (Comes value) (keepLastOrigins u value keep) (maskKeepLastDigits u value keep) := by
  unfold keepLastOrigins maskKeepLastDigits
  dsimp only
  split
  · have h := forall₂_copied [] value []
    rwa [List.append_nil, List.nil_append, List.length_nil, ← List.range_eq_range'] at h
  · rw [List.forall₂_map_left_iff, List.forall₂_map_right_iff, List.forall₂_same]
    intro q hq
    split
    · exact List.mem_zipIdx_iff_getElem?.mp hq
    · exact Or.inl rfl

theorem forall₂_email (value : Text) :
    List.Forall₂ (Comes value) (emailOrigins value) (maskEmail value) := by
  unfold emailOrigins maskEmail
  rcases partition_at value with ⟨domain, hdrop, hvalue⟩ | ⟨hdrop, -⟩
  · rw [hdrop]
    generalize value.takeWhile (· != '@') = front at hvalue ⊢
    rw [hvalue]
    refine List.rel_append ((forall₂_middle front).imp fun o c h => h.append _) ?_
    have h := forall₂_copied front ('@' :: domain) []
    rwa [List.append_nil] at h
  · rw [hdrop]
    exact forall₂_middle value

/-- **Every character of a mask** is copied from its origin, or a star or a hyphen. -/
theorem forall₂_mask (s : Span) :
    List.Forall₂ (Comes s.value) (maskOrigins u s) (mask u s) := by
  unfold maskOrigins mask
  split
  · exact forall₂_rrn u s.value
  · split
    · exact forall₂_keepLast u s.value _
    · split
      · exact forall₂_email s.value
      · split <;> exact forall₂_middle s.value

/-! ## Places that are kept -/

/-- Every character stands where it stood, if it is shown. -/
def InPlace (origins : List (Option ℕ)) : Prop :=
  ∀ (i : ℕ) (o : Option ℕ), origins[i]? = some o → o = none ∨ o = some i

theorem inPlace_middle (n : ℕ) : InPlace (middleOrigins n) := by
  intro i o h
  match n with
  | 0 => cases h
  | 1 =>
      obtain rfl := List.mem_singleton.mp (List.mem_of_getElem? h)
      exact Or.inl rfl
  | 2 =>
      cases i with
      | zero => exact Or.inr (Option.some.inj h).symm
      | succ i =>
          obtain rfl := List.mem_singleton.mp (List.mem_of_getElem? (l := [none]) h)
          exact Or.inl rfl
  | n + 3 =>
      cases i with
      | zero => exact Or.inr (Option.some.inj h).symm
      | succ i =>
          rw [middleOrigins, List.getElem?_cons_succ] at h
          by_cases hi : i < n + 1
          · rw [List.getElem?_append_left (by rwa [List.length_replicate])] at h
            exact Or.inl (List.eq_of_mem_replicate (List.mem_of_getElem? h))
          · rw [List.getElem?_append_right (by rw [List.length_replicate]; omega),
              List.length_replicate] at h
            obtain ⟨hlt, -⟩ := List.getElem?_eq_some_iff.mp h
            have hin : i = n + 1 := by
              rw [List.length_singleton] at hlt
              omega
            rw [hin, Nat.sub_self] at h
            rw [hin]
            exact Or.inr (Option.some.inj h).symm

theorem getElem?_range'_map {start n i : ℕ} {o : Option ℕ}
    (h : ((List.range' start n).map some)[i]? = some o) : o = some (start + i) := by
  rw [List.getElem?_map] at h
  obtain ⟨j, hj, rfl⟩ := Option.map_eq_some_iff.mp h
  obtain ⟨hlt, hget⟩ := List.getElem?_eq_some_iff.mp hj
  rw [← hget, List.getElem_range', Nat.one_mul]

theorem inPlace_keepLast (value : Text) (keep : ℕ) :
    InPlace (keepLastOrigins u value keep) := by
  intro i o h
  unfold keepLastOrigins at h
  dsimp only at h
  split at h
  · rw [List.range_eq_range'] at h
    have := getElem?_range'_map h
    rw [Nat.zero_add] at this
    exact Or.inr this
  · rw [List.getElem?_map, List.getElem?_zipIdx] at h
    obtain ⟨q, hq, rfl⟩ := Option.map_eq_some_iff.mp h
    obtain ⟨c, -, rfl⟩ := Option.map_eq_some_iff.mp hq
    split
    · rw [Nat.zero_add]
      exact Or.inr rfl
    · exact Or.inl rfl

theorem length_middleOrigins (n : ℕ) : (middleOrigins n).length = n := by
  match n with
  | 0 => rfl
  | 1 => rfl
  | 2 => rfl
  | n + 3 =>
      rw [middleOrigins, List.length_cons, List.length_append, List.length_replicate,
        List.length_singleton]

theorem inPlace_email (value : Text) : InPlace (emailOrigins value) := by
  intro i o h
  unfold emailOrigins at h
  split at h
  · rename_i domain _
    dsimp only at h
    generalize (value.takeWhile (· != '@')).length = start at h
    by_cases hi : i < start
    · rw [List.getElem?_append_left (by rwa [length_middleOrigins])] at h
      exact inPlace_middle start i o h
    · rw [List.getElem?_append_right (by rw [length_middleOrigins]; omega),
        length_middleOrigins] at h
      have := getElem?_range'_map h
      rw [Nat.add_sub_cancel' (not_lt.mp hi)] at this
      exact Or.inr this
  · exact inPlace_middle _ i o h

/-- Of a number of thirteen digits the first six stay. -/
theorem rrnOrigins_split {x sep y : Text} (hx : x.length = 6 ∧ ∀ c ∈ x, u.isDecimal c = true)
    (hsep : ∀ c ∈ sep, u.isDecimal c = false) (hy : y.length = 7 ∧ ∀ c ∈ y, u.isDecimal c = true) :
    rrnOrigins u (x ++ (sep ++ y)) = (List.range 6).map some ++ List.replicate 8 none := by
  have hxall : x.filter u.isDecimal = x := List.filter_eq_self.mpr hx.2
  have hsepnone : sep.filter u.isDecimal = [] :=
    List.filter_eq_nil_iff.mpr fun c hc => by rw [hsep c hc]; exact Bool.false_ne_true
  have hyall : y.filter u.isDecimal = y := List.filter_eq_self.mpr hy.2
  have hcount : ((x ++ (sep ++ y)).filter u.isDecimal).length = 13 := by
    rw [List.filter_append, List.filter_append, hxall, hsepnone, hyall, List.nil_append,
      List.length_append, hx.1, hy.1]
  have hplaces : (((x ++ (sep ++ y)).zipIdx.filter fun q => u.isDecimal q.1).map Prod.snd).take 6 =
      List.range 6 := by
    have hfront : x.zipIdx.filter (fun q => u.isDecimal q.1) = x.zipIdx :=
      List.filter_eq_self.mpr fun q hq => hx.2 q.1 (List.fst_mem_of_mem_zipIdx hq)
    rw [List.zipIdx_append, List.filter_append, hfront, List.map_append, List.zipIdx_map_snd, hx.1,
      List.take_left' (by rw [List.length_range']), List.range_eq_range']
  rw [rrnOrigins, length_places, if_neg (not_not.mpr hcount), hplaces]
  rfl

theorem inPlace_shown (n m : ℕ) :
    InPlace ((List.range n).map some ++ List.replicate m none) := by
  intro i o h
  by_cases hi : i < n
  · rw [List.getElem?_append_left (by rwa [List.length_map, List.length_range]),
      List.range_eq_range'] at h
    have := getElem?_range'_map h
    rw [Nat.zero_add] at this
    exact Or.inr this
  · rw [List.getElem?_append_right (by rw [List.length_map, List.length_range]; omega)] at h
    exact Or.inl (List.eq_of_mem_replicate (List.mem_of_getElem? h))

/-! ## The last place -/

theorem middle_last {n : ℕ} (h : 3 ≤ n) : (middleOrigins n).getLast? = some (some (n - 1)) := by
  obtain ⟨k, rfl⟩ : ∃ k, n = k + 3 := ⟨n - 3, by omega⟩
  rw [middleOrigins, ← List.cons_append, List.getLast?_concat]
  rfl

theorem email_last {value : Text} (h : '@' ∈ value) :
    (emailOrigins value).getLast? = some (some (value.length - 1)) := by
  unfold emailOrigins
  rcases partition_at value with ⟨domain, hdrop, hvalue⟩ | ⟨-, hno⟩
  · have hlen := congrArg List.length hvalue
    rw [List.length_append, List.length_cons] at hlen
    rw [hdrop]
    dsimp only
    rw [List.range'_concat, List.map_append, ← List.append_assoc, List.map_singleton,
      List.getLast?_concat, Nat.one_mul, hlen]
    rfl
  · exact absurd h hno

/-- A digit at the end is among the last ones. -/
theorem keepLast_last {front : Text} {c : Char} {keep : ℕ} (hc : u.isDigit c = true)
    (hkeep : 0 < keep) :
    (keepLastOrigins u (front ++ [c]) keep).getLast? = some (some front.length) := by
  unfold keepLastOrigins
  dsimp only
  split
  · rw [List.length_append, List.length_singleton, List.range_succ, List.map_append,
      List.map_singleton, List.getLast?_concat]
  · have hplaces : ((front ++ [c]).zipIdx.filter fun q => u.isDigit q.1).map Prod.snd =
        (front.zipIdx.filter fun q => u.isDigit q.1).map Prod.snd ++ [front.length] := by
      have hlast : [(c, 0 + front.length)].filter (fun q => u.isDigit q.1) =
          [(c, 0 + front.length)] := List.filter_cons_of_pos hc
      rw [List.zipIdx_append, List.filter_append, List.map_append, List.zipIdx_singleton, hlast,
        List.map_singleton, Nat.zero_add]
    rw [hplaces]
    generalize (front.zipIdx.filter fun q => u.isDigit q.1).map Prod.snd = places
    have hmem : front.length ∈
        (places ++ [front.length]).drop ((places ++ [front.length]).length - keep) := by
      rw [List.length_append, List.length_singleton, List.drop_append_of_le_length (by omega)]
      exact List.mem_append_right _ List.mem_cons_self
    rw [List.zipIdx_append, List.map_append, List.zipIdx_singleton, List.map_singleton,
      List.getLast?_concat, Nat.zero_add, if_pos]
    rw [decide_eq_true hmem, Bool.or_true]

end DlpServer.Transform
