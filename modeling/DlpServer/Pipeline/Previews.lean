import DlpServer.Detect.Surroundings
import DlpServer.Guardrail.OutputCheck
import DlpServer.Pipeline.Core

/-!
# What the audit log shows of a value

Of a span the log holds the preview that `_mask` makes. For a span of the patterns
the shape of the value is known, and with it what the preview shows
(`preview_bounded`): the branches of `_mask` that give a value back are out of reach.
-/

namespace DlpServer.Pipeline

open Regex Detect.RegexRules Transform

/-! ## The bound -/

/-- `Bounded u type value preview`: what a preview may show, by the type. -/
inductive Bounded (u : Unicode) : String → Text → Text → Prop
  /-- Six digits, perhaps a separator, seven digits: the first six. -/
  | rrn (x sep y : Text) (hx : x.length = 6 ∧ ∀ c ∈ x, u.isDecimal c = true)
      (hsep : ∀ c ∈ sep, u.isDecimal c = false)
      (hy : y.length = 7 ∧ ∀ c ∈ y, u.isDecimal c = true) :
      Bounded u "RRN" (x ++ (sep ++ y)) (x ++ '-' :: List.replicate 7 '*')
  /-- The last four digits, and what is no digit. -/
  | number {type : String} (front back : Text) (htype : type ∈ ["CARD", "PHONE", "ACCOUNT"])
      (hback : (back.filter u.isDigit).length = 4) (hfront : ∃ c ∈ front, u.isDigit c = true) :
      Bounded u type (front ++ back)
        (front.map (fun c => if u.isDigit c then '*' else c) ++ back)
  /-- The first and the last character. -/
  | bizno (c d : Char) (middle : Text) (hmiddle : middle ≠ []) :
      Bounded u "BIZNO" (c :: (middle ++ [d])) (c :: (List.replicate middle.length '*' ++ [d]))
  /-- The domain, and at most the first and the last character of the local part. -/
  | email (locale hidden domain : Text) (hat : '@' ∉ locale) (hstar : '*' ∈ hidden)
      (hlength : hidden.length = locale.length)
      (hhidden : ∀ i < locale.length, hidden[i]? = some '*' ∨
        hidden[i]? = locale[i]? ∧ (i = 0 ∨ i + 1 = locale.length)) :
      Bounded u "EMAIL" (locale ++ '@' :: domain) (hidden ++ '@' :: domain)

/-! ## The masks -/

/-- The middle is starred, and of two characters the second. -/
theorem maskMiddle_hides (value : Text) (i : ℕ) (hi : i < value.length) :
    (maskMiddle value)[i]? = some '*' ∨
      (maskMiddle value)[i]? = value[i]? ∧ (i = 0 ∨ i + 1 = value.length) := by
  match value with
  | [] => cases hi
  | [c] =>
      obtain rfl : i = 0 := by simpa using hi
      exact Or.inl rfl
  | [c, d] =>
      match i with
      | 0 => exact Or.inr ⟨rfl, Or.inl rfl⟩
      | 1 => exact Or.inl rfl
      | i + 2 => simp at hi
  | c :: d :: e :: rest =>
      match i with
      | 0 => exact Or.inr ⟨rfl, Or.inl rfl⟩
      | i + 1 =>
          simp only [List.length_cons] at hi
          by_cases hlast : i = rest.length + 1
          · refine Or.inr ⟨?_, Or.inr (by simp [hlast])⟩
            simp only [maskMiddle, List.getElem?_cons_succ, hlast]
            rw [List.getElem?_append_right (by simp), List.getLast_eq_getElem]
            simp
          · refine Or.inl ?_
            simp only [maskMiddle, List.getElem?_cons_succ]
            rw [List.getElem?_append_left (by simp; omega)]
            exact List.getElem?_replicate_of_lt (by simp; omega)

theorem maskMiddle_ends {c d : Char} {middle : Text} (hmiddle : middle ≠ []) :
    maskMiddle (c :: (middle ++ [d])) = c :: (List.replicate middle.length '*' ++ [d]) := by
  obtain ⟨e, rest, rfl⟩ := List.exists_cons_of_ne_nil hmiddle
  cases rest with
  | nil => rfl
  | cons f rest =>
      show c :: (List.replicate (f :: (rest ++ [d])).length '*' ++
        [(e :: f :: (rest ++ [d])).getLast (List.cons_ne_nil _ _)]) = _
      simp

theorem star_mem_maskMiddle_of_ne {value : Text} (h : value ≠ []) : '*' ∈ maskMiddle value := by
  match value with
  | [] => exact absurd rfl h
  | [c] => exact List.mem_cons_self
  | [c, d] => exact List.mem_cons_of_mem _ List.mem_cons_self
  | c :: d :: e :: rest => exact star_mem_maskMiddle (by simp)

/-- A suffix with as many hits as one likes, up to all. -/
theorem exists_suffix (p : Char → Bool) (n : ℕ) (value : Text)
    (h : n ≤ (value.filter p).length) :
    ∃ front back, value = front ++ back ∧ (back.filter p).length = n := by
  induction value with
  | nil => exact ⟨[], [], rfl, (Nat.le_zero.mp h).symm⟩
  | cons c value ih =>
      by_cases hrest : n ≤ (value.filter p).length
      · obtain ⟨front, back, rfl, hback⟩ := ih hrest
        exact ⟨c :: front, back, rfl, hback⟩
      · refine ⟨[], c :: value, rfl, ?_⟩
        rw [List.filter_cons] at h ⊢
        split at h
        · rw [if_pos ‹_›]
          rw [List.length_cons] at h ⊢
          omega
        · omega

/-- The digits before the last ones are starred. -/
theorem maskKeepLastDigits_append {u : Unicode} {keep : ℕ} {front back : Text}
    (hback : (back.filter u.isDigit).length = keep) (hfront : ∃ c ∈ front, u.isDigit c = true) :
    maskKeepLastDigits u (front ++ back) keep =
      front.map (fun c => if u.isDigit c then '*' else c) ++ back := by
  have hpositive : 0 < (front.filter u.isDigit).length := by
    obtain ⟨c, hc, hdigit⟩ := hfront
    exact List.length_pos_of_mem (List.mem_filter.mpr ⟨hc, hdigit⟩)
  have hsplit : (((front ++ back).zipIdx.filter fun p => u.isDigit p.1).map Prod.snd) =
      ((front.zipIdx.filter fun p => u.isDigit p.1).map Prod.snd) ++
        (((back.zipIdx front.length).filter fun p => u.isDigit p.1).map Prod.snd) := by
    rw [List.zipIdx_append, List.filter_append, List.map_append, Nat.zero_add]
  have hlast := length_places back u.isDigit front.length
  have hfirst := length_places front u.isDigit 0
  unfold maskKeepLastDigits
  dsimp only
  -- The places that are kept are those of the digits of `back`.
  rw [hsplit, if_neg (by rw [List.length_append]; omega), List.drop_left' (by
    rw [List.length_append]; omega), List.zipIdx_append, List.map_append, Nat.zero_add]
  congr 1
  · have hout : ∀ q ∈ front.zipIdx, q.2 ∉
        ((back.zipIdx front.length).filter fun p => u.isDigit p.1).map Prod.snd := by
      intro q hq hmem
      obtain ⟨q', hq', heq⟩ := List.mem_map.mp hmem
      have hlow := List.le_snd_of_mem_zipIdx (List.mem_filter.mp hq').1
      have hhigh := List.snd_lt_of_mem_zipIdx hq
      omega
    calc front.zipIdx.map _
        = front.zipIdx.map fun q => if u.isDigit q.1 then '*' else q.1 := by
          refine List.map_congr_left fun q hq => ?_
          rw [decide_eq_false (hout q hq), Bool.or_false]
          cases u.isDigit q.1 <;> rfl
      _ = (front.zipIdx.map Prod.fst).map fun c => if u.isDigit c then '*' else c := by
          rw [List.map_map]
          rfl
      _ = _ := by rw [List.zipIdx_map_fst]
  · calc (back.zipIdx front.length).map _
        = (back.zipIdx front.length).map Prod.fst := by
          refine List.map_congr_left fun q hq => if_pos ?_
          cases hdigit : u.isDigit q.1 with
          | false => rfl
          | true =>
              rw [Bool.not_true, Bool.false_or]
              exact decide_eq_true
                (List.mem_map_of_mem (List.mem_filter.mpr ⟨hq, hdigit⟩))
      _ = back := List.zipIdx_map_fst ..

/-! ## The values -/

variable {u : PyUnicode}

/-- No value that is found has a star. -/
theorem star_not_mem {type : String} {r : Pattern Char} (hr : (type, r) ∈ patterns u.toUnicode)
    {b w t : Text} (h : r.Accepts b w t) : '*' ∉ w := by
  intro hmem
  obtain ⟨p, hp, hstar⟩ := Pattern.accepts_classes h '*' hmem
  have hdecimal : u.isDecimal '*' = false := u.isDecimal_ascii (by decide)
  have hspace : u.isSpace '*' = false := u.space_ascii '*' (by decide)
  have hword : u.isWord '*' = false := not_word (by decide) rfl (by decide)
  have hnone : ∀ p ∈ r.classes, p '*' = false := by
    simp only [patterns, List.mem_cons, Prod.mk.injEq, List.not_mem_nil, or_false] at hr
    rcases hr with ⟨-, rfl⟩ | ⟨-, rfl⟩ | ⟨-, rfl⟩ | ⟨-, rfl⟩ | ⟨-, rfl⟩ | ⟨-, rfl⟩
    all_goals
      simp [rrnPattern, cardPattern, biznoPattern, phonePattern, emailPattern, accountPattern,
        areaCode, notAfterDigit, afterDigit, notBeforeDigit, wordBoundary, separator, digit,
        Pattern.times, Pattern.opt, Pattern.some1, Pattern.lit, Pattern.classes, hdecimal, hspace,
        hword]
  rw [hnone p hp] at hstar
  cases hstar

theorem maskRrn_split {x sep y : Text} (hx : x.length = 6 ∧ ∀ c ∈ x, u.isDecimal c = true)
    (hsep : ∀ c ∈ sep, u.isDecimal c = false)
    (hy : y.length = 7 ∧ ∀ c ∈ y, u.isDecimal c = true) :
    maskRrn u.toUnicode (x ++ (sep ++ y)) = x ++ '-' :: List.replicate 7 '*' := by
  have hnone : sep.filter u.isDecimal = [] :=
    List.filter_eq_nil_iff.mpr fun c hc => by rw [hsep c hc]; exact Bool.false_ne_true
  have hdigits : digitsOf u.toUnicode (x ++ (sep ++ y)) = x ++ y := by
    rw [digitsOf, List.filter_append, List.filter_append, filter_digits hx.2, hnone,
      filter_digits hy.2, List.nil_append]
  have hcount : (x ++ y).length = 13 := by rw [List.length_append, hx.1, hy.1]
  rw [maskRrn, hdigits, if_neg (not_not.mpr hcount), List.take_left' hx.1]

theorem bounded_number {type : String} {value : Text} (htype : type ∈ ["CARD", "PHONE", "ACCOUNT"])
    (hdigits : 4 < (value.filter u.isDigit).length) :
    Bounded u.toUnicode type value (maskKeepLastDigits u.toUnicode value maskKeepLastN) := by
  obtain ⟨front, back, rfl, hback⟩ := exists_suffix u.isDigit 4 value hdigits.le
  have hfront : ∃ c ∈ front, u.isDigit c = true := by
    rw [List.filter_append, List.length_append, hback] at hdigits
    obtain ⟨c, hc⟩ := List.exists_mem_of_length_pos (l := front.filter u.isDigit) (by omega)
    exact ⟨c, (List.mem_filter.mp hc).1, (List.mem_filter.mp hc).2⟩
  rw [maskKeepLastN, maskKeepLastDigits_append hback hfront]
  exact .number front back htype hback hfront

theorem bounded_bizno {value : Text} (h : 3 ≤ value.length) :
    Bounded u.toUnicode "BIZNO" value (maskMiddle value) := by
  obtain ⟨c, rest, rfl⟩ := List.exists_cons_of_length_pos (l := value) (by omega)
  have hrest : rest ≠ [] := by
    rintro rfl
    simp at h
  obtain ⟨middle, d, rfl⟩ : ∃ middle d, rest = middle ++ [d] :=
    ⟨rest.dropLast, rest.getLast hrest, (List.dropLast_append_getLast hrest).symm⟩
  have hmiddle : middle ≠ [] := by
    rintro rfl
    simp at h
  rw [maskMiddle_ends hmiddle]
  exact .bizno c d middle hmiddle

theorem bounded_email {b w t : Text} (h : (emailPattern u.toUnicode).Accepts b w t) :
    Bounded u.toUnicode "EMAIL" w (maskEmail w) := by
  obtain ⟨-, -, locale, y, z, rfl, ⟨hnonempty, hlocale⟩, -⟩ := email_accepts.mp h
  have hat : '@' ∉ locale := by
    intro hmem
    have hword : u.isWord '@' = false := not_word (by decide) rfl (by decide)
    have hclass := hlocale '@' hmem
    rw [hword] at hclass
    exact absurd hclass (by decide)
  have hne : ∀ c ∈ locale, (c != '@') = true := fun c hc =>
    bne_iff_ne.mpr fun heq => hat (heq ▸ hc)
  have hmask : maskEmail (locale ++ '@' :: (y ++ '.' :: z)) =
      maskMiddle locale ++ '@' :: (y ++ '.' :: z) := by
    rw [maskEmail, List.dropWhile_append_of_pos hne, List.takeWhile_append_of_pos hne]
    simp
  rw [hmask]
  exact .email locale _ _ hat (star_mem_maskMiddle_of_ne hnonempty) (length_maskMiddle locale)
    (maskMiddle_hides locale)

/-- Every span of the patterns has a preview within the bound. -/
theorem bounded_mask {text : Text} {s : Span} (h : Found u.toUnicode text s) :
    Bounded u.toUnicode s.type s.value (mask u.toUnicode s) := by
  obtain ⟨b, t, -, -, -, r, hr, hacc⟩ := h.split
  simp only [patterns, List.mem_cons, Prod.mk.injEq, List.not_mem_nil, or_false] at hr
  unfold mask
  rcases hr with ⟨htype, rfl⟩ | ⟨htype, rfl⟩ | ⟨htype, rfl⟩ | ⟨htype, rfl⟩ | ⟨htype, rfl⟩ |
    ⟨htype, rfl⟩
  · rw [htype, if_pos rfl]
    obtain ⟨x, sep, y, hvalue, hx, hsep, hy⟩ := rrn_split hacc
    rw [hvalue, maskRrn_split hx hsep.2 hy]
    exact .rrn x sep y hx hsep.2 hy
  · rw [htype, if_neg (by decide), if_pos (by decide)]
    exact bounded_number (by decide) (Guardrail.card_digits hacc)
  · rw [htype, if_neg (by decide), if_neg (by decide), if_neg (by decide), if_neg (by decide)]
    have hlength : 10 ≤ s.value.length := Pattern.leastLength_le hacc
    exact bounded_bizno (by omega)
  · rw [htype, if_neg (by decide), if_pos (by decide)]
    exact bounded_number (by decide) (Guardrail.phone_digits hacc)
  · rw [htype, if_neg (by decide), if_neg (by decide), if_pos rfl]
    exact bounded_email hacc
  · rw [htype, if_neg (by decide), if_pos (by decide)]
    exact bounded_number (by decide) (Guardrail.account_digits hacc)

/-- A preview has a star. -/
theorem star_mem_of_bounded {u : Unicode} {type : String} {value preview : Text}
    (h : Bounded u type value preview) : '*' ∈ preview := by
  cases h with
  | rrn x sep y hx hsep hy => simp
  | number front back htype hback hfront =>
      obtain ⟨c, hc, hdigit⟩ := hfront
      exact List.mem_append_left _ (List.mem_map.mpr ⟨c, hc, if_pos hdigit⟩)
  | bizno c d middle hmiddle =>
      refine List.mem_cons_of_mem _ (List.mem_append_left _ (List.mem_replicate.mpr ⟨?_, rfl⟩))
      exact fun hzero => hmiddle (List.length_eq_zero_iff.mp hzero)
  | email locale hidden domain hat hstar hlength hhidden => exact List.mem_append_left _ hstar

/-! ## The entries -/

/-- Of the spans the summary reads the type, the confidence and the preview. -/
theorem entitiesSummary_congr {u : Unicode} {ctx ctx' : AnalysisContext}
    (h : List.Forall₂
      (fun a b => a.type = b.type ∧ a.confidence = b.confidence ∧ mask u a = mask u b)
      ctx.newTurnSpans ctx'.newTurnSpans) :
    entitiesSummary u ctx = entitiesSummary u ctx' := by
  have hmap : ∀ l l' : List Span, List.Forall₂
      (fun a b => a.type = b.type ∧ a.confidence = b.confidence ∧ mask u a = mask u b) l l' →
      l.map (fun s => (⟨s.type, round4 s.confidence, mask u s⟩ : EntitySummary)) =
        l'.map fun s => ⟨s.type, round4 s.confidence, mask u s⟩ := by
    intro l l' hall
    induction hall with
    | nil => rfl
    | cons hspan hspans ih =>
        obtain ⟨htype, hconfidence, hpreview⟩ := hspan
        rw [List.map_cons, List.map_cons, htype, hconfidence, hpreview, ih]
  exact hmap _ _ h

/-- **A preview shows a bounded part** of what the patterns find, never all of it, and of
the value the entries of the summary hold nothing else. -/
theorem preview_bounded (u : PyUnicode) (text : Text) (s : Span)
    (hs : s ∈ detect u.toUnicode text) :
    Bounded u.toUnicode s.type s.value (mask u.toUnicode s) ∧
      mask u.toUnicode s ≠ s.value ∧
      ∀ ctx ctx' : AnalysisContext,
        List.Forall₂
            (fun a b => a.type = b.type ∧ a.confidence = b.confidence ∧
              mask u.toUnicode a = mask u.toUnicode b)
            ctx.newTurnSpans ctx'.newTurnSpans →
          entitiesSummary u.toUnicode ctx = entitiesSummary u.toUnicode ctx' := by
  have hfound := detect_found hs
  have hbounded := bounded_mask hfound
  obtain ⟨b, t, -, -, -, r, hr, hacc⟩ := hfound.split
  refine ⟨hbounded, ?_, fun _ _ => entitiesSummary_congr⟩
  intro heq
  have hstar := star_mem_of_bounded hbounded
  rw [heq] at hstar
  exact star_not_mem hr hacc hstar

/-- A mail address with a local part of one letter. -/
theorem preview_bounded_short :
    ∃ s ∈ detect PyUnicode.ascii.toUnicode "to a@b.kr".toList,
      Bounded PyUnicode.ascii.toUnicode s.type s.value (mask PyUnicode.ascii.toUnicode s) := by
  have hmem : (⟨"EMAIL", "a@b.kr".toList, 3, 9, emailConfidence, "regex"⟩ : Span) ∈
      detect PyUnicode.ascii.toUnicode "to a@b.kr".toList := by decide +kernel
  exact ⟨_, hmem, (preview_bounded PyUnicode.ascii _ _ hmem).1⟩

end DlpServer.Pipeline
