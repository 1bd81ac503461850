import DlpServer.Detect.Candidates
import DlpServer.Detect.Surroundings
import DlpServer.Lib.Longest

/-!
# Rows of digit groups

`_CARD_PATTERN` does not know where a number ends. What it matches are rows: 13 to 19
digits in whole groups, with one space or hyphen between two of them. Of a longer series of
groups it takes the first row, the longest there, and goes on behind it
(`card_found_iff`). A card number beside which another group stands may be taken for a part
of a row that fails the checksum, and an account number gives way to such a row; what is
then left of both is told by `card_covered_iff` and `account_covered_iff`.
-/

namespace DlpServer.Detect.RegexRules

open Regex

/-! ## Rows -/

/-- `w` is the digits, with at most one space or hyphen between two of them. -/
inductive Written (u : Unicode) : Text → Text → Prop
  | last {d : Char} : u.isDecimal d = true → Written u [d] [d]
  | next {d : Char} {digits w : Text} : u.isDecimal d = true → Written u digits w →
      Written u (d :: digits) (d :: w)
  | apart {d c : Char} {digits w : Text} : u.isDecimal d = true → c = ' ' ∨ c = '-' →
      Written u digits w → Written u (d :: digits) (d :: c :: w)

/-- A row of these digits stands at the places from `i` to `j`: 13 to 19 of them, and no
digit right before or behind. -/
def Row (u : Unicode) (text digits : Text) (i j : ℕ) : Prop :=
  ∃ b w t, text = b ++ (w ++ t) ∧ i = b.length ∧ j = b.length + w.length ∧
    Written u digits w ∧ 13 ≤ digits.length ∧ digits.length ≤ 19 ∧
    (∀ c, b.getLast? = some c → u.isDecimal c = false) ∧
    ∀ c, t.head? = some c → u.isDecimal c = false

def RowAt (u : Unicode) (text : Text) (i j : ℕ) : Prop := ∃ digits, Row u text digits i j

/-- The row is taken: it is the first behind the one taken before, and the longest there. -/
def TakenRow (u : Unicode) (text digits : Text) (i j : ℕ) : Prop :=
  Row u text digits i j ∧ Taken (RowAt u text) i j

/-- A card number with a valid checksum stands at the places from `i` to `j`. -/
def CardAt (u : Unicode) (text : Text) (i j : ℕ) : Prop :=
  ∃ digits, Row u text digits i j ∧ verifyLuhn u digits = true

/-- A group of digits stands beside the places, one space or hyphen away. -/
def Neighboured (u : Unicode) (text : Text) (i j : ℕ) : Prop :=
  (∃ k c d, k + 2 = i ∧ text[k]? = some d ∧ u.isDecimal d = true ∧ text[k + 1]? = some c ∧
      (c = ' ' ∨ c = '-')) ∨
    ∃ c d, text[j]? = some c ∧ (c = ' ' ∨ c = '-') ∧ text[j + 1]? = some d ∧
      u.isDecimal d = true

section Written

variable {u : Unicode} {digits w : Text}

/-- A number so written is a word of the repetition in `_CARD_PATTERN`. -/
theorem Written.rounds (h : Written u digits w) (b t : Text) :
    Rounds (Pattern.seq (digit u) (.opt (.one fun c => c == ' ' || c == '-'))).Accepts
      digits.length b w t := by
  have hnone : ∀ {b t : Text},
      (Pattern.opt (.one fun c => c == ' ' || c == '-')).Accepts b [] t := by
    intro b t
    exact ⟨0, le_rfl, Nat.zero_le _, rfl⟩
  induction h generalizing b with
  | last hd => exact ⟨[_], [], rfl, ⟨[_], [], rfl, ⟨_, rfl, hd⟩, hnone⟩, rfl⟩
  | next hd _ ih => exact ⟨[_], _, rfl, ⟨[_], [], rfl, ⟨_, rfl, hd⟩, hnone⟩, ih _⟩
  | apart hd hc _ ih =>
      refine ⟨[_, _], _, rfl, ⟨[_], [_], rfl, ⟨_, rfl, hd⟩, ?_⟩, ih _⟩
      refine ⟨1, Nat.zero_le _, le_rfl, [_], [], rfl, ⟨_, rfl, ?_⟩, rfl⟩
      rw [Bool.or_eq_true, beq_iff_eq, beq_iff_eq]
      exact hc

theorem Written.ends_in_digit (h : Written u digits w) (b : Text) :
    (w.reverse ++ b).head?.any u.isDecimal = true := by
  induction h generalizing b with
  | last hd => exact hd
  | next _ _ ih =>
      rw [List.reverse_cons, List.append_assoc]
      exact ih _
  | apart _ _ _ ih =>
      rw [List.reverse_cons, List.reverse_cons, List.append_assoc, List.append_assoc]
      exact ih _

theorem Written.begins_with_digit (h : Written u digits w) :
    ∃ d, w[0]? = some d ∧ u.isDecimal d = true := by
  cases h with
  | last hd => exact ⟨_, rfl, hd⟩
  | next hd _ => exact ⟨_, rfl, hd⟩
  | apart hd _ _ => exact ⟨_, rfl, hd⟩

theorem Written.of_digits (hne : digits ≠ []) (hall : digits.all u.isDecimal = true) :
    Written u digits digits := by
  induction digits with
  | nil => exact absurd rfl hne
  | cons d digits ih =>
      rw [List.all_cons, Bool.and_eq_true] at hall
      obtain ⟨hd, hall⟩ := hall
      cases digits with
      | nil => exact .last hd
      | cons c digits => exact .next hd (ih (List.cons_ne_nil c digits) hall)

/-- What is no digit in it is a space or hyphen between two digits. -/
theorem Written.inner (h : Written u digits w) {k : ℕ} {c : Char} (hc : w[k]? = some c)
    (hno : u.isDecimal c = false) :
    (c = ' ' ∨ c = '-') ∧ ∃ l d e, k = l + 1 ∧ w[l]? = some d ∧ u.isDecimal d = true ∧
      w[k + 1]? = some e ∧ u.isDecimal e = true := by
  have hdigit : ∀ {d : Char}, u.isDecimal d = true → some d = some c → False := by
    intro d hd heq
    rw [Option.some.inj heq, hno] at hd
    cases hd
  induction h generalizing k with
  | last hd =>
      cases k with
      | zero => exact (hdigit hd hc).elim
      | succ k => cases hc
  | @next d digits w hd hw ih =>
      cases k with
      | zero => exact (hdigit hd hc).elim
      | succ k =>
          obtain ⟨hsep, l, e, f, rfl, he, hedec, hf, hfdec⟩ := ih hc
          exact ⟨hsep, l + 1, e, f, rfl, he, hedec, hf, hfdec⟩
  | @apart d c' digits w hd hsep hw ih =>
      cases k with
      | zero => exact (hdigit hd hc).elim
      | succ k =>
          cases k with
          | zero =>
              obtain rfl : c' = c := Option.some.inj hc
              obtain ⟨e, he, hedec⟩ := hw.begins_with_digit
              exact ⟨hsep, 0, d, e, rfl, rfl, hd, he, hedec⟩
          | succ k =>
              obtain ⟨hsep', l, e, f, rfl, he, hedec, hf, hfdec⟩ := ih hc
              exact ⟨hsep', l + 2, e, f, rfl, he, hedec, hf, hfdec⟩

end Written

theorem Row.place {u : Unicode} {text digits : Text} {i j : ℕ} (h : Row u text digits i j) :
    i < j ∧ j ≤ text.length := by
  obtain ⟨b, w, t, rfl, rfl, rfl, hwritten, -⟩ := h
  obtain ⟨d, hd, -⟩ := hwritten.begins_with_digit
  have hpos : 0 < w.length := (List.getElem?_eq_some_iff.mp hd).1
  simp only [List.length_append]
  omega

/-- What is no digit in a row is a space or hyphen between two digits of it. -/
theorem Row.inner {u : Unicode} {text digits : Text} {i j : ℕ} (h : Row u text digits i j)
    {k : ℕ} (hi : i ≤ k) (hj : k < j) {c : Char} (hc : text[k]? = some c)
    (hno : u.isDecimal c = false) :
    (c = ' ' ∨ c = '-') ∧ ∃ l d e, k = l + 1 ∧ i ≤ l ∧ text[l]? = some d ∧
      u.isDecimal d = true ∧ text[k + 1]? = some e ∧ u.isDecimal e = true := by
  obtain ⟨b, w, t, rfl, rfl, rfl, hwritten, -⟩ := h
  have hplace : ∀ {m : ℕ} {d : Char}, w[m]? = some d →
      (b ++ (w ++ t))[b.length + m]? = some d := by
    intro m d hd
    have hm : m < w.length := (List.getElem?_eq_some_iff.mp hd).1
    rw [List.getElem?_append_right (by omega), Nat.add_sub_cancel_left,
      List.getElem?_append_left hm, hd]
  obtain ⟨m, rfl⟩ : ∃ m, k = b.length + m := ⟨k - b.length, by omega⟩
  have hm : m < w.length := by omega
  have hw : w[m]? = some c := by
    rw [List.getElem?_append_right (by omega), Nat.add_sub_cancel_left,
      List.getElem?_append_left hm] at hc
    exact hc
  obtain ⟨hsep, l, d, e, rfl, hd, hdec, he, hedec⟩ := hwritten.inner hw hno
  exact ⟨hsep, b.length + l, d, e, rfl, Nat.le_add_right _ _, hplace hd, hdec, hplace he, hedec⟩

/-- **A number beside which no group stands is taken as it is.** -/
theorem taken_of_not_neighboured {u : Unicode} {text : Text} {i j : ℕ} (h : RowAt u text i j)
    (halone : ¬ Neighboured u text i j) : Taken (RowAt u text) i j := by
  obtain ⟨digits, hrow⟩ := h
  obtain ⟨b, w, t, htext, hi, hj, -, -, -, hbefore, hbehind⟩ := id hrow
  refine Taken.of_unentered (fun _ _ ⟨_, h⟩ => h.place) ⟨digits, hrow⟩ ?_ ?_
  · rintro j' ⟨digits', hrow'⟩
    by_contra hlt
    have hplace := hrow'.place
    have hproper := hrow.place
    obtain ⟨c, hc⟩ : ∃ c, text[j]? = some c :=
      ⟨text[j], List.getElem?_eq_getElem (by omega)⟩
    have hno : u.isDecimal c = false := by
      apply hbehind
      rw [htext, hj, ← List.append_assoc, ← List.length_append,
        List.getElem?_append_right le_rfl, Nat.sub_self] at hc
      rw [List.head?_eq_getElem?]
      exact hc
    obtain ⟨hsep, l, d, e, -, -, -, -, he, hdec⟩ := hrow'.inner (by omega) (by omega) hc hno
    exact halone (Or.inr ⟨c, e, hc, hsep, he, hdec⟩)
  · rintro a b' ⟨digits', hrow'⟩ hlt
    by_contra hgt
    obtain ⟨k, rfl⟩ : ∃ k, i = k + 1 := ⟨i - 1, by omega⟩
    obtain ⟨c, hc⟩ : ∃ c, text[k]? = some c := by
      have hplace := hrow.place
      exact ⟨text[k], List.getElem?_eq_getElem (by omega)⟩
    have hno : u.isDecimal c = false := by
      apply hbefore
      rw [htext, List.getElem?_append_left (by omega)] at hc
      rw [List.getLast?_eq_getElem?, ← hi]
      exact hc
    obtain ⟨hsep, l, d, e, rfl, -, hd, hdec, -⟩ := hrow'.inner (by omega) (by omega) hc hno
    exact halone (Or.inl ⟨l, c, d, rfl, hd, hdec, hc, hsep⟩)

/-! ## What the card pattern finds -/

section Found

variable {u : Unicode}

/-- The rounds of the repetition, up to a last digit, are a number so written. -/
theorem Written.of_rounds {n : ℕ} {b w t : Text}
    (h : Rounds (Pattern.seq (digit u) (.opt (.one fun c => c == ' ' || c == '-'))).Accepts
      (n + 1) b w t) (hlast : w.getLast?.any u.isDecimal = true) :
    ∃ digits, digits.length = n + 1 ∧ Written u digits w := by
  have hsep : ∀ {c : Char}, (c == ' ' || c == '-') = true → u.isDecimal c = false := by
    intro c hc
    rw [Bool.or_eq_true, beq_iff_eq, beq_iff_eq] at hc
    rcases hc with rfl | rfl <;> rw [u.isDecimal_ascii (by decide)] <;> rfl
  induction n generalizing b w with
  | zero =>
      obtain ⟨_, _, rfl, ⟨_, v, rfl, ⟨d, rfl, hd⟩, hopt⟩, rfl⟩ := h
      rcases Pattern.accepts_opt.mp hopt with rfl | ⟨c, rfl, hc⟩
      · exact ⟨[d], rfl, .last hd⟩
      · have hdec : u.isDecimal c = true := hlast
        rw [hsep hc] at hdec
        cases hdec
  | succ n ih =>
      obtain ⟨_, rest, rfl, ⟨_, v, rfl, ⟨d, rfl, hd⟩, hopt⟩, hrest⟩ := h
      have hne : rest ≠ [] := by
        obtain ⟨_, _, rfl, ⟨_, _, rfl, ⟨_, rfl, -⟩, -⟩, -⟩ := hrest
        simp
      rw [List.getLast?_append_of_ne_nil _ hne] at hlast
      obtain ⟨digits, hlength, hwritten⟩ := ih hrest hlast
      refine ⟨d :: digits, congrArg (· + 1) hlength, ?_⟩
      rcases Pattern.accepts_opt.mp hopt with rfl | ⟨c, rfl, hc⟩
      · exact .next hd hwritten
      · rw [Bool.or_eq_true, beq_iff_eq, beq_iff_eq] at hc
        exact .apart hd hc hwritten

/-- The words of `_CARD_PATTERN` are the rows. -/
theorem wordAt_iff_row (text : Text) (i j : ℕ) :
    (cardPattern u).WordAt text i j ↔ RowAt u text i j := by
  have hnone : ∀ {o : Option Char}, (!o.any u.isDecimal) = true ↔
      ∀ c, o = some c → u.isDecimal c = false := by
    intro o
    cases o with
    | none => simp
    | some d => simp
  constructor
  · rintro ⟨b, w, t, rfl, rfl, rfl, hacc⟩
    obtain ⟨_, _, rfl, ⟨rfl, hleft⟩, w, _, rfl, ⟨n, hn, hn', hrounds⟩, _, _, rfl, ⟨rfl, hlast⟩,
      rfl, hright⟩ := hacc
    obtain ⟨n, rfl⟩ : ∃ m, n = m + 1 := ⟨n - 1, by omega⟩
    have hw : w.getLast?.any u.isDecimal = true := by
      have hne : w.reverse ≠ [] := by
        obtain ⟨_, _, rfl, ⟨_, _, rfl, ⟨_, rfl, -⟩, -⟩, -⟩ := hrounds
        simp
      change (w.reverse ++ b.reverse).head?.any u.isDecimal = true at hlast
      rw [List.head?_append_of_ne_nil _ hne, List.head?_reverse] at hlast
      exact hlast
    obtain ⟨digits, hlength, hwritten⟩ := Written.of_rounds hrounds hw
    change (!b.reverse.head?.any u.isDecimal) = true at hleft
    rw [List.head?_reverse] at hleft
    simp only [List.nil_append, List.append_nil]
    exact ⟨digits, b, w, t, rfl, rfl, rfl, hwritten, hlength ▸ hn, hlength ▸ hn',
      hnone.mp hleft, hnone.mp hright⟩
  · rintro ⟨digits, b, w, t, rfl, rfl, rfl, hwritten, hlow, hhigh, hbefore, hbehind⟩
    refine ⟨b, w, t, rfl, rfl, rfl, [], w, rfl, ⟨rfl, ?_⟩, w, [], (List.append_nil w).symm,
      ⟨digits.length, hlow, hhigh, hwritten.rounds _ _⟩, [], [], rfl,
      ⟨rfl, hwritten.ends_in_digit _⟩, rfl, hnone.mpr hbehind⟩
    show (!b.reverse.head?.any u.isDecimal) = true
    rw [List.head?_reverse]
    exact hnone.mpr hbefore

/-- Without spaces and hyphens a number is its digits. -/
theorem Written.filter {digits w : Text} (h : Written u digits w) :
    (w.filter fun c => c ≠ ' ' ∧ c ≠ '-') = digits := by
  have hdigit : ∀ {d : Char} (w : Text), u.isDecimal d = true →
      ((d :: w).filter fun c => c ≠ ' ' ∧ c ≠ '-') = d :: w.filter fun c => c ≠ ' ' ∧ c ≠ '-' := by
    intro d w hd
    refine List.filter_cons_of_pos (decide_eq_true ⟨?_, ?_⟩) <;> rintro rfl <;>
      rw [u.isDecimal_ascii (by decide)] at hd <;> cases hd
  induction h with
  | last hd => exact hdigit [] hd
  | next hd _ ih => rw [hdigit _ hd, ih]
  | apart hd hc _ ih =>
      rw [hdigit _ hd, ← ih]
      rcases hc with rfl | rfl <;> rfl

/-- **What the card pattern finds** are the rows that are taken, and what is checked are
their digits. -/
theorem card_found_iff (text digits : Text) (i j : ℕ) :
    (∃ m ∈ (cardPattern u).finditer text, m.start = i ∧ m.stop = j ∧
        (m.text.filter fun c => c ≠ ' ' ∧ c ≠ '-') = digits) ↔ TakenRow u text digits i j := by
  have hfound : ∀ i j, (∃ m ∈ (cardPattern u).finditer text, m.start = i ∧ m.stop = j) ↔
      Taken (RowAt u text) i j := by
    intro i j
    have hpos : 0 < (cardPattern u).leastLength := Nat.le_of_ble_eq_true rfl
    rw [Pattern.found_iff_taken hpos (card_longest u),
      show (cardPattern u).WordAt text = RowAt u text from
        funext fun i => funext fun j => propext (wordAt_iff_row text i j)]
  have hdigits : ∀ m ∈ (cardPattern u).finditer text, ∀ digits', Row u text digits' m.start m.stop →
      (m.text.filter fun c => c ≠ ' ' ∧ c ≠ '-') = digits' := by
    rintro m hm digits' ⟨b, w, t, htext, hstart, hstop, hwritten, -⟩
    obtain ⟨b', t', htext', hstart', -, -⟩ := Pattern.mem_finditer hm
    rw [htext'] at htext
    obtain ⟨rfl, hrest⟩ := List.append_inj htext (hstart'.symm.trans hstart)
    rw [Match.stop, hstart'] at hstop
    obtain ⟨rfl, -⟩ := List.append_inj hrest (Nat.add_left_cancel hstop)
    exact hwritten.filter
  constructor
  · rintro ⟨m, hm, rfl, rfl, rfl⟩
    have htaken := (hfound m.start m.stop).mp ⟨m, hm, rfl, rfl⟩
    obtain ⟨digits', hrow⟩ := htaken.word
    rw [hdigits m hm digits' hrow]
    exact ⟨hrow, htaken⟩
  · rintro ⟨hrow, htaken⟩
    obtain ⟨m, hm, rfl, rfl⟩ := (hfound i j).mpr htaken
    exact ⟨m, hm, rfl, rfl, hdigits m hm digits hrow⟩

end Found

/-! ## What stays detected -/

/-- Something overlaps the places that does not depend on account numbers: a row that is
taken or another number, each with a valid checksum, a phone number or an address. -/
inductive Stays (u : Unicode) (text : Text) (i j : ℕ) : Prop
  | card {digits : Text} {a b : ℕ} : TakenRow u text digits a b → verifyLuhn u digits = true →
      a < j → i < b → Stays u text i j
  | rrn {m : Match Char} : m ∈ (rrnPattern u).finditer text →
      verifyRrnChecksum u (m.group 1 ++ m.group 2) = true → m.start < j → i < m.stop →
      Stays u text i j
  | bizno {m : Match Char} : m ∈ (biznoPattern u).finditer text →
      verifyBiznoChecksum u (m.group 1 ++ m.group 2 ++ m.group 3) = true → m.start < j →
      i < m.stop → Stays u text i j
  | phone {m : Match Char} : m ∈ (phonePattern u).finditer text → m.start < j → i < m.stop →
      Stays u text i j
  | email {m : Match Char} : m ∈ (emailPattern u).finditer text → m.start < j → i < m.stop →
      Stays u text i j

/-- An account number that gives way to nothing: neither a row that is taken nor a phone
number overlaps it. -/
structure ClearAccount (u : Unicode) (text : Text) (m : Match Char) : Prop where
  found : m ∈ (accountPattern u).finditer text
  no_row : ∀ a b, Taken (RowAt u text) a b → ¬ (m.start < b ∧ a < m.stop)
  no_phone : ∀ m' ∈ (phonePattern u).finditer text, ¬ (m.start < m'.stop ∧ m'.start < m.stop)

section Stays

variable {u : Unicode} {text : Text} {i j : ℕ}

theorem touched_passed {type : String} {r : Pattern Char} {confidence : ℚ}
    {test : Match Char → Bool} :
    (∃ c ∈ passed type r confidence test text, Touches c i j) ↔
      ∃ m ∈ r.finditer text, test m = true ∧ m.start < j ∧ i < m.stop := by
  constructor
  · rintro ⟨c, hc, htouch⟩
    obtain ⟨m, hm, rfl⟩ := List.mem_map.mp hc
    obtain ⟨hm, htest⟩ := List.mem_filter.mp hm
    exact ⟨m, hm, htest, htouch⟩
  · rintro ⟨m, hm, htest, htouch⟩
    exact ⟨_, List.mem_map_of_mem (List.mem_filter.mpr ⟨hm, htest⟩), htouch⟩

/-- What an account number gives way to are the rows that are taken and the phone numbers. -/
theorem not_givesWay_iff {m : Match Char} (hm : m ∈ (accountPattern u).finditer text) :
    (!givesWay u text m) = true ↔ ClearAccount u text m := by
  rw [Bool.not_eq_true', ← Bool.not_eq_true, givesWay, List.any_eq_true]
  constructor
  · intro hno
    refine ⟨hm, ?_, fun m' hm' hover =>
      hno ⟨m', List.mem_append_right _ hm', decide_eq_true hover⟩⟩
    rintro a b htaken hover
    obtain ⟨digits, hrow⟩ := htaken.word
    obtain ⟨m', hm', rfl, rfl, -⟩ := (card_found_iff text digits a b).mpr ⟨hrow, htaken⟩
    exact hno ⟨m', List.mem_append_left _ hm', decide_eq_true hover⟩
  · rintro hclear ⟨m', hm', hover⟩
    rcases List.mem_append.mp hm' with hcard | hphone
    · exact hclear.no_row m'.start m'.stop
        ((card_found_iff text _ _ _).mp ⟨m', hcard, rfl, rfl, rfl⟩).2 (of_decide_eq_true hover)
    · exact hclear.no_phone m' hphone (of_decide_eq_true hover)

/-- The candidates that touch the places: what stays there, and account numbers. -/
theorem touched_iff :
    (∃ c ∈ candidates u text, Touches c i j) ↔
      Stays u text i j ∨ ∃ m, ClearAccount u text m ∧ m.start < j ∧ i < m.stop := by
  simp only [candidates, List.mem_append, or_and_right, exists_or, touched_passed]
  constructor
  · rintro (((((⟨m, hm, htest, hj, hi⟩ | ⟨m, hm, htest, hj, hi⟩) | ⟨m, hm, htest, hj, hi⟩) |
      ⟨m, hm, -, hj, hi⟩) | ⟨m, hm, -, hj, hi⟩) | ⟨m, hm, hclear, htouch⟩)
    · exact Or.inl (.rrn hm htest hj hi)
    · exact Or.inl (.card ((card_found_iff text _ _ _).mp ⟨m, hm, rfl, rfl, rfl⟩) htest hj hi)
    · exact Or.inl (.bizno hm htest hj hi)
    · exact Or.inl (.phone hm hj hi)
    · exact Or.inl (.email hm hj hi)
    · exact Or.inr ⟨m, (not_givesWay_iff hm).mp hclear, htouch⟩
  · rintro (hstays | ⟨m, hclear, htouch⟩)
    · cases hstays with
      | card hrow hluhn hj hi =>
          obtain ⟨m, hm, rfl, rfl, rfl⟩ := (card_found_iff text _ _ _).mpr hrow
          exact Or.inl (Or.inl (Or.inl (Or.inl (Or.inr ⟨m, hm, hluhn, hj, hi⟩))))
      | rrn hm htest hj hi =>
          exact Or.inl (Or.inl (Or.inl (Or.inl (Or.inl ⟨_, hm, htest, hj, hi⟩))))
      | bizno hm htest hj hi => exact Or.inl (Or.inl (Or.inl (Or.inr ⟨_, hm, htest, hj, hi⟩)))
      | phone hm hj hi => exact Or.inl (Or.inl (Or.inr ⟨_, hm, trivial, hj, hi⟩))
      | email hm hj hi => exact Or.inl (Or.inr ⟨_, hm, trivial, hj, hi⟩)
    · exact Or.inr ⟨m, hclear.found, (not_givesWay_iff hclear.found).mpr hclear, htouch⟩

end Stays

/-! ## Card numbers -/

/-- A row is taken over every place where one stands. -/
theorem taken_over {u : Unicode} {text : Text} {i j : ℕ} (h : RowAt u text i j) :
    ∃ a b, Taken (RowAt u text) a b ∧ a < j ∧ i < b := by
  obtain ⟨b, w, t, rfl, rfl, rfl, hacc⟩ := (wordAt_iff_row text i j).mpr h
  have hpos : 0 < (cardPattern u).leastLength := Nat.le_of_ble_eq_true rfl
  obtain ⟨m, hm, hleft, hright⟩ := Pattern.exists_overlapping hpos hacc
  exact ⟨m.start, m.stop, ((card_found_iff _ _ _ _).mp ⟨m, hm, rfl, rfl, rfl⟩).2, hleft, hright⟩

/-- **When a valid card number is found.** A row is always taken over it, and it is the
number itself unless another group of digits stands beside it, one space or hyphen away. A
longer row may fail the checksum; the number is then found only if something else overlaps
it. And what overlaps it must not be outdone by what it overlaps in turn. -/
theorem card_covered_iff (u : Unicode) (text : Text) (i j : ℕ) (h : CardAt u text i j) :
    (∃ a b, Taken (RowAt u text) a b ∧ a < j ∧ i < b) ∧
      (¬ Neighboured u text i j → Taken (RowAt u text) i j ∧ Stays u text i j) ∧
      ((∃ m ∈ mergeSpans (detect u text) none none, Touches m i j) ↔
        (Stays u text i j ∨ ∃ m, ClearAccount u text m ∧ m.start < j ∧ i < m.stop) ∧
          ¬ Outdone (candidates u text) i j) := by
  obtain ⟨digits, hrow, hluhn⟩ := h
  refine ⟨taken_over ⟨digits, hrow⟩, fun halone => ?_, ?_⟩
  · have htaken := taken_of_not_neighboured ⟨digits, hrow⟩ halone
    exact ⟨htaken, .card ⟨hrow, htaken⟩ hluhn hrow.place.1 hrow.place.1⟩
  · rw [covered_iff_touched, touched_iff]

/-- A card number with a word before it. -/
def payText : Text := "card 4111111111111111".toList

theorem card_covered_iff_sample :
    ∃ m ∈ mergeSpans (detect .ascii payText) none none, Touches m 5 21 := by
  have hcard : CardAt .ascii payText 5 21 := by
    refine ⟨"4111111111111111".toList, ⟨"card ".toList, "4111111111111111".toList, [], rfl, rfl,
      rfl, Written.of_digits (by decide) (by decide +kernel), by decide, by decide, ?_, by simp⟩,
      by decide +kernel⟩
    intro c hc
    cases hc
    decide
  obtain ⟨-, hstays, hcovered⟩ := card_covered_iff .ascii payText 5 21 hcard
  refine hcovered.mpr ⟨Or.inl (hstays ?_).2, ?_⟩
  · rintro (⟨k, c, d, hk, hd, hdec, -⟩ | ⟨c, d, hc, -⟩)
    · obtain rfl : k = 3 := by omega
      cases hd
      cases hdec
    · cases hc
  · refine not_outdone_of_alone (c := ⟨"CARD", "4111111111111111".toList, 5, 21, 97 / 100, "regex"⟩)
      ?_ ?_ ?_
    · decide +kernel
    · decide
    · decide +kernel

/-- A list number before the card number: the row takes both for one number. -/
theorem numbered_card_missed :
    CardAt .ascii "1 4111111111111111".toList 2 18 ∧
      mergeSpans (detect .ascii "1 4111111111111111".toList) none none = [] := by
  refine ⟨⟨"4111111111111111".toList, ⟨"1 ".toList, "4111111111111111".toList, [], rfl, rfl,
    rfl, Written.of_digits (by decide) (by decide +kernel), by decide, by decide, ?_, by simp⟩,
    by decide +kernel⟩, by decide +kernel⟩
  intro c hc
  cases hc
  decide

/-! ## Account numbers -/

/-- **When an account number is given up for something that stays.** It is lost exactly
when a row is taken over it and nothing that stays overlaps it, so where each row over it
fails the checksum and no other number, phone number or address is there; or when what
overlaps it is outdone. -/
theorem account_covered_iff (u : Unicode) (text : Text) (s : Span)
    (hs : s ∈ detectAccount u text) :
    (∃ m ∈ mergeSpans (detect u text) none none, Touches m s.start s.stop) ↔
      (Stays u text s.start s.stop ∨
          ∀ a b, Taken (RowAt u text) a b → ¬ (s.start < b ∧ a < s.stop)) ∧
        ¬ Outdone (candidates u text) s.start s.stop := by
  obtain ⟨m, hm, rfl⟩ := List.mem_map.mp hs
  rw [covered_iff_touched, touched_iff]
  refine and_congr_left fun _ => ?_
  constructor
  · rintro (hstays | ⟨m', hclear, hleft, hright⟩)
    · exact Or.inl hstays
    · -- Two account numbers that overlap are one.
      have heq : m' = m := by
        by_contra hne
        have hapart := Pattern.finditer_apart hclear.found hm hne
        simp only [spanOf, Match.stop] at hleft hright hapart
        omega
      exact Or.inr (heq ▸ hclear.no_row)
  · rintro (hstays | hfree)
    · exact Or.inl hstays
    · by_cases hphone : ∃ m' ∈ (phonePattern u).finditer text, m.start < m'.stop ∧ m'.start < m.stop
      · obtain ⟨m', hm', hleft, hright⟩ := hphone
        exact Or.inl (.phone hm' hright hleft)
      · have hfound : Found u text _ := detectBy_found (by simp [patterns]) hs
        have hlength := hfound.within.1
        exact Or.inr ⟨m, ⟨hm, hfree, fun m' hm' hover => hphone ⟨m', hm', hover⟩⟩, hlength, hlength⟩

/-- A card number takes the place of the account number in it. -/
def cardText : Text := "4111-1111-1111-1111".toList

theorem account_covered_iff_sample :
    ∃ m ∈ mergeSpans (detect .ascii cardText) none none, Touches m 0 14 := by
  have hrow : TakenRow .ascii cardText "4111111111111111".toList 0 19 :=
    (card_found_iff _ _ _ _).mp (by decide +kernel)
  refine (account_covered_iff .ascii cardText
    ⟨"ACCOUNT", "4111-1111-1111".toList, 0, 14, 65 / 100, "regex"⟩ (by decide +kernel)).mpr
    ⟨Or.inl (.card hrow (by decide +kernel) (by decide) (by decide)), ?_⟩
  refine not_outdone_of_alone (c := ⟨"CARD", cardText, 0, 19, 97 / 100, "regex"⟩) ?_ ?_ ?_
  · decide +kernel
  · decide
  · decide +kernel

/-- An account number of sixteen digits gives way to a card number that is none. -/
theorem account_left_undetected :
    let text := "123456-123456-1234".toList
    (⟨"ACCOUNT", text, 0, 18, 65 / 100, "regex"⟩ : Span) ∈ detectAccount .ascii text ∧
      ¬ ∃ m ∈ mergeSpans (detect .ascii text) none none, Touches m 0 18 := by
  decide +kernel

end DlpServer.Detect.RegexRules
