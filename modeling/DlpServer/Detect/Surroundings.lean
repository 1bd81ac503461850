import DlpServer.Detect.RegexRules
import DlpServer.Lib.Captures
import DlpServer.Lib.Edges

/-!
# How a match meets the text around it

The five patterns for numbers match whole runs of digits: a word of theirs begins and
ends with a digit, and no digit stands right before or after it (`Number`). An address
that is found takes whole runs of word characters (`email_stop`). For all but phone
numbers the match that is found is the longest at its place.
-/

namespace DlpServer.Detect.RegexRules

open Regex Pattern

/-! ## Numbers -/

/-- The tests of the patterns for numbers. -/
def digitTests (u : Unicode) : List (Text → Text → Bool) :=
  [fun b _ => !b.head?.any u.isDecimal, fun b _ => b.head?.any u.isDecimal,
    fun _ t => !t.head?.any u.isDecimal, fun _ _ => true]

theorem beside_digit {u : Unicode} {r : Pattern Char} (h : r.looks ⊆ digitTests u) :
    ∀ p ∈ r.looks, Beside u.isDecimal p := by
  intro p hp
  have hmem := h hp
  simp only [digitTests, List.mem_cons, List.not_mem_nil, or_false] at hmem
  rcases hmem with rfl | rfl | rfl | rfl
  · exact beside_behind not
  · exact beside_behind id
  · exact beside_ahead not
  · exact beside_const true

/-- A pattern for numbers. -/
structure Number (u : Unicode) (r : Pattern Char) : Prop where
  opens : r.Opens fun b _ => !b.head?.any u.isDecimal
  closes : r.Closes fun _ t => !t.head?.any u.isDecimal
  starts : r.Starts u.isDecimal
  ends : r.Ends u.isDecimal
  looks : ∀ p ∈ r.looks, Beside u.isDecimal p
  paced : r.Paced
  least : 3 ≤ r.leastLength

section Numbers

variable (u : Unicode)

theorem rrn_number : Number u (rrnPattern u) where
  opens := (opens_look _).seq _
  closes := ((((closes_look _).seq _).seq _).seq _).seq _
  starts := ((((starts_one _).rep 5 (some 6)).group 1).seq _).after_look _
  ends := ((((((((ends_one u.isDecimal).rep 5 (some 6)).seq _).group 2).before_look _).seq _).seq
    _).seq _)
  looks := beside_digit (by
    simp [rrnPattern, notAfterDigit, notBeforeDigit, separator, digit, Pattern.times, Pattern.opt,
      Pattern.looks, digitTests])
  paced := by
    simp [rrnPattern, notAfterDigit, notBeforeDigit, separator, digit, Pattern.times, Pattern.opt,
      Pattern.Paced]
  least := Nat.le_of_ble_eq_true rfl

theorem card_number : Number u (cardPattern u) where
  opens := (opens_look _).seq _
  closes := (((closes_look _).seq _).seq _).seq _
  starts := ((((starts_one _).seq _).rep 12 (some 19)).seq _).after_look _
  ends := by
    refine ends_of_closes ?_ (Nat.succ_pos _)
    exact ((((closes_look _).before_look _).seq _).seq _)
  looks := beside_digit (by
    simp [cardPattern, notAfterDigit, afterDigit, notBeforeDigit, digit, Pattern.opt,
      Pattern.looks, digitTests])
  paced := by
    simp [cardPattern, notAfterDigit, afterDigit, notBeforeDigit, digit, Pattern.opt,
      Pattern.Paced]
  least := Nat.le_of_ble_eq_true rfl

theorem bizno_number : Number u (biznoPattern u) where
  opens := (opens_look _).seq _
  closes := ((((((closes_look _).seq _).seq _).seq _).seq _).seq _).seq _
  starts := ((((starts_one _).rep 2 (some 3)).group 1).seq _).after_look _
  ends := ((((((((((ends_one u.isDecimal).rep 4 (some 5)).group 3).before_look _).seq _).seq
    _).seq _).seq _).seq _))
  looks := beside_digit (by
    simp [biznoPattern, notAfterDigit, notBeforeDigit, separator, digit, Pattern.times,
      Pattern.opt, Pattern.looks, digitTests])
  paced := by
    simp [biznoPattern, notAfterDigit, notBeforeDigit, separator, digit, Pattern.times,
      Pattern.opt, Pattern.Paced]
  least := Nat.le_of_ble_eq_true rfl

theorem phone_number : Number u (phonePattern u) where
  opens := (opens_look _).seq _
  closes := ((((((closes_look _).seq _).seq _).seq _).seq _).seq _).seq _
  starts := by
    have hzero : ∀ (w : Text), (lit ('0' :: w)).Starts u.isDecimal := fun w =>
      (starts_lit '0' w).mono fun a ha => by
        rw [of_decide_eq_true ha, u.isDecimal_range (by decide)]
    have harea : (areaCode u).Starts u.isDecimal :=
      ((hzero _).seq _).alt ((hzero _).alt ((hzero _).seq _))
    exact (((harea.group 1).seq _).after_look _)
  ends := ((((((((ends_one u.isDecimal).rep 3 (some 4)).before_look _).seq _).seq _).seq _).seq
    _).seq _)
  looks := beside_digit (by
    simp [phonePattern, areaCode, notAfterDigit, notBeforeDigit, separator, digit, Pattern.times,
      Pattern.opt, Pattern.lit, Pattern.looks, digitTests])
  paced := by
    simp [phonePattern, areaCode, notAfterDigit, notBeforeDigit, separator, digit, Pattern.times,
      Pattern.opt, Pattern.lit, Pattern.Paced]
  least := Nat.le_of_ble_eq_true rfl

theorem account_number : Number u (accountPattern u) where
  opens := (opens_look _).seq _
  closes := ((((((closes_look _).seq _).seq _).seq _).seq _).seq _).seq _
  starts := (((starts_one _).rep 1 (some 6)).seq _).after_look _
  ends := ((((((((ends_one u.isDecimal).rep 1 (some 6)).before_look _).seq _).seq _).seq _).seq
    _).seq _)
  looks := beside_digit (by
    simp [accountPattern, notAfterDigit, notBeforeDigit, digit, Pattern.lit, Pattern.looks,
      digitTests])
  paced := by
    simp [accountPattern, notAfterDigit, notBeforeDigit, digit, Pattern.lit, Pattern.Paced]
  least := Nat.le_of_ble_eq_true rfl

end Numbers

/-- Every pattern is one for numbers or that of the addresses. -/
theorem number_or_email {u : Unicode} {type : String} {r : Pattern Char}
    (h : (type, r) ∈ patterns u) :
    Number u r ∧ type ≠ "EMAIL" ∨ type = "EMAIL" ∧ r = emailPattern u := by
  simp only [patterns, List.mem_cons, Prod.mk.injEq, List.not_mem_nil, or_false] at h
  rcases h with ⟨rfl, rfl⟩ | ⟨rfl, rfl⟩ | ⟨rfl, rfl⟩ | ⟨rfl, rfl⟩ | ⟨rfl, rfl⟩ | ⟨rfl, rfl⟩
  · exact Or.inl ⟨rrn_number u, by decide⟩
  · exact Or.inl ⟨card_number u, by decide⟩
  · exact Or.inl ⟨bizno_number u, by decide⟩
  · exact Or.inl ⟨phone_number u, by decide⟩
  · exact Or.inr ⟨rfl, rfl⟩
  · exact Or.inl ⟨account_number u, by decide⟩

/-! ## Runs of digits -/

/-- The test fails between two digits. -/
def Parts (u : Unicode) (p : Text → Text → Bool) : Prop :=
  ∀ b t c d, p b t = true → b.head? = some c → t.head? = some d → u.isDecimal c = true →
    u.isDecimal d = false

variable {u : PyUnicode}

theorem parts_behind : Parts u.toUnicode fun b _ => !b.head?.any u.isDecimal := by
  intro b t c d hp hc _ hdec
  simp [hc, hdec] at hp

theorem parts_ahead : Parts u.toUnicode fun _ t => !t.head?.any u.isDecimal := by
  intro b t c d hp _ hd _
  simpa [hd] using hp

theorem parts_boundary :
    Parts u.toUnicode fun b t => b.head?.any u.isWord != t.head?.any u.isWord := by
  intro b t c d hp hc hd hdec
  have hword : u.isWord c = true := u.word_of_decimal hdec
  have hno : u.isWord d = false := by simpa [hc, hd, hword] using hp
  by_contra hdigit
  rw [u.word_of_decimal (Bool.not_eq_false _ ▸ hdigit)] at hno
  cases hno

theorem email_opens (u : Unicode) : (emailPattern u).Opens fun b t =>
    b.head?.any u.isWord != t.head?.any u.isWord :=
  (opens_look _).seq _

theorem email_closes (u : Unicode) : (emailPattern u).Closes fun b t =>
    b.head?.any u.isWord != t.head?.any u.isWord :=
  ((((((closes_look _).seq _).seq _).seq _).seq _).seq _).seq _

theorem parts_of_pattern {type : String} {r : Pattern Char}
    (h : (type, r) ∈ patterns u.toUnicode) :
    (∃ p, r.Opens p ∧ Parts u.toUnicode p) ∧ ∃ p, r.Closes p ∧ Parts u.toUnicode p := by
  rcases number_or_email h with ⟨hnum, -⟩ | ⟨-, rfl⟩
  · exact ⟨⟨_, hnum.opens, parts_behind⟩, _, hnum.closes, parts_ahead⟩
  · exact ⟨⟨_, email_opens _, parts_boundary⟩, _, email_closes _, parts_boundary⟩

theorem heads_at {b t : Text} {k : ℕ} (hk : k + 1 = b.length) :
    b.reverse.head? = (b ++ t)[k]? ∧ t.head? = (b ++ t)[k + 1]? := by
  constructor
  · rw [List.head?_reverse, List.getLast?_eq_getElem?, ← hk, Nat.add_sub_cancel,
      List.getElem?_append_left (by omega)]
  · rw [hk, List.getElem?_append_right le_rfl, Nat.sub_self, List.head?_eq_getElem?]

/-- **No span begins or ends between two digits.** -/
theorem Found.edge {text : Text} {s : Span} (h : Found u.toUnicode text s) {k : ℕ}
    (hk : k + 1 = s.start ∨ k + 1 = s.stop) {c d : Char} (hc : text[k]? = some c)
    (hd : text[k + 1]? = some d) (hdec : u.isDecimal c = true) : u.isDecimal d = false := by
  obtain ⟨b, t, rfl, hstart, hstop, r, hr, hacc⟩ := h.split
  obtain ⟨⟨p, hopen, hp⟩, q, hclose, hq⟩ := parts_of_pattern hr
  rcases hk with hk | hk
  · obtain ⟨hbefore, hafter⟩ := heads_at (t := s.value ++ t) (hk.trans hstart)
    exact hp _ _ c d (hopen _ _ _ hacc) (hbefore.trans hc) (hafter.trans hd) hdec
  · have hlen : k + 1 = (b ++ s.value).length := by
      rw [List.length_append]
      omega
    obtain ⟨hbefore, hafter⟩ := heads_at (t := t) hlen
    rw [List.append_assoc] at hbefore hafter
    refine hq _ _ c d (hclose _ _ _ hacc) ?_ (hafter.trans hd) hdec
    rw [← List.reverse_append]
    exact hbefore.trans hc

/-- **A span takes a run of digits whole**, if it takes any of it. -/
theorem Found.whole_run {text : Text} {s : Span} (h : Found u.toUnicode text s) {i j : ℕ}
    (hrun : ∀ k, i ≤ k → k < j → ∃ c, text[k]? = some c ∧ u.isDecimal c = true)
    (hleft : s.start < j) (hright : i < s.stop) : s.start ≤ i ∧ j ≤ s.stop := by
  constructor
  · by_contra hlt
    obtain ⟨k, hk⟩ : ∃ k, k + 1 = s.start := ⟨s.start - 1, by omega⟩
    obtain ⟨c, hc, hcdec⟩ := hrun k (by omega) (by omega)
    obtain ⟨d, hd, hddec⟩ := hrun (k + 1) (by omega) (by omega)
    rw [h.edge (Or.inl hk) hc hd hcdec] at hddec
    cases hddec
  · by_contra hlt
    obtain ⟨k, hk⟩ : ∃ k, k + 1 = s.stop := ⟨s.stop - 1, by omega⟩
    obtain ⟨c, hc, hcdec⟩ := hrun k (by omega) (by omega)
    obtain ⟨d, hd, hddec⟩ := hrun (k + 1) (by omega) (by omega)
    rw [h.edge (Or.inr hk) hc hd hcdec] at hddec
    cases hddec

/-! ## Resident numbers -/

theorem times_digits {n : ℕ} {b w t : Text} (h : ((digit u.toUnicode).times n).Accepts b w t) :
    w.length = n ∧ ∀ c ∈ w, u.isDecimal c = true := by
  obtain ⟨m, hle, hge, hrounds⟩ := h
  obtain ⟨hlen, hall⟩ := Pattern.rounds_one.mp hrounds
  exact ⟨hlen.trans (le_antisymm hge hle), hall⟩

/-- `[-\s]` is no digit. -/
theorem separator_not_decimal {c : Char} (h : (c == '-' || u.isSpace c) = true) :
    u.isDecimal c = false := by
  rw [Bool.or_eq_true, beq_iff_eq] at h
  rcases h with rfl | hspace
  · rw [u.isDecimal_ascii (by decide)]
    rfl
  · by_contra hdec
    rw [u.decimal_not_space (Bool.not_eq_false _ ▸ hdec)] at hspace
    cases hspace

theorem separator_chars {b w t : Text} (h : (separator u.toUnicode).Accepts b w t) :
    w.length ≤ 1 ∧ ∀ c ∈ w, u.isDecimal c = false := by
  obtain ⟨m, -, hle, hrounds⟩ := h
  obtain ⟨hlen, hall⟩ := Pattern.rounds_one.mp hrounds
  exact ⟨hlen.trans_le hle, fun c hc => separator_not_decimal (hall c hc)⟩

/-- A resident number: six digits, perhaps a separator, seven digits. -/
theorem rrn_split {b w t : Text} (h : (rrnPattern u.toUnicode).Accepts b w t) :
    ∃ x sep y, w = x ++ (sep ++ y) ∧ (x.length = 6 ∧ ∀ c ∈ x, u.isDecimal c = true) ∧
      (sep.length ≤ 1 ∧ ∀ c ∈ sep, u.isDecimal c = false) ∧
      y.length = 7 ∧ ∀ c ∈ y, u.isDecimal c = true := by
  obtain ⟨_, _, rfl, ⟨rfl, -⟩, x, _, rfl, hx, sep, _, rfl, hsep, y, _, rfl,
    ⟨_, y', rfl, ⟨c, rfl, hc⟩, hy⟩, ⟨rfl, -⟩⟩ := h
  obtain ⟨hylen, hydec⟩ := times_digits hy
  have hrange := of_decide_eq_true hc
  have hcdec : u.isDecimal c = true :=
    u.isDecimal_range ⟨le_trans (by decide) hrange.1, le_trans hrange.2 (by decide)⟩
  refine ⟨x, sep, c :: y', by simp, times_digits hx, separator_chars hsep, ?_, ?_⟩
  · rw [List.length_cons, hylen]
  · intro d hd
    rcases List.mem_cons.mp hd with rfl | hd
    · exact hcdec
    · exact hydec d hd

theorem filter_digits {w : Text} (h : ∀ c ∈ w, u.isDecimal c = true) :
    w.filter u.isDecimal = w :=
  List.filter_eq_self.mpr h

theorem filter_separator {b w t : Text} (h : (separator u.toUnicode).Accepts b w t) :
    w.filter u.isDecimal = [] :=
  List.filter_eq_nil_iff.mpr fun c hc => by
    rw [(separator_chars h).2 c hc]
    exact Bool.false_ne_true

theorem plain_digits (n : ℕ) : ((digit u.toUnicode).times n).Plain := (plain_one _).rep n (some n)

theorem plain_separator : (separator u.toUnicode).Plain := (plain_one _).rep 0 (some 1)

/-- The digits of a resident number that is found are its two groups. -/
theorem rrn_groups {text : Text} {m : Match Char}
    (hm : m ∈ (rrnPattern u.toUnicode).finditer text) :
    m.group 1 ++ m.group 2 = m.text.filter u.isDecimal := by
  obtain ⟨c', hc', hreads, hgroups⟩ := matchAt_reads (matchFrom_of_mem hm)
  obtain ⟨_, c₀, hw₀, ⟨rfl, -⟩, hg₀, hc'⟩ := (plain_look _).seq_run hc'
  obtain ⟨w₁, c₁, hw₁, hacc₁, hg₁, hc'⟩ := (plain_digits 6).group_run hc'
  obtain ⟨w₂, c₂, hw₂, hacc₂, hg₂, hc'⟩ := plain_separator.seq_run hc'
  obtain ⟨w₃, c₃, hw₃, hacc₃, hg₃, hc'⟩ := ((plain_one _).seq (plain_digits 6)).group_run hc'
  obtain ⟨hw₄, hg₄⟩ := look_run hc'
  have htext : m.text = w₁ ++ (w₂ ++ w₃) := by
    have hall := hreads.unique ((((hw₀.trans hw₁).trans hw₂).trans hw₃).trans hw₄)
    simpa using hall
  have hcaptured : m.groups = [(1, w₁), (2, w₃)] := by
    rw [hgroups, hg₄, hg₃, hg₂, hg₁, hg₀]
    rfl
  have hthird : ∀ c ∈ w₃, u.isDecimal c = true := by
    obtain ⟨_, y, rfl, ⟨c, rfl, hc⟩, hy⟩ := hacc₃
    have hrange := of_decide_eq_true hc
    intro d hd
    rcases List.mem_cons.mp hd with rfl | hd
    · exact u.isDecimal_range ⟨le_trans (by decide) hrange.1, le_trans hrange.2 (by decide)⟩
    · exact (times_digits hy).2 d hd
  rw [htext, List.filter_append, List.filter_append, filter_digits (times_digits hacc₁).2,
    filter_separator hacc₂, filter_digits hthird, List.nil_append, Match.group, Match.group,
    hcaptured]
  rfl

/-- The digits of a business number that is found are its three groups. -/
theorem bizno_groups {text : Text} {m : Match Char}
    (hm : m ∈ (biznoPattern u.toUnicode).finditer text) :
    m.group 1 ++ m.group 2 ++ m.group 3 = m.text.filter u.isDecimal := by
  obtain ⟨c', hc', hreads, hgroups⟩ := matchAt_reads (matchFrom_of_mem hm)
  obtain ⟨_, c₀, hw₀, ⟨rfl, -⟩, hg₀, hc'⟩ := (plain_look _).seq_run hc'
  obtain ⟨w₁, c₁, hw₁, hacc₁, hg₁, hc'⟩ := (plain_digits 3).group_run hc'
  obtain ⟨w₂, c₂, hw₂, hacc₂, hg₂, hc'⟩ := plain_separator.seq_run hc'
  obtain ⟨w₃, c₃, hw₃, hacc₃, hg₃, hc'⟩ := (plain_digits 2).group_run hc'
  obtain ⟨w₄, c₄, hw₄, hacc₄, hg₄, hc'⟩ := plain_separator.seq_run hc'
  obtain ⟨w₅, c₅, hw₅, hacc₅, hg₅, hc'⟩ := (plain_digits 5).group_run hc'
  obtain ⟨hw₆, hg₆⟩ := look_run hc'
  have htext : m.text = w₁ ++ (w₂ ++ (w₃ ++ (w₄ ++ w₅))) := by
    have hall := hreads.unique
      ((((((hw₀.trans hw₁).trans hw₂).trans hw₃).trans hw₄).trans hw₅).trans hw₆)
    simpa using hall
  have hcaptured : m.groups = [(1, w₁), (2, w₃), (3, w₅)] := by
    rw [hgroups, hg₆, hg₅, hg₄, hg₃, hg₂, hg₁, hg₀]
    rfl
  rw [htext, List.filter_append, List.filter_append, List.filter_append, List.filter_append,
    filter_digits (times_digits hacc₁).2, filter_separator hacc₂,
    filter_digits (times_digits hacc₃).2, filter_separator hacc₄,
    filter_digits (times_digits hacc₅).2, List.nil_append, List.nil_append, Match.group,
    Match.group, Match.group, hcaptured]
  exact List.append_assoc _ _ _

/-! ## The longest numbers -/

/-- `[-\s]?` before something that starts with a digit. -/
theorem longest_separator {s : Pattern Char} (hstart : s.Starts u.isDecimal) (hs : s.Longest) :
    (Pattern.seq (separator u.toUnicode) s).Longest :=
  longest_seq (longest_rep_one _ _ _) (leaves_rep_one _ _ _) hstart
    (fun _ h => separator_not_decimal h) hs

theorem rrn_longest (u : PyUnicode) : (rrnPattern u.toUnicode).Longest := by
  have hlast : (Pattern.group 2 (.seq (.one fun c => decide ('1' ≤ c ∧ c ≤ '4'))
      ((digit u.toUnicode).times 6))).Longest :=
    (((single_one _).seq (single_times_one _ 6)).group 2).longest
  have hstart : (Pattern.seq (.group 2 (.seq (.one fun c => decide ('1' ≤ c ∧ c ≤ '4'))
      ((digit u.toUnicode).times 6))) (notBeforeDigit u.toUnicode)).Starts u.isDecimal := by
    refine ((((starts_one _).seq _).group 2).seq _).mono fun c hc => ?_
    have hrange := of_decide_eq_true hc
    exact u.isDecimal_range ⟨le_trans (by decide) hrange.1, le_trans hrange.2 (by decide)⟩
  refine longest_seq_single (test_look _).single ?_
  refine longest_seq_single ((single_times_one _ 6).group 1) ?_
  exact longest_separator hstart (longest_seq_test hlast (test_look _))

theorem bizno_longest (u : PyUnicode) : (biznoPattern u.toUnicode).Longest := by
  have hthird : (Pattern.seq (.group 3 ((digit u.toUnicode).times 5))
      (notBeforeDigit u.toUnicode)).Longest :=
    longest_seq_test ((single_times_one _ 5).group 3).longest (test_look _)
  refine longest_seq_single (test_look _).single ?_
  refine longest_seq_single ((single_times_one _ 3).group 1) ?_
  refine longest_separator ((((starts_one _).rep 1 (some 2)).group 2).seq _) ?_
  refine longest_seq_single ((single_times_one _ 2).group 2) ?_
  exact longest_separator ((((starts_one _).rep 4 (some 5)).group 3).seq _) hthird

theorem account_longest (u : PyUnicode) : (accountPattern u.toUnicode).Longest := by
  have hhyphen : ∀ c, u.isDecimal c = true → decide (c = '-') = false := by
    intro c hc
    refine decide_eq_false ?_
    rintro rfl
    rw [u.isDecimal_ascii (by decide)] at hc
    cases hc
  have hdigits : ∀ {s : Pattern Char}, s.Longest →
      (Pattern.seq (.rep (digit u.toUnicode) 2 (some 6)) (.seq (.lit ['-']) s)).Longest := by
    intro s hs
    refine longest_seq (longest_rep_one _ _ _) (leaves_rep_one _ _ _) ((starts_lit '-' []).seq _)
      hhyphen ?_
    exact longest_seq_single (single_lit _) hs
  refine longest_seq_single (test_look _).single (hdigits (hdigits ?_))
  exact longest_seq_test (longest_rep_one _ _ _) (test_look _)

theorem card_longest (u : Unicode) : (cardPattern u).Longest := by
  have hround : (Pattern.seq (digit u)
      (.opt (.one fun c => c == ' ' || c == '-'))).Longest :=
    longest_seq_single (single_one _) (longest_rep_one _ _ _)
  have hleaves : (Pattern.seq (digit u)
      (.opt (.one fun c => c == ' ' || c == '-'))).Leaves fun c => c == ' ' || c == '-' :=
    (leaves_rep_one _ _ _).after_single (single_one _)
  have hsep : ∀ c, (c == ' ' || c == '-') = true → u.isDecimal c = false := by
    intro c hc
    rw [Bool.or_eq_true, beq_iff_eq, beq_iff_eq] at hc
    rcases hc with rfl | rfl
    · rw [u.isDecimal_ascii (by decide)]
      rfl
    · rw [u.isDecimal_ascii (by decide)]
      rfl
  refine longest_seq_single (test_look _).single ?_
  refine longest_seq_test (longest_rep hround (Nat.succ_pos 0) ?_ _ _)
    ((test_look _).seq (test_look _))
  -- A digit without its separator leaves the separator, which is no digit.
  intro c c₁ h₁ c₂ h₂ hlt
  obtain ⟨a, rest, hafter, ha⟩ := hleaves c c₁ h₁ c₂ h₂ hlt
  by_contra hne
  obtain ⟨a', rest', hafter', hdec⟩ := ((starts_one u.isDecimal).seq _) c₂ hne
  rw [hafter] at hafter'
  obtain ⟨rfl, -⟩ := List.cons.inj hafter'
  rw [hsep a ha] at hdec
  cases hdec

/-! ## Addresses -/

/-- What `_EMAIL_PATTERN` accepts. -/
theorem email_accepts {u : Unicode} {b w t : Text} : (emailPattern u).Accepts b w t ↔
    (b.head?.any u.isWord != (w ++ t).head?.any u.isWord) = true ∧
      ((w.reverse ++ b).head?.any u.isWord != t.head?.any u.isWord) = true ∧
      ∃ x y z, w = x ++ '@' :: (y ++ '.' :: z) ∧
        (x ≠ [] ∧ ∀ c ∈ x, (u.isWord c || decide (c ∈ ['.', '+', '-'])) = true) ∧
        (y ≠ [] ∧ ∀ c ∈ y, (u.isWord c || c == '-') = true) ∧
        z ≠ [] ∧ ∀ c ∈ z, (u.isWord c || decide (c ∈ ['.', '-'])) = true := by
  constructor
  · rintro h
    refine ⟨email_opens u _ _ _ h, email_closes u _ _ _ h, ?_⟩
    obtain ⟨_, _, rfl, ⟨rfl, -⟩, x, _, rfl, hx, _, _, rfl, hat, y, _, rfl, hy, _, _, rfl, hdot,
      z, _, rfl, hz, rfl, -⟩ := h
    rw [accepts_lit.mp hat, accepts_lit.mp hdot]
    exact ⟨x, y, z, by simp, accepts_some1.mp hx, accepts_some1.mp hy, accepts_some1.mp hz⟩
  · rintro ⟨hopen, hclose, x, y, z, rfl, hx, hy, hz⟩
    refine ⟨[], _, rfl, ⟨rfl, hopen⟩, x, _, rfl, accepts_some1.mpr hx, ['@'], _, rfl,
      accepts_lit.mpr rfl, y, _, rfl, accepts_some1.mpr hy, ['.'], _, rfl, accepts_lit.mpr rfl, z, [],
      (List.append_nil z).symm, accepts_some1.mpr hz, rfl, ?_⟩
    have hbefore : z.reverse ++ (['.'].reverse ++ (y.reverse ++ (['@'].reverse ++
        (x.reverse ++ ([].reverse ++ b))))) = (x ++ '@' :: (y ++ '.' :: z)).reverse ++ b := by
      simp
    rw [hbefore]
    exact hclose

theorem not_word {u : Unicode} {c : Char} (hascii : c.val < 128) (hno : c.isAlphanum = false)
    (hne : c ≠ '_') : u.isWord c = false := by
  rw [Unicode.isWord, u.alnum_ascii c hascii, hno, beq_eq_false_iff_ne.mpr hne]
  rfl

/-- An address that is found is the longest at its place. -/
theorem email_longest (u : Unicode) : (emailPattern u).Longest := by
  have hfront : ∀ c, (u.isWord c || decide (c ∈ ['.', '+', '-'])) = true →
      decide (c = '@') = false := by
    intro c hc
    refine decide_eq_false ?_
    rintro rfl
    rw [not_word (by decide) (by decide) (by decide)] at hc
    cases hc
  have hlabel : ∀ c, (u.isWord c || c == '-') = true → decide (c = '.') = false := by
    intro c hc
    refine decide_eq_false ?_
    rintro rfl
    rw [not_word (by decide) (by decide) (by decide)] at hc
    cases hc
  have hrest : (Pattern.seq (some1 fun c => u.isWord c || decide (c ∈ ['.', '-']))
      (wordBoundary u)).Longest := longest_seq_test (longest_rep_one _ _ _) (test_look _)
  refine longest_seq_single (test_look _).single ?_
  refine longest_seq (longest_rep_one _ _ _) (leaves_rep_one _ _ _) ((starts_lit '@' []).seq _)
    hfront ?_
  refine longest_seq_single (single_lit _) ?_
  refine longest_seq (longest_rep_one _ _ _) (leaves_rep_one _ _ _) ((starts_lit '.' []).seq _)
    hlabel ?_
  exact longest_seq_single (single_lit _) hrest

/-- A text begins with a run of a class. -/
theorem run_split {α : Type*} (p : α → Bool) (l : List α) :
    ∃ run rest, l = run ++ rest ∧ (∀ a ∈ run, p a = true) ∧ rest.head?.any p = false := by
  refine ⟨l.takeWhile p, l.dropWhile p, List.takeWhile_append_dropWhile.symm,
    fun a ha => List.mem_takeWhile_imp ha, ?_⟩
  cases hdrop : l.dropWhile p with
  | nil => rfl
  | cons a rest =>
      have hhead := List.head_dropWhile_not p (hdrop ▸ List.cons_ne_nil a rest)
      simpa [hdrop] using hhead

/-- **An address takes runs of word characters whole**: it ends with one, and none
stands behind it. -/
theorem email_stop {u : Unicode} {b w t : Text} {m : Match Char}
    (hm : (emailPattern u).matchAt b (w ++ t) = some m) (hw : m.text = w)
    (h : (emailPattern u).Accepts b w t) :
    (w.reverse ++ b).head?.any u.isWord = true ∧ t.head?.any u.isWord = false := by
  obtain ⟨hopen, hclose, x, y, z, hwxyz, hx, hy, hz, hzall⟩ := email_accepts.mp h
  have hnext : t.head?.any u.isWord = false := by
    by_contra hno
    rw [Bool.not_eq_false] at hno
    -- Otherwise the address goes on to the end of the run.
    obtain ⟨run, rest, rfl, hall, hstop⟩ := run_split u.isWord t
    have hrun : run ≠ [] := by
      rintro rfl
      rw [List.nil_append, hstop] at hno
      cases hno
    have hlonger : (emailPattern u).Accepts b (w ++ run) rest := by
      refine email_accepts.mpr ⟨by rwa [List.append_assoc], ?_, x, y, z ++ run, ?_, hx, hy, ?_, ?_⟩
      · obtain ⟨front, c, rfl⟩ : ∃ front c, run = front ++ [c] :=
          ⟨_, _, (List.dropLast_append_getLast hrun).symm⟩
        have hc : u.isWord c = true := hall c (by simp)
        rw [hstop]
        simp [hc]
      · rw [hwxyz]
        simp
      · simp [hz]
      · intro c hc
        rcases List.mem_append.mp hc with hc | hc
        · exact hzall c hc
        · rw [hall c hc, Bool.true_or]
    rw [← List.append_assoc] at hm
    have hle := (email_longest u).le_of_matchAt hm hlonger
    rw [hw, List.length_append] at hle
    have := List.length_pos_iff.mpr hrun
    omega
  refine ⟨?_, hnext⟩
  rw [hnext] at hclose
  simpa using hclose

/-- No word character stands behind an address that is found. -/
theorem email_found_stop {u : Unicode} {text : Text} {m : Match Char}
    (hm : m ∈ (emailPattern u).finditer text) {c : Char} (hc : text[m.stop]? = some c) :
    u.isWord c = false := by
  obtain ⟨b, t, htext, hstart, -, hacc⟩ := mem_finditer hm
  have hmatch := matchFrom_of_mem hm
  rw [htext, hstart, matchFrom_append] at hmatch
  have hnext := (email_stop hmatch rfl hacc).2
  have hstop : m.stop = (b ++ m.text).length := by rw [Match.stop, hstart, List.length_append]
  rw [htext, hstop, ← List.append_assoc, List.getElem?_append_right le_rfl, Nat.sub_self,
    ← List.head?_eq_getElem?] at hc
  rw [hc] at hnext
  exact hnext

/-- The end of an address that is found. -/
theorem detect_email {u : Unicode} {text : Text} {s : Span} (hs : s ∈ detect u text)
    (htype : s.type = "EMAIL") : ∃ b t, text = b ++ (s.value ++ t) ∧ s.start = b.length ∧
      s.stop = b.length + s.value.length ∧ s.value.getLast?.any u.isWord = true ∧
      t.head?.any u.isWord = false := by
  have hmail : s ∈ detectEmail u text := by
    have hother : ∀ {type r confidence}, s ∈ detectBy type r confidence text → type = "EMAIL" := by
      intro type r confidence h
      obtain ⟨m, -, rfl⟩ := List.mem_map.mp h
      exact htype
    simp only [detect, List.mem_append] at hs
    rcases hs with ((((h | h) | h) | h) | h) | h
    · exact absurd (hother h) (by decide)
    · exact absurd (hother h) (by decide)
    · exact absurd (hother h) (by decide)
    · exact absurd (hother h) (by decide)
    · exact h
    · exact absurd (hother (List.mem_filter.mp h).1) (by decide)
  obtain ⟨m, hm, rfl⟩ := List.mem_map.mp hmail
  obtain ⟨b, t, htext, hstart, hne, hacc⟩ := mem_finditer hm
  have hmatch := matchFrom_of_mem hm
  rw [htext, hstart, matchFrom_append] at hmatch
  obtain ⟨hlast, hnext⟩ := email_stop hmatch rfl hacc
  refine ⟨b, t, htext, hstart, congrArg (· + m.text.length) hstart, ?_, hnext⟩
  rw [List.head?_append_of_ne_nil _ (List.reverse_ne_nil_iff.mpr hne), List.head?_reverse] at hlast
  exact hlast

end DlpServer.Detect.RegexRules
