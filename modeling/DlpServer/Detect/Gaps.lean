import DlpServer.Detect.Candidates
import DlpServer.Detect.Surroundings
import DlpServer.Lib.Window

/-!
# What stands between two spans

A stretch of the text between two spans of the result stays when the spans are replaced;
it can also be taken for a text of its own. If nothing that the patterns match runs over its
edges in one place or the other, the patterns find the same numbers in both
(`found_in_both`). So none of the candidates that survive lies in it in the second place,
if none does in the first (`Gap.nothing_new`).
-/

namespace DlpServer.Detect.RegexRules

open Regex Pattern

/-- A stretch `g` of the text, between `A` and `B`, that comes to stand between `A'` and
`B'`. -/
structure Gap (u : PyUnicode) (A g B A' B' : Text) : Prop where
  /-- Nothing that is matched runs over an edge, before or after. -/
  within : ∀ p ∈ patterns u.toUnicode, p.2.Within A g B
  within' : ∀ p ∈ patterns u.toUnicode, p.2.Within A' g B'
  /-- The edges do not part two digits. -/
  left : ∀ c d, A.getLast? = some c → g.head? = some d → u.isDecimal c = true →
    u.isDecimal d = false
  right : ∀ c d, g.getLast? = some c → B.head? = some d → u.isDecimal c = true →
    u.isDecimal d = false
  /-- Afterwards no word character stands beside the stretch. -/
  left' : A'.getLast?.any u.isWord = false
  right' : B'.head?.any u.isWord = false
  /-- No candidate lies in the stretch. -/
  free : ∀ c ∈ candidates u.toUnicode (A ++ (g ++ B)), ¬ Touches c A.length (A.length + g.length)

variable {u : PyUnicode} {A g B A' B' : Text}

namespace Gap

/-! ## Numbers -/

theorem not_decimal_of_any {o : Option Char} (h : o.any u.isWord = false) :
    o.any u.isDecimal = false := by
  cases o with
  | none => rfl
  | some c =>
      have hword : u.isWord c = false := h
      show u.isDecimal c = false
      by_contra hdec
      rw [u.word_of_decimal (Bool.not_eq_false _ ▸ hdec)] at hword
      cases hword

/-- What stands before a word of digits in the stretch, told by digits. -/
theorem alike_before (h : Gap u A g B A' B') {x w y : Text} (hg : g = x ++ (w ++ y))
    (hw : w.head?.any u.isDecimal = true) :
    (A ++ x).reverse.head?.any u.isDecimal = (A' ++ x).reverse.head?.any u.isDecimal := by
  rcases List.eq_nil_or_concat x with rfl | ⟨x', c, rfl⟩
  · rw [List.append_nil, List.append_nil, List.head?_reverse, List.head?_reverse,
      not_decimal_of_any h.left']
    cases hlast : A.getLast? with
    | none => rfl
    | some c =>
        obtain ⟨d, rest, rfl⟩ : ∃ d rest, w = d :: rest := by
          cases w with
          | nil => cases hw
          | cons d rest => exact ⟨d, rest, rfl⟩
        show u.isDecimal c = false
        by_contra hdec
        have hno := h.left c d hlast (by rw [hg]; rfl) (Bool.not_eq_false _ ▸ hdec)
        have hd : u.isDecimal d = true := hw
        rw [hd] at hno
        cases hno
  · simp

/-- What stands behind a word of digits in the stretch, told by digits. -/
theorem alike_behind (h : Gap u A g B A' B') {x w y : Text} (hg : g = x ++ (w ++ y))
    (hw : w.getLast?.any u.isDecimal = true) :
    (y ++ B).head?.any u.isDecimal = (y ++ B').head?.any u.isDecimal := by
  cases y with
  | nil =>
      rw [List.nil_append, List.nil_append, not_decimal_of_any h.right']
      cases hhead : B.head? with
      | none => rfl
      | some d =>
          obtain ⟨front, c, rfl⟩ : ∃ front c, w = front ++ [c] := by
            rcases List.eq_nil_or_concat w with rfl | ⟨front, c, rfl⟩
            · cases hw
            · exact ⟨front, c, List.concat_eq_append⟩
          rw [List.getLast?_concat] at hw
          have hlast : g.getLast? = some c := by
            rw [hg, List.append_nil, ← List.append_assoc, List.getLast?_concat]
          exact h.right c d hlast hhead hw
  | cons c y => rfl

/-- The words of a pattern for numbers are the same before and after. -/
theorem sameWords (h : Gap u A g B A' B') {r : Pattern Char} (hr : Number u.toUnicode r) :
    r.SameWords g A B A' B' := by
  intro x w y hg hne
  have hends : ∀ {b t : Text}, r.Accepts b w t →
      w.head?.any u.isDecimal = true ∧ w.getLast?.any u.isDecimal = true :=
    fun hacc => ⟨hr.starts.of_accepts hacc hne, hr.ends _ _ _ hacc⟩
  constructor
  · intro hacc
    obtain ⟨hfirst, hlast⟩ := hends hacc
    exact accepts_moved hr.paced hr.looks (h.alike_before hg hfirst) (h.alike_behind hg hlast) hacc
  · intro hacc
    obtain ⟨hfirst, hlast⟩ := hends hacc
    exact accepts_moved hr.paced hr.looks (h.alike_before hg hfirst).symm
      (h.alike_behind hg hlast).symm hacc

/-- The stretch seen from afterwards. -/
theorem found_before (h : Gap u A g B A' B') {type : String} {r : Pattern Char}
    (hmem : (type, r) ∈ patterns u.toUnicode) (hr : Number u.toUnicode r) (hlong : r.Longest)
    {m : Match Char} (hm : m ∈ r.finditer (A' ++ (g ++ B'))) (hleft : A'.length ≤ m.start)
    (hright : m.stop ≤ A'.length + g.length) :
    ∃ m₀ ∈ r.finditer (A ++ (g ++ B)), m₀.text = m.text ∧
      A'.length + m₀.start = A.length + m.start :=
  found_in_both hlong (h.within' _ hmem) (h.within _ hmem) (h.sameWords hr).symm hm hleft hright

theorem found_after (h : Gap u A g B A' B') {type : String} {r : Pattern Char}
    (hmem : (type, r) ∈ patterns u.toUnicode) (hr : Number u.toUnicode r) (hlong : r.Longest)
    {m : Match Char} (hm : m ∈ r.finditer (A ++ (g ++ B))) (hleft : A.length ≤ m.start)
    (hright : m.stop ≤ A.length + g.length) :
    ∃ m' ∈ r.finditer (A' ++ (g ++ B')), m'.text = m.text ∧
      A.length + m'.start = A'.length + m.start :=
  found_in_both hlong (h.within _ hmem) (h.within' _ hmem) (h.sameWords hr) hm hleft hright

/-! ## Addresses -/

/-- A match that passes its test does not touch the stretch. -/
theorem not_touched (h : Gap u A g B A' B') {type : String} {r : Pattern Char} {confidence : ℚ}
    {test : Match Char → Bool}
    (hsub : passed type r confidence test (A ++ (g ++ B)) ⊆ candidates u.toUnicode (A ++ (g ++ B)))
    {m : Match Char} (hm : m ∈ r.finditer (A ++ (g ++ B))) (htest : test m = true)
    (hleft : m.start < A.length + g.length) (hright : A.length < m.stop) : False :=
  h.free _ (hsub (List.mem_map.mpr ⟨m, List.mem_filter.mpr ⟨hm, htest⟩, rfl⟩)) ⟨hleft, hright⟩

theorem phones_sub (u : Unicode) (text : Text) :
    passed "PHONE" (phonePattern u) (65 / 100) (fun _ => true) text ⊆ candidates u text := by
  intro c hc
  simp only [candidates, List.mem_append]
  tauto

theorem accounts_sub (u : Unicode) (text : Text) :
    passed "ACCOUNT" (accountPattern u) (65 / 100) (fun m => !givesWay u text m) text ⊆
      candidates u text := by
  intro c hc
  simp only [candidates, List.mem_append]
  tauto

theorem emails_sub (u : Unicode) (text : Text) :
    passed "EMAIL" (emailPattern u) (9 / 10) (fun _ => true) text ⊆ candidates u text := by
  intro c hc
  simp only [candidates, List.mem_append]
  tauto

/-- The word characters that stood before a word which opens an address afterwards. -/
theorem word_before (h : Gap u A g B A' B') {x w : Text}
    (hopen : ((A' ++ x).reverse.head?.any u.isWord != w.head?.any u.isWord) = true) :
    ∃ left before, (A ++ x).reverse = left.reverse ++ before ∧
      (∀ c ∈ left, u.isWord c = true) ∧ (left ≠ [] → w.head?.any u.isWord = true) ∧
      (before.head?.any u.isWord != (left ++ w).head?.any u.isWord) = true := by
  by_cases hfirst : w.head?.any u.isWord = true
  · obtain ⟨run, before, hsplit, hall, hstop⟩ := run_split u.isWord (A ++ x).reverse
    refine ⟨run.reverse, before, by rw [List.reverse_reverse, hsplit],
      fun c hc => hall c (List.mem_reverse.mp hc), fun _ => hfirst, ?_⟩
    have hhead : (run.reverse ++ w).head?.any u.isWord = true := by
      rcases List.eq_nil_or_concat run with rfl | ⟨run', c, rfl⟩
      · exact hfirst
      · simp [hall c (by simp)]
    rw [hstop, hhead]
    rfl
  · rw [Bool.not_eq_true] at hfirst
    rw [hfirst, Bool.bne_false] at hopen
    refine ⟨[], (A ++ x).reverse, rfl, by simp, fun hno => absurd rfl hno, ?_⟩
    rcases List.eq_nil_or_concat x with rfl | ⟨x', c, rfl⟩
    · rw [List.append_nil, List.head?_reverse, h.left'] at hopen
      cases hopen
    · rw [List.nil_append, hfirst, Bool.bne_false]
      simpa using hopen

/-- The word characters that stood behind a word which closes an address afterwards. -/
theorem word_behind (h : Gap u A g B A' B') {w y : Text}
    (hclose : (w.getLast?.any u.isWord != (y ++ B').head?.any u.isWord) = true) :
    ∃ right behind, y ++ B = right ++ behind ∧ (∀ c ∈ right, u.isWord c = true) ∧
      ((w ++ right).getLast?.any u.isWord != behind.head?.any u.isWord) = true := by
  by_cases hlast : w.getLast?.any u.isWord = true
  · obtain ⟨run, behind, hsplit, hall, hstop⟩ := run_split u.isWord (y ++ B)
    refine ⟨run, behind, hsplit, hall, ?_⟩
    have hend : (w ++ run).getLast?.any u.isWord = true := by
      rcases List.eq_nil_or_concat run with rfl | ⟨run', c, rfl⟩
      · rwa [List.append_nil]
      · simp [hall c (by simp)]
    rw [hstop, hend]
    rfl
  · rw [Bool.not_eq_true] at hlast
    rw [hlast, Bool.false_bne] at hclose
    refine ⟨[], y ++ B, rfl, by simp, ?_⟩
    cases y with
    | nil =>
        rw [List.nil_append, h.right'] at hclose
        cases hclose
    | cons c y =>
        rw [List.append_nil, hlast, Bool.false_bne]
        exact hclose

/-- No address stands in the stretch afterwards. Together with the word characters around
it, it was an address before, and a match that reaches into the stretch was found. -/
theorem no_email (h : Gap u A g B A' B') {x w y : Text} (hg : g = x ++ (w ++ y)) :
    ¬ (emailPattern u.toUnicode).Accepts (A' ++ x).reverse w (y ++ B') := by
  intro hacc
  obtain ⟨hopen, hclose, X, Y, Z, hw, ⟨hX, hXall⟩, hY, hZ, hZall⟩ := email_accepts.mp hacc
  have hne : w ≠ [] := by
    rw [hw]
    simp
  rw [List.head?_append_of_ne_nil _ hne] at hopen
  rw [List.head?_append_of_ne_nil _ (List.reverse_ne_nil_iff.mpr hne), List.head?_reverse] at hclose
  obtain ⟨left, before, hbefore, hleftall, hfirst, hedge⟩ := h.word_before hopen
  obtain ⟨right, behind, hbehind, hrightall, hedge'⟩ := h.word_behind hclose
  -- The address before.
  have hlonger : (emailPattern u.toUnicode).Accepts before (left ++ (w ++ right)) behind := by
    refine email_accepts.mpr ⟨?_, ?_, left ++ X, Y, Z ++ right, ?_, ⟨?_, ?_⟩, hY, ?_, ?_⟩
    · have hhead : ((left ++ (w ++ right)) ++ behind).head? = (left ++ w).head? := by
        rw [← List.append_assoc left, List.append_assoc,
          List.head?_append_of_ne_nil _ (List.append_ne_nil_of_right_ne_nil left hne)]
      rw [hhead]
      exact hedge
    · have hlast : ((left ++ (w ++ right)).reverse ++ before).head? = (w ++ right).getLast? := by
        have hne' : (w ++ right).reverse ≠ [] := by simp [hne]
        rw [List.reverse_append, List.append_assoc, List.head?_append_of_ne_nil _ hne',
          List.head?_reverse]
      rw [hlast]
      exact hedge'
    · rw [hw]
      simp
    · exact List.append_ne_nil_of_right_ne_nil left hX
    · intro c hc
      rcases List.mem_append.mp hc with hc | hc
      · rw [hleftall c hc, Bool.true_or]
      · exact hXall c hc
    · exact List.append_ne_nil_of_left_ne_nil hZ right
    · intro c hc
      rcases List.mem_append.mp hc with hc | hc
      · exact hZall c hc
      · rw [hrightall c hc, Bool.true_or]
  have htext : A ++ (g ++ B) = before.reverse ++ ((left ++ (w ++ right)) ++ behind) := by
    have hfront := congrArg List.reverse hbefore
    rw [List.reverse_reverse, List.reverse_append, List.reverse_reverse] at hfront
    calc A ++ (g ++ B) = (A ++ x) ++ (w ++ (y ++ B)) := by
          rw [hg]
          simp only [List.append_assoc]
      _ = before.reverse ++ ((left ++ (w ++ right)) ++ behind) := by
          rw [hfront, hbehind]
          simp only [List.append_assoc]
  -- A match is found where it begins, or over that place.
  obtain ⟨m, hm, hstart, hstop⟩ : ∃ m ∈ (emailPattern u.toUnicode).finditer (A ++ (g ++ B)),
      m.start ≤ before.length ∧ before.length < m.stop := by
    obtain ⟨m₀, hm₀⟩ := matchAt_isSome hlonger
    obtain ⟨t, -, hacc₀⟩ := matchAt_some hm₀
    have hstart₀ := matchAt_start hm₀
    have hpos : 0 < m₀.text.length :=
      lt_of_lt_of_le (Nat.le_of_ble_eq_true rfl) (leastLength_le hacc₀)
    have hfrom := matchFrom_append (r := emailPattern u.toUnicode) before.reverse
      ((left ++ (w ++ right)) ++ behind)
    rw [List.reverse_reverse, hm₀, List.length_reverse, ← htext] at hfrom
    rcases found_or_inside hfrom (List.ne_nil_of_length_pos hpos) with hin | ⟨m, hm, hlt, hgt⟩
    · exact ⟨m₀, hin, hstart₀.le, by rw [Match.stop]; omega⟩
    · exact ⟨m, hm, hlt.le, hgt⟩
  have hlen := congrArg List.length hbefore
  rw [List.length_reverse, List.length_append, List.length_append, List.length_reverse] at hlen
  have hglen := congrArg List.length hg
  rw [List.length_append, List.length_append] at hglen
  have hwpos := List.length_pos_iff.mpr hne
  have hreach : before.length + left.length < m.stop := by
    by_contra hno
    -- It would end within the word characters.
    obtain ⟨k, hk⟩ : ∃ k, m.stop = before.length + k := ⟨m.stop - before.length, by omega⟩
    have hleftne : left ≠ [] := List.ne_nil_of_length_pos (by omega)
    obtain ⟨c, hc, hword⟩ : ∃ c, (left ++ w)[k]? = some c ∧ u.isWord c = true := by
      by_cases hlt : k < left.length
      · exact ⟨left[k], by rw [List.getElem?_append_left hlt, List.getElem?_eq_getElem],
          hleftall _ (List.getElem_mem hlt)⟩
      · obtain ⟨c, rest, rfl⟩ := List.exists_cons_of_ne_nil hne
        have hzero : k - left.length = 0 := by omega
        refine ⟨c, ?_, hfirst hleftne⟩
        rw [List.getElem?_append_right (by omega), hzero]
        rfl
    have hplace : (A ++ (g ++ B))[m.stop]? = some c := by
      have hklt : k < (left ++ w).length := (List.getElem?_eq_some_iff.mp hc).1
      rw [htext, hk, List.getElem?_append_right (by rw [List.length_reverse]; omega),
        List.length_reverse, Nat.add_sub_cancel_left, ← List.append_assoc left, List.append_assoc,
        List.getElem?_append_left hklt]
      exact hc
    rw [email_found_stop hm hplace] at hword
    cases hword
  exact h.not_touched (emails_sub _ _) hm rfl (by omega) (by omega)

/-! ## Nothing new -/

/-- A number with a checksum that is found afterwards was found before. -/
theorem no_checked (h : Gap u A g B A' B') {type : String} {r : Pattern Char} {confidence : ℚ}
    {test : Match Char → Bool} (hmem : (type, r) ∈ patterns u.toUnicode)
    (hr : Number u.toUnicode r) (hlong : r.Longest)
    (hsub : ∀ text, passed type r confidence test text ⊆ candidates u.toUnicode text)
    (htest : ∀ text text', ∀ m ∈ r.finditer text, ∀ m' ∈ r.finditer text', m.text = m'.text →
      test m = test m')
    {c : Span} (hc : c ∈ passed type r confidence test (A' ++ (g ++ B'))) :
    ¬ Touches c A'.length (A'.length + g.length) := by
  rintro ⟨hleft, hright⟩
  obtain ⟨m, hm, rfl⟩ := List.mem_map.mp hc
  obtain ⟨hm, hpass⟩ := List.mem_filter.mp hm
  have hleft : m.start < A'.length + g.length := hleft
  have hright : A'.length < m.stop := hright
  have hstop : m.stop = m.start + m.text.length := rfl
  obtain ⟨hin, hin'⟩ := h.within' _ hmem m hm hleft hright
  obtain ⟨m₀, hm₀, htext, hstart⟩ := h.found_before hmem hr hlong hm hin hin'
  have hstop₀ : m₀.stop = m₀.start + m.text.length := by rw [Match.stop, htext]
  rw [htest _ _ m hm m₀ hm₀ htext.symm] at hpass
  exact h.not_touched (hsub _) hm₀ hpass (by omega) (by omega)

/-- No phone number is found afterwards: a match over it was found before. -/
theorem no_phone (h : Gap u A g B A' B') {m : Match Char}
    (hm : m ∈ (phonePattern u.toUnicode).finditer (A' ++ (g ++ B')))
    (hleft : m.start < A'.length + g.length) (hright : A'.length < m.stop) : False := by
  have hmem : ("PHONE", phonePattern u.toUnicode) ∈ patterns u.toUnicode := by simp [patterns]
  have hphone := phone_number u.toUnicode
  obtain ⟨hin, hin'⟩ := h.within' _ hmem m hm hleft hright
  obtain ⟨x, y, hg, -, hne, hacc, -⟩ := split_within hm hin hin'
  have hacc₀ := (h.sameWords hphone x m.text y hg hne).mpr hacc
  have hpos : 0 < (phonePattern u.toUnicode).leastLength := lt_of_lt_of_le (by decide) hphone.least
  obtain ⟨m₀, hm₀, hlt, hgt⟩ := exists_overlapping hpos hacc₀
  have htext : (A ++ x) ++ (m.text ++ (y ++ B)) = A ++ (g ++ B) := by
    rw [hg]
    simp only [List.append_assoc]
  have hglen := congrArg List.length hg
  rw [List.length_append, List.length_append] at hglen
  rw [htext] at hm₀
  rw [List.length_append] at hlt hgt
  exact h.not_touched (phones_sub _ _) hm₀ rfl (by omega) (by omega)

/-- An account number that is found afterwards was found before, and gave way to a card
number that is found afterwards too. -/
theorem no_account (h : Gap u A g B A' B') {m : Match Char}
    (hm : m ∈ (accountPattern u.toUnicode).finditer (A' ++ (g ++ B')))
    (hpass : givesWay u.toUnicode (A' ++ (g ++ B')) m = false)
    (hleft : m.start < A'.length + g.length) (hright : A'.length < m.stop) : False := by
  have hmem : ("ACCOUNT", accountPattern u.toUnicode) ∈ patterns u.toUnicode := by simp [patterns]
  have hmemcard : ("CARD", cardPattern u.toUnicode) ∈ patterns u.toUnicode := by simp [patterns]
  obtain ⟨hin, hin'⟩ := h.within' _ hmem m hm hleft hright
  obtain ⟨m₀, hm₀, htext, hstart⟩ :=
    h.found_before hmem (account_number _) (account_longest u) hm hin hin'
  have hstop₀ : m₀.stop = m₀.start + m.text.length := by rw [Match.stop, htext]
  have hstop : m.stop = m.start + m.text.length := rfl
  by_cases hgives : givesWay u.toUnicode (A ++ (g ++ B)) m₀ = true
  · obtain ⟨c, hc, hover⟩ := List.any_eq_true.mp hgives
    obtain ⟨hlt, hgt⟩ := of_decide_eq_true hover
    rcases List.mem_append.mp hc with hcard | hphone
    · obtain ⟨hcin, hcin'⟩ := h.within _ hmemcard c hcard (by omega) (by omega)
      obtain ⟨c', hc', hctext, hcstart⟩ :=
        h.found_after hmemcard (card_number _) (card_longest _) hcard hcin hcin'
      have hcstop' : c'.stop = c'.start + c.text.length := by rw [Match.stop, hctext]
      have hcstop : c.stop = c.start + c.text.length := rfl
      have hgives' : givesWay u.toUnicode (A' ++ (g ++ B')) m = true := by
        refine List.any_eq_true.mpr ⟨c', List.mem_append_left _ hc', decide_eq_true ⟨?_, ?_⟩⟩
        · omega
        · omega
      rw [hpass] at hgives'
      cases hgives'
    · exact h.not_touched (phones_sub _ _) hphone rfl (by omega) (by omega)
  · rw [Bool.not_eq_true] at hgives
    have htest : (!givesWay u.toUnicode (A ++ (g ++ B)) m₀) = true := by
      rw [hgives]
      rfl
    exact h.not_touched (accounts_sub _ _) hm₀ htest (by omega) (by omega)

/-- **Nothing new comes to light** in a stretch between two spans. -/
theorem nothing_new (h : Gap u A g B A' B') :
    ∀ c ∈ candidates u.toUnicode (A' ++ (g ++ B')),
      ¬ Touches c A'.length (A'.length + g.length) := by
  intro c hc htouch
  have hleft := htouch.1
  have hright := htouch.2
  simp only [candidates, List.mem_append] at hc
  rcases hc with ((((hc | hc) | hc) | hc) | hc) | hc
  · refine h.no_checked (by simp [patterns]) (rrn_number _) (rrn_longest u) (fun text c hc => ?_)
      (fun text text' m hm m' hm' htext => ?_) hc htouch
    · simp only [candidates, List.mem_append]
      tauto
    · rw [rrn_groups hm, rrn_groups hm', htext]
  · refine h.no_checked (by simp [patterns]) (card_number _) (card_longest _) (fun text c hc => ?_)
      (fun text text' m hm m' hm' htext => ?_) hc htouch
    · simp only [candidates, List.mem_append]
      tauto
    · rw [htext]
  · refine h.no_checked (by simp [patterns]) (bizno_number _) (bizno_longest u)
      (fun text c hc => ?_) (fun text text' m hm m' hm' htext => ?_) hc htouch
    · simp only [candidates, List.mem_append]
      tauto
    · rw [bizno_groups hm, bizno_groups hm', htext]
  · obtain ⟨m, hm, rfl⟩ := List.mem_map.mp hc
    exact h.no_phone (List.mem_filter.mp hm).1 hleft hright
  · obtain ⟨m, hm, rfl⟩ := List.mem_map.mp hc
    have hm := (List.mem_filter.mp hm).1
    obtain ⟨hin, hin'⟩ := h.within' ("EMAIL", emailPattern u.toUnicode) (by simp [patterns]) m hm
      hleft hright
    obtain ⟨x, y, hg, -, -, hacc, -⟩ := split_within hm hin hin'
    exact h.no_email hg hacc
  · obtain ⟨m, hm, rfl⟩ := List.mem_map.mp hc
    obtain ⟨hm, hpass⟩ := List.mem_filter.mp hm
    exact h.no_account hm (by simpa using hpass) hleft hright

end Gap

end DlpServer.Detect.RegexRules
