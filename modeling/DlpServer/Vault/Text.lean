import DlpServer.Lib.Regex
import DlpServer.Vault.Restore

/-!
# Labels in a text

`detokenize_text` finds the labels of a text with `TOKEN_LABEL_RE` and tries to
restore each. Every label the vault hands out is a word of the pattern, and the
words of the pattern are delimited by `<` and `>`, so labels placed in a text
without labels are found again, whole and nothing else.
-/

namespace DlpServer.Vault

open Ids Regex

/-! ## The pattern -/

/-- `[A-Z_]`. -/
def labelTypeChar (c : Char) : Bool := c.isUpper || c == '_'

/-- `TOKEN_LABEL_RE`: `<PII:([A-Z_]+):(\d+)>`. -/
def tokenLabelRe (u : Unicode) : Pattern Char :=
  .seq (.lit ['<', 'P', 'I', 'I', ':'])
    (.seq (.group 1 (.some1 labelTypeChar))
      (.seq (.lit [':']) (.seq (.group 2 (.some1 u.isDecimal)) (.lit ['>']))))

theorem tokenLabelRe_accepts {u : Unicode} {b w t : Text} :
    (tokenLabelRe u).Accepts b w t ↔ ∃ etype digits : Text,
      w = ['<', 'P', 'I', 'I', ':'] ++ (etype ++ ([':'] ++ (digits ++ ['>']))) ∧
      (etype ≠ [] ∧ ∀ c ∈ etype, labelTypeChar c = true) ∧
      (digits ≠ [] ∧ ∀ c ∈ digits, u.isDecimal c = true) := by
  simp only [tokenLabelRe, Pattern.accepts_seq, Pattern.accepts_lit, Pattern.accepts_group,
    Pattern.accepts_some1]
  constructor
  · rintro ⟨_, _, rfl, rfl, etype, _, rfl, ht, _, _, rfl, rfl, digits, _, rfl, hd, rfl⟩
    exact ⟨etype, digits, rfl, ht, hd⟩
  · rintro ⟨etype, digits, rfl, ht, hd⟩
    exact ⟨_, _, rfl, rfl, etype, _, rfl, ht, _, _, rfl, rfl, digits, _, rfl, hd, rfl⟩

theorem not_decimal_ascii (u : Unicode) {c : Char} (h : c.val < 128) (hd : c.isDigit = false) :
    u.isDecimal c = false := by
  rw [u.isDecimal_ascii h, hd]

/-- A label begins at its only `<` and ends at its only `>`. -/
theorem tokenLabelRe_delimited (u : Unicode) : Delimited (tokenLabelRe u) '<' '>' where
  ne := by decide
  context h := tokenLabelRe_accepts.mpr (tokenLabelRe_accepts.mp h)
  shape h := by
    obtain ⟨etype, digits, rfl, ⟨-, ht⟩, ⟨-, hd⟩⟩ := tokenLabelRe_accepts.mp h
    have hout : ∀ c : Char, labelTypeChar c = false → u.isDecimal c = false →
        c ∉ ['P', 'I', 'I', ':'] → c ∉ ['P', 'I', 'I', ':'] ++ etype ++ [':'] ++ digits := by
      intro c hct hcd hcp hc
      simp only [List.mem_append] at hc
      rcases hc with ((hc | hc) | hc) | hc
      · exact hcp hc
      · rw [ht c hc] at hct
        cases hct
      · obtain rfl := List.mem_singleton.mp hc
        exact hcp (by decide)
      · rw [hd c hc] at hcd
        cases hcd
    refine ⟨['P', 'I', 'I', ':'] ++ etype ++ [':'] ++ digits, ?_, ?_, ?_⟩
    · simp only [List.cons_append, List.nil_append, List.append_assoc]
    · exact hout '<' (by decide) (not_decimal_ascii u (by decide) (by decide)) (by decide)
    · exact hout '>' (by decide) (not_decimal_ascii u (by decide) (by decide)) (by decide)

theorem toDigits_decimal (u : Unicode) (n : ℕ) :
    ∀ c ∈ Nat.toDigits 10 n, u.isDecimal c = true := by
  intro c hc
  have hdigit : c.isDigit = true := Nat.isDigit_of_mem_toDigits (by decide) (by decide) hc
  have hascii : c.val < 128 := by
    simp only [Char.isDigit, Bool.and_eq_true, decide_eq_true_eq] at hdigit
    exact UInt32.lt_of_le_of_lt hdigit.2 (by decide)
  rw [u.isDecimal_ascii hascii, hdigit]

/-- Every label is a word of the pattern. -/
theorem tokenLabel_accepts (u : Unicode) {etype : String} (h : LabelType etype) (n : ℕ)
    (b t : Text) : (tokenLabelRe u).Accepts b (tokenLabel etype n) t := by
  obtain ⟨hne, hchars⟩ := h.toList_chars
  refine tokenLabelRe_accepts.mpr ⟨etype.toList, Nat.toDigits 10 n, ?_, ⟨hne, ?_⟩,
    Nat.toDigits_ne_nil, toDigits_decimal u n⟩
  · simp only [tokenLabel, List.append_assoc]
  · intro c hc
    have := hchars c hc
    simpa [labelTypeChar] using this

/-! ## `detokenize_text` -/

/-- `detokenize_text`: each label found is restored or stays as it is. The
`k`-th attempt reads the database through `fetch k`. -/
def detokenizeText (env : Env) (fetch : ℕ → FetchOne) (v : Db) (sessionId : String)
    (text : Text) (role purpose : Option String) : Text × Db :=
  let (text, (_, v)) := (tokenLabelRe env.unicode).sub (fun label (k, v) =>
    let (original, v) := detokenize env (fetch k) v sessionId label role purpose
    (original.getD label, (k + 1, v))) text (0, v)
  (text, v)

variable {env : Env}

/-- What `detokenize` answers for a label does not depend on the row fetched. -/
def Answers (env : Env) (v : Db) (sid : String) (role purpose : Option String) (label : Text)
    (answer : Option Text) : Prop :=
  ∀ fetch, (detokenize env fetch v sid label role purpose).1 = answer

/-- Whether an attempt can be logged does not depend on the state. -/
theorem logAccess_congr (env : Env) (v v' : Db) (id : ℕ) (sid : String) (label : Text)
    (role purpose : Option String) (g : Bool) (d : Option String) :
    (∃ w w', logAccess env v id sid label role purpose g d = .ok w ∧
      logAccess env v' id sid label role purpose g d = .ok w') ∨
    ∃ e, logAccess env v id sid label role purpose g d = .error e ∧
      logAccess env v' id sid label role purpose g d = .error e := by
  unfold logAccess
  cases varchar 64 label with
  | error e => exact Or.inr ⟨e, rfl, rfl⟩
  | ok label =>
      cases varchar 64 (role.getD "").toList with
      | error e => exact Or.inr ⟨e, rfl, rfl⟩
      | ok requestedRole =>
          cases nullable purpose with
          | error e => exact Or.inr ⟨e, rfl, rfl⟩
          | ok requestedPurpose => exact Or.inl ⟨_, _, rfl, rfl⟩

/-- The answer depends on the rows of the label and the clock. -/
theorem detokenize_of_select {fetch : FetchOne} {v v' : Db} {sid : String} {label : Text}
    {role purpose : Option String}
    (hrows : selectByLabel v'.rows (env.coerce sid) label =
      selectByLabel v.rows (env.coerce sid) label) (hnow : v'.now = v.now) :
    (detokenize env fetch v' sid label role purpose).1 =
      (detokenize env fetch v sid label role purpose).1 := by
  have hlog := fun id g d => logAccess_congr env v v' id sid label role purpose g d
  unfold detokenize detokenizeBody
  rw [hrows, hnow]
  cases fetch.pick (selectByLabel v.rows (env.coerce sid) label) with
  | none =>
      rcases hlog nilUuid false (some "unknown_or_revoked") with ⟨w, w', h, h'⟩ | ⟨e, h, h'⟩ <;>
        simp [h, h', bind, Except.bind]
  | some row =>
      dsimp only
      by_cases hexp : row.expiresAt ≤ v.now
      · rw [if_pos hexp, if_pos hexp]
        rcases hlog row.tokenId false (some "expired") with ⟨w, w', h, h'⟩ | ⟨e, h, h'⟩ <;>
          simp [h, h', bind, Except.bind]
      · rw [if_neg hexp, if_neg hexp]
        obtain ⟨allowed, denied⟩ := scopeAllows (resolveScope row) role purpose
        cases allowed with
        | false =>
            rcases hlog row.tokenId false denied with ⟨w, w', h, h'⟩ | ⟨e, h, h'⟩ <;>
              simp [h, h', bind, Except.bind]
        | true =>
            cases env.decrypt row.cipherValue with
            | error e => rfl
            | ok value =>
                rcases hlog row.tokenId true none with ⟨w, w', h, h'⟩ | ⟨e, h, h'⟩ <;>
                  simp [h, h', bind, Except.bind]

/-- The answer depends on the rows and the clock, not on the access log. -/
theorem detokenize_congr {fetch : FetchOne} {v v' : Db} {sid : String} {label : Text}
    {role purpose : Option String} (hrows : v'.rows = v.rows) (hnow : v'.now = v.now) :
    (detokenize env fetch v' sid label role purpose).1 =
      (detokenize env fetch v sid label role purpose).1 :=
  detokenize_of_select (by rw [hrows]) hnow

/-- **Labels in a text are restored one by one**: in a text tiled by labels and
parts without labels, each label gives way to its answer. -/
theorem detokenizeText_tiles {fetch : ℕ → FetchOne} {v : Db} {sid : String}
    {role purpose : Option String} {tiles : List (Text × Text)} {last : Text}
    {answer : Text → Option Text}
    (hanswer : ∀ p ∈ tiles, Answers env v sid role purpose p.2 (answer p.2))
    (hgaps : ∀ p ∈ tiles, Misses (tokenLabelRe env.unicode) p.1)
    (hlast : Misses (tokenLabelRe env.unicode) last)
    (hlabels : ∀ p ∈ tiles, ∃ etype n, LabelType etype ∧ p.2 = tokenLabel etype n) :
    (detokenizeText env fetch v sid (tiles.flatMap (fun p => p.1 ++ p.2) ++ last) role
      purpose).1 = tiles.flatMap (fun p => p.1 ++ (answer p.2).getD p.2) ++ last := by
  refine (tokenLabelRe_delimited env.unicode).sub_tiles
    (I := fun s : ℕ × Db => s.2.rows = v.rows ∧ s.2.now = v.now)
    (f := fun label => (answer label).getD label) ⟨rfl, rfl⟩ ?_ hgaps hlast ?_
  · rintro p hp ⟨k, v'⟩ ⟨hrows, hnow⟩
    obtain ⟨hrows', hnow', -⟩ := detokenize_frame env (fetch k) v' sid p.2 role purpose
    refine ⟨?_, hrows'.trans hrows, hnow'.trans hnow⟩
    show ((detokenize env (fetch k) v' sid p.2 role purpose).1).getD p.2 = _
    rw [detokenize_congr hrows hnow, hanswer p hp (fetch k)]
  · intro p hp
    obtain ⟨etype, n, htype, heq⟩ := hlabels p hp
    exact ⟨[], [], heq ▸ tokenLabel_accepts env.unicode htype n [] []⟩

/-! ## Labels of the vault -/

/-- Every row carries a label of the vault's form, which its column keeps whole. -/
def WellLabelled (v : Db) : Prop :=
  ∀ r ∈ v.rows, varchar 64 r.tokenLabel = .ok r.tokenLabel ∧
    ∃ etype n, LabelType etype ∧ r.tokenLabel = tokenLabel etype n

theorem runFrom_wellLabelled (env : Env) (start : Time) (ops : List Op) :
    WellLabelled (runFrom env start ops) := by
  intro r hr
  obtain ⟨m, hm, hborn⟩ := row_minted hr
  obtain ⟨pre, op, post, -, hmint⟩ := mem_mints.mp hm
  obtain ⟨_, _, _, -, het, -, -, -, blob, -, hrow⟩ := mintBy_spec hmint
  have hlabel : r.tokenLabel = m.row.tokenLabel := by
    rw [← hborn]
    rfl
  refine ⟨row_label_fits hr, m.entityType, _, ?_, hlabel.trans (by rw [hrow]; rfl)⟩
  rw [het]
  exact normalizeEntityType_labelType env _

/-- `tokenize` hands out such a label and keeps the rows so. -/
theorem tokenize_wellLabelled {nonce : Nonce} {v v' : Db} {sid et : String} {value label : Text}
    {scope : Option AccessScope} (hv : WellLabelled v)
    (h : tokenize env nonce v sid et value scope = .ok (label, v')) :
    WellLabelled v' ∧ varchar 64 label = .ok label ∧
      ∃ etype n, LabelType etype ∧ label = tokenLabel etype n := by
  rcases tokenize_cases h with ⟨r, hr, rfl, rfl⟩ | ⟨-, hl, hfits, blob, r, -, -, rfl, rfl⟩
  · exact ⟨hv, hv r (selectActive_some hr).1⟩
  · have hform : ∃ etype n, LabelType etype ∧ label = tokenLabel etype n :=
      ⟨_, _, normalizeEntityType_labelType env et, hl⟩
    refine ⟨?_, hfits, hform⟩
    intro r hr
    rcases List.mem_append.mp hr with hr | hr
    · exact hv r hr
    · obtain rfl := List.mem_singleton.mp hr
      exact ⟨hfits, hform⟩

/-- The label denotes one live value that the requester may have: some active
row carries it, and every such row is unexpired, stores the value and admits
the requester. -/
structure Denotes (env : Env) (v : Db) (sid : String) (role purpose : Option String)
    (label value : Text) : Prop where
  found : selectByLabel v.rows (env.coerce sid) label ≠ []
  live : ∀ r ∈ selectByLabel v.rows (env.coerce sid) label,
    (v.now < r.expiresAt ∧ r.accessScope.Admits role purpose) ∧
      env.decrypt r.cipherValue = .ok value

theorem Denotes.answers {v : Db} {sid : String} {role purpose : Option String}
    {label value : Text} (h : Denotes env v sid role purpose label value)
    (hfits : varchar 64 label = .ok label) (hlog : Loggable role purpose) :
    Answers env v sid role purpose label (some value) := by
  intro fetch
  cases hpick : fetch.pick (selectByLabel v.rows (env.coerce sid) label) with
  | none => exact absurd (fetch.pick_none hpick) h.found
  | some r =>
      obtain ⟨hlive, hdec⟩ := h.live r (fetch.pick_mem hpick)
      rw [detokenize_fetched hfits hlog hpick hdec, if_pos hlive]

/-- A label stays when every row that carries it is expired or shuts the
requester out. -/
theorem answers_none {v : Db} {sid : String} {role purpose : Option String} {label : Text}
    (h : ∀ r ∈ selectByLabel v.rows (env.coerce sid) label,
      ¬ (v.now < r.expiresAt ∧ r.accessScope.Admits role purpose)) :
    Answers env v sid role purpose label none := by
  intro fetch
  refine Option.eq_none_iff_forall_ne_some.mpr fun value hvalue => ?_
  obtain ⟨r, hr, hlive, hscope, -⟩ := detokenize_some hvalue
  exact h r hr ⟨hlive, (scopeAllows_iff _ _ _).mp hscope⟩

end DlpServer.Vault
