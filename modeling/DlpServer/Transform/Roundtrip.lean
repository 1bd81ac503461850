import DlpServer.Transform.Apply

/-!
# Tokenise, then restore

A text whose spans have all been tokenized is the kept text tiled with labels.
`detokenize_text` finds exactly these labels, so each span comes back, or stays
a label for a requester who may not have it.
-/

namespace DlpServer.Transform

open Regex Splice Vault

/-! ## The labels of the stage -/

/-- The labels `vault.tokenize` gives for the spans in order, when no call raises. -/
def tokenizeAll (env : Vault.Env) (ctx : AnalysisContext) :
    (ℕ → Chance) → List Span → Vault.Db → Except Vault.VaultError (List Text × Vault.Db)
  | _, [], v => .ok ([], v)
  | chance, span :: spans, v => do
      let (label, v) ← Vault.tokenize env (chance 0).nonce v ctx.sessionId span.type span.value
        (some (accessScope ctx))
      let (labels, v) ← tokenizeAll env ctx (fun k => chance (k + 1)) spans v
      .ok (label :: labels, v)

variable {env : Vault.Env} {ctx : AnalysisContext} {chance : ℕ → Chance}

/-- The edit that puts a label in the place of its span. -/
def labelEdit (p : Span × Text) : Edit Char := ⟨p.1.start, p.1.stop, p.2⟩

theorem tokenizeAll_spec (year : ℤ) {spans : List Span} {labels : List Text} {v v' : Vault.Db}
    (hv : WellLabelled v) (h : tokenizeAll env ctx chance spans v = .ok (labels, v')) :
    labels.length = spans.length ∧
      renderAll env year ctx chance (spans.map fun s => (s, .tokenize)) v =
        ((spans.zip labels).map labelEdit, v') ∧
      ∀ label ∈ labels, varchar 64 label = .ok label ∧
        ∃ etype n, LabelType etype ∧ label = tokenLabel etype n := by
  induction spans generalizing chance labels v with
  | nil =>
      cases h
      exact ⟨rfl, rfl, fun label hl => absurd hl List.not_mem_nil⟩
  | cons span spans ih =>
      obtain ⟨⟨label, v₁⟩, h₁, h⟩ := bind_ok.mp h
      obtain ⟨⟨labels', v₂⟩, h₂, h⟩ := bind_ok.mp h
      cases h
      obtain ⟨hv₁, hform⟩ := tokenize_wellLabelled hv h₁
      obtain ⟨hlen, hrender, hforms⟩ := ih hv₁ h₂
      refine ⟨congrArg Nat.succ hlen, ?_, ?_⟩
      · have hone : tokenize env (chance 0) ctx span v = (label, v₁) := by
          rw [tokenize, h₁]
        simp only [List.map_cons, renderAll, render, hone, hrender, List.zip_cons_cons, labelEdit]
      · intro l hl
        rcases List.mem_cons.mp hl with rfl | hl
        · exact hform
        · exact hforms l hl

/-! ## Back again -/

theorem fit_zip {text : Text} {spans : List Span} {labels : List Text}
    (hcover : Covers text spans) (hlen : labels.length = spans.length)
    (f : Span × Text → Text) :
    Fit text ((spans.zip labels).map fun p => ⟨p.1.start, p.1.stop, f p⟩) := by
  apply hcover.fit
  rw [List.map_map]
  calc (spans.zip labels).map (fun p => (p.1.start, p.1.stop))
      = ((spans.zip labels).map Prod.fst).map fun s => (s.start, s.stop) := by
        rw [List.map_map]
        rfl
    _ = spans.map fun s => (s.start, s.stop) := by rw [List.map_fst_zip hlen.ge]

/-- What `detokenize_text` makes of the text of the stage. -/
theorem detokenize_woven {text : Text} {spans : List Span} {labels : List Text}
    (hcover : Covers text spans) (hclear : Misses (tokenLabelRe env.unicode) text)
    (hlen : labels.length = spans.length)
    (hforms : ∀ label ∈ labels, ∃ etype n, LabelType etype ∧ label = tokenLabel etype n)
    {fetch : ℕ → FetchOne} {w : Vault.Db} {sid : String} {role purpose : Option String}
    {answer : Text → Option Text}
    (hanswer : ∀ label ∈ labels, Answers env w sid role purpose label (answer label)) :
    (detokenizeText env fetch w sid (onePass text ((spans.zip labels).map labelEdit)) role
      purpose).1 =
      onePass text ((spans.zip labels).map fun p =>
        ⟨p.1.start, p.1.stop, (answer p.2).getD p.2⟩) := by
  have hfit : Fit text ((spans.zip labels).map labelEdit) := fit_zip hcover hlen Prod.snd
  have hsame := hfit.onePass_eq_gaps id
  have hid : ((spans.zip labels).map labelEdit).map (fun e => { e with new := id e.new }) =
      (spans.zip labels).map labelEdit := List.map_id _
  rw [hid] at hsame
  have hnew := hfit.onePass_eq_gaps fun label => (answer label).getD label
  rw [List.map_map] at hnew
  have hlabel : ∀ p ∈ gaps text 0 (ascending ((spans.zip labels).map labelEdit)),
      p.2 ∈ labels := by
    intro p hp
    obtain ⟨-, e, he, heq⟩ := mem_gaps hp
    obtain ⟨q, hq, rfl⟩ := List.mem_map.mp ((ascending_perm _).mem_iff.mp he)
    rw [heq]
    exact (List.of_mem_zip hq).2
  rw [hsame]
  refine (detokenizeText_tiles ?_ ?_ ?_ ?_).trans hnew.symm
  · exact fun p hp => hanswer p.2 (hlabel p hp)
  · exact fun p hp => hclear.part (mem_gaps hp).1
  · exact hclear.part (rest_within _ _ _)
  · exact fun p hp => hforms p.2 (hlabel p hp)

/-- Values that came back are what stood there: only the labels that stay are
replacements. -/
theorem onePass_restored {u : Unicode} {text : Text} {spans : List Span} {labels : List Text}
    (hcover : Covers text spans) (hclear : Misses (tokenLabelRe u) text)
    (hlen : labels.length = spans.length)
    (hforms : ∀ label ∈ labels, ∃ etype n, LabelType etype ∧ label = tokenLabel etype n)
    {restorable : Text → Bool} {answer : Text → Option Text}
    (hanswer : ∀ p ∈ spans.zip labels,
      answer p.2 = if restorable p.2 then some p.1.value else none) :
    onePass text ((spans.zip labels).map fun p =>
        ⟨p.1.start, p.1.stop, (answer p.2).getD p.2⟩) =
      onePass text (((spans.zip labels).filter fun p => !restorable p.2).map labelEdit) := by
  have hfit := fit_zip hcover hlen fun p => (answer p.2).getD p.2
  rw [hfit.onePass_filter (fun e => decide (e.new ≠ slice text e.start e.stop)) ?_,
    List.filter_map]
  · -- A label is never what stood there: the text has none.
    have hkept : ∀ p ∈ spans.zip labels,
        ((fun e : Edit Char => decide (e.new ≠ slice text e.start e.stop)) ∘ fun p =>
          ⟨p.1.start, p.1.stop, (answer p.2).getD p.2⟩) p = !restorable p.2 := by
      intro p hp
      obtain ⟨hspan, hlabel⟩ := List.of_mem_zip hp
      rw [Function.comp_apply, hanswer p hp]
      cases restorable p.2 with
      | true => simp [hcover.value p.1 hspan]
      | false =>
          obtain ⟨etype, n, htype, heq⟩ := hforms p.2 hlabel
          have hslice : Misses (tokenLabelRe u) (slice text p.1.start p.1.stop) :=
            hclear.part (slice_within _ _ _)
          have hne : p.2 ≠ slice text p.1.start p.1.stop := by
            intro hsame
            rw [← hsame, heq] at hslice
            exact hslice [] _ [] (by simp) [] [] (tokenLabel_accepts u htype n [] [])
          simp [hne]
    rw [List.filter_congr hkept]
    refine congrArg _ (List.map_congr_left fun p hp => ?_)
    obtain ⟨hp, hr⟩ := List.mem_filter.mp hp
    have hr : restorable p.2 = false := by simpa using hr
    rw [hanswer p hp, hr, labelEdit]
    rfl
  · intro e _ he
    simpa using he

/-- The text the stage leaves when every span is tokenized. -/
theorem transformStage_tokenized {year : ℤ} {earlier : List Turn} {turn : Turn} {spans : List Span}
    {labels : List Text} {v v' : Vault.Db} (hturns : ctx.turns = earlier ++ [turn])
    (hactions : ctx.spanActions = spans.map fun s => (s, .tokenize))
    (hcover : Covers turn.text spans) (hv : WellLabelled v)
    (hlabels : tokenizeAll env ctx chance spans v = .ok (labels, v')) :
    (transformStage env year chance ctx v).1.turns = earlier ++
      [{ turn with text := onePass turn.text ((spans.zip labels).map labelEdit) }] := by
  by_cases hnil : spans = []
  · subst hnil
    rw [transformStage, if_pos (by rw [hactions]; rfl), hturns]
    rfl
  · have hne : ctx.spanActions ≠ [] := by
      rw [hactions]
      exact fun h => hnil (List.map_eq_nil_iff.mp h)
    obtain ⟨-, hrender, -⟩ := tokenizeAll_spec year hv hlabels
    have hfirst : ctx.spanActions.map Prod.fst = spans := by
      rw [hactions, List.map_map]
      exact List.map_id spans
    have hno : ∀ p ∈ ctx.spanActions, p.2 ≠ .aggregate := by
      rw [hactions]
      intro p hp
      obtain ⟨s, -, rfl⟩ := List.mem_map.mp hp
      exact Action.noConfusion
    rw [← hfirst] at hcover
    rw [transformStage, if_neg hne, hturns, List.getLast?_concat]
    dsimp only
    rw [transformText_eq_onePass hcover.toPlaced hno, hactions, hrender, List.dropLast_concat]

/-- **Tokenise, then restore, is the identity** on a text without labels, for a
requester to whom every label denotes its value. In general exactly the spans
whose labels the requester may not restore are still shown as labels. -/
theorem tokenize_then_restore (env : Vault.Env) (year : ℤ) (chance : ℕ → Chance)
    (start : Time) (ops : List Op) (ctx : AnalysisContext) (earlier : List Turn) (turn : Turn)
    (spans : List Span) (labels : List Text) (v' : Vault.Db)
    (hturns : ctx.turns = earlier ++ [turn])
    (hactions : ctx.spanActions = spans.map fun s => (s, .tokenize))
    (hclear : (tokenLabelRe env.unicode).finditer turn.text = [])
    (hcover : Covers turn.text spans)
    (hlabels : tokenizeAll env ctx chance spans (runFrom env start ops) = .ok (labels, v')) :
    ∃ text, (transformStage env year chance ctx (runFrom env start ops)).1.turns =
        earlier ++ [{ turn with text := text }] ∧
      ∀ (fetch : ℕ → FetchOne) (w : Vault.Db) (role purpose : Option String),
        (Loggable role purpose → (∀ p ∈ spans.zip labels,
            Denotes env w ctx.sessionId role purpose p.2 p.1.value) →
          (detokenizeText env fetch w ctx.sessionId text role purpose).1 = turn.text) ∧
        ∀ restorable : Text → Bool, (∀ p ∈ spans.zip labels,
            Answers env w ctx.sessionId role purpose p.2
              (if restorable p.2 then some p.1.value else none)) →
          (detokenizeText env fetch w ctx.sessionId text role purpose).1 =
            onePass turn.text
              (((spans.zip labels).filter fun p => !restorable p.2).map labelEdit) := by
  have hv := runFrom_wellLabelled env start ops
  obtain ⟨hlen, -, hforms⟩ := tokenizeAll_spec year hv hlabels
  have hmisses := (tokenLabelRe_delimited env.unicode).misses_of_finditer hclear
  refine ⟨_, transformStage_tokenized hturns hactions hcover hv hlabels, ?_⟩
  intro fetch w role purpose
  have hgeneral : ∀ restorable : Text → Bool, (∀ p ∈ spans.zip labels,
      Answers env w ctx.sessionId role purpose p.2
        (if restorable p.2 then some p.1.value else none)) →
      (detokenizeText env fetch w ctx.sessionId
        (onePass turn.text ((spans.zip labels).map labelEdit)) role purpose).1 =
        onePass turn.text
          (((spans.zip labels).filter fun p => !restorable p.2).map labelEdit) := by
    intro restorable hall
    -- The answer for a label does not depend on the fetch, so any fetch gives it.
    let answer : Text → Option Text := fun label =>
      (detokenize env .first w ctx.sessionId label role purpose).1
    have hanswer : ∀ p ∈ spans.zip labels,
        answer p.2 = if restorable p.2 then some p.1.value else none :=
      fun p hp => hall p hp .first
    have hanswers : ∀ label ∈ labels,
        Answers env w ctx.sessionId role purpose label (answer label) := by
      intro label hl
      rw [← List.map_snd_zip hlen.le] at hl
      obtain ⟨p, hp, rfl⟩ := List.mem_map.mp hl
      rw [hanswer p hp]
      exact hall p hp
    rw [detokenize_woven hcover hmisses hlen (fun l hl => (hforms l hl).2) hanswers]
    exact onePass_restored hcover hmisses hlen (fun l hl => (hforms l hl).2) hanswer
  refine ⟨fun hlog hdenotes => ?_, hgeneral⟩
  rw [hgeneral (fun _ => true)]
  · rw [List.filter_eq_nil_iff.mpr fun p _ => by simp]
    rfl
  · intro p hp
    have hlabel := (List.of_mem_zip hp).2
    exact (hdenotes p hp).answers (hforms p.2 hlabel).1 hlog

/-! ## A number in a sentence -/

/-- A request that mentions a number, from an agent. -/
def sampleContext : AnalysisContext where
  sessionId := "s"
  direction := "input"
  provider := "gateway"
  role := some "agent_l1"
  turns := [⟨"user", "번호 <900101-1234567>".toList⟩]
  newTurnSpans := []
  riskScore := 0
  injection := ⟨false, 0, none⟩
  blocked := false
  blockReason := none
  purpose := none
  purposeConfidence := none
  spanActions := [(⟨"RRN", "900101-1234567".toList, 4, 18, 97 / 100, "regex"⟩, .tokenize)]

/-- The agent reads the sentence again, another agent the label in it. -/
theorem tokenize_then_restore_sample :
    ∃ text, (transformStage .sample 2026 (fun _ => ⟨.zero, 0, fun _ => 0⟩) sampleContext
        (runFrom .sample 0 [])).1.turns = [⟨"user", text⟩] ∧
      (detokenizeText .sample (fun _ => .first) sampleVault "s" text (some "agent_l1") none).1 =
        "번호 <900101-1234567>".toList ∧
      (detokenizeText .sample (fun _ => .first) sampleVault "s" text (some "agent_l2") none).1 =
        "번호 <<PII:RRN:1>>".toList := by
  have hcover : Covers "번호 <900101-1234567>".toList
      [⟨"RRN", "900101-1234567".toList, 4, 18, 97 / 100, "regex"⟩] :=
    ⟨⟨by decide +kernel, by decide +kernel⟩, by decide +kernel⟩
  obtain ⟨text, hturns, hrest⟩ := tokenize_then_restore .sample 2026
    (fun _ => ⟨.zero, 0, fun _ => 0⟩) 0 [] sampleContext [] _ _ ["<PII:RRN:1>".toList]
    sampleVault rfl rfl (by decide +kernel) hcover (by decide +kernel)
  have hlog : Loggable (some "agent_l1") none :=
    ⟨⟨"agent_l1".toList, by decide +kernel⟩, ⟨none, rfl⟩⟩
  refine ⟨text, hturns, (hrest _ _ _ _).1 hlog ?_, ?_⟩
  · intro p hp
    obtain rfl := List.mem_singleton.mp hp
    exact ⟨by decide +kernel, by decide +kernel⟩
  · refine ((hrest _ sampleVault _ none).2 (fun _ => false) ?_).trans (by decide +kernel)
    intro p hp
    obtain rfl := List.mem_singleton.mp hp
    exact answers_none (by decide +kernel)

/-- A request like it, under a role that the column of the access log cannot hold. -/
def longRoleContext : AnalysisContext :=
  { sampleContext with role := some (String.ofList (List.replicate 65 'r')) }

/-- The label denotes the number to the requester, but the attempt cannot be logged, and
the requester reads the label. -/
theorem long_role_not_restored :
    let stage := transformStage .sample 2026 (fun _ => ⟨.zero, 0, fun _ => 0⟩) longRoleContext
      (runFrom .sample 0 [])
    stage.1.turns = [⟨"user", "번호 <<PII:RRN:1>>".toList⟩] ∧
      Denotes .sample stage.2 "s" longRoleContext.role none "<PII:RRN:1>".toList
        "900101-1234567".toList ∧
      (detokenizeText .sample (fun _ => .first) stage.2 "s" "번호 <<PII:RRN:1>>".toList
        longRoleContext.role none).1 ≠ "번호 <900101-1234567>".toList :=
  ⟨by decide +kernel, ⟨by decide +kernel, by decide +kernel⟩, by decide +kernel⟩

end DlpServer.Transform
