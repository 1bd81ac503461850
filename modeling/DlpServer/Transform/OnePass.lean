import DlpServer.Transform.Apply

/-!
# Carrying out the actions on a turn

`transform_stage` splices from the right, the spans that are not aggregated in the
order of their list. For spans that do not overlap this is one pass from the left
over the last turn (`spliced_in_one_pass`); with aggregated spans a summary follows.
-/

namespace DlpServer.Transform

open Splice

variable (env : Vault.Env) (year : ℤ) (ctx : AnalysisContext)

/-- At the place of the span stands what its action makes of it, for some draws
and some state of the vault. An aggregated span leaves nothing. -/
def Carries (p : Span × Action) (e : Edit Char) : Prop :=
  e.start = p.1.start ∧ e.stop = p.1.stop ∧
    if p.2 = .aggregate then e.new = []
    else ∃ chance v, e.new = (render env year chance p.2 ctx p.1 v).1

/-- The summary of the aggregated spans, where there are any. -/
def summed (u : Unicode) (actions : List (Span × Action)) (text : Text) : Text :=
  let group := actions.filter fun p => p.2 = .aggregate
  if group = [] then text else appendAggregateSummary u text (group.map Prod.fst)

variable {env year ctx}

variable (env year ctx) in
theorem renderAll_carries {actions : List (Span × Action)}
    (hno : ∀ p ∈ actions, p.2 ≠ .aggregate) (chance : ℕ → Chance) (v : Vault.Db) :
    List.Forall₂ (Carries env year ctx) actions (renderAll env year ctx chance actions v).1 := by
  induction actions generalizing chance v with
  | nil => exact .nil
  | cons p rest ih =>
      have hp := hno p List.mem_cons_self
      refine .cons ⟨rfl, rfl, ?_⟩ (ih (fun q hq => hno q (List.mem_cons_of_mem p hq)) _ _)
      rw [if_neg hp]
      exact ⟨_, _, rfl⟩

/-- `replacements`: what is rendered for the spans that are not aggregated, one after
another on the vault, and nothing for those that are. -/
def replacements (env : Vault.Env) (year : ℤ) (chance : ℕ → Chance) (ctx : AnalysisContext)
    (v : Vault.Db) : List (Edit Char) :=
  (renderAll env year ctx chance (ctx.spanActions.filter fun p => p.2 ≠ .aggregate) v).1 ++
    (ctx.spanActions.filter fun p => p.2 = .aggregate).map fun p => ⟨p.1.start, p.1.stop, []⟩

variable (env year ctx) in
/-- There is one replacement for each span, at its place. -/
theorem replacements_places (chance : ℕ → Chance) (v : Vault.Db) :
    ((replacements env year chance ctx v).map fun e => (e.start, e.stop)).Perm
      ((ctx.spanActions.map Prod.fst).map fun s => (s.start, s.stop)) := by
  have hsplit := List.filter_append_perm (fun p : Span × Action => decide (p.2 ≠ .aggregate))
    ctx.spanActions
  have hgroup : (ctx.spanActions.filter fun p => !decide (p.2 ≠ .aggregate)) =
      ctx.spanActions.filter fun p => p.2 = .aggregate := by simp
  rw [hgroup] at hsplit
  have hplaces := hsplit.map fun p : Span × Action => (p.1.start, p.1.stop)
  rw [List.map_append] at hplaces
  rw [replacements, List.map_append, renderAll_places, List.map_map, List.map_map, List.map_map]
  exact hplaces

variable (env year ctx) in
/-- **Every action is carried out in its place, in one pass.** -/
theorem transformText_onePass (chance : ℕ → Chance) {text : Text} (v : Vault.Db)
    (hplaced : Placed text (ctx.spanActions.map Prod.fst)) :
    Fit text (replacements env year chance ctx v) ∧ (transformText env year chance ctx text v).1 =
      summed env.unicode ctx.spanActions (onePass text (replacements env year chance ctx v)) := by
  have hfit : Fit text (replacements env year chance ctx v) := by
    have hplaces := replacements_places env year ctx chance v
    have hspans : Fit text ((ctx.spanActions.map Prod.fst).map fun s => ⟨s.start, s.stop, []⟩) := by
      apply hplaced.fit
      rw [List.map_map]
      rfl
    refine hspans.of_places ?_
    rw [List.map_map]
    exact hplaces
  refine ⟨hfit, ?_⟩
  unfold transformText summed
  dsimp only
  rw [← replacements, rightToLeft_eq_onePass hfit]
  split <;> rfl

/-! ## The stage -/

theorem transformStage_nil {chance : ℕ → Chance} {v : Vault.Db} (hturns : ctx.turns = []) :
    (transformStage env year chance ctx v).1.turns = [] := by
  unfold transformStage
  rw [hturns]
  split
  · exact hturns
  · exact hturns

/-- The stage rewrites the text of the last turn. -/
theorem transformStage_last {chance : ℕ → Chance} {v : Vault.Db} {earlier : List Turn} {turn : Turn}
    (hturns : ctx.turns = earlier ++ [turn]) :
    (transformStage env year chance ctx v).1 = { ctx with turns := earlier ++
      [{ turn with text := (transformText env year chance ctx turn.text v).1 }] } := by
  unfold transformStage
  split
  · rename_i hempty
    have htext : (transformText env year chance ctx turn.text v).1 = turn.text := by
      rw [transformText, hempty]
      rfl
    rw [htext, ← hturns]
  · rw [hturns, List.getLast?_concat, List.dropLast_concat]

/-- **Splicing from the right is one pass from the left.** Where no span is
aggregated the last turn is the parts between the spans and, in the order of their
places, what `_render` gave for each span; a kept span stays as it was. Nothing else
of the context changes. -/
theorem spliced_in_one_pass (env : Vault.Env) (year : ℤ) (chance : ℕ → Chance)
    (ctx : AnalysisContext) (v : Vault.Db) (earlier : List Turn) (turn : Turn)
    (hturns : ctx.turns = earlier ++ [turn])
    (hcover : Covers turn.text (ctx.spanActions.map Prod.fst))
    (hactions : ∀ p ∈ ctx.spanActions,
      p.2 ∈ [.keep, .mask, .generalize, .tokenize, .synthetic, .redact]) :
    let edits := (renderAll env year ctx chance ctx.spanActions v).1
    (transformStage env year chance ctx v).1 =
        { ctx with turns := earlier ++ [{ turn with text := onePass turn.text edits }] } ∧
      List.Forall₂ (fun p e => Carries env year ctx p e ∧
        (p.2 = .keep → e.new = slice turn.text p.1.start p.1.stop)) ctx.spanActions edits := by
  have hno : ∀ p ∈ ctx.spanActions, p.2 ≠ .aggregate := by
    intro p hp heq
    have := hactions p hp
    rw [heq] at this
    simp at this
  have hvalue : ∀ p ∈ ctx.spanActions, p.1.value = slice turn.text p.1.start p.1.stop :=
    fun p hp => hcover.value p.1 (List.mem_map_of_mem hp)
  constructor
  · rw [transformStage_last hturns, transformText_eq_onePass hcover.toPlaced hno]
  · have hcarries := renderAll_carries env year ctx hno chance v
    have hlisted := (List.forall₂_and_left ctx.spanActions _).mpr ⟨fun p hp => hp, hcarries⟩
    refine hlisted.imp ?_
    rintro p e ⟨hp, hcarry⟩
    refine ⟨hcarry, fun hkeep => ?_⟩
    obtain ⟨-, -, hnew⟩ := hcarry
    rw [if_neg (hno p hp)] at hnew
    obtain ⟨_, _, hnew⟩ := hnew
    rw [hnew, hkeep]
    exact hvalue p hp

/-- A number masked and an address kept, listed from the right. -/
def splicedContext : AnalysisContext where
  sessionId := "s"
  direction := "input"
  provider := "gateway"
  role := none
  turns := [⟨"user", "hi".toList⟩, ⟨"user", "900101-1234567 a@b.co".toList⟩]
  newTurnSpans := []
  riskScore := 0
  injection := ⟨false, 0, none⟩
  blocked := false
  blockReason := none
  purpose := none
  purposeConfidence := none
  spanActions := [(⟨"EMAIL", "a@b.co".toList, 15, 21, 9 / 10, "regex"⟩, .keep),
    (⟨"RRN", "900101-1234567".toList, 0, 14, 97 / 100, "regex"⟩, .mask)]

theorem spliced_in_one_pass_sample :
    (transformStage .sample 2026 (fun _ => ⟨.zero, 0, fun _ => 0⟩) splicedContext
        (.empty 0)).1.turns =
      [⟨"user", "hi".toList⟩, ⟨"user", "900101-******* a@b.co".toList⟩] := by
  refine (congrArg AnalysisContext.turns (spliced_in_one_pass .sample 2026
    (fun _ => ⟨.zero, 0, fun _ => 0⟩) splicedContext (.empty 0) [⟨"user", "hi".toList⟩]
    ⟨"user", "900101-1234567 a@b.co".toList⟩ rfl ⟨⟨?_, ?_⟩, ?_⟩ ?_).1).trans ?_
  · decide +kernel
  · decide +kernel
  · decide +kernel
  · decide +kernel
  · decide +kernel

end DlpServer.Transform
