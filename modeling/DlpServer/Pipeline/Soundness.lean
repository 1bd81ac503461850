import DlpServer.Pipeline.Core

/-!
# What a verdict rests on

Under `fail_action = block` nothing goes on unless every stage ran without
raising and without blocking, and the context they leave shows no injection and,
for a request, no risk at the threshold. The stages are arbitrary. `nan` is not at
the threshold: `risk_score >= hard_block` is false for it.
-/

namespace DlpServer.Pipeline

open Adapters

variable {W : Type*}

/-! ## Runs of the stages -/

/-- Every stage ran in its turn, none raised and none left `blocked` set. -/
inductive Completes : List (Stage W) → AnalysisContext → W → AnalysisContext → W → Prop
  | nil (ctx : AnalysisContext) (w : W) : Completes [] ctx w ctx w
  | cons {stage : Stage W} {stages : List (Stage W)} {ctx ctx' ctx'' : AnalysisContext}
      {w w' w'' : W} (hrun : stage ctx w = (some ctx', w')) (hopen : ctx'.blocked = false)
      (hrest : Completes stages ctx' w' ctx'' w'') : Completes (stage :: stages) ctx w ctx'' w''

theorem Completes.unblocked {stages : List (Stage W)} {ctx ctx' : AnalysisContext} {w w' : W}
    (h : Completes stages ctx w ctx' w') (hopen : ctx.blocked = false) : ctx'.blocked = false := by
  induction h with
  | nil => exact hopen
  | cons _ hopen' _ ih => exact ih hopen'

theorem Completes.runStages {stages : List (Stage W)} {ctx ctx' : AnalysisContext} {w w' : W}
    (h : Completes stages ctx w ctx' w') : runStages stages ctx w = (some ctx', w') := by
  induction h with
  | nil => rfl
  | cons hrun hopen _ ih =>
      rw [Pipeline.runStages, hrun]
      dsimp only
      rw [hopen, if_neg Bool.false_ne_true, ih]

/-- A run that leaves `blocked` unset went through all stages. -/
theorem completes_of_runStages {stages : List (Stage W)} {ctx ctx' : AnalysisContext} {w w' : W}
    (h : runStages stages ctx w = (some ctx', w')) (hopen : ctx'.blocked = false) :
    Completes stages ctx w ctx' w' := by
  induction stages generalizing ctx w with
  | nil =>
      cases h
      exact .nil _ _
  | cons stage stages ih =>
      rw [runStages] at h
      cases hrun : stage ctx w with
      | mk out w₁ =>
          rw [hrun] at h
          cases out with
          | none => cases h
          | some ctx₁ =>
              dsimp only at h
              split at h
              · rename_i hblocked
                cases h
                rw [hopen] at hblocked
                cases hblocked
              · rename_i hblocked
                exact .cons hrun (Bool.eq_false_iff.mpr hblocked) (ih h)

/-- The stages after one that blocks do not run: whatever they are, the outcome
is that of the blocking stage. -/
theorem runStages_blocked {stage : Stage W} {stages later : List (Stage W)}
    {ctx ctx' ctx'' : AnalysisContext} {w w' w'' : W} (h : Completes stages ctx w ctx' w')
    (hrun : stage ctx' w' = (some ctx'', w'')) (hblocked : ctx''.blocked = true) :
    runStages (stages ++ stage :: later) ctx w = (some ctx'', w'') := by
  induction h with
  | nil =>
      rw [List.nil_append, runStages, hrun]
      dsimp only
      rw [if_pos hblocked]
  | cons hrun' hopen _ ih =>
      rw [List.cons_append, runStages, hrun']
      dsimp only
      rw [hopen, if_neg Bool.false_ne_true, ih hrun]

/-! ## Block signals -/

/-- The context shows none of the three signals; the risk counts on input. -/
structure Clear (cfg : Config) (checkRisk : Bool) (ctx : AnalysisContext) : Prop where
  unblocked : ctx.blocked = false
  not_hit : ctx.injection.hit = false
  low_risk : checkRisk = true →
    ctx.riskScore = .nan ∨ cfg.hardBlock = .nan ∨ ctx.riskScore < cfg.hardBlock

theorem blockCheck_none {u : Unicode} {cfg : Config} {checkRisk : Bool} {ctx : AnalysisContext} :
    blockCheck u cfg checkRisk ctx = none ↔ Clear cfg checkRisk ctx := by
  unfold blockCheck
  constructor
  · intro h
    split at h
    · cases h
    · rename_i hblocked
      split at h
      · cases h
      · rename_i hhit
        split at h
        · cases h
        · rename_i hrisk
          refine ⟨Bool.eq_false_iff.mpr hblocked, Bool.eq_false_iff.mpr hhit, fun hcheck => ?_⟩
          exact PyFloat.not_le.mp fun hle => hrisk ⟨hcheck, hle⟩
  · rintro ⟨hblocked, hhit, hrisk⟩
    rw [hblocked, hhit, if_neg Bool.false_ne_true, if_neg Bool.false_ne_true, if_neg]
    rintro ⟨hcheck, hle⟩
    exact PyFloat.not_le.mpr (hrisk hcheck) hle

theorem blockCheck_some {u : Unicode} {cfg : Config} {checkRisk : Bool} {ctx : AnalysisContext}
    {d : Decision} (h : blockCheck u cfg checkRisk ctx = some d) :
    d.action = .block ∧ d.transformedBody = none := by
  unfold blockCheck at h
  split at h
  · cases h
    exact ⟨rfl, rfl⟩
  · split at h
    · cases h
      exact ⟨rfl, rfl⟩
    · split at h
      · cases h
        exact ⟨rfl, rfl⟩
      · cases h

/-! ## Decisions -/

section Decisions

variable (cfg : Config) (checkRisk : Bool) (stages : List (Stage W)) (ctx₀ : AnalysisContext) (w : W)

/-- All stages completed on `ctx₀` and left a context without a signal. -/
def Passes (ctx : AnalysisContext) : Prop :=
  (∃ w', Completes stages ctx₀ w ctx w') ∧ Clear cfg checkRisk ctx

end Decisions

section Conclude

variable {u : Unicode} {cfg : Config} {checkRisk : Bool} {stages : List (Stage W)}
  {ctx₀ : AnalysisContext} {w : W}

theorem passes_iff {ctx : AnalysisContext} :
    Passes cfg checkRisk stages ctx₀ w ctx ↔
      ∃ w', runStages stages ctx₀ w = (some ctx, w') ∧ blockCheck u cfg checkRisk ctx = none := by
  constructor
  · rintro ⟨⟨w', hcomp⟩, hclear⟩
    exact ⟨w', hcomp.runStages, blockCheck_none.mpr hclear⟩
  · rintro ⟨w', hrun, hcheck⟩
    have hclear := blockCheck_none.mp hcheck
    exact ⟨⟨w', completes_of_runStages hrun hclear.unblocked⟩, hclear⟩

theorem Passes.unique {ctx ctx' : AnalysisContext} (h : Passes cfg checkRisk stages ctx₀ w ctx)
    (h' : Passes cfg checkRisk stages ctx₀ w ctx') : ctx = ctx' := by
  obtain ⟨w₁, h₁⟩ := h.1
  obtain ⟨w₂, h₂⟩ := h'.1
  have heq := h₁.runStages.symm.trans h₂.runStages
  exact Option.some.inj (congrArg Prod.fst heq)

/-- What the stages leave decides: a context that passes gives an allow or a
transform by its texts, everything else a block without a body. -/
theorem conclude_cases (hfail : cfg.failAction = .block) (before : List Text)
    (texts : AnalysisContext → List Text) (rebuilt : AnalysisContext → Option Json) :
    let d := (orFail cfg (conclude u cfg checkRisk before texts rebuilt
      (runStages stages ctx₀ w))).1
    (∃ ctx, Passes cfg checkRisk stages ctx₀ w ctx ∧ texts ctx = before ∧
      d.action = .allow ∧ d.transformedBody = none) ∨
    (∃ ctx new, Passes cfg checkRisk stages ctx₀ w ctx ∧ texts ctx ≠ before ∧
      rebuilt ctx = some new ∧ d.action = .transform ∧ d.transformedBody = some new) ∨
    (∀ ctx, Passes cfg checkRisk stages ctx₀ w ctx → texts ctx ≠ before ∧ rebuilt ctx = none) ∧
      d.action = .block ∧ d.transformedBody = none := by
  intro d
  have hpass : ∀ ctx, Passes cfg checkRisk stages ctx₀ w ctx ↔ _ := fun ctx => passes_iff (u := u)
  cases hrun : runStages stages ctx₀ w with
  | mk out w' =>
      rw [hrun] at hpass
      have hd : d = (orFail cfg (conclude u cfg checkRisk before texts rebuilt (out, w'))).1 :=
        congrArg (fun out => (orFail cfg (conclude u cfg checkRisk before texts rebuilt out)).1) hrun
      cases out with
      | none =>
          refine Or.inr (Or.inr ⟨fun ctx hctx => ?_, ?_⟩)
          · obtain ⟨_, heq, -⟩ := (hpass ctx).mp hctx
            cases heq
          · rw [hd]
            exact ⟨hfail, rfl⟩
      | some ctx =>
          have hone : ∀ ctx', Passes cfg checkRisk stages ctx₀ w ctx' →
              ctx' = ctx ∧ blockCheck u cfg checkRisk ctx = none := by
            intro ctx' hctx'
            obtain ⟨_, heq, hcheck⟩ := (hpass ctx').mp hctx'
            cases heq
            exact ⟨rfl, hcheck⟩
          cases hcheck : blockCheck u cfg checkRisk ctx with
          | some decision =>
              refine Or.inr (Or.inr ⟨fun ctx' hctx' => ?_, ?_⟩)
              · rw [(hone ctx' hctx').2] at hcheck
                cases hcheck
              · rw [hd, conclude, hcheck]
                exact blockCheck_some hcheck
          | none =>
              have hself := (hpass ctx).mpr ⟨w', rfl, hcheck⟩
              by_cases hsame : texts ctx = before
              · refine Or.inl ⟨ctx, hself, hsame, ?_⟩
                rw [hd, conclude, hcheck]
                dsimp only
                rw [if_pos hsame]
                exact ⟨rfl, rfl⟩
              · cases hnew : rebuilt ctx with
                | some new =>
                    refine Or.inr (Or.inl ⟨ctx, new, hself, hsame, hnew, ?_⟩)
                    rw [hd, conclude, hcheck]
                    dsimp only
                    rw [if_neg hsame, hnew]
                    exact ⟨rfl, rfl⟩
                | none =>
                    refine Or.inr (Or.inr ⟨fun ctx' hctx' => ?_, ?_⟩)
                    · rw [(hone ctx' hctx').1]
                      exact ⟨hsame, hnew⟩
                    · rw [hd, conclude, hcheck]
                      dsimp only
                      rw [if_neg hsame, hnew]
                      exact ⟨hfail, rfl⟩

/-- The body that goes on: the new one, or the one that came. -/
def Decision.goesOn (d : Decision) (body : Option Body) : Option Json :=
  d.transformedBody <|> body.map Body.value

/-- A decision that lets a body go on is not made up from an exception. -/
theorem orFail_goesOn {out : Option Decision × W} (hgo : (orFail cfg out).1.action ≠ .block)
    (hfail : cfg.failAction = .block ∨ (orFail cfg out).1.reason ≠ .failed) :
    ∃ d w', out = (some d, w') ∧ orFail cfg out = (d, w') := by
  obtain ⟨decision, w'⟩ := out
  cases decision with
  | some d => exact ⟨d, w', rfl, rfl⟩
  | none =>
      rcases hfail with hblock | hreason
      · exact absurd hblock hgo
      · exact absurd rfl hreason

/-- What lets a body go on: the stages left a context without a signal, and either
no text changed or the body was rebuilt. -/
theorem conclude_goesOn {before : List Text} {texts : AnalysisContext → List Text}
    {rebuilt : AnalysisContext → Option Json} {out : Option AnalysisContext × W} {d : Decision}
    {w' : W} (h : conclude u cfg checkRisk before texts rebuilt out = (some d, w'))
    (hgo : d.action ≠ .block) :
    ∃ ctx, out = (some ctx, w') ∧ Clear cfg checkRisk ctx ∧
      (texts ctx = before ∧ d.transformedBody = none ∨
        texts ctx ≠ before ∧ ∃ new, rebuilt ctx = some new ∧ d.transformedBody = some new) := by
  obtain ⟨found, w₁⟩ := out
  cases found with
  | none => cases h
  | some ctx =>
      rw [conclude] at h
      cases hcheck : blockCheck u cfg checkRisk ctx with
      | some decision =>
          rw [hcheck] at h
          cases h
          exact absurd (blockCheck_some hcheck).1 hgo
      | none =>
          rw [hcheck] at h
          dsimp only at h
          have hclear := blockCheck_none.mp hcheck
          split at h
          · rename_i hsame
            cases h
            exact ⟨ctx, rfl, hclear, Or.inl ⟨hsame, rfl⟩⟩
          · rename_i hne
            cases hnew : rebuilt ctx with
            | none =>
                rw [hnew] at h
                cases h
            | some new =>
                rw [hnew] at h
                cases h
                exact ⟨ctx, rfl, hclear, Or.inr ⟨hne, new, hnew, rfl⟩⟩

end Conclude

/-! ## Soundness -/

section Sound

variable {α : Type*} (cfg : Config) (checkRisk : Bool) (stages : List (Stage W))
  (extracted : Option α) (start : α → AnalysisContext) (w : W) (before : α → List Text)
  (texts : α → AnalysisContext → List Text) (rebuilt : α → AnalysisContext → Option Json)

/-- What a decision, and the shared state it leaves, say about the stages. With
neither an allow nor a transform the action is a block. -/
structure Sound (out : Decision × W) : Prop where
  allow : out.1.action = .allow ↔ ∃ x ctx, extracted = some x ∧
    Passes cfg checkRisk stages (start x) w ctx ∧ texts x ctx = before x
  transform : out.1.action = .transform ↔ ∃ x ctx new, extracted = some x ∧
    Passes cfg checkRisk stages (start x) w ctx ∧ texts x ctx ≠ before x ∧
    rebuilt x ctx = some new
  new_body : ∀ new, out.1.transformedBody = some new ↔ ∃ x ctx, extracted = some x ∧
    Passes cfg checkRisk stages (start x) w ctx ∧ texts x ctx ≠ before x ∧
    rebuilt x ctx = some new
  stops : ∀ x early stage later ctx w₁ ctx' w₂, extracted = some x →
    stages = early ++ stage :: later → Completes early (start x) w ctx w₁ →
    stage ctx w₁ = (some ctx', w₂) → ctx'.blocked = true →
    out.1.action = .block ∧ out.2 = w₂

/-- Nothing extracted: the adapter raised. -/
theorem sound_of_none (hfail : cfg.failAction = .block) :
    Sound cfg checkRisk stages (none : Option α) start w before texts rebuilt
      (orFail cfg (none, w)) where
  allow := by
    refine iff_of_false ?_ (by rintro ⟨_, _, h, -⟩; cases h)
    rw [orFail, hfail]
    exact WireAction.noConfusion
  transform := by
    refine iff_of_false ?_ (by rintro ⟨_, _, _, h, -⟩; cases h)
    rw [orFail, hfail]
    exact WireAction.noConfusion
  new_body new := iff_of_false (by rintro ⟨⟩) (by rintro ⟨_, _, h, -⟩; cases h)
  stops _ _ _ _ _ _ _ _ h := by cases h

variable {cfg checkRisk stages start w before texts rebuilt} {u : Unicode}

theorem sound_of_conclude (hfail : cfg.failAction = .block) (x : α) :
    Sound cfg checkRisk stages (some x) start w before texts rebuilt
      (orFail cfg (conclude u cfg checkRisk (before x) (texts x) (rebuilt x)
        (runStages stages (start x) w))) := by
  have hcases : ((∃ ctx, Passes cfg checkRisk stages (start x) w ctx ∧ _ ∧ _ ∧ _) ∨ _) :=
    conclude_cases (u := u) hfail (before x) (texts x) (rebuilt x)
  constructor
  case allow =>
    constructor
    · intro hallow
      rcases hcases with ⟨ctx, hpass, hsame, -⟩ | ⟨_, _, -, -, -, haction, -⟩ | ⟨-, haction, -⟩
      · exact ⟨x, ctx, rfl, hpass, hsame⟩
      · rw [hallow] at haction
        cases haction
      · rw [hallow] at haction
        cases haction
    · rintro ⟨_, ctx, ⟨⟩, hpass, hsame⟩
      rcases hcases with ⟨_, -, -, haction, -⟩ | ⟨ctx', _, hpass', hne, -⟩ | ⟨hno, -⟩
      · exact haction
      · exact absurd (hpass.unique hpass' ▸ hsame) hne
      · exact absurd hsame (hno ctx hpass).1
  case transform =>
    constructor
    · intro htransform
      rcases hcases with ⟨_, -, -, haction, -⟩ | ⟨ctx, new, hpass, hne, hnew, -⟩ | ⟨-, haction, -⟩
      · rw [htransform] at haction
        cases haction
      · exact ⟨x, ctx, new, rfl, hpass, hne, hnew⟩
      · rw [htransform] at haction
        cases haction
    · rintro ⟨_, ctx, new, ⟨⟩, hpass, hne, hnew⟩
      rcases hcases with ⟨ctx', hpass', hsame, -⟩ | ⟨_, _, -, -, -, haction, -⟩ | ⟨hno, -⟩
      · exact absurd (hpass'.unique hpass ▸ hsame) hne
      · exact haction
      · rw [(hno ctx hpass).2] at hnew
        cases hnew
  case new_body =>
    intro new
    constructor
    · intro hbody
      rcases hcases with ⟨_, -, -, -, hnone⟩ | ⟨ctx, new', hpass, hne, hnew, -, hsome⟩ |
        ⟨-, -, hnone⟩
      · rw [hbody] at hnone
        cases hnone
      · obtain rfl : new = new' := Option.some.inj (hbody.symm.trans hsome)
        exact ⟨x, ctx, rfl, hpass, hne, hnew⟩
      · rw [hbody] at hnone
        cases hnone
    · rintro ⟨_, ctx, ⟨⟩, hpass, hne, hnew⟩
      rcases hcases with ⟨ctx', hpass', hsame, -⟩ | ⟨ctx', new', hpass', -, hnew', -, hsome⟩ |
        ⟨hno, -⟩
      · exact absurd (hpass'.unique hpass ▸ hsame) hne
      · obtain rfl := hpass'.unique hpass
        rw [hsome, ← hnew', hnew]
      · rw [(hno ctx hpass).2] at hnew
        cases hnew
  case stops =>
    rintro _ early stage later ctx w₁ ctx' w₂ ⟨⟩ rfl hcomp hrun hblocked
    rw [runStages_blocked hcomp hrun hblocked, conclude, blockCheck, if_pos hblocked]
    exact ⟨rfl, rfl⟩

end Sound

section Analyze

variable (u : Unicode) (cfg : Config) (sessionId : String) (headers : Dict String String)
  (body : Option Body) (w : W)

/-- Soundness on the request path: the texts are those of the turns. -/
def InputSound (stages : List (Stage W)) (out : Decision × W) : Prop :=
  Sound cfg true stages (body.bind (·.extractTurns u))
    (inputContext u sessionId headers body) w (List.map Turn.text)
    (fun _ ctx => ctx.turns.map Turn.text) (fun _ => rebuildInput u body) out

/-- Soundness on the response path: the text is that of the first turn, and the
risk is not looked at. -/
def OutputSound (stages : List (Stage W)) (out : Decision × W) : Prop :=
  Sound cfg false stages (body.bind (·.parseResponse u))
    (outputContext u sessionId headers body) w (fun text => [text])
    (fun text ctx => [newText text ctx]) (rebuildOutput u body) out

variable {u cfg sessionId headers body w}

theorem analyze_input (inputStages outputStages : List (Stage W)) :
    analyze u cfg inputStages outputStages sessionId "input" headers body w =
      orFail cfg (analyzeInput u cfg inputStages sessionId headers body w) := by
  rw [analyze, dispatch, if_pos rfl]

theorem analyze_output (inputStages outputStages : List (Stage W)) :
    analyze u cfg inputStages outputStages sessionId "output" headers body w =
      orFail cfg (analyzeOutput u cfg outputStages sessionId headers body w) := by
  rw [analyze, dispatch, if_neg (by decide), if_pos rfl]

theorem inputSound (hfail : cfg.failAction = .block) (stages : List (Stage W)) :
    InputSound u cfg sessionId headers body w stages
      (orFail cfg (analyzeInput u cfg stages sessionId headers body w)) := by
  unfold InputSound analyzeInput
  cases body.bind (·.extractTurns u) with
  | none => exact sound_of_none _ _ _ _ _ _ _ _ hfail
  | some turns => exact sound_of_conclude hfail turns

theorem outputSound (hfail : cfg.failAction = .block) (stages : List (Stage W)) :
    OutputSound u cfg sessionId headers body w stages
      (orFail cfg (analyzeOutput u cfg stages sessionId headers body w)) := by
  unfold OutputSound analyzeOutput
  cases body.bind (·.parseResponse u) with
  | none => exact sound_of_none _ _ _ _ _ _ _ _ hfail
  | some text => exact sound_of_conclude hfail text

/-- **Verdict soundness**, for arbitrary stages: nothing is allowed or
transformed unless the adapter extracted, every stage completed and no signal to
block was left; the texts decide between the two; a stage that blocks is the
last; and everything else is a block without a body. -/
theorem verdict_sound (u : Unicode) (cfg : Config) (inputStages outputStages : List (Stage W))
    (sessionId : String) (headers : Dict String String) (body : Option Body) (w : W)
    (hfail : cfg.failAction = .block) :
    InputSound u cfg sessionId headers body w inputStages
        (analyze u cfg inputStages outputStages sessionId "input" headers body w) ∧
      OutputSound u cfg sessionId headers body w outputStages
        (analyze u cfg inputStages outputStages sessionId "output" headers body w) := by
  rw [analyze_input, analyze_output]
  exact ⟨inputSound hfail inputStages, outputSound hfail outputStages⟩

/-- A stage that removes the texts, and counts its calls. -/
def eraseStage : Stage ℕ := fun ctx n =>
  (some { ctx with turns := ctx.turns.map fun t => { t with text := [] } }, n + 1)

/-- The body `{}`. -/
def emptyBody : Body := .ofEncodable (.obj []) rfl

theorem verdict_sound_sample :
    InputSound .ascii ⟨.block, (8 / 10 : ℚ)⟩ "s" [] (some emptyBody) 0 [eraseStage]
        (analyze .ascii ⟨.block, (8 / 10 : ℚ)⟩ [eraseStage] [] "s" "input" []
          (some emptyBody) 0) ∧
      OutputSound .ascii ⟨.block, (8 / 10 : ℚ)⟩ "s" [] (some emptyBody) 0 []
        (analyze .ascii ⟨.block, (8 / 10 : ℚ)⟩ [eraseStage] [] "s" "output" []
          (some emptyBody) 0) :=
  verdict_sound .ascii ⟨.block, (8 / 10 : ℚ)⟩ [eraseStage] [] "s" [] (some emptyBody) 0 rfl

/-- A stage that leaves no number as risk. -/
def nanStage : Stage ℕ := fun ctx n => (some { ctx with riskScore := .nan }, n)

/-- Nothing is below the threshold, and the request goes on. -/
theorem nan_allowed :
    (analyze .ascii ⟨.block, (8 / 10 : ℚ)⟩ [nanStage] [] "s" "input" []
      (some emptyBody) 0).1.action = .allow ∧ emptyBody.extractTurns .ascii = some [] ∧
    ∀ ctx, ¬ ((∃ w, Completes [nanStage] (inputContext .ascii "s" [] (some emptyBody) []) 0
        ctx w) ∧ ctx.riskScore < ((8 / 10 : ℚ) : PyFloat)) := by
  refine ⟨by decide +kernel, by decide +kernel, ?_⟩
  rintro ctx ⟨⟨w, hcomp⟩, hlt⟩
  have hrun := hcomp.runStages
  cases hrun
  exact hlt.1

end Analyze

end DlpServer.Pipeline
