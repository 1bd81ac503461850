import DlpServer.Pipeline.Request
import DlpServer.Policy.Rounds
import DlpServer.Transform.OnePass

/-!
# What a request that goes on carries

`detect` runs on the last turn alone. Its spans do not overlap, the policy has an
action for each, and transformation carries the actions out in place
(`last_turn_mediated`). The turns before the last go on as they came.
-/

namespace DlpServer

open Splice

/-! ## The last turn -/

namespace Pipeline

open Adapters

section Mediation

variable (S : Setup) (D : Draws) (ctx : AnalysisContext) (w : World)

/-- The action that the policy has for a span of the request, by its purpose, its
role and the type of the span, and by the risk and the verdict so far. -/
def actionFor (span : Span) : Option Action :=
  S.ruleset.map fun rs => Policy.pickAction S.env.unicode rs
    (Purpose.classify S.purposeRules ((Guardrail.Injection.lastUserText ctx.turns).getD [])).1
    ctx.role span.type (multiturnStage S D (scanned S ctx) w).1.riskScore
    (injectionGuard S ctx).injection.hit

/-- What transformation puts in the places of the spans of the request: the policy's
actions carried out on the vault as the request finds it, with its own draws. -/
def replaced : List (Edit Char) :=
  Transform.replacements S.env D.year D.chance (judged S D ctx w) (remembered S D ctx w).vault

/-- In `text'` every span that `detect` accepts in `text` has given way to what the
policy's action for it makes of it, and none of these actions is `block`. -/
structure Mediated (text text' : Text) : Prop where
  spans : (judged S D ctx w).spanActions.map Prod.fst = S.layers.detect S.env.unicode text
  actions : ∀ p ∈ (judged S D ctx w).spanActions,
    actionFor S D ctx w p.1 = some p.2 ∧ p.2 ≠ .block
  places : ((replaced S D ctx w).map fun e => (e.start, e.stop)).Perm
    ((S.layers.detect S.env.unicode text).map fun s => (s.start, s.stop))
  fit : Fit text (replaced S D ctx w)
  put : text' = Transform.summed S.env.unicode (judged S D ctx w).spanActions
    (onePass text (replaced S D ctx w))

/-- The last turn is mediated, those before it are as they came. -/
def LastMediated (turns turns' : List Turn) : Prop :=
  turns = [] ∧ turns' = [] ∨ ∃ earlier turn text', turns = earlier ++ [turn] ∧
    turns' = earlier ++ [{ turn with text := text' }] ∧ Mediated S D ctx w turn.text text'

/-- What `rebuild` writes for these turns is what `extract_turns` reads: no object
stands behind another item, and the system turn of Gemini is neither made nor lost. -/
def ReadsBack (u : Unicode) (body : Json) (turns' : List PyTurn) : Prop :=
  if Gemini.matchesBody body then
    ObjectsFirst "contents" body ∧ ¬ Gemini.TakesTurn u body ∧
      ¬ Gemini.EmptiesSystem u body turns'
  else ObjectsFirst "messages" body

variable {S D ctx w}

/-! ### What the stages hand on -/

/-- The spans are those of the last turn. -/
theorem scanned_spans : (scanned S ctx).newTurnSpans =
    ((ctx.turns.getLast?).map fun turn => S.layers.detect S.env.unicode turn.text).getD [] := by
  obtain ⟨verdict, blocked, reason, hguard⟩ := Guardrail.Injection.injectionGuard_frame
    S.injectionRules (S.guardrail.map Guardrail.GuardrailConfig.injectionThreshold) ctx
  rw [scanned, injectionGuard, hguard, piiDetectStage, Detect.Layers.piiDetectStage,
    Detect.Layers.analyzeTurn]
  dsimp only
  cases ctx.turns.getLast? with
  | none => rfl
  | some turn => rfl

/-- The policy gives every span its action. -/
theorem judged_actions (hdir : ctx.direction = "input") (hfresh : ctx.spanActions = [])
    (hopen : (judged S D ctx w).blocked = false) :
    (judged S D ctx w).spanActions.map Prod.fst = (scanned S ctx).newTurnSpans ∧
      ∀ p ∈ (judged S D ctx w).spanActions, actionFor S D ctx w p.1 = some p.2 ∧ p.2 ≠ .block := by
  obtain ⟨verdict, _, _, hguard⟩ := Guardrail.Injection.injectionGuard_frame
    S.injectionRules (S.guardrail.map Guardrail.GuardrailConfig.injectionThreshold) ctx
  obtain ⟨spans, hscanned⟩ := piiDetectStage_frame (S := S) (injectionGuard S ctx)
  obtain ⟨risk, grouped, hcounted⟩ := multiturnStage_frame (S := S) (D := D) (scanned S ctx) w
  have hkept : (multiturnStage S D (scanned S ctx) w).1 =
      { ctx with newTurnSpans := (scanned S ctx).newTurnSpans, injection := verdict,
                 blocked := (injectionGuard S ctx).blocked,
                 blockReason := (injectionGuard S ctx).blockReason,
                 riskScore := risk, accumulated := grouped } := by
    rw [hcounted, scanned, hscanned, injectionGuard, hguard]
  have hstage := Policy.purposePolicyStage_open S.env.unicode S.purposeRules S.ruleset
    (multiturnStage S D (scanned S ctx) w).1 (by rw [hkept]; exact hdir)
    (by rw [hkept]; exact hfresh) hopen
  have hhit : (injectionGuard S ctx).injection.hit =
      (multiturnStage S D (scanned S ctx) w).1.injection.hit := by
    rw [hkept, injectionGuard, hguard]
  have hrole : ctx.role = (multiturnStage S D (scanned S ctx) w).1.role := by rw [hkept]
  have hturns : ctx.turns = (multiturnStage S D (scanned S ctx) w).1.turns := by rw [hkept]
  constructor
  · refine hstage.1.trans ?_
    rw [hkept]
  · intro p hp
    rw [actionFor, hhit, hrole, hturns]
    exact hstage.2 p hp

/-- The spans of a text are placed in it. -/
theorem detect_placed (u : Unicode) (L : Detect.Layers) (text : Text) :
    Transform.Placed text (L.detect u text) where
  within _ hs := Detect.Layers.detect_within hs
  apart := Detect.Layers.detect_follow.imp fun h => Or.inl h

/-- **All stages through: the last turn is mediated.** -/
theorem transformed_lastMediated (S : Setup) (D : Draws) (ctx : AnalysisContext) (w : World)
    (hdir : ctx.direction = "input") (hfresh : ctx.spanActions = [])
    (hopen : (judged S D ctx w).blocked = false) :
    LastMediated S D ctx w ctx.turns (transformed S D ctx w).1.turns := by
  obtain ⟨hspans, hactions⟩ := judged_actions hdir hfresh hopen
  have hturns : (judged S D ctx w).turns = ctx.turns := by
    obtain ⟨_, _, _, _, _, _, _, _, _, hjudged⟩ := judged_frame (S := S) (D := D) ctx w
    rw [hjudged]
  rw [scanned_spans] at hspans
  have hstage : (transformed S D ctx w).1 = (Transform.transformStage S.env D.year D.chance
      (judged S D ctx w) (remembered S D ctx w).vault).1 := rfl
  rw [hstage]
  rcases List.eq_nil_or_concat ctx.turns with hnil | ⟨earlier, turn, hlast⟩
  · exact Or.inl ⟨hnil, Transform.transformStage_nil (hturns.trans hnil)⟩
  · rw [List.concat_eq_append] at hlast
    rw [hlast, List.getLast?_concat] at hspans
    have hplaced : Transform.Placed turn.text ((judged S D ctx w).spanActions.map Prod.fst) := by
      rw [hspans]
      exact detect_placed _ _ _
    obtain ⟨hfit, htext⟩ := Transform.transformText_onePass S.env D.year (judged S D ctx w)
      D.chance (remembered S D ctx w).vault hplaced
    have hplaces := Transform.replacements_places S.env D.year (judged S D ctx w) D.chance
      (remembered S D ctx w).vault
    rw [hspans] at hplaces
    rw [Transform.transformStage_last (hturns.trans hlast)]
    exact Or.inr ⟨earlier, turn, _, hlast, rfl, hspans, hactions, hplaces, hfit, htext⟩

theorem LastMediated.roles {turns turns' : List Turn}
    (h : LastMediated S D ctx w turns turns') : turns'.map Turn.role = turns.map Turn.role := by
  rcases h with ⟨rfl, rfl⟩ | ⟨earlier, turn, text', rfl, rfl, -⟩
  · rfl
  · rw [List.map_append, List.map_append]
    rfl

theorem sameRoles_ofTurn {turns turns' : List Turn}
    (h : turns'.map Turn.role = turns.map Turn.role) :
    SameRoles (turns.map PyTurn.ofTurn) (turns'.map PyTurn.ofTurn) := by
  have hlit := congrArg (List.map PyStr.lit) h
  rw [List.map_map, List.map_map] at hlit
  rw [SameRoles, List.map_map, List.map_map]
  exact hlit

/-- The rebuilt body has the turns it was given. -/
theorem read_rebuilt {u : Unicode} {body new : Json} {ts ts' : List PyTurn}
    (h : (selectAdapter u body).extractTurns body = some ts) (hroles : SameRoles ts ts')
    (hreads : ReadsBack u body ts') (hrebuilt : (selectAdapter u body).rebuild body ts' = some new) :
    (selectAdapter u body).extractTurns new = some ts' := by
  have hread : ∀ {A : Adapter} {rewrite : Json → List PyTurn → Option Json},
      (∀ body ts', A.rebuild body ts' = (rewrite body ts').bind Json.encode) →
      (rewrite body ts').bind A.extractTurns = some ts' → A.rebuild body ts' = some new →
      A.extractTurns new = some ts' := by
    intro A rewrite hrebuild hback hnew
    rw [hrebuild] at hnew
    obtain ⟨value, hvalue, hencode⟩ := Option.bind_eq_some_iff.mp hnew
    obtain ⟨-, rfl⟩ := Json.encode_eq_some.mp hencode
    rw [hvalue] at hback
    exact hback
  rw [selectAdapter_eq] at h hrebuilt ⊢
  rw [ReadsBack] at hreads
  by_cases hgemini : Gemini.matchesBody body = true
  · rw [if_pos hgemini] at h hreads hrebuilt ⊢
    obtain ⟨hfirst, htakes, hempties⟩ := hreads
    exact hread (fun _ _ => rfl) (Gemini.reads h hfirst htakes hroles hempties) hrebuilt
  · rw [if_neg hgemini] at h hreads hrebuilt ⊢
    exact hread (fun _ _ => rfl) (Gateway.reads h hreads hroles) hrebuilt

/-- Turns are their roles and their texts. -/
theorem eq_of_roles {turns turns' : List Turn} (hroles : turns'.map Turn.role = turns.map Turn.role)
    (htexts : turns'.map Turn.text = turns.map Turn.text) : turns' = turns := by
  induction turns generalizing turns' with
  | nil => exact List.map_eq_nil_iff.mp hroles
  | cons turn turns ih =>
      cases turns' with
      | nil => cases hroles
      | cons turn' turns' =>
          obtain ⟨hrole, hroles⟩ := List.cons.inj hroles
          obtain ⟨htext, htexts⟩ := List.cons.inj htexts
          rw [ih hroles htexts]
          obtain ⟨role, text⟩ := turn
          obtain ⟨role', text'⟩ := turn'
          obtain rfl : role' = role := hrole
          obtain rfl : text' = text := htext
          rfl

end Mediation

/-! ## The request -/

section Request

/-- What goes on for these turns: the body as it came, or the rebuilt one, and its
turns are these where `rebuild` writes what is read. -/
structure GoesOn (u : Unicode) (d : Decision) (body : Body) (turns turns' : List Turn) : Prop where
  sent : d.transformedBody = none ∧ turns' = turns ∨
    ∃ new, d.transformedBody = some new ∧ body.rebuild u turns' = some new
  reads : ReadsBack u body.value (turns'.map PyTurn.ofTurn) →
    (d.goesOn (some body)).bind (selectAdapter u body.value).extractTurns =
      some (turns'.map PyTurn.ofTurn)

/-- **The last turn of a request that goes on is mediated.** Where the decision is
allow or transform and is not `fail_action` after an exception, the body was read,
and the turns that go on are those before the last as they came and the last one
with every detected span replaced as the policy says. -/
theorem last_turn_mediated (S : Setup) (D : Draws) (sessionId : String)
    (headers : Dict String String) (body : Option Body) (w : World)
    (hgo : (analyzeRequest S D sessionId "input" headers body w).1.action ≠ .block)
    (hfail : S.config.failAction = .block ∨
      (analyzeRequest S D sessionId "input" headers body w).1.reason ≠ .failed) :
    ∃ b turns turns', body = some b ∧
      b.extractTurns S.env.unicode = some turns ∧
      LastMediated S D (inputContext S.env.unicode sessionId headers body turns) w turns turns' ∧
      GoesOn S.env.unicode (analyzeRequest S D sessionId "input" headers body w).1 b turns turns' := by
  unfold analyzeRequest at hgo hfail ⊢
  rw [analyze_input] at hgo hfail ⊢
  obtain ⟨d, w', hout, hd⟩ := orFail_goesOn hgo hfail
  rw [hd] at hgo ⊢
  unfold analyzeInput at hout
  cases hturns : body.bind (·.extractTurns S.env.unicode) with
  | none =>
      rw [hturns] at hout
      cases hout
  | some turns =>
      rw [hturns] at hout
      dsimp only at hout
      obtain ⟨b, rfl, hread⟩ := Option.bind_eq_some_iff.mp hturns
      obtain ⟨ctx, hrun, hclear, hbody⟩ := conclude_goesOn hout hgo
      have hend := run_inputStages S D
        (inputContext S.env.unicode sessionId headers (some b) turns) w rfl rfl
      rw [hrun] at hend
      cases hend with
      | injection hblocked =>
          rw [hclear.unblocked] at hblocked
          cases hblocked
      | policy hblocked =>
          rw [hclear.unblocked] at hblocked
          cases hblocked
      | through hopen hhit =>
          have hlast := transformed_lastMediated S D
            (inputContext S.env.unicode sessionId headers (some b) turns) w rfl rfl hopen
          refine ⟨b, turns, _, rfl, hread, hlast, ?_⟩
          have hextracted := Body.extractTurns_iff.mp hread
          rcases hbody with ⟨hsame, hnone⟩ | ⟨-, new, hnew, hsome⟩
          · have heq := eq_of_roles hlast.roles hsame
            refine ⟨Or.inl ⟨hnone, heq⟩, fun _ => ?_⟩
            rw [heq, Decision.goesOn, hnone]
            exact hextracted
          · refine ⟨Or.inr ⟨new, hsome, hnew⟩, fun hreads => ?_⟩
            rw [Decision.goesOn, hsome]
            exact read_rebuilt hextracted (sameRoles_ofTurn hlast.roles) hreads hnew

/-- An address. -/
theorem last_turn_mediated_sample :
    ∃ b turns turns', some (messageBody "a@b.co".toList) = some b ∧
      b.extractTurns Setup.sample.env.unicode = some turns ∧
      LastMediated .sample .sample (inputContext Setup.sample.env.unicode "s" []
        (some (messageBody "a@b.co".toList)) turns) .empty turns turns' ∧
      GoesOn Setup.sample.env.unicode (analyzeRequest .sample .sample "s" "input" []
        (some (messageBody "a@b.co".toList)) .empty).1 b turns turns' :=
  last_turn_mediated .sample .sample "s" [] (some (messageBody "a@b.co".toList)) .empty
    (by decide +kernel) (Or.inl rfl)

/-- The address of a user, and the answer behind it. -/
def answeredBody : Body :=
  .ofEncodable (.obj [(.lit "messages", .arr
    [.obj [(.lit "role", .str (.lit "user")), (.lit "content", .str (.lit "a@b.co"))],
     .obj [(.lit "role", .str (.lit "assistant")), (.lit "content", .str (.lit "ok"))]])])
    (by decide +kernel)

/-- The body goes on as it came, with an address that `detect` finds in the first
turn and that the policy tokenizes. -/
theorem earlier_turn_goes_on :
    let d := (analyzeRequest .sample .sample "s" "input" [] (some answeredBody) .empty).1
    let turns : List Turn := [⟨"user", "a@b.co".toList⟩, ⟨"assistant", "ok".toList⟩]
    let ctx := inputContext Setup.sample.env.unicode "s" [] (some answeredBody) turns
    d.action = .allow ∧ d.transformedBody.isNone ∧
      answeredBody.extractTurns Setup.sample.env.unicode = some turns ∧
      ∃ span ∈ Setup.sample.layers.detect Setup.sample.env.unicode "a@b.co".toList,
        (span.start, span.stop) = (0, 6) ∧
          actionFor .sample .sample ctx .empty span = some .tokenize := by
  decide +kernel

end Request

end Pipeline

end DlpServer
