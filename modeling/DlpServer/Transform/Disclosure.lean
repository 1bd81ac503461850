import DlpServer.Transform.OnePass
import DlpServer.Vault.Pseudonyms

/-!
# What the transformed text discloses

Of a span each action lets through a *digest*: a kept value as it is, a masked or
generalised one as it was rendered, of a synthetic one the characters that are no digits,
of a token, a redacted or an aggregated value nothing. Together the aggregated values
disclose what the summary says. Two conversations whose values differ behind the same
digests, and are equal in the same pattern where they are tokenised, are transformed into
the same texts (`discloses_digests`).
-/

namespace DlpServer.Transform

open Splice Vault Runs

/-! ## Digests -/

/-- What an action lets through of the value of a span. -/
inductive Digest where
  | text (t : Text)
  | shape (t : List (Option Char))
  | hidden
deriving DecidableEq

section Digests

variable (u : Unicode) (year : ℤ)

/-- The characters that `_synthetic` copies, in their places. -/
def shape (value : Text) : List (Option Char) :=
  value.map fun c => if u.isDigit c then none else some c

def digest (action : Action) (span : Span) : Digest :=
  match action with
  | .keep | .block => .text span.value
  | .mask => .text (mask u span)
  | .generalize => .text (generalize u year span)
  | .synthetic =>
      if span.type = "NAME" then .hidden
      else if !span.value.any u.isDigit then .text (mask u span)
      else .shape (shape u span.value)
  | .tokenize | .redact | .aggregate => .hidden

/-- What the summary says: total, mean and number of the amounts. -/
def totals (spans : List Span) : Option (Text × Text × ℕ) :=
  let amounts := spans.filterMap fun s => parseAmount u s.value
  let total := amounts.foldl PyFloat.add 0
  if amounts = [] then none
  else some (formatGrouped total, formatGrouped (total.divNat amounts.length), amounts.length)

/-- The spans that are aggregated. -/
def aggregated (actions : List (Span × Action)) : List Span :=
  (actions.filter fun p => p.2 = .aggregate).map Prod.fst

end Digests

/-! ## Twins -/

section Twins

variable {env : Vault.Env} (K : Pairing env) (year : ℤ)

/-- The same action on spans with the same digest; what is tokenised is paired. -/
structure ActionTwin (sessionId : String) (p p' : Span × Action) : Prop where
  action : p.2 = p'.2
  type : p.1.type = p'.1.type
  digest : digest env.unicode year p.2 p.1 = digest env.unicode year p'.2 p'.1
  stored : p.2 = .tokenize →
    K.rel sessionId (env.normalizeEntityType p.1.type) p.1.value p'.1.value

/-- Texts that are the same outside the spans, for requests of the same session, role and
purpose. The spans follow one another in both, as `merge_spans` returns them. -/
structure TurnTwin (ctx ctx' : AnalysisContext) (text text' : Text) : Prop where
  sessionId : ctx.sessionId = ctx'.sessionId
  role : ctx.role = ctx'.role
  purpose : ctx.purpose = ctx'.purpose
  actions : List.Forall₂ (ActionTwin K year ctx.sessionId) ctx.spanActions ctx'.spanActions
  placed : Placed text (ctx.spanActions.map Prod.fst)
  placed' : Placed text' (ctx'.spanActions.map Prod.fst)
  sorted : (ctx.spanActions.map (·.1.start)).Pairwise (· ≤ ·)
  sorted' : (ctx'.spanActions.map (·.1.start)).Pairwise (· ≤ ·)
  outside : outside text 0 (ctx.spanActions.map fun p => (p.1.start, p.1.stop)) =
    outside text' 0 (ctx'.spanActions.map fun p => (p.1.start, p.1.stop))
  totals : totals env.unicode (aggregated ctx.spanActions) =
    totals env.unicode (aggregated ctx'.spanActions)

/-- The same draws, but for nonces. -/
structure ChanceTwin (chance chance' : Chance) : Prop where
  name : chance.name = chance'.name
  digit : chance.digit = chance'.digit

end Twins

/-! ## Rendering twins -/

section Rendering

variable {env : Vault.Env} {K : Pairing env} {year : ℤ} {ctx ctx' : AnalysisContext}
  {chance chance' : Chance} {v v' : Vault.Db}

/-- A synthetic value is made of the shape and of the draws. -/
theorem synthetic_shape {u : Unicode} {span : Span} (hname : span.type ≠ "NAME")
    (hdigit : span.value.any u.isDigit = true) :
    synthetic u chance span = (shape u span.value).zipIdx.map fun p =>
      p.1.getD (Nat.digitChar (chance.digit p.2)) := by
  unfold synthetic shape
  rw [if_neg hname, hdigit, Bool.not_true, if_neg Bool.false_ne_true, List.zipIdx_map,
    List.map_map]
  refine List.map_congr_left fun p _ => ?_
  dsimp only [Function.comp, Prod.map]
  split <;> rfl

theorem synthetic_twin (hchance : ChanceTwin chance chance') {u : Unicode} {span span' : Span}
    (htype : span.type = span'.type)
    (hdigest : digest u year .synthetic span = digest u year .synthetic span') :
    synthetic u chance span = synthetic u chance' span' := by
  dsimp only [digest] at hdigest
  rw [← htype] at hdigest
  by_cases hname : span.type = "NAME"
  · rw [synthetic, synthetic, ← htype, if_pos hname, if_pos hname, hchance.name]
  · rw [if_neg hname, if_neg hname] at hdigest
    have hname' : span'.type ≠ "NAME" := htype ▸ hname
    cases hdigit : span.value.any u.isDigit <;> cases hdigit' : span'.value.any u.isDigit <;>
      simp only [hdigit, hdigit', Bool.not_true, Bool.not_false, Bool.false_eq_true, if_true,
        if_false, Digest.text.injEq, Digest.shape.injEq, reduceCtorEq] at hdigest
    · rw [synthetic, synthetic, if_neg hname, if_neg hname', hdigit, hdigit']
      exact hdigest
    · rw [synthetic_shape hname hdigit, synthetic_shape hname' hdigit', hdigest, hchance.digit]

theorem tokenize_label (h : K.DbTwin v v') (hsession : ctx.sessionId = ctx'.sessionId)
    (hrole : ctx.role = ctx'.role) (hpurpose : ctx.purpose = ctx'.purpose) {span span' : Span}
    (htype : span.type = span'.type)
    (hval : K.rel ctx.sessionId (env.normalizeEntityType span.type) span.value span'.value) :
    (tokenize env chance ctx span v).1 = (tokenize env chance' ctx' span' v').1 ∧
      K.DbTwin (tokenize env chance ctx span v).2 (tokenize env chance' ctx' span' v').2 := by
  have hscope : accessScope ctx = accessScope ctx' := by
    rw [accessScope, accessScope, hrole, hpurpose]
  have hcall := Pairing.tokenize_twin h hval chance.nonce chance'.nonce (some (accessScope ctx))
  unfold tokenize
  rw [← hsession, ← htype, ← hscope]
  generalize Vault.tokenize env chance.nonce v ctx.sessionId span.type span.value
    (some (accessScope ctx)) = p at hcall ⊢
  generalize Vault.tokenize env chance'.nonce v' ctx.sessionId span.type span'.value
    (some (accessScope ctx)) = q at hcall ⊢
  cases hcall with
  | ok hpq => exact hpq
  | error e => exact ⟨rfl, h⟩

/-- **One span.** Behind the same digest a span is rendered the same. -/
theorem render_twin (h : K.DbTwin v v') (hchance : ChanceTwin chance chance')
    (hsession : ctx.sessionId = ctx'.sessionId) (hrole : ctx.role = ctx'.role)
    (hpurpose : ctx.purpose = ctx'.purpose) {p p' : Span × Action}
    (hp : ActionTwin K year ctx.sessionId p p') (hno : p.2 ≠ .aggregate) :
    (render env year chance p.2 ctx p.1 v).1 = (render env year chance' p'.2 ctx' p'.1 v').1 ∧
      K.DbTwin (render env year chance p.2 ctx p.1 v).2
        (render env year chance' p'.2 ctx' p'.1 v').2 := by
  obtain ⟨haction, htype, hdigest, hstored⟩ := hp
  rw [← haction] at hdigest ⊢
  cases hact : p.2 with
  | tokenize => exact tokenize_label h hsession hrole hpurpose htype (hstored hact)
  | synthetic =>
      rw [hact] at hdigest
      exact ⟨synthetic_twin hchance htype hdigest, h⟩
  | keep | mask | generalize | block =>
      rw [hact] at hdigest
      exact ⟨Digest.text.inj hdigest, h⟩
  | redact => exact ⟨rfl, h⟩
  | aggregate => exact absurd hact hno

/-- The edits of the spans that are rendered one by one say the same. -/
theorem renderAll_twin (h : K.DbTwin v v') {chance chance' : ℕ → Chance}
    (hchance : ∀ k, ChanceTwin (chance k) (chance' k)) (hsession : ctx.sessionId = ctx'.sessionId)
    (hrole : ctx.role = ctx'.role) (hpurpose : ctx.purpose = ctx'.purpose)
    {actions actions' : List (Span × Action)}
    (hactions : List.Forall₂ (ActionTwin K year ctx.sessionId) actions actions')
    (hno : ∀ p ∈ actions, p.2 ≠ .aggregate) :
    (renderAll env year ctx chance actions v).1.map Edit.new =
        (renderAll env year ctx' chance' actions' v').1.map Edit.new ∧
      K.DbTwin (renderAll env year ctx chance actions v).2
        (renderAll env year ctx' chance' actions' v').2 := by
  induction hactions generalizing chance chance' v v' with
  | nil => exact ⟨rfl, h⟩
  | @cons p p' actions actions' hp _ ih =>
      obtain ⟨hnew, hdb⟩ := render_twin h (hchance 0) hsession hrole hpurpose hp
        (hno p List.mem_cons_self)
      obtain ⟨hnews, hrest⟩ := ih hdb (fun k => hchance (k + 1))
        fun q hq => hno q (List.mem_cons_of_mem p hq)
      refine ⟨?_, hrest⟩
      show _ :: _ = _ :: _
      exact congrArg₂ List.cons hnew hnews

end Rendering

/-! ## The edits in the order of the spans -/

/-- The edits of the rendered spans, and an empty one for each aggregated span in its place. -/
def arrange : List (Span × Action) → List (Edit Char) → List (Edit Char)
  | [], es => es
  | (span, action) :: rest, es =>
      if action = .aggregate then ⟨span.start, span.stop, []⟩ :: arrange rest es
      else
        match es with
        | [] => arrange rest []
        | e :: es => e :: arrange rest es

theorem arrange_perm (actions : List (Span × Action)) (es : List (Edit Char)) :
    (arrange actions es).Perm (es ++ (actions.filter fun p => p.2 = .aggregate).map
      fun p => ⟨p.1.start, p.1.stop, []⟩) := by
  induction actions generalizing es with
  | nil => simp [arrange]
  | cons p rest ih =>
      obtain ⟨span, action⟩ := p
      unfold arrange
      by_cases hagg : action = .aggregate
      · simp only [hagg, if_true, List.filter_cons, decide_true, List.map_cons]
        exact ((ih es).cons _).trans List.perm_middle.symm
      · simp only [hagg, if_false, List.filter_cons, decide_false, Bool.false_eq_true]
        rcases es with - | ⟨e, es⟩
        · exact ih []
        · exact (ih es).cons e

theorem arrange_places {actions : List (Span × Action)} {es : List (Edit Char)}
    (h : es.map (fun e => (e.start, e.stop)) =
      (actions.filter fun p => p.2 ≠ .aggregate).map fun p => (p.1.start, p.1.stop)) :
    (arrange actions es).map (fun e => (e.start, e.stop)) =
      actions.map fun p => (p.1.start, p.1.stop) := by
  induction actions generalizing es with
  | nil => exact h
  | cons p rest ih =>
      obtain ⟨span, action⟩ := p
      unfold arrange
      by_cases hagg : action = .aggregate
      · simp only [hagg, ne_eq, not_true_eq_false, decide_false, List.filter_cons,
          Bool.false_eq_true, if_false] at h
        simp only [hagg, if_true, List.map_cons, ih h]
      · simp only [hagg, ne_eq, not_false_eq_true, decide_true, List.filter_cons, if_true,
          List.map_cons] at h
        rcases es with - | ⟨e, es⟩
        · cases h
        · obtain ⟨hplace, hplaces⟩ := List.cons.inj h
          simp only [hagg, if_false, List.map_cons, hplace, ih hplaces]

theorem arrange_news {actions actions' : List (Span × Action)} {es es' : List (Edit Char)}
    (hactions : actions.map Prod.snd = actions'.map Prod.snd)
    (h : es.map Edit.new = es'.map Edit.new) :
    (arrange actions es).map Edit.new = (arrange actions' es').map Edit.new := by
  induction actions generalizing actions' es es' with
  | nil =>
      rcases actions' with - | ⟨p', rest'⟩
      · exact h
      · cases hactions
  | cons p rest ih =>
      rcases actions' with - | ⟨p', rest'⟩
      · cases hactions
      · obtain ⟨span, action⟩ := p
        obtain ⟨span', action'⟩ := p'
        obtain ⟨haction, hrest⟩ := List.cons.inj hactions
        obtain rfl : action = action' := haction
        unfold arrange
        by_cases hagg : action = .aggregate
        · rw [if_pos hagg, if_pos hagg, List.map_cons, List.map_cons, ih hrest h]
        · rw [if_neg hagg, if_neg hagg]
          rcases es with - | ⟨e, es⟩ <;> rcases es' with - | ⟨e', es'⟩
          · exact ih hrest rfl
          · cases h
          · cases h
          · obtain ⟨hnew, hnews⟩ := List.cons.inj h
            rw [List.map_cons, List.map_cons, hnew, ih hrest hnews]

/-! ## Texts -/

section Texts

variable {env : Vault.Env} {K : Pairing env} {year : ℤ} {ctx ctx' : AnalysisContext}
  {v v' : Vault.Db}

/-- The transformed text, woven in the order of the spans. -/
theorem transformText_arranged (chance : ℕ → Chance) {text : Text}
    (hplaced : Placed text (ctx.spanActions.map Prod.fst))
    (hsorted : (ctx.spanActions.map (·.1.start)).Pairwise (· ≤ ·)) :
    (transformText env year chance ctx text v).1 =
      summed env.unicode ctx.spanActions (weave text 0 (arrange ctx.spanActions
        (renderAll env year ctx chance
          (ctx.spanActions.filter fun p => p.2 ≠ .aggregate) v).1)) := by
  have hrendered : (renderAll env year ctx chance
      (ctx.spanActions.filter fun p => p.2 ≠ .aggregate) v).1.map (fun e => (e.start, e.stop)) =
        ((ctx.spanActions.filter fun p => p.2 ≠ .aggregate).map Prod.fst).map
          fun s => (s.start, s.stop) := renderAll_places _
  have hplaces := arrange_places (hrendered.trans List.map_map)
  have hperm := arrange_perm ctx.spanActions
    (renderAll env year ctx chance (ctx.spanActions.filter fun p => p.2 ≠ .aggregate) v).1
  generalize arrange ctx.spanActions _ = edits at hplaces hperm ⊢
  have hfit : Fit text edits := hplaced.fit (by rw [List.map_map]; exact hplaces)
  have hsort : edits.Pairwise fun a b => a.start ≤ b.start := by
    have hstarts := congrArg (List.map Prod.fst) hplaces
    rw [List.map_map, List.map_map] at hstarts
    exact List.pairwise_map.mp (hstarts ▸ hsorted)
  have hright := rightToLeft_eq_onePass (hfit.perm hperm.symm)
  rw [hfit.onePass_perm hperm.symm, onePass_sorted text hsort] at hright
  unfold transformText summed
  dsimp only
  rw [hright]
  split <;> rfl

theorem transformText_db (chance : ℕ → Chance) (text : Text) :
    (transformText env year chance ctx text v).2 =
      (renderAll env year ctx chance (ctx.spanActions.filter fun p => p.2 ≠ .aggregate) v).2 := by
  unfold transformText
  dsimp only
  split <;> rfl

/-- The summary depends on the totals. -/
theorem appendAggregateSummary_totals (u : Unicode) (text : Text) (spans : List Span) :
    appendAggregateSummary u text spans =
      ((totals u spans).map fun p => u.rstrip text ++ (" [집계: 합계 ".toList ++ p.1 ++
        " / 평균 ".toList ++ p.2.1 ++ " / 건수 ".toList ++ Nat.toDigits 10 p.2.2 ++ [']'])).getD
          text := by
  unfold appendAggregateSummary totals
  dsimp only
  split <;> rfl

theorem summed_totals (u : Unicode) (actions : List (Span × Action)) (text : Text) :
    summed u actions text = appendAggregateSummary u text (aggregated actions) := by
  unfold summed aggregated
  dsimp only
  split
  · rename_i hnone
    rw [hnone]
    rfl
  · rfl

/-- **One turn.** Texts that differ behind the same digests are transformed into one text. -/
theorem transformText_twin (h : K.DbTwin v v') {chance chance' : ℕ → Chance}
    (hchance : ∀ k, ChanceTwin (chance k) (chance' k)) {text text' : Text}
    (hturn : TurnTwin K year ctx ctx' text text') :
    (transformText env year chance ctx text v).1 =
        (transformText env year chance' ctx' text' v').1 ∧
      K.DbTwin (transformText env year chance ctx text v).2
        (transformText env year chance' ctx' text' v').2 := by
  have hrest := forall₂_filter (p := fun p : Span × Action => decide (p.2 ≠ .aggregate))
    (q := fun p : Span × Action => decide (p.2 ≠ .aggregate))
    (fun p p' hp => by rw [hp.action]) hturn.actions
  obtain ⟨hnews, hdb⟩ := renderAll_twin h hchance hturn.sessionId hturn.role hturn.purpose hrest
    fun p hp => of_decide_eq_true (List.mem_filter.mp hp).2
  have hnames : ctx.spanActions.map Prod.snd = ctx'.spanActions.map Prod.snd := by
    rw [← List.forall₂_eq_eq_eq, List.forall₂_map_left_iff, List.forall₂_map_right_iff]
    exact hturn.actions.imp fun p p' hp => hp.action
  rw [transformText_db, transformText_db, transformText_arranged chance hturn.placed hturn.sorted,
    transformText_arranged chance' hturn.placed' hturn.sorted']
  refine ⟨?_, hdb⟩
  have hweave : weave text 0 (arrange ctx.spanActions (renderAll env year ctx chance
        (ctx.spanActions.filter fun p => p.2 ≠ .aggregate) v).1) =
      weave text' 0 (arrange ctx'.spanActions (renderAll env year ctx' chance'
        (ctx'.spanActions.filter fun p => p.2 ≠ .aggregate) v').1) := by
    refine weave_congr ?_ (arrange_news hnames hnews)
    rw [arrange_places ((renderAll_places _).trans List.map_map),
      arrange_places ((renderAll_places _).trans List.map_map)]
    exact hturn.outside
  rw [hweave, summed_totals, summed_totals, appendAggregateSummary_totals,
    appendAggregateSummary_totals, hturn.totals]

end Texts

/-! ## Runs -/

/-- A request whose last turn is transformed, or another call of the vault. -/
inductive Deed where
  | transform (year : ℤ) (chance : ℕ → Chance) (ctx : AnalysisContext)
  | call (op : Op)

/-- What is seen of it: the text that goes on, or the answer of the vault. -/
inductive Output where
  | text (t : Option Text)
  | answer (a : Answer)

/-- The text of the last turn. -/
def lastText (ctx : AnalysisContext) : Option Text := ctx.turns.getLast?.map Turn.text

def Deed.next (env : Vault.Env) (v : Vault.Db) : Deed → Vault.Db
  | .transform year chance ctx => (transformStage env year chance ctx v).2
  | .call op => step env v op

def Deed.output (env : Vault.Env) (v : Vault.Db) : Deed → Output
  | .transform year chance ctx => .text (lastText (transformStage env year chance ctx v).1)
  | .call op => .answer (answer env v op)

def outputs (env : Vault.Env) (start : Time) (deeds : List Deed) : List Output :=
  collect (Deed.next env) (fun v deed => [deed.output env v]) (Db.empty start) deeds

/-- The same texts, and answers that are alike. -/
inductive Output.Alike (restores : Ids.Uuid → Text → Text → Prop) : Output → Output → Prop
  | text (t : Option Text) : Alike restores (.text t) (.text t)
  | answer {a b : Answer} : a.Alike restores b → Alike restores (.answer a) (.answer b)

section Runs

variable {env : Vault.Env} (K : Pairing env)

inductive DeedTwin : Deed → Deed → Prop
  | transform {year : ℤ} {chance chance' : ℕ → Chance} {ctx ctx' : AnalysisContext}
      {text text' : Text} : (∀ k, ChanceTwin (chance k) (chance' k)) →
        lastText ctx = some text → lastText ctx' = some text' →
        TurnTwin K year ctx ctx' text text' →
        DeedTwin (.transform year chance ctx) (.transform year chance' ctx')
  | call {op op' : Op} : K.OpTwin op op' → DeedTwin (.call op) (.call op')

variable {K} {v v' : Vault.Db}

theorem transformStage_text {year : ℤ} (chance : ℕ → Chance) {ctx : AnalysisContext}
    {text : Text} (h : lastText ctx = some text) :
    lastText (transformStage env year chance ctx v).1 =
        some (transformText env year chance ctx text v).1 ∧
      (transformStage env year chance ctx v).2 = (transformText env year chance ctx text v).2 := by
  obtain ⟨turn, hturn, rfl⟩ := Option.map_eq_some_iff.mp h
  obtain ⟨earlier, hturns⟩ := List.getLast?_eq_some_iff.mp hturn
  constructor
  · rw [transformStage_last hturns, lastText]
    simp
  · unfold transformStage
    split
    · rename_i hnone
      rw [transformText_db, hnone]
      rfl
    · rw [hturn]

theorem next_twin (h : K.DbTwin v v') {deed deed' : Deed} (hdeed : DeedTwin K deed deed') :
    K.DbTwin (deed.next env v) (deed'.next env v') := by
  cases hdeed with
  | transform hchance htext htext' hturn =>
      rw [Deed.next, Deed.next, (transformStage_text _ htext).2, (transformStage_text _ htext').2]
      exact (transformText_twin h hchance hturn).2
  | call hop => exact Pairing.step_twin h hop

theorem output_twin (h : K.DbTwin v v') {deed deed' : Deed} (hdeed : DeedTwin K deed deed') :
    (deed.output env v).Alike K.Restores (deed'.output env v') := by
  cases hdeed with
  | transform hchance htext htext' hturn =>
      rw [Deed.output, Deed.output, (transformStage_text _ htext).1,
        (transformStage_text _ htext').1, (transformText_twin h hchance hturn).1]
      exact .text _
  | call hop => exact .answer (Pairing.answer_twin h hop)

end Runs

/-- **The transformed texts disclose digests only.** Take two runs of requests and vault calls
in which texts agree outside their spans, spans have the same digests, aggregated values the
same total and mean, as floats are added and written, and tokenised values are paired. Then
the same texts go on, the vault answers alike, and the access logs are the same. -/
theorem discloses_digests {env : Vault.Env} (K : Pairing env) (start : Time)
    (deeds deeds' : List Deed) (h : List.Forall₂ (DeedTwin K) deeds deeds') :
    List.Forall₂ (Output.Alike K.Restores) (outputs env start deeds) (outputs env start deeds') ∧
      (run (Deed.next env) (Db.empty start) deeds).accessLog =
        (run (Deed.next env) (Db.empty start) deeds').accessLog := by
  have hkeep : ∀ {v v' deed deed'}, K.DbTwin v v' → DeedTwin K deed deed' →
      K.DbTwin (deed.next env v) (deed'.next env v') := fun hdb hdeed => next_twin hdb hdeed
  have hempty : K.DbTwin (Db.empty start) (Db.empty start) := Pairing.empty_twin start
  refine ⟨collect_related hkeep (fun hdb hdeed => ?_) hempty h,
    (run_related hkeep hempty h).accessLog⟩
  exact .cons (output_twin hdb hdeed) .nil

/-- A number to tokenise and two amounts to aggregate, in a text of their own. -/
def amountsContext (number a b text : String) : AnalysisContext where
  sessionId := "s"
  direction := "input"
  provider := "gateway"
  role := none
  turns := [⟨"user", text.toList⟩]
  newTurnSpans := []
  riskScore := 0
  injection := ⟨false, 0, none⟩
  blocked := false
  blockReason := none
  purpose := none
  purposeConfidence := none
  spanActions := [(⟨"RRN", number.toList, 0, 14, 97 / 100, "regex"⟩, .tokenize),
    (⟨"AMOUNT", a.toList, 16, 21, 9 / 10, "regex"⟩, .aggregate),
    (⟨"AMOUNT", b.toList, 24, 29, 9 / 10, "regex"⟩, .aggregate)]

/-- The two numbers stand for one another. -/
def numberPairing : Pairing .sample where
  rel s t x y := s = "s" ∧ t = "RRN" ∧ x = "900101-1234567".toList ∧ y = "900101-2345678".toList
  agree := by
    rintro _ _ _ _ _ _ _ _ ⟨rfl, rfl, rfl, rfl⟩ ⟨rfl, rfl, rfl, rfl⟩ -
    exact iff_of_true rfl rfl

theorem amounts_twin : TurnTwin numberPairing 2026
    (amountsContext "900101-1234567" "1,000" "3,000" "900101-1234567: 1,000 + 3,000")
    (amountsContext "900101-2345678" "2,000" "2,000" "900101-2345678: 2,000 + 2,000")
    "900101-1234567: 1,000 + 3,000".toList "900101-2345678: 2,000 + 2,000".toList where
  sessionId := rfl
  role := rfl
  purpose := rfl
  actions := by
    refine .cons ⟨by decide, by decide, by decide +kernel, fun _ => ?_⟩
      (.cons ⟨by decide, by decide, by decide +kernel, fun h => ?_⟩
        (.cons ⟨by decide, by decide, by decide +kernel, fun h => ?_⟩ .nil))
    · exact ⟨by decide, by decide +kernel, by decide +kernel, by decide +kernel⟩
    · exact absurd h (by decide)
    · exact absurd h (by decide)
  placed := ⟨by decide +kernel, by decide +kernel⟩
  placed' := ⟨by decide +kernel, by decide +kernel⟩
  sorted := by decide +kernel
  sorted' := by decide +kernel
  outside := by decide +kernel
  totals := by decide +kernel

theorem discloses_digests_amounts :
    List.Forall₂ (Output.Alike numberPairing.Restores)
      (outputs .sample 0 [.transform 2026 (fun _ => ⟨.zero, 0, fun _ => 0⟩)
        (amountsContext "900101-1234567" "1,000" "3,000" "900101-1234567: 1,000 + 3,000")])
      (outputs .sample 0 [.transform 2026 (fun _ => ⟨.zero, 0, fun _ => 0⟩)
        (amountsContext "900101-2345678" "2,000" "2,000" "900101-2345678: 2,000 + 2,000")]) :=
  (discloses_digests numberPairing 0 _ _
    (.cons (.transform (fun _ => ⟨rfl, rfl⟩) rfl rfl amounts_twin) .nil)).1

/-- What goes on in both. -/
example : lastText (transformStage .sample 2026 (fun _ => ⟨.zero, 0, fun _ => 0⟩)
    (amountsContext "900101-1234567" "1,000" "3,000" "900101-1234567: 1,000 + 3,000")
    (Db.empty 0)).1 =
      some "<PII:RRN:1>:  + [집계: 합계 4,000 / 평균 2,000 / 건수 2]".toList := by
  decide +kernel

end DlpServer.Transform
