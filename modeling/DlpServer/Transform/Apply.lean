import DlpServer.Lib.Splice
import DlpServer.Models
import DlpServer.Vault.Text

/-!
# Transformation (`app/transform/apply.py`)

`transform_stage` carries out the actions of the policy on the last turn. What
it takes from its surroundings is a parameter: the vault and its environment,
the year of the clock, and for each span the random draws (`Chance`). Amounts
are rationals where the source computes with floats.
-/

namespace DlpServer.Transform

open Splice

/-- What rendering one span may draw: the nonce of `_encrypt`, the index of
`random.choice`, and for each position the digit of `random.randint(0, 9)`. -/
structure Chance where
  nonce : Vault.Nonce
  name : Fin 8
  digit : ℕ → Fin 10

/-- `_REDACT_TEXT`. -/
def redactText : Text := "[삭제됨]".toList

/-- `_MASK_KEEP_LAST_N`. -/
def maskKeepLastN : ℕ := 4

/-- `_FAKE_NAMES`. -/
def fakeNames : Fin 8 → Text :=
  ![['김', '도', '윤'], ['이', '하', '은'], ['박', '서', '준'], ['최', '지', '우'],
    ['정', '민', '재'], ['한', '소', '율'], ['윤', '지', '호'], ['임', '서', '아']]

/-! ## Masking -/

section Mask

variable (u : Unicode)

/-- `_mask_middle`. -/
def maskMiddle (value : Text) : Text :=
  match value with
  | [] => []
  | [_] => ['*']
  | [c, _] => [c, '*']
  | c :: d :: rest =>
      c :: (List.replicate rest.length '*' ++ [(d :: rest).getLast (List.cons_ne_nil d rest)])

/-- `_mask_generic`. -/
def maskGeneric (value : Text) : Text := maskMiddle value

/-- `re.sub(r"\D", "", value)`. -/
def digitsOf (value : Text) : Text := value.filter u.isDecimal

/-- `_mask_rrn`. -/
def maskRrn (value : Text) : Text :=
  let digits := digitsOf u value
  if digits.length ≠ 13 then maskGeneric value
  else digits.take 6 ++ '-' :: List.replicate 7 '*'

/-- `_mask_keep_last_digits`. With `keep` digits or fewer nothing is masked. -/
def maskKeepLastDigits (value : Text) (keep : ℕ) : Text :=
  let digitPositions := (value.zipIdx.filter fun p => u.isDigit p.1).map Prod.snd
  if digitPositions.length ≤ keep then value
  else
    let keepSet := digitPositions.drop (digitPositions.length - keep)
    value.zipIdx.map fun p => if !u.isDigit p.1 || decide (p.2 ∈ keepSet) then p.1 else '*'

/-- `_mask_email`, by `value.partition("@")`. -/
def maskEmail (value : Text) : Text :=
  match value.dropWhile (· != '@') with
  | _ :: domain => maskMiddle (value.takeWhile (· != '@')) ++ '@' :: domain
  | [] => maskGeneric value

/-- `_mask`, which is also `mask_preview`. -/
def mask (span : Span) : Text :=
  if span.type = "RRN" then maskRrn u span.value
  else if span.type ∈ ["CARD", "PHONE", "ACCOUNT"] then
    maskKeepLastDigits u span.value maskKeepLastN
  else if span.type = "EMAIL" then maskEmail span.value
  else if span.type = "NAME" then maskMiddle span.value
  else maskGeneric span.value

end Mask

/-! ## Generalising, aggregating, synthesising -/

section Generalize

variable (u : Unicode) (year : ℤ)

/-- `_GENDER_DIGIT_CENTURY`. -/
def genderDigitCentury (c : Char) : Option (ℤ × Char) :=
  match c with
  | '1' => some (1900, '남')
  | '2' => some (1900, '여')
  | '3' => some (2000, '남')
  | '4' => some (2000, '여')
  | '5' => some (1800, '남')
  | '6' => some (1800, '여')
  | _ => none

/-- `_generalize_rrn`, with `datetime.now().year`. -/
def generalizeRrn (value : Text) : Option Text :=
  let digits := digitsOf u value
  if digits.length ≠ 13 then none
  else match (digits[6]?).bind genderDigitCentury with
    | none => none
    | some (century, sex) =>
        let birthYear := century + u.intOf (digits.take 2)
        let age := year - birthYear
        let bracket := max (age / 10 * 10) 0
        some ("<AGE:".toList ++ Nat.toDigits 10 bracket.toNat ++ "대><SEX:".toList ++ [sex, '>'])

/-- `_generalize`: only RRN has a rule. -/
def generalize (span : Span) : Text :=
  if span.type = "RRN" then (generalizeRrn u year span.value).getD (mask u span)
  else mask u span

/-- `_parse_amount`: `float` of what is left of digits and points. -/
def parseAmount (value : Text) : Option PyFloat :=
  let cleaned := value.filter fun c => u.isDecimal c || c == '.'
  let whole := cleaned.takeWhile (· != '.')
  let fraction := (cleaned.dropWhile (· != '.')).drop 1
  if '.' ∈ fraction ∨ whole ++ fraction = [] then none
  else some (PyFloat.nearest (u.intOf (whole ++ fraction) / 10 ^ fraction.length))

/-- A comma after every third digit, in digits written backwards. -/
def commas : Text → Text
  | a :: b :: c :: d :: rest => a :: b :: c :: ',' :: commas (d :: rest)
  | digits => digits

/-- `f"{x:,.0f}"` of a float that is not negative. -/
def formatGrouped : PyFloat → Text
  | .num (some (some x)) => (commas (Nat.toDigits 10 (roundHalfEven x).toNat).reverse).reverse
  | .num _ => "inf".toList
  | .nan => "nan".toList

/-- `_append_aggregate_summary`. -/
def appendAggregateSummary (text : Text) (spans : List Span) : Text :=
  let amounts := spans.filterMap fun s => parseAmount u s.value
  if amounts = [] then text
  else
    -- `sum` of Python 3.11, which rounds after each amount.
    let total := amounts.foldl PyFloat.add 0
    let avg := total.divNat amounts.length
    u.rstrip text ++ (" [집계: 합계 ".toList ++ formatGrouped total ++ " / 평균 ".toList ++
      formatGrouped avg ++ " / 건수 ".toList ++ Nat.toDigits 10 amounts.length ++ [']'])

/-- `_synthetic`: a fake name, or a fresh digit for each digit. -/
def synthetic (chance : Chance) (span : Span) : Text :=
  if span.type = "NAME" then fakeNames chance.name
  else if !span.value.any u.isDigit then mask u span
  else span.value.zipIdx.map fun p =>
    if u.isDigit p.1 then Nat.digitChar (chance.digit p.2) else p.1

end Generalize

/-! ## The stage -/

section Stage

variable (env : Vault.Env) (year : ℤ)

/-- `[x] if x else ["*"]`. -/
def orWildcard : Option String → List String
  | some x => if x = "" then ["*"] else [x]
  | none => ["*"]

/-- `_access_scope`. -/
def accessScope (ctx : AnalysisContext) : Vault.AccessScope :=
  ⟨some (orWildcard ctx.role), some (orWildcard ctx.purpose)⟩

/-- `_tokenize`: when the vault raises, the value is redacted. -/
def tokenize (chance : Chance) (ctx : AnalysisContext) (span : Span) (v : Vault.Db) :
    Text × Vault.Db :=
  match Vault.tokenize env chance.nonce v ctx.sessionId span.type span.value
      (some (accessScope ctx)) with
  | .ok (label, v) => (label, v)
  | .error _ => (redactText, v)

/-- `_render`. An action without a rule of its own keeps the value. -/
def render (chance : Chance) (action : Action) (ctx : AnalysisContext) (span : Span)
    (v : Vault.Db) : Text × Vault.Db :=
  match action with
  | .keep => (span.value, v)
  | .mask => (mask env.unicode span, v)
  | .generalize => (generalize env.unicode year span, v)
  | .tokenize => tokenize env chance ctx span v
  | .synthetic => (synthetic env.unicode chance span, v)
  | .redact => (redactText, v)
  | .aggregate | .block => (span.value, v)

/-- The replacements for the spans that are rendered one by one, in order; the
`k`-th span draws `chance k`. -/
def renderAll (ctx : AnalysisContext) :
    (ℕ → Chance) → List (Span × Action) → Vault.Db → List (Edit Char) × Vault.Db
  | _, [], v => ([], v)
  | chance, (span, action) :: rest, v =>
      let (new, v) := render env year (chance 0) action ctx span v
      let (edits, v) := renderAll ctx (fun k => chance (k + 1)) rest v
      (⟨span.start, span.stop, new⟩ :: edits, v)

/-- The text of the last turn with all actions carried out. -/
def transformText (chance : ℕ → Chance) (ctx : AnalysisContext) (text : Text) (v : Vault.Db) :
    Text × Vault.Db :=
  let perSpan := ctx.spanActions.filter fun p => p.2 ≠ .aggregate
  let aggregateGroup := ctx.spanActions.filter fun p => p.2 = .aggregate
  let (edits, v) := renderAll env year ctx chance perSpan v
  let emptied := aggregateGroup.map fun p => (⟨p.1.start, p.1.stop, []⟩ : Edit Char)
  let text := rightToLeft text (edits ++ emptied)
  if aggregateGroup = [] then (text, v)
  else (appendAggregateSummary env.unicode text (aggregateGroup.map Prod.fst), v)

/-- `transform_stage`. -/
def transformStage (chance : ℕ → Chance) (ctx : AnalysisContext) (v : Vault.Db) :
    AnalysisContext × Vault.Db :=
  if ctx.spanActions = [] then (ctx, v)
  else match ctx.turns.getLast? with
    | none => (ctx, v)
    | some turn =>
        let (text, v) := transformText env year chance ctx turn.text v
        ({ ctx with turns := ctx.turns.dropLast ++ [{ turn with text := text }] }, v)

end Stage

/-! ## Replacing without overlap -/

/-- The spans lie in the text, are not empty and do not overlap. -/
structure Placed (text : Text) (spans : List Span) : Prop where
  within : ∀ s ∈ spans, s.start < s.stop ∧ s.stop ≤ text.length
  apart : spans.Pairwise fun a b => a.stop ≤ b.start ∨ b.stop ≤ a.start

/-- Moreover their values are what stands there. -/
structure Covers (text : Text) (spans : List Span) : Prop extends Placed text spans where
  value : ∀ s ∈ spans, s.value = slice text s.start s.stop

/-- Edits at the places of such spans fit, whatever they put there. -/
theorem Placed.fit {text : Text} {spans : List Span} {es : List (Edit Char)}
    (h : Placed text spans)
    (hplaces : es.map (fun e => (e.start, e.stop)) = spans.map fun s => (s.start, s.stop)) :
    Fit text es where
  within e he := by
    have hmem : (e.start, e.stop) ∈ spans.map fun s => (s.start, s.stop) := by
      rw [← hplaces]
      exact List.mem_map_of_mem he
    obtain ⟨s, hs, heq⟩ := List.mem_map.mp hmem
    obtain ⟨hstart, hstop⟩ := Prod.mk.inj heq
    rw [← hstart, ← hstop]
    exact h.within s hs
  apart := by
    have happart : (spans.map fun s => (s.start, s.stop)).Pairwise
        fun p q => p.2 ≤ q.1 ∨ q.2 ≤ p.1 := List.pairwise_map.mpr h.apart
    rw [← hplaces] at happart
    have hes := List.pairwise_map.mp happart
    exact hes

section Spec

variable {env : Vault.Env} {year : ℤ} {ctx : AnalysisContext} {chance : ℕ → Chance}
  {v : Vault.Db}

theorem renderAll_places (spanActions : List (Span × Action)) :
    (renderAll env year ctx chance spanActions v).1.map (fun e => (e.start, e.stop)) =
      (spanActions.map Prod.fst).map fun s => (s.start, s.stop) := by
  induction spanActions generalizing chance v with
  | nil => rfl
  | cons p rest ih =>
      rw [renderAll, List.map_cons, List.map_cons, List.map_cons]
      exact congrArg _ ih

/-- **Every span gives way to its rendering, in one pass**, when the spans do not
overlap and none is aggregated. -/
theorem transformText_eq_onePass {text : Text}
    (hcover : Placed text (ctx.spanActions.map Prod.fst))
    (hno : ∀ p ∈ ctx.spanActions, p.2 ≠ .aggregate) :
    transformText env year chance ctx text v =
      (onePass text (renderAll env year ctx chance ctx.spanActions v).1,
        (renderAll env year ctx chance ctx.spanActions v).2) := by
  have hall : ctx.spanActions.filter (fun p => p.2 ≠ .aggregate) = ctx.spanActions :=
    List.filter_eq_self.mpr fun p hp => decide_eq_true (hno p hp)
  have hnone : ctx.spanActions.filter (fun p => p.2 = .aggregate) = [] :=
    List.filter_eq_nil_iff.mpr fun p hp => by simpa using hno p hp
  simp only [transformText, hall, hnone, List.map_nil, List.append_nil, if_true]
  rw [rightToLeft_eq_onePass (hcover.fit (renderAll_places _))]

end Spec

end DlpServer.Transform
