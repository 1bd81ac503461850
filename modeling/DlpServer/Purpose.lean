import DlpServer.Models

/-!
# Purpose and role (`app/purpose/`)

`classify` reads the purpose off a text, `resolveRole` the role off the headers.
A compiled pattern is known by its search; `none` is an exception.
-/

namespace DlpServer.Purpose

/-! ## `classifier.py` -/

/-- An entry of `_COMPILED`. -/
structure Rule where
  purpose : String
  search : Text → Option Bool

/-- `_RULE_CONFIDENCE`. -/
def ruleConfidence : ℚ := 8 / 10

/-- `_UNKNOWN_CONFIDENCE`. -/
def unknownConfidence : ℚ := 0

/-- `RuleClassifier.classify`: the first rule that is found; a rule that raises
is passed over. -/
def classify (rules : List Rule) (text : Text) : String × ℚ :=
  match rules.find? fun rule => rule.search text == some true with
  | some rule => (rule.purpose, ruleConfidence)
  | none => ("unknown", unknownConfidence)

/-! ## `role_resolver.py` -/

/-- `_ROLE_MAP`. -/
def roleMap : Dict String String := []

/-- `(lower.get(key) or "").strip()`. -/
def header (u : Unicode) (lower : Dict String String) (key : String) : Text :=
  u.strip ((lower.get? key).getD "").toList

/-- `resolve`: the role header, else the role of the user header. -/
def resolveRole (u : Unicode) (headers : Dict String String) : Option String :=
  let lower : Dict String String := headers.foldl
    (fun d h => d.set (String.ofList (u.lower h.1.toList)) h.2) []
  let role := header u lower "x-corp-user-role"
  let userId := header u lower "x-corp-user-id"
  if role ≠ [] then some (String.ofList role)
  else if userId ≠ [] then roleMap.get? (String.ofList userId)
  else none

end DlpServer.Purpose
