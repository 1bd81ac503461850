import DlpServer.Lib.Dict
import DlpServer.Lib.Float
import DlpServer.Lib.Unicode

/-!
# Contract types (`app/models.py`)

Offsets are positions in a text, counted in code points. Confidences and
scores are rationals where the source computes with floats; the risk of a context
is a float, which any stage may set.
-/

namespace DlpServer

/-- A turn of the conversation: `role` is user, assistant or system. -/
structure Turn where
  role : String
  text : Text
deriving DecidableEq

/-- A stretch of text found to hold PII. `start` and `stop` are Python's
half-open slice `text[start:end]`; `source` is regex, dict or ner. -/
structure Span where
  type : String
  value : Text
  start : ℕ
  stop : ℕ
  confidence : ℚ
  source : String
deriving DecidableEq

/-- The transformations of the policy (`TRANSFORM_ACTIONS`). -/
inductive Action where
  | keep
  | mask
  | generalize
  | aggregate
  | tokenize
  | synthetic
  | redact
  | block
deriving DecidableEq

/-- What the input guard found. -/
structure InjectionVerdict where
  hit : Bool
  score : ℚ
  pattern : Option String
deriving DecidableEq

/-- `block_reason`: one entry of `guardrail_hits`. -/
abbrev BlockReason : Type := Dict String (Option String)

/-- The context of one request, which the stages of the pipeline hand on. -/
structure AnalysisContext where
  sessionId : String
  direction : String
  provider : String
  role : Option String
  turns : List Turn
  newTurnSpans : List Span
  accumulated : Dict String (List Span) := []
  riskScore : PyFloat
  injection : InjectionVerdict
  blocked : Bool
  blockReason : Option BlockReason
  purpose : Option String
  purposeConfidence : Option ℚ
  spanActions : List (Span × Action)
deriving DecidableEq

/-- The actions of a verdict (`WIRE_ACTIONS`). -/
inductive WireAction where
  | allow
  | block
  | transform
deriving DecidableEq

end DlpServer
