import ContentModeration.Framework.Rounding
import ContentModeration.Impl.Data
import Mathlib.Data.Rat.Floor

/-!
# Routing

`moderation_shared.thresholds`: the thresholds and `route_decision`, and the
worker's `validate` and `review_priority`.
-/

namespace CM

/-- `moderation_shared.thresholds.ThresholdConfig`. -/
structure ThresholdConfig where
  policyVersion : String := "policy-v1"
  autoAllow : Rat := 85 / 100
  autoBlock : Rat := 90 / 100
  nsfwBlock : Rat := 85 / 100
  nsfwFlag : Rat := 45 / 100
  violenceBlock : Rat := 80 / 100
  violenceFlag : Rat := 40 / 100
  deriving DecidableEq

/-- The final decision, whether a human reviews it, and the extra reasons. -/
structure Route where
  decision : Decision
  needsHumanReview : Bool
  reasons : List String
  deriving DecidableEq

def routeDecision (suggested : Decision) (confidence nsfwScore violenceScore : Rat)
    (t : ThresholdConfig) : Route :=
  if t.nsfwBlock ≤ nsfwScore ∨ t.violenceBlock ≤ violenceScore then
    if t.autoBlock ≤ confidence then ⟨.block, false, ["hard_signal_block_threshold"]⟩
    else ⟨.block, true, ["hard_signal_block_threshold", "low_confidence_block_needs_review"]⟩
  else if t.nsfwFlag ≤ nsfwScore ∨ t.violenceFlag ≤ violenceScore then
    ⟨.flag, true, ["soft_signal_flag_band"]⟩
  else match suggested with
    | .block =>
      if t.autoBlock ≤ confidence then ⟨.block, false, []⟩
      else ⟨.flag, true, ["block_below_auto_threshold"]⟩
    | .allow =>
      if t.autoAllow ≤ confidence then ⟨.allow, false, []⟩
      else ⟨.flag, true, ["allow_below_auto_threshold"]⟩
    | .flag => ⟨.flag, true, ["classifier_flagged"]⟩

/-- `ThresholdConfig.from_values` of the worker's settings. -/
def WorkerSettings.thresholds (settings : WorkerSettings) : ThresholdConfig where
  policyVersion := settings.policyVersion
  autoAllow := settings.autoAllow
  autoBlock := settings.autoBlock
  nsfwBlock := settings.nsfwBlock
  nsfwFlag := settings.nsfwFlag
  violenceBlock := settings.violenceBlock
  violenceFlag := settings.violenceFlag

/-- `ALLOWED_TYPES`. -/
def allowedTypes : List String := ["image/jpeg", "image/png", "image/webp", "image/gif"]

/-- `pipeline.validate`. -/
def validate (imageBytes : List UInt8) (contentType : String) (settings : WorkerSettings) :
    Except Exn (List String) :=
  if contentType ∉ allowedTypes then .error (.validationError ("invalid_content_type:" ++ contentType))
  else if imageBytes.length = 0 then .error (.validationError "empty_object")
  else if settings.maxUploadBytes < imageBytes.length then .error (.validationError "object_too_large")
  else .ok ["validation_ok"]

/-- `pipeline.review_priority`: the lower the more urgent. -/
def reviewPriority (decision : Decision) (confidence : Rat) : Nat :=
  let priority := if decision = .block then 10 else 50
  if confidence < 6 / 10 then min priority 20 else priority

/-- `round(q, 4)`, a half to the even neighbour. -/
def round4 (q : Rat) : Rat :=
  let scaled := q * 10000
  let below := scaled.floor
  let rest := scaled - below
  let n := if rest < 1 / 2 then below else if 1 / 2 < rest then below + 1
    else if below % 2 = 0 then below else below + 1
  n / 10000

/-- The float nearest to `q`, which is neither too large nor too small for one. -/
def asFloat (q : Rat) : Rat := roundBinary 53 q

/-- `a / b if b else 0.0`. -/
def ratio (a b : Nat) : Rat := if b = 0 then 0 else asFloat (a / b)

end CM
