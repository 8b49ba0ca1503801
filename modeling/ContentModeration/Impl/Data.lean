import ContentModeration.Impl.Text
import Mathlib.Data.Rat.Defs
import Mathlib.Algebra.Order.Ring.Rat

/-!
# What the services exchange

The shared envelope (`moderation_shared.envelope`), the job message that goes
through the queue, the settings of the API and of the worker, and the
exceptions. Scores are rationals; a body is represented by what `json.loads`
makes of it (`RawBody`). Strings are Lean's, so without lone surrogates, which
only an escape in the JSON of a message from elsewhere can make (`Json.lone`).
Times are microseconds on one clock.
-/

namespace CM

abbrev Time := Nat

def seconds (n : Nat) : Time := n * 1000000

/-! ## Exceptions and JSON -/

/-- A Python exception: the pipeline's `ValidationError`, an `HTTPException`,
or any other, with its text. -/
inductive Exn where
  | validationError (reason : String)
  | httpException (statusCode : Nat) (detail : String)
  | error (text : String)
  deriving DecidableEq

/-- `str(exc)`. -/
def Exn.str : Exn → String
  | .validationError reason => reason
  | .httpException statusCode detail => toString statusCode ++ ": " ++ detail
  | .error text => text

/-- A value that `json.loads` returns; of a string with a lone surrogate, what
comes before the first one. -/
inductive Json where
  | null
  | bool (b : Bool)
  | int (n : Int)
  | float (q : Rat)
  | str (s : String)
  | lone (head : String)
  | arr (xs : List Json)
  | obj (fields : List (String × Json))

/-- `value.get(key)` of a dict. -/
def Json.get? : Json → String → Option Json
  | .obj fields, key => fields.lookup key
  | _, _ => none

/-- The values that are false in a condition. -/
def Json.falsy : Json → Bool
  | .null => true
  | .bool b => !b
  | .int n => n = 0
  | .float q => q = 0
  | .str s => s = ""
  | .lone _ => false
  | .arr xs => xs.isEmpty
  | .obj fields => fields.isEmpty

/-- The body of a message: a text that `json.loads` rejects with a
`JSONDecodeError`, one on which it raises another exception (`ValueError` for an
integer of more than 4300 digits, `RecursionError` for deep nesting), or the
value that it returns. -/
inductive RawBody where
  | text (s : String)
  | raises (error : String)
  | json (v : Json)

/-- A `jsonb` column: a value that was encoded, or a text that the database
casts. -/
inductive Jsonb where
  | dumps (v : Json)
  | cast (text : String)

/-! ## The decision envelope -/

/-- `moderation_shared.envelope.Decision`. -/
inductive Decision where
  | allow
  | flag
  | block
  deriving DecidableEq

/-- `decision.value`. -/
def Decision.value : Decision → String
  | .allow => "ALLOW"
  | .flag => "FLAG"
  | .block => "BLOCK"

/-- `moderation_shared.envelope.VisionSignals`. Of `raw` it is only told whether it can be
encoded and stored. -/
structure VisionSignals where
  labels : List String := []
  nsfwScore : Rat := 0
  violenceScore : Rat := 0
  ocrText : String := ""
  provider : String := "local"
  modelVersion : String := "local-heuristic-v1"
  rawStorable : Bool := true
  deriving DecidableEq

/-- `moderation_shared.envelope.LlmSignals`, `raw` as in `VisionSignals`. -/
structure LlmSignals where
  label : String := "unknown"
  score : Rat := 0
  rationale : String := ""
  provider : String := "rules"
  modelVersion : String := "rules-v1"
  rawStorable : Bool := true
  deriving DecidableEq

/-- All that the signals hold can be stored as `jsonb`. -/
def VisionSignals.storable (vision : VisionSignals) : Bool :=
  (vision.labels ++ [vision.ocrText, vision.provider, vision.modelVersion]).all CM.storable && vision.rawStorable

def LlmSignals.storable (llm : LlmSignals) : Bool :=
  [llm.label, llm.rationale, llm.provider, llm.modelVersion].all CM.storable && llm.rawStorable

/-- `moderation_shared.envelope.DecisionEnvelope`, with the bounds that its
`Field(ge=0.0, le=1.0)` checks. -/
structure DecisionEnvelope where
  jobId : Uuid
  contentId : Uuid
  contentHash : String
  decision : Decision
  confidence : Rat
  reasons : List String := []
  vision : VisionSignals := {}
  llm : LlmSignals := {}
  policyVersion : String := "policy-v1"
  pipelineVersion : String := "pipeline-v1"
  latencyMs : Nat := 0
  needsHumanReview : Bool := false
  confidence_ge : 0 ≤ confidence
  confidence_le : confidence ≤ 1
  deriving DecidableEq

/-! ## Settings -/

/-- The fields of `app.config.Settings` that ingest and review read. -/
structure ApiSettings where
  storageProvider : String := "s3"
  queueProvider : String := "sqs"
  s3Bucket : String := "moderation-content"
  gcsBucket : String := "moderation-content"
  gcpProject : String := ""
  policyVersion : String := "policy-v1"
  pipelineVersion : String := "pipeline-v1"
  maxUploadBytes : Nat := 10 * 1024 * 1024
  allowedContentTypes : String := "image/jpeg,image/png,image/webp,image/gif"
  deriving DecidableEq

/-- The queue that an API sends to; Pub/Sub needs a project. -/
inductive QueueProvider where
  | sqs
  | pubsub (gcpProject : String)
  deriving DecidableEq

/-- The fields of `worker.config.Settings` that the worker's pipeline reads. -/
structure WorkerSettings where
  policyVersion : String := "policy-v1"
  pipelineVersion : String := "pipeline-v1"
  autoAllow : Rat := 85 / 100
  autoBlock : Rat := 90 / 100
  nsfwBlock : Rat := 85 / 100
  nsfwFlag : Rat := 45 / 100
  violenceBlock : Rat := 80 / 100
  violenceFlag : Rat := 40 / 100
  gcpProject : String := ""
  maxUploadBytes : Nat := 10 * 1024 * 1024
  deriving DecidableEq

/-! ## Messages -/

/-- A message of a queue: `id` stands for its receipt, `attributes` for its
string attributes. -/
structure Message where
  id : Nat
  body : RawBody
  attributes : List (String × String)

/-- The fields of a job message that the worker reads. -/
structure JobMessage where
  jobId : Uuid
  contentId : Uuid
  contentHash : String
  objectKey : String
  caption : String
  deriving DecidableEq

/-- The string `body[key]`; one with a lone surrogate, which no service sends, fails
here rather than where it is used. -/
def bodyString (body : Json) (key : String) : Except Exn String :=
  match body.get? key with
  | some (.str s) => .ok s
  | some _ => .error (.error ("not a string: " ++ key))
  | none => .error (.error ("'" ++ key ++ "'"))

/-- `UUID(body[key])`. -/
def bodyUuid (body : Json) (key : String) : Except Exn Uuid := do
  match Uuid.parse (← bodyString body key) with
  | some u => .ok u
  | none => .error (.error "badly formed hexadecimal UUID string")

/-- The first lines of `handle_message`: the fields of `body`. -/
def readJobMessage (body : Json) : Except Exn JobMessage := do
  let jobId ← bodyUuid body "job_id"
  let contentId ← bodyUuid body "content_id"
  let contentHash ← bodyString body "content_hash"
  let objectKey ← bodyString body "object_key"
  let caption ←
    if ((body.get? "caption").getD .null).falsy then .ok "" else bodyString body "caption"
  return { jobId, contentId, contentHash, objectKey, caption }

end CM
