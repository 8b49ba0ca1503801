import ContentModeration.Impl.Adapters
import ContentModeration.Impl.Pipeline

/-!
# The OpenAI classifier

`OpenAIPolicyClassifier.classify` of `worker.adapters`, from the request to the
signals, and what `process_job` makes of them. The endpoint is a parameter, and
so is what Python makes of a text (`Python`). Besides a number a `float` may be
an infinity or NaN, which `json.loads` reads too.
-/

namespace CM

/-! ## Python's values -/

/-- A `float`. -/
inductive PyFloat where
  | finite (q : Rat)
  | inf
  | negInf
  | nan
  deriving DecidableEq

/-- A value that `json.loads` returns, with every `float`. -/
inductive PyJson where
  | null
  | bool (b : Bool)
  | int (n : Int)
  | float (x : PyFloat)
  | str (s : String)
  | arr (xs : List PyJson)
  | obj (fields : List (String × PyJson))

/-- `json.loads`, `str.upper`, `repr` and `float` of a string, and `str` of a
value that is no string. -/
structure Python where
  loads : String → Except Exn PyJson
  upper : String → String
  repr : String → String
  float : String → Except Exn PyFloat
  str : PyJson → Except Exn String

namespace PyJson

/-- `type(value).__name__`. -/
def typeName : PyJson → String
  | .null => "NoneType"
  | .bool _ => "bool"
  | .int _ => "int"
  | .float _ => "float"
  | .str _ => "str"
  | .arr _ => "list"
  | .obj _ => "dict"

/-- `value[key]`. -/
def item (key : String) : PyJson → Except Exn PyJson
  | .obj fields =>
    match fields.lookup key with
    | some v => .ok v
    | none => .error (.error ("'" ++ key ++ "'"))
  | .arr _ => .error (.error "list indices must be integers or slices, not str")
  | .str _ => .error (.error "string indices must be integers, not 'str'")
  | v => .error (.error ("'" ++ v.typeName ++ "' object is not subscriptable"))

/-- `value[0]`; the keys of a dict are strings. -/
def first : PyJson → Except Exn PyJson
  | .arr (x :: _) => .ok x
  | .arr [] => .error (.error "list index out of range")
  | .str s =>
    match s.toList with
    | c :: _ => .ok (.str (String.ofList [c]))
    | [] => .error (.error "string index out of range")
  | .obj _ => .error (.error "0")
  | v => .error (.error ("'" ++ v.typeName ++ "' object is not subscriptable"))

/-- The entries of a dict, whose `get` is called. -/
def dict : PyJson → Except Exn (List (String × PyJson))
  | .obj fields => .ok fields
  | v => .error (.error ("'" ++ v.typeName ++ "' object has no attribute 'get'"))

end PyJson

namespace Python

variable (P : Python)

/-- `json.loads(value)`. -/
def loadsValue : PyJson → Except Exn PyJson
  | .str s => P.loads s
  | v => .error (.error ("the JSON object must be str, bytes or bytearray, not " ++ v.typeName))

/-- `str(value)`. -/
def strValue : PyJson → Except Exn String
  | .str s => .ok s
  | v => P.str v

/-- Where the ints begin that are too large for a `float`: they round to 2^1024. -/
def tooLarge : Nat := 2 ^ 1024 - 2 ^ 970

/-- `float(value)`. -/
def floatValue : PyJson → Except Exn PyFloat
  | .bool b => .ok (.finite (if b then 1 else 0))
  | .int n =>
    if tooLarge ≤ n.natAbs then .error (.error "int too large to convert to float") else .ok (.finite n)
  | .float x => .ok x
  | .str s => P.float s
  | v => .error (.error ("float() argument must be a string or a real number, not '" ++ v.typeName ++ "'"))

/-- `Decision(value.upper())`. -/
def decisionValue : PyJson → Except Exn Decision
  | .str s =>
    if P.upper s = "ALLOW" then .ok .allow
    else if P.upper s = "FLAG" then .ok .flag
    else if P.upper s = "BLOCK" then .ok .block
    else .error (.error (P.repr (P.upper s) ++ " is not a valid Decision"))
  | v => .error (.error ("'" ++ v.typeName ++ "' object has no attribute 'upper'"))

end Python

/-! ## The request -/

/-- The fields of `worker.config.Settings` that the classifier reads. -/
structure OpenAiSettings where
  openaiApiKey : String := ""
  openaiModel : String := "gpt-4o-mini"

/-- What the user's message asks. -/
def openaiPrompt (caption : String) (vision : VisionSignals) : Json :=
  .obj [("caption", .str caption), ("ocr_text", .str vision.ocrText),
    ("vision_labels", .arr (vision.labels.map .str)), ("nsfw_score", .float vision.nsfwScore),
    ("violence_score", .float vision.violenceScore),
    ("instruction", .str ("Classify UGC as ALLOW, FLAG, or BLOCK for a general social app. " ++
      "Return JSON: \x7bdecision, confidence, rationale\x7d"))]

/-- The body of the request. The content of the user's message is encoded as a
text of its own. -/
def openaiBody (openai : OpenAiSettings) (caption : String) (vision : VisionSignals) : Json :=
  .obj [("model", .str openai.openaiModel),
    ("messages", .arr [
      .obj [("role", .str "system"),
        ("content", .str "You are a content policy classifier. Reply with JSON only.")],
      .obj [("role", .str "user"), ("content", openaiPrompt caption vision)]]),
    ("temperature", .int 0), ("response_format", .obj [("type", .str "json_object")])]

/-- The chat completions endpoint: the text that it answers to a key and a body,
or the exception that asking it raises. -/
abbrev Endpoint := String → Json → Except Exn String

/-! ## `OpenAIPolicyClassifier` -/

/-- `LlmSignals` before they are checked: any `float` may be the score, and `raw`
holds what the reply put there. -/
structure RawLlmSignals where
  label : String
  score : PyFloat
  rationale : String
  provider : String
  modelVersion : String
  raw : List (String × PyJson)

/-- The value that the message of the reply holds. -/
def openaiParsed (P : Python) (reply : Except Exn String) : Except Exn PyJson := do
  let payload ← P.loads (← reply)
  let choice ← (← payload.item "choices").first
  let content ← (← choice.item "message").item "content"
  P.loadsValue content

/-- `parsed.get("confidence", 0.7)`. -/
def confidenceField (fields : List (String × PyJson)) : PyJson :=
  (fields.lookup "confidence").getD (.float (.finite (7 / 10)))

/-- `parsed.get("rationale", "")`. -/
def rationaleField (fields : List (String × PyJson)) : PyJson := (fields.lookup "rationale").getD (.str "")

/-- What the classifier reads from it. -/
def readParsed (P : Python) (openai : OpenAiSettings) (parsed : PyJson) :
    Except Exn (Decision × RawLlmSignals) := do
  let decision ← P.decisionValue (← parsed.item "decision")
  let fields ← parsed.dict
  let score ← P.floatValue (confidenceField fields)
  let rationale ← P.strValue (rationaleField fields)
  return (decision, {
    label := decision.value
    score
    rationale
    provider := "openai"
    modelVersion := openai.openaiModel
    raw := fields })

/-- The `try` of `classify`. -/
def tryOpenai (P : Python) (openai : OpenAiSettings) (reply : Except Exn String) :
    Except Exn (Decision × RawLlmSignals) := do
  readParsed P openai (← openaiParsed P reply)

/-- `RulesPolicyClassifier.classify`; the reply has put nothing into `raw`. -/
def rulesClassify (U : Unicode) (caption : String) (vision : VisionSignals) : Decision × RawLlmSignals :=
  let s := classify U caption vision
  (s.1, {
    label := s.2.label
    score := .finite s.2.score
    rationale := s.2.rationale
    provider := s.2.provider
    modelVersion := s.2.modelVersion
    raw := [] })

/-- `OpenAIPolicyClassifier.classify`. -/
def openaiClassify (P : Python) (U : Unicode) (endpoint : Endpoint) (openai : OpenAiSettings) (caption : String)
    (vision : VisionSignals) : Decision × RawLlmSignals :=
  if openai.openaiApiKey = "" then rulesClassify U caption vision
  else match tryOpenai P openai (endpoint openai.openaiApiKey (openaiBody openai caption vision)) with
    | .ok answer => answer
    | .error exc =>
      let (decision, signals) := rulesClassify U caption vision
      (decision, { signals with raw := signals.raw ++ [("openai_fallback_error", .str exc.str)] })

/-! ## The rest of `process_job` -/

/-- The signals with a number for their score. -/
def RawLlmSignals.scored (llm : RawLlmSignals) (score : Rat) : LlmSignals where
  label := llm.label
  score := score
  rationale := llm.rationale
  provider := llm.provider
  modelVersion := llm.modelVersion

/-- The envelope that `process_job` builds. `round` leaves NaN and the
infinities as they are, and the bounds of the confidence reject them. -/
def buildRawEnvelope (settings : WorkerSettings) (job : JobMessage) (vision : VisionSignals)
    (suggested : Decision) (llm : RawLlmSignals) (latencyMs : Nat) : Except Exn DecisionEnvelope :=
  match llm.score with
  | .finite score => buildEnvelope settings job vision suggested (llm.scored score) latencyMs
  | _ => .error (.error "1 validation error for DecisionEnvelope")

/-- What `process_job` does with the classifier's answer. `dump` is the exception,
if any, that encoding what the reply put into `raw` and storing it as `jsonb`
raises; its rationale is part of that. -/
def finishJob (dump : List (String × PyJson) → Except Exn Unit) (settings : WorkerSettings) (job : JobMessage)
    (vision : VisionSignals) (answer : Decision × RawLlmSignals) (latencyMs : Nat) :
    Except Exn DecisionEnvelope := do
  let envelope ← buildRawEnvelope settings job vision answer.1 answer.2 latencyMs
  dump answer.2.raw
  return envelope

end CM
