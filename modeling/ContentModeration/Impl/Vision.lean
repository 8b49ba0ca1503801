import ContentModeration.Impl.OpenAi

/-!
# The cloud vision adapters

`worker.adapters.vision` besides the local stub: `AwsRekognitionVision`,
`GcpVisionAdapter` and `get_vision_adapter`. The clients are parameters, with
what their calls return or raise; whatever goes wrong on the way to the signals,
the adapter answers with those of the local stub. The `raw` fields of the
signals are left out, as there.
-/

namespace CM

/-! ## `AwsRekognitionVision` -/

/-- An item of `ModerationLabels`; a key may be missing. -/
structure ModerationLabel where
  name : Option String := none
  confidence : Option Rat := none

/-- An item of `TextDetections`. -/
structure TextDetection where
  detectedText : Option String := none
  type : Option String := none

/-- The client of `boto3`: `resp.get("ModerationLabels")` and `text_resp.get("TextDetections")`. -/
structure Rekognition where
  detectModerationLabels : List UInt8 → Nat → Except Exn (Option (List ModerationLabel))
  detectText : List UInt8 → Except Exn (Option (List TextDetection))

/-- `item[key]`. -/
def keyed {α : Type} (key : String) : Option α → Except Exn α
  | some a => .ok a
  | none => .error (.error ("'" ++ key ++ "'"))

def awsNsfwTerms : List String := ["explicit", "nudity", "suggestive", "sexual"]

def awsViolenceTerms : List String := ["violence", "blood", "weapon", "gore"]

/-- The scores after one more label. -/
def awsScore (U : Unicode) (scores : Rat × Rat) (item : ModerationLabel) : Except Exn (Rat × Rat) := do
  let name := U.lower (← keyed "Name" item.name)
  let conf := asFloat ((← keyed "Confidence" item.confidence) / 100)
  return (if anyIn awsNsfwTerms name then max scores.1 conf else scores.1,
    if anyIn awsViolenceTerms name then max scores.2 conf else scores.2)

/-- `d["DetectedText"]` of a line. -/
def lineText (d : TextDetection) : Except Exn (Option String) :=
  if d.type = some "LINE" then (keyed "DetectedText" d.detectedText).map some else .ok none

/-- The `try` of `analyze`. -/
def awsTry (U : Unicode) (client : Except Exn Rekognition) (imageBytes : List UInt8) : Except Exn VisionSignals := do
  let client ← client
  let found := (← client.detectModerationLabels imageBytes 50).getD []
  let labels ← found.mapM fun x => keyed "Name" x.name
  let scores ← found.foldlM (awsScore U) (0, 0)
  let lines ← ((← client.detectText imageBytes).getD []).mapM lineText
  return {
    labels := if labels = [] then ["rekognition_clean"] else labels
    nsfwScore := round4 scores.1
    violenceScore := round4 scores.2
    ocrText := takeStr 2000 (" ".intercalate (lines.filterMap id))
    provider := "aws"
    modelVersion := "rekognition-moderation-v1" }

/-! ## `GcpVisionAdapter` -/

/-- A value of the client's enum `Likelihood`, or what else may stand for one. -/
inductive Likelihood where
  | none
  | enum (value : Int) (name : String)
  | int (n : Int)
  | str (s : String)

/-- `_GCP_LIKELIHOOD_SCORE.get(n, 0.0)`. -/
def likelihoodScore : Int → Rat
  | 1 => 5 / 100
  | 2 => 2 / 10
  | 3 => 45 / 100
  | 4 => 75 / 100
  | 5 => 95 / 100
  | _ => 0

/-- `s.split(".")[-1]`. -/
def afterLastDot (s : String) : String := String.ofList (s.toList.reverse.takeWhile (· ≠ '.')).reverse

/-- The score of a name. -/
def likelihoodNameScore (name : String) : Rat :=
  if name = "VERY_UNLIKELY" then 5 / 100
  else if name = "UNLIKELY" then 2 / 10
  else if name = "POSSIBLE" then 45 / 100
  else if name = "LIKELY" then 75 / 100
  else if name = "VERY_LIKELY" then 95 / 100
  else 0

/-- `gcp_likelihood_score`. -/
def gcpLikelihoodScore (P : Python) : Likelihood → Rat
  | .none => 0
  | .enum value _ => likelihoodScore value
  | .int n => likelihoodScore n
  | .str s => likelihoodNameScore (afterLastDot (P.upper s))

/-- `_likeli_name`. -/
def likeliName : Likelihood → String
  | .none => "UNKNOWN"
  | .enum _ name => name
  | .int n => toString n
  | .str s => s

/-- `response.safe_search_annotation`. -/
structure SafeSearch where
  adult : Likelihood
  racy : Likelihood
  violence : Likelihood
  spoof : Likelihood
  medical : Likelihood

/-- The response of `annotate_image`, with the descriptions of its labels and texts. -/
structure AnnotateResponse where
  errorMessage : String := ""
  safe : SafeSearch
  labels : List String := []
  texts : List String := []

/-- The client of Cloud Vision. -/
structure ImageAnnotator where
  annotateImage : List UInt8 → Except Exn AnnotateResponse

/-- What the adapter makes of a response. -/
def gcpSignals (P : Python) (response : AnnotateResponse) : VisionSignals where
  labels := [
    "adult:" ++ likeliName response.safe.adult, "racy:" ++ likeliName response.safe.racy,
    "violence:" ++ likeliName response.safe.violence, "spoof:" ++ likeliName response.safe.spoof,
    "medical:" ++ likeliName response.safe.medical] ++ response.labels
  nsfwScore := round4 (max (gcpLikelihoodScore P response.safe.adult) (gcpLikelihoodScore P response.safe.racy))
  violenceScore := round4 (gcpLikelihoodScore P response.safe.violence)
  ocrText := takeStr 2000 (response.texts.headD "")
  provider := "gcp"
  modelVersion := "gcp-vision-safe-search-v1"

/-- The `try` of `analyze`. -/
def gcpTry (P : Python) (client : Except Exn ImageAnnotator) (imageBytes : List UInt8) :
    Except Exn VisionSignals := do
  let response ← (← client).annotateImage imageBytes
  if response.errorMessage ≠ "" then throw (.error response.errorMessage)
  return gcpSignals P response

/-! ## `get_vision_adapter` -/

/-- The services that a deployment may use for vision. -/
structure Vendors where
  rekognition : Except Exn Rekognition
  annotator : Except Exn ImageAnnotator

/-- The adapter that `settings.vision_provider` names. -/
inductive VisionProvider where
  | aws
  | gcp
  | local
  deriving DecidableEq

/-- `get_vision_adapter(settings).analyze`. -/
def visionAnalyze (U : Unicode) (P : Python) (pil : Pil) (vendors : Vendors) (provider : VisionProvider)
    (imageBytes : List UInt8) (caption : String) : VisionSignals :=
  let answer := match provider with
    | .aws => awsTry U vendors.rekognition imageBytes
    | .gcp => gcpTry P vendors.annotator imageBytes
    | .local => .ok (analyze U pil imageBytes caption)
  match answer with
  | .ok signals => signals
  | .error _ => analyze U pil imageBytes caption

end CM
