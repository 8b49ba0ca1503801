import ContentModeration.Framework.Regex
import ContentModeration.Impl.Routing

/-!
# The local adapters

`worker.adapters`: the vision stub `LocalHeuristicVision.analyze` and the
classifier `RulesPolicyClassifier.classify`, which make up the pipeline of a
deployment without cloud credentials. What PIL makes of an image is a parameter
(`Pil`), and so are Python's tables of Unicode (`Unicode`). The `raw` fields of
the signals are left out, and taken to be storable.
-/

namespace CM

/-! ## Python's Unicode -/

/-- `str.lower` and `str.isalnum`. -/
structure Unicode where
  lower : String → String
  isalnum : Char → Bool

/-- The tables on the characters of ASCII. -/
def Unicode.ascii : Unicode := ⟨CM.lower, Char.isAlphanum⟩

/-- A lower-case letter or a space of a pattern under `re.I`. Besides a letter in
both cases, U+017F is taken for an s, U+212A for a k, and U+0130 and U+0131 for an i. -/
def ignoreCase (c x : Char) : Bool :=
  x.toLower = c || (c = 's' && x.toNat = 0x17f) || (c = 'k' && x.toNat = 0x212a) ||
  (c = 'i' && (x.toNat = 0x130 || x.toNat = 0x131))

/-- The alphabet of `re.search(pat, text, re.I)`. -/
def Unicode.alphabet (U : Unicode) : Alphabet Char where
  same := ignoreCase
  isWord c := U.isalnum c || c = '_'

/-! ## `LocalHeuristicVision` -/

/-- What `PIL.ImageStat.Stat` says of an image: its size, and the means and the
variances of its channels. -/
structure ImageStat where
  width : Nat
  height : Nat
  mean : Rat × Rat × Rat
  var : Rat × Rat × Rat
  deriving DecidableEq

/-- PIL: the statistics of an image in RGB, or the exception. -/
abbrev Pil := List UInt8 → Except Exn ImageStat

/-- What follows the first occurrence of `sep`: `s.split(sep, 1)[1]`. -/
def afterFirst (sep : List Char) : List Char → Option (List Char)
  | [] => if sep = [] then some [] else none
  | c :: cs => if sep.isPrefixOf (c :: cs) then some ((c :: cs).drop sep.length) else afterFirst sep cs

/-- The text that a caption in lower case gives after `ocr:`. -/
def captionOcr (cap : String) : String :=
  match afterFirst "ocr:".toList cap.toList with
  | some rest => takeStr 500 (strip (String.ofList rest))
  | none => ""

def nsfwTerms : List String := ["nsfw", "nude", "explicit", "porn", "xxx"]

def violenceTerms : List String := ["violence", "blood", "weapon", "gun", "kill", "fight"]

def safeTerms : List String := ["nature", "landscape", "food", "cat", "dog", "family", "sunset"]

/-- `any(t in cap for t in terms)`. -/
def anyIn (terms : List String) (cap : String) : Bool := terms.any (contains · cap)

/-- The labels and the scores on the way through `analyze`. -/
structure Cues where
  labels : List String
  nsfw : Rat
  violence : Rat
  deriving DecidableEq

/-- What the statistics of the image give. -/
def imageCues (stat : ImageStat) : Cues :=
  let (r, g, b) := stat.mean
  let brightness := (r + g + b) / 3
  let variance := (stat.var.1 + stat.var.2.1 + stat.var.2.2) / 3
  let cues : Cues :=
    ⟨["resolution:" ++ toString stat.width ++ "x" ++ toString stat.height], 5 / 100, 5 / 100⟩
  let cues := if g + 25 < r ∧ b + 25 < r then
    { cues with labels := cues.labels ++ ["warm_tones"], violence := max cues.violence (25 / 100) } else cues
  let cues := if brightness < 50 then
    { cues with labels := cues.labels ++ ["dark_scene"], violence := max cues.violence (35 / 100) } else cues
  let cues := if 200 < brightness then { cues with labels := cues.labels ++ ["bright_scene"] } else cues
  if 4000 < variance then { cues with labels := cues.labels ++ ["high_contrast"] } else cues

/-- What the caption, in lower case, makes of them. -/
def captionCues (cap : String) (cues : Cues) : Cues :=
  let cues := if anyIn nsfwTerms cap then
    { cues with nsfw := max cues.nsfw (92 / 100), labels := cues.labels ++ ["caption_nsfw_cue"] } else cues
  let cues := if anyIn violenceTerms cap then
    { cues with violence := max cues.violence (88 / 100), labels := cues.labels ++ ["caption_violence_cue"] }
    else cues
  let cues := if anyIn safeTerms cap then
    { labels := cues.labels ++ ["caption_safe_cue"], nsfw := min cues.nsfw (8 / 100)
      violence := min cues.violence (8 / 100) } else cues
  let cues := if contains "force_nsfw" cap then
    { cues with nsfw := 95 / 100, labels := cues.labels ++ ["force_nsfw"] } else cues
  if contains "force_violence" cap then
    { cues with violence := 93 / 100, labels := cues.labels ++ ["force_violence"] } else cues

/-- `LocalHeuristicVision.analyze`. -/
def analyze (U : Unicode) (pil : Pil) (imageBytes : List UInt8) (caption : String) : VisionSignals :=
  match pil imageBytes with
  | .error _ =>
    { labels := ["unreadable_image"], nsfwScore := 1 / 2, violenceScore := 1 / 2, ocrText := ""
      provider := "local", modelVersion := "local-heuristic-v1" }
  | .ok stat =>
    let cap := U.lower caption
    let cues := captionCues cap (imageCues stat)
    { labels := cues.labels, nsfwScore := round4 cues.nsfw, violenceScore := round4 cues.violence
      ocrText := captionOcr cap, provider := "local", modelVersion := "local-heuristic-v1" }

/-! ## `RulesPolicyClassifier` -/

def Regex.word (s : String) : Regex Char := .literal s.toList

/-- The pattern `\b(p)\b`. -/
def Regex.whole (p : Regex Char) : Regex Char := .seq .wordBoundary (.seq p .wordBoundary)

/-- `BLOCK_PATTERNS`. -/
def blockPatterns : List (Regex Char) :=
  [.whole (.alt (.word "kill yourself") (.word "kys")),
    .whole (.alt (.word "nazi") (.word "white power")),
    .whole (.alt (.word "child porn") (.word "csam"))]

/-- `FLAG_PATTERNS`. -/
def flagPatterns : List (Regex Char) :=
  [.whole (.alt (.word "hate") (.alt (.word "racist") (.word "slur"))),
    .whole (.alt (.word "threat") (.alt (.word "bomb") (.word "terror"))),
    .whole (.alt (.seq (.word "drug") (.seq (.opt (.word "s")) (.word " for sale"))) (.word "buy cocaine"))]

/-- The text that is searched. -/
def policyText (U : Unicode) (caption ocrText : String) : String := U.lower (caption ++ "\n" ++ ocrText)

/-- `RulesPolicyClassifier.classify`. -/
def classify (U : Unicode) (caption : String) (vision : VisionSignals) : Decision × LlmSignals :=
  let text := policyText U caption vision.ocrText
  if blockPatterns.any (·.search U.alphabet text.toList) then
    (.block, { label := "BLOCK", score := 97 / 100, rationale := "Matched hard policy block pattern" })
  else if flagPatterns.any (·.search U.alphabet text.toList) then
    (.flag, { label := "FLAG", score := 72 / 100, rationale := "Matched soft policy flag pattern" })
  else
    let risk := max vision.nsfwScore vision.violenceScore
    if 85 / 100 ≤ risk then
      (.block, { label := "BLOCK", score := min (99 / 100) (7 / 10 + risk * (25 / 100))
                 rationale := "High vision risk fused into block" })
    else if 45 / 100 ≤ risk then
      (.flag, { label := "FLAG", score := 55 / 100 + risk * (2 / 10)
                rationale := "Elevated vision risk needs human review" })
    else
      let conf : Rat := if 8 < (strip caption).length then 91 / 100 else 78 / 100
      if contains "uncertain" text || contains "maybe" text then
        (.flag, { label := "FLAG", score := 62 / 100, rationale := "Ambiguous language — route to human" })
      else (.allow, { label := "ALLOW", score := conf, rationale := "No policy hits; vision risk low" })

/-! ## The pipeline of both -/

/-- `classify`, and `route_decision` of what it suggests. -/
def classifyAndRoute (U : Unicode) (caption : String) (vision : VisionSignals) (t : ThresholdConfig) : Route :=
  let s := classify U caption vision
  routeDecision s.1 s.2.score vision.nsfwScore vision.violenceScore t

end CM
