import ContentModeration.Impl.Adapters

/-!
# The eval harness

`eval.harness`: the local vision stub, the rules and `route_decision` with the
default thresholds on a labelled set, and the report on what they predict. The
manifest is read as its list of samples. What is printed is left out. A figure that
is rounded to four digits stands for the float nearest to it.
-/

namespace CM

/-- An item of `manifest["samples"]`. -/
structure Sample where
  image : String
  caption : String
  label : String

/-- The options of the command line. -/
structure HarnessArgs where
  limit : Option Int := none
  minN : Int := 1

/-- `samples[: args.limit]`, unless the limit is refused. -/
def HarnessArgs.taken {α : Type} (args : HarnessArgs) (samples : List α) : Option (List α) :=
  match args.limit with
  | none => some samples
  | some limit => if limit < 1 then none else some (samples.take limit.toNat)

/-- What the loop collects: `y_true`, `y_pred` and `auto`. -/
structure Tally where
  yTrue : List String := []
  yPred : List String := []
  auto : Nat := 0

/-- What is predicted for an image and a caption. -/
def predict (U : Unicode) (pil : Pil) (imageBytes : List UInt8) (caption : String) : Route :=
  let v := analyze U pil imageBytes caption
  let s := classify U caption v
  routeDecision s.1 s.2.score v.nsfwScore v.violenceScore {}

/-- A turn of the loop; there is none if the image is missing. -/
def Tally.add (U : Unicode) (pil : Pil) (read : String → Option (List UInt8)) (tally : Tally) (sample : Sample) :
    Option Tally :=
  (read sample.image).map fun imageBytes =>
    let final := predict U pil imageBytes sample.caption
    { yTrue := tally.yTrue ++ [sample.label]
      yPred := tally.yPred ++ [final.decision.value]
      auto := if final.needsHumanReview then tally.auto else tally.auto + 1 }

/-! ## The report -/

/-- `_f1`, of floats. -/
def f1Score (precision recallRate : Rat) : Rat :=
  let total := asFloat (precision + recallRate)
  -- twice a float is a float
  if total = 0 then 0 else asFloat (asFloat (2 * precision * recallRate) / total)

structure ClassReport where
  precision : Rat
  recallRate : Rat
  f1 : Rat
  support : Nat
  deriving DecidableEq

/-- `per_class[label]`. -/
def classReport (yTrue yPred : List String) (label : String) : ClassReport :=
  let pairs := yTrue.zip yPred
  let tp := pairs.countP fun (a, b) => a = label ∧ b = label
  let fp := pairs.countP fun (a, b) => a ≠ label ∧ b = label
  let fn := pairs.countP fun (a, b) => a = label ∧ b ≠ label
  let precision := ratio tp (tp + fp)
  let recallRate := ratio tp (tp + fn)
  { precision := round4 precision, recallRate := round4 recallRate, f1 := round4 (f1Score precision recallRate)
    support := yTrue.countP (· = label) }

/-- `counts[x] = counts.get(x, 0) + 1`. -/
def countOne : List (String × Nat) → String → List (String × Nat)
  | [], x => [(x, 1)]
  | (y, n) :: counts, x => if y = x then (y, n + 1) :: counts else (y, n) :: countOne counts x

/-- `dict(Counter(xs))`. -/
def counter (xs : List String) : List (String × Nat) := xs.foldl countOne []

structure Report where
  n : Nat
  accuracy : Rat
  macroPrecision : Rat
  macroRecall : Rat
  macroF1 : Rat
  perClass : List (String × ClassReport)
  trueCounts : List (String × Nat)
  predCounts : List (String × Nat)
  pairs : List (String × String)
  autoResolveRate : Rat
  manualReviewReduction : Rat
  deriving DecidableEq

def evalLabels : List String := ["ALLOW", "FLAG", "BLOCK"]

/-- `sum(per_class[label][key] for label in labels) / len(labels)`. The average of three figures is not near
enough to a half of the last digit for the errors of floats to show in its rounding. -/
def macroAverage (perClass : List (String × ClassReport)) (key : ClassReport → Rat) : Rat :=
  (perClass.map fun (_, r) => key r).sum / perClass.length

/-- The report on the labels, the predictions and the number of those that need no review. -/
def report (yTrue yPred : List String) (auto : Nat) : Report :=
  let correct := (yTrue.zip yPred).countP fun (a, b) => a = b
  let perClass := evalLabels.map fun label => (label, classReport yTrue yPred label)
  { n := yTrue.length
    accuracy := round4 (ratio correct yTrue.length)
    macroPrecision := round4 (macroAverage perClass (·.precision))
    macroRecall := round4 (macroAverage perClass (·.recallRate))
    macroF1 := round4 (macroAverage perClass (·.f1))
    perClass := perClass
    trueCounts := counter yTrue
    predCounts := counter yPred
    pairs := yTrue.zip yPred
    autoResolveRate := round4 (ratio auto yTrue.length)
    manualReviewReduction := round4 (ratio auto yTrue.length) }

/-- `main`: the exit code, and the report that is written. `manifest` is the file, if there is one. -/
def harness (U : Unicode) (pil : Pil) (args : HarnessArgs) (manifest : Option (List Sample))
    (read : String → Option (List UInt8)) : Nat × Option Report :=
  match manifest with
  | none => (1, none)
  | some samples =>
    match args.taken samples with
    | none => (2, none)
    | some samples =>
      match samples.foldlM (Tally.add U pil read) {} with
      | none => (1, none)
      | some tally =>
        if tally.yTrue.length < args.minN then (1, none)
        else (0, some (report tally.yTrue tally.yPred tally.auto))

end CM
