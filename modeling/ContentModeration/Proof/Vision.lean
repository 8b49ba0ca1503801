import ContentModeration.Impl.Vision
import ContentModeration.Proof.OpenAi
import ContentModeration.Proof.Replay
import ContentModeration.Proof.Verdicts
import Mathlib.Tactic.IntervalCases

/-!
# Verdicts on what the cloud services report

With the rules classifier and the default thresholds the verdict is told by three bands: a score in the
block band blocks, one in the flag band flags, and below both only the text counts (`verdict_of_scores`).
For the cloud adapters the bands can be read off the reply: of Safe Search, VERY_LIKELY blocks, and POSSIBLE
and LIKELY flag (`gcpSignals_bands`); of Rekognition, the confidence of a label whose name has a cue does
(`awsTry_of_replied`). When the services cannot be used the verdict is that of the local stub. So it is for
every decision of a run (`cloud_verdict`).
-/

namespace CM

variable {U : Unicode} {P : Python} {caption : String} {vision : VisionSignals}

/-! ## Three bands -/

/-- The verdict of the rules on the text alone. -/
def textVerdict (U : Unicode) (caption ocrText : String) : Decision :=
  let text := policyText U caption ocrText
  if blockPatterns.any (·.search U.alphabet text.toList) then .block
  else if flagPatterns.any (·.search U.alphabet text.toList) then .flag
  else if ambiguous text || decide ((strip caption).length ≤ 8) then .flag
  else .allow

/-- The decision is that of the band: `high` blocks, `elevated` flags, and else the text decides. -/
def Rates (high elevated : Prop) (text decision : Decision) : Prop :=
  (high → decision = .block) ∧ (¬ high → elevated → decision = .flag) ∧ (¬ high → ¬ elevated → decision = text)

theorem Rates.congr {high high' elevated elevated' : Prop} {text decision : Decision}
    (h : Rates high elevated text decision) (hh : high ↔ high') (he : elevated ↔ elevated') :
    Rates high' elevated' text decision := by
  rwa [Rates, ← hh, ← he]

/-- The thresholds are the default ones. -/
def ThresholdConfig.Standard (t : ThresholdConfig) : Prop := t = { policyVersion := t.policyVersion }

theorem decision_of_text {version : String} (hn : vision.nsfwScore < 45 / 100)
    (hv : vision.violenceScore < 40 / 100) :
    (classifyAndRoute U caption vision { policyVersion := version }).decision =
    textVerdict U caption vision.ocrText := by
  have hrisk : max vision.nsfwScore vision.violenceScore < 45 / 100 := max_lt hn (by linarith)
  have hhigh : ¬ 85 / 100 ≤ max vision.nsfwScore vision.violenceScore := by linarith
  have hblock : ¬ (85 / 100 ≤ vision.nsfwScore ∨ 80 / 100 ≤ vision.violenceScore) := by
    rintro (h | h) <;> linarith
  have hflag : ¬ (45 / 100 ≤ vision.nsfwScore ∨ 40 / 100 ≤ vision.violenceScore) :=
    not_or.mpr ⟨not_le.mpr hn, not_le.mpr hv⟩
  simp only [classifyAndRoute, routeDecision, if_neg hblock, if_neg hflag, textVerdict]
  by_cases hb : blockPatterns.any (·.search U.alphabet (policyText U caption vision.ocrText).toList) = true
  · simp only [classify, if_pos hb]
    norm_num
  by_cases hf : flagPatterns.any (·.search U.alphabet (policyText U caption vision.ocrText).toList) = true
  · simp only [classify, if_neg hb, if_pos hf]
  by_cases ha : ambiguous (policyText U caption vision.ocrText) = true
  · have ha' := ha
    rw [ambiguous] at ha'
    simp only [classify, if_neg hb, if_neg hf, if_neg hhigh, if_neg (not_le.mpr hrisk), if_pos ha', ha, Bool.true_or,
      if_true]
  have hclean : Harmless U caption vision := ⟨not_matched_iff.mpr ⟨by simpa using hb, by simpa using hf⟩,
    by simpa using ha, hn, by linarith⟩
  obtain ⟨hallow, hscore⟩ := classify_harmless hclean
  simp only [hallow, hscore, allowConfidence, if_neg hb, if_neg hf, ha, Bool.false_or, decide_eq_true_eq]
  by_cases hlong : 8 < (strip caption).length
  · simp only [if_pos hlong, if_neg (not_le.mpr hlong)]
    norm_num
  · simp only [if_neg hlong, if_pos (not_lt.mp hlong)]
    norm_num

theorem verdict_of_scores {t : ThresholdConfig} (ht : t.Standard) (U : Unicode) (caption : String)
    (vision : VisionSignals) :
    Rates (85 / 100 ≤ vision.nsfwScore ∨ 80 / 100 ≤ vision.violenceScore)
      (45 / 100 ≤ vision.nsfwScore ∨ 40 / 100 ≤ vision.violenceScore) (textVerdict U caption vision.ocrText)
      (classifyAndRoute U caption vision t).decision := by
  rw [ht]
  refine ⟨fun h => ?_, fun hb h => ?_, fun _ hf => ?_⟩
  · simp only [classifyAndRoute, routeDecision, if_pos h]
    split <;> rfl
  · simp only [classifyAndRoute, routeDecision, if_neg hb, if_pos h]
  · obtain ⟨hn, hv⟩ := not_or.mp hf
    exact decision_of_text (not_le.mp hn) (not_le.mp hv)

/-! ## Safe Search -/

/-- The place of a name among the likelihoods. -/
def likelihoodNameLevel (name : String) : Nat :=
  if name = "VERY_UNLIKELY" then 1
  else if name = "UNLIKELY" then 2
  else if name = "POSSIBLE" then 3
  else if name = "LIKELY" then 4
  else if name = "VERY_LIKELY" then 5
  else 0

/-- The likelihood from 0 (UNKNOWN) to 5 (VERY_LIKELY); what is no likelihood counts as unknown. -/
def Likelihood.level (P : Python) : Likelihood → Nat
  | .none => 0
  | .enum value _ | .int value => if 0 ≤ value ∧ value ≤ 5 then value.toNat else 0
  | .str s => likelihoodNameLevel (afterLastDot (P.upper s))

theorem Likelihood.level_le (P : Python) (v : Likelihood) : v.level P ≤ 5 := by
  cases v with
  | none => exact Nat.zero_le 5
  | enum value _ | int value =>
    simp only [level]
    split <;> omega
  | str s =>
    simp only [level, likelihoodNameLevel]
    split_ifs <;> omega

theorem likelihoodScore_of_not {n : Int} (h : ¬ (0 ≤ n ∧ n ≤ 5)) : likelihoodScore n = 0 := by
  unfold likelihoodScore
  split <;> first | omega | rfl

theorem likelihoodScore_of_value (n : Int) :
    likelihoodScore n = likelihoodScore (if 0 ≤ n ∧ n ≤ 5 then n.toNat else 0 : Nat) := by
  by_cases h : 0 ≤ n ∧ n ≤ 5
  · rw [if_pos h, Int.toNat_of_nonneg h.1]
  · rw [if_neg h, likelihoodScore_of_not h]
    rfl

theorem likelihoodNameScore_eq (name : String) :
    likelihoodNameScore name = likelihoodScore (likelihoodNameLevel name) := by
  simp only [likelihoodNameScore, likelihoodNameLevel]
  split_ifs <;> rfl

/-- Whatever stands for a likelihood, its score is that of its level. -/
theorem gcpLikelihoodScore_eq (P : Python) (v : Likelihood) :
    gcpLikelihoodScore P v = likelihoodScore (v.level P) := by
  cases v with
  | none => rfl
  | enum value _ | int value => exact likelihoodScore_of_value value
  | str s => exact likelihoodNameScore_eq _

theorem le_round4_mono {t a b : Rat} (h : a ≤ b) (ha : t ≤ round4 a) : t ≤ round4 b := by
  have hpos : (0 : Rat) < 10000 := by norm_num
  refine le_round4_iff.mpr ?_
  rcases le_round4_iff.mp ha with hlt | ⟨heq, heven⟩
  · exact .inl (hlt.trans_le (mul_le_mul_of_nonneg_right h hpos.le))
  · rcases h.eq_or_lt with rfl | hlt
    · exact .inr ⟨heq, heven⟩
    · exact .inl (heq ▸ mul_lt_mul_of_pos_right hlt hpos)

theorem le_round4_max {t a b : Rat} : t ≤ round4 (max a b) ↔ t ≤ round4 a ∨ t ≤ round4 b := by
  refine ⟨fun h => ?_, fun h => h.elim (le_round4_mono (le_max_left a b)) (le_round4_mono (le_max_right a b))⟩
  rcases max_choice a b with hab | hab
  · exact .inl (hab ▸ h)
  · exact .inr (hab ▸ h)

/-- The bands of nudity and of violence meet the scores of the likelihoods at the same levels. -/
theorem likelihood_bands {n : Nat} (h : n ≤ 5) :
    (85 / 100 ≤ round4 (likelihoodScore n) ↔ n = 5) ∧ (80 / 100 ≤ round4 (likelihoodScore n) ↔ n = 5) ∧
      (45 / 100 ≤ round4 (likelihoodScore n) ↔ 3 ≤ n) ∧ (40 / 100 ≤ round4 (likelihoodScore n) ↔ 3 ≤ n) := by
  interval_cases n <;> decide +kernel

/-- One of the likelihoods that count is at least `n`. -/
def SafeSearch.Reaches (P : Python) (safe : SafeSearch) (n : Nat) : Prop :=
  n ≤ safe.adult.level P ∨ n ≤ safe.racy.level P ∨ n ≤ safe.violence.level P

theorem gcpSignals_bands (P : Python) (response : AnnotateResponse) :
    ((85 / 100 ≤ (gcpSignals P response).nsfwScore ∨ 80 / 100 ≤ (gcpSignals P response).violenceScore) ↔
      response.safe.Reaches P 5) ∧
    ((45 / 100 ≤ (gcpSignals P response).nsfwScore ∨ 40 / 100 ≤ (gcpSignals P response).violenceScore) ↔
      response.safe.Reaches P 3) := by
  obtain ⟨ha, -, ha', -⟩ := likelihood_bands (response.safe.adult.level_le P)
  obtain ⟨hr, -, hr', -⟩ := likelihood_bands (response.safe.racy.level_le P)
  obtain ⟨-, hv, -, hv'⟩ := likelihood_bands (response.safe.violence.level_le P)
  have top (v : Likelihood) : v.level P = 5 ↔ 5 ≤ v.level P :=
    ⟨fun h => h.ge, fun h => Nat.le_antisymm (v.level_le P) h⟩
  simp only [gcpSignals, gcpLikelihoodScore_eq, le_round4_max, ha, hr, hv, ha', hr', hv', top, SafeSearch.Reaches,
    or_assoc, and_self]

/-! ## Rekognition -/

/-- A label that has a cue of `terms` in its name, with a confidence that reaches the threshold. -/
def ModerationLabel.Cues (U : Unicode) (terms : List String) (t : Rat) (item : ModerationLabel) : Prop :=
  ∃ name conf, item.name = some name ∧ item.confidence = some conf ∧ anyIn terms (U.lower name) = true ∧
    t ≤ round4 (asFloat (conf / 100))

theorem keyed_ok {α : Type} {key : String} {o : Option α} {a : α} : keyed key o = .ok a ↔ o = some a := by
  cases o <;> simp [keyed]

theorem awsScore_ok {item : ModerationLabel} {scores scores' : Rat × Rat}
    (h : awsScore U scores item = .ok scores') (t : Rat) :
    (t ≤ round4 scores'.1 ↔ t ≤ round4 scores.1 ∨ item.Cues U awsNsfwTerms t) ∧
      (t ≤ round4 scores'.2 ↔ t ≤ round4 scores.2 ∨ item.Cues U awsViolenceTerms t) := by
  obtain ⟨_ | name, _ | conf⟩ := item
  · cases h
  · cases h
  · cases h
  · obtain rfl : _ = scores' := Except.ok.inj h
    have cues (terms : List String) : (ModerationLabel.mk (some name) (some conf)).Cues U terms t ↔
        anyIn terms (U.lower name) = true ∧ t ≤ round4 (asFloat (conf / 100)) := by
      simp [ModerationLabel.Cues]
    have score (terms : List String) (a : Rat) :
        t ≤ round4 (if anyIn terms (U.lower name) then max a (asFloat (conf / 100)) else a) ↔
          t ≤ round4 a ∨ anyIn terms (U.lower name) = true ∧ t ≤ round4 (asFloat (conf / 100)) := by
      by_cases hcue : anyIn terms (U.lower name) = true
      · rw [if_pos hcue, le_round4_max]
        simp only [hcue, true_and]
      · rw [if_neg hcue]
        simp only [hcue, Bool.false_eq_true, false_and, or_false]
    exact ⟨(score ..).trans (or_congr_right (cues _).symm), (score ..).trans (or_congr_right (cues _).symm)⟩

/-- The scores of a reply: each label adds what its confidence reaches. -/
theorem awsScores_ok {found : List ModerationLabel} {scores scores' : Rat × Rat}
    (h : found.foldlM (awsScore U) scores = .ok scores') (t : Rat) :
    (t ≤ round4 scores'.1 ↔ t ≤ round4 scores.1 ∨ ∃ item ∈ found, item.Cues U awsNsfwTerms t) ∧
      (t ≤ round4 scores'.2 ↔ t ≤ round4 scores.2 ∨ ∃ item ∈ found, item.Cues U awsViolenceTerms t) := by
  induction found generalizing scores with
  | nil =>
    obtain rfl : scores = scores' := Except.ok.inj h
    simp
  | cons item found ih =>
    rw [List.foldlM_cons] at h
    cases hitem : awsScore U scores item with
    | error x =>
      rw [hitem] at h
      cases h
    | ok scores₁ =>
      rw [hitem] at h
      obtain ⟨hn, hv⟩ := ih h
      obtain ⟨hn₁, hv₁⟩ := awsScore_ok hitem t
      simp only [hn, hn₁, hv, hv₁, or_assoc, List.exists_mem_cons_iff, and_self]

/-- Name and confidence are there. -/
def ModerationLabel.Full (item : ModerationLabel) : Prop := item.name.isSome ∧ item.confidence.isSome

theorem awsScores_total {found : List ModerationLabel} (h : ∀ item ∈ found, item.Full) (scores : Rat × Rat) :
    ∃ scores', found.foldlM (awsScore U) scores = .ok scores' := by
  induction found generalizing scores with
  | nil => exact ⟨scores, rfl⟩
  | cons item found ih =>
    obtain ⟨hitem, hfound⟩ := List.forall_mem_cons.mp h
    obtain ⟨_ | name, _ | conf⟩ := item
    · cases hitem.1
    · cases hitem.1
    · cases hitem.2
    · exact ih hfound _

/-- The texts of the lines. -/
def lineTexts (texts : List TextDetection) : List String :=
  texts.filterMap fun d => if d.type = some "LINE" then d.detectedText else none

/-- The service has answered both requests, and nothing that the adapter reads is missing. -/
structure RekognitionReplied (client : Except Exn Rekognition) (imageBytes : List UInt8)
    (found : List ModerationLabel) (texts : List TextDetection) : Prop where
  replied : ∃ service labels lines, client = .ok service ∧ service.detectModerationLabels imageBytes 50 = .ok labels ∧
    labels.getD [] = found ∧ service.detectText imageBytes = .ok lines ∧ lines.getD [] = texts
  full : ∀ item ∈ found, item.Full
  lines : ∀ d ∈ texts, d.type = some "LINE" → d.detectedText.isSome

theorem mapM_cons_ok {α β : Type} {f : α → Except Exn β} {a : α} {l : List α} {b : β} {bs : List β} (h : f a = .ok b)
    (hl : l.mapM f = .ok bs) : (a :: l).mapM f = .ok (b :: bs) := by
  rw [List.mapM_cons]
  exact bind_ok_iff.mpr ⟨b, h, bind_ok_iff.mpr ⟨bs, hl, rfl⟩⟩

theorem ok_of_mapM {α β : Type} {f : α → Except Exn β} {l : List α} {bs : List β} (h : l.mapM f = .ok bs) :
    ∀ a ∈ l, ∃ b, f a = .ok b := by
  induction l generalizing bs with
  | nil => exact List.forall_mem_nil _
  | cons a l ih =>
    rw [List.mapM_cons] at h
    obtain ⟨b, hb, h⟩ := bind_ok_iff.mp h
    obtain ⟨bs', hl, -⟩ := bind_ok_iff.mp h
    exact List.forall_mem_cons.mpr ⟨⟨b, hb⟩, ih hl⟩

theorem names_ok {found : List ModerationLabel} (h : ∀ item ∈ found, item.Full) :
    ∃ names, (found.mapM fun x => keyed "Name" x.name) = .ok names := by
  induction found with
  | nil => exact ⟨[], rfl⟩
  | cons item found ih =>
    obtain ⟨hitem, hfound⟩ := List.forall_mem_cons.mp h
    obtain ⟨names, hnames⟩ := ih hfound
    obtain ⟨name, hname⟩ := Option.isSome_iff_exists.mp hitem.1
    exact ⟨name :: names, mapM_cons_ok (keyed_ok.mpr hname) hnames⟩

theorem lineTexts_ok {texts : List TextDetection} (h : ∀ d ∈ texts, d.type = some "LINE" → d.detectedText.isSome) :
    ∃ lines, texts.mapM lineText = .ok lines ∧ lines.filterMap id = lineTexts texts := by
  induction texts with
  | nil => exact ⟨[], rfl, rfl⟩
  | cons d texts ih =>
    obtain ⟨hd, htexts⟩ := List.forall_mem_cons.mp h
    obtain ⟨lines, hlines, htext⟩ := ih htexts
    by_cases hline : d.type = some "LINE"
    · obtain ⟨text, ht⟩ := Option.isSome_iff_exists.mp (hd hline)
      have hok : lineText d = .ok (some text) := by
        rw [lineText, if_pos hline, ht]
        rfl
      refine ⟨some text :: lines, mapM_cons_ok hok hlines, ?_⟩
      simp only [lineTexts, List.filterMap_cons, id, if_pos hline, ht]
      exact congrArg _ htext
    · have hok : lineText d = .ok none := by rw [lineText, if_neg hline]
      refine ⟨none :: lines, mapM_cons_ok hok hlines, ?_⟩
      simp only [lineTexts, List.filterMap_cons, id, if_neg hline]
      exact htext

/-- One of the labels has a cue of nudity or of violence with a confidence that reaches the threshold. -/
def AnyCue (U : Unicode) (found : List ModerationLabel) (nsfw violence : Rat) : Prop :=
  ∃ item ∈ found, item.Cues U awsNsfwTerms nsfw ∨ item.Cues U awsViolenceTerms violence

theorem awsTry_of_replied {client : Except Exn Rekognition} {imageBytes : List UInt8} {found : List ModerationLabel}
    {texts : List TextDetection} (h : RekognitionReplied client imageBytes found texts) :
    ∃ signals, awsTry U client imageBytes = .ok signals ∧
      signals.ocrText = takeStr 2000 (" ".intercalate (lineTexts texts)) ∧
      ∀ nsfw violence, 0 < nsfw → 0 < violence →
        (nsfw ≤ signals.nsfwScore ∨ violence ≤ signals.violenceScore ↔ AnyCue U found nsfw violence) := by
  obtain ⟨service, labels, lines, rfl, hlabels, rfl, hlines, rfl⟩ := h.replied
  obtain ⟨names, hnames⟩ := names_ok h.full
  obtain ⟨scores, hscores⟩ := awsScores_total (U := U) h.full (0, 0)
  obtain ⟨rows, hrows, hocr⟩ := lineTexts_ok h.lines
  refine ⟨{
    labels := if names = [] then ["rekognition_clean"] else names
    nsfwScore := round4 scores.1
    violenceScore := round4 scores.2
    ocrText := takeStr 2000 (" ".intercalate (rows.filterMap id))
    provider := "aws"
    modelVersion := "rekognition-moderation-v1" }, ?_, congrArg (fun l => takeStr 2000 (" ".intercalate l)) hocr,
    fun nsfw violence hn hv => ?_⟩
  · simp only [awsTry, hlabels, hnames, hscores, hlines, hrows, bind, Except.bind, pure, Except.pure]
  · have zero : round4 0 = 0 := by decide +kernel
    have low {t : Rat} (ht : 0 < t) : ¬ t ≤ round4 0 := by rwa [zero, not_le]
    rw [(awsScores_ok hscores nsfw).1, (awsScores_ok hscores violence).2]
    simp only [low hn, low hv, false_or, AnyCue, and_or_left, exists_or]

theorem full_of_scores {found : List ModerationLabel} {scores scores' : Rat × Rat}
    (h : found.foldlM (awsScore U) scores = .ok scores') : ∀ item ∈ found, item.Full := by
  induction found generalizing scores with
  | nil => exact List.forall_mem_nil _
  | cons item found ih =>
    rw [List.foldlM_cons] at h
    obtain ⟨scores₁, hitem, hrest⟩ := bind_ok_iff.mp h
    refine List.forall_mem_cons.mpr ⟨?_, ih hrest⟩
    obtain ⟨_ | name, _ | conf⟩ := item
    · cases hitem
    · cases hitem
    · cases hitem
    · exact ⟨rfl, rfl⟩

theorem replied_of_awsTry {client : Except Exn Rekognition} {imageBytes : List UInt8} {signals : VisionSignals}
    (h : awsTry U client imageBytes = .ok signals) :
    ∃ found texts, RekognitionReplied client imageBytes found texts := by
  obtain ⟨service, hclient, h⟩ := bind_ok_iff.mp h
  obtain ⟨labels, hlabels, h⟩ := bind_ok_iff.mp h
  obtain ⟨names, -, h⟩ := bind_ok_iff.mp h
  obtain ⟨scores, hscores, h⟩ := bind_ok_iff.mp h
  obtain ⟨lines, hlines, h⟩ := bind_ok_iff.mp h
  obtain ⟨rows, hrows, -⟩ := bind_ok_iff.mp h
  refine ⟨_, _, ⟨service, labels, lines, hclient, hlabels, rfl, hlines, rfl⟩, full_of_scores hscores, ?_⟩
  intro d hd hline
  obtain ⟨row, hrow⟩ := ok_of_mapM hrows d hd
  rw [lineText, if_pos hline] at hrow
  cases htext : d.detectedText with
  | none =>
    rw [htext] at hrow
    cases hrow
  | some text => rfl

/-! ## The verdict -/

/-- Safe Search has answered, with no error. -/
def SafeSearchReplied (client : Except Exn ImageAnnotator) (imageBytes : List UInt8) (response : AnnotateResponse) :
    Prop :=
  (∃ service, client = .ok service ∧ service.annotateImage imageBytes = .ok response) ∧ response.errorMessage = ""

theorem gcpTry_ok {client : Except Exn ImageAnnotator} {imageBytes : List UInt8} {signals : VisionSignals} :
    gcpTry P client imageBytes = .ok signals ↔
      ∃ response, SafeSearchReplied client imageBytes response ∧ signals = gcpSignals P response := by
  constructor
  · intro h
    obtain ⟨service, hclient, h⟩ := bind_ok_iff.mp h
    obtain ⟨response, hresponse, h⟩ := bind_ok_iff.mp h
    by_cases hmessage : response.errorMessage = ""
    · simp only [hmessage, ne_eq, not_true_eq_false, if_false] at h
      exact ⟨response, ⟨⟨service, hclient, hresponse⟩, hmessage⟩, (Except.ok.inj h).symm⟩
    · simp only [ne_eq, hmessage, not_false_eq_true, if_true] at h
      cases h
  · rintro ⟨response, ⟨⟨service, rfl, hresponse⟩, hmessage⟩, rfl⟩
    refine bind_ok_iff.mpr ⟨service, rfl, bind_ok_iff.mpr ⟨response, hresponse, ?_⟩⟩
    simp only [hmessage, ne_eq, not_true_eq_false, if_false]
    rfl

/-- What the services, or without them the stub, make of an image and a caption. -/
structure Weighed (U : Unicode) (P : Python) (pil : Pil) (vendors : Vendors) (provider : VisionProvider)
    (imageBytes : List UInt8) (caption : String) (decision : Decision) : Prop where
  rekognition : ∀ found texts, provider = .aws → RekognitionReplied vendors.rekognition imageBytes found texts →
    Rates (AnyCue U found (85 / 100) (80 / 100)) (AnyCue U found (45 / 100) (40 / 100))
      (textVerdict U caption (takeStr 2000 (" ".intercalate (lineTexts texts)))) decision
  safeSearch : ∀ response, provider = .gcp → SafeSearchReplied vendors.annotator imageBytes response →
    Rates (response.safe.Reaches P 5) (response.safe.Reaches P 3)
      (textVerdict U caption (takeStr 2000 (response.texts.headD ""))) decision
  unused : (provider = .aws → ∀ found texts, ¬ RekognitionReplied vendors.rekognition imageBytes found texts) →
    (provider = .gcp → ∀ response, ¬ SafeSearchReplied vendors.annotator imageBytes response) →
    decision = (classifyAndRoute U caption (analyze U pil imageBytes caption) {}).decision

theorem weighed_of_analyze (U : Unicode) (P : Python) (pil : Pil) (vendors : Vendors) (provider : VisionProvider)
    (imageBytes : List UInt8) (caption : String) {t : ThresholdConfig} (ht : t.Standard) :
    Weighed U P pil vendors provider imageBytes caption
      (classifyAndRoute U caption (visionAnalyze U P pil vendors provider imageBytes caption) t).decision where
  rekognition found texts hprovider hreplied := by
    obtain ⟨signals, hok, hocr, hbands⟩ := awsTry_of_replied (U := U) hreplied
    have hv : visionAnalyze U P pil vendors provider imageBytes caption = signals := by
      simp only [visionAnalyze, hprovider, hok]
    rw [hv, ← hocr]
    exact (verdict_of_scores ht U caption signals).congr (hbands (85 / 100) (80 / 100) (by norm_num) (by norm_num))
      (hbands (45 / 100) (40 / 100) (by norm_num) (by norm_num))
  safeSearch response hprovider hreplied := by
    have hv : visionAnalyze U P pil vendors provider imageBytes caption = gcpSignals P response := by
      simp only [visionAnalyze, hprovider, gcpTry_ok.mpr ⟨response, hreplied, rfl⟩]
    have hocr : (gcpSignals P response).ocrText = takeStr 2000 (response.texts.headD "") := rfl
    rw [hv, ← hocr]
    exact (verdict_of_scores ht U caption (gcpSignals P response)).congr (gcpSignals_bands P response).1
      (gcpSignals_bands P response).2
  unused haws hgcp := by
    have hv : visionAnalyze U P pil vendors provider imageBytes caption = analyze U pil imageBytes caption := by
      cases provider with
      | aws =>
        cases htry : awsTry U vendors.rekognition imageBytes with
        | ok signals =>
          obtain ⟨found, texts, hreplied⟩ := replied_of_awsTry htry
          exact absurd hreplied (haws rfl found texts)
        | error x => simp only [visionAnalyze, htry]
      | gcp =>
        cases htry : gcpTry P vendors.annotator imageBytes with
        | ok signals =>
          obtain ⟨response, hreplied, -⟩ := gcpTry_ok.mp htry
          exact absurd hreplied (hgcp rfl response)
        | error x => simp only [visionAnalyze, htry]
      | «local» => rfl
    rw [hv, ht]
    simp only [classifyAndRoute, routeDecision]

/-! ## Runs -/

variable {D : Deployment} {now : Time} {h : List (service D).Step} {c : (service D).Config} {pil : Pil}
  {provider : VisionProvider}

/-- The workers of the run use the adapter of `provider`, whatever its services answer each time, the rules and
the default thresholds. -/
structure UsesRules (U : Unicode) (P : Python) (pil : Pil) (provider : VisionProvider) (h : List (service D).Step) :
    Prop where
  vision : ∀ j imageBytes caption v, Pool.Happened h j ⟨.analyze imageBytes caption, .ok v⟩ →
    ∃ vendors, v = visionAnalyze U P pil vendors provider imageBytes caption
  rules : ∀ j caption v a, Pool.Happened h j ⟨.classify caption v, .ok a⟩ → a = classify U caption v
  standard : ∀ st ∈ h, ∀ j e settings, st.action = .start j e → e.workerSettings? = some settings →
    settings.thresholds.Standard

/-- Every decision of a run is that of the rules on the upload whose digest it carries. -/
theorem rules_of_run (hr : Pool.Run FromQueue (boot D now) h c) (hh : Honest h) (hu : UsesRules U P pil provider h)
    {d : DecisionRow} (hd : d ∈ c.world.db.decisions) :
    ∃ i api req, (∃ t, c.threads i = some ⟨.acceptImage api req, t⟩) ∧
      (d.envelope.contentId, i) ∈ c.world.drawn ∧ d.envelope.contentHash = digestOf D api req ∧
      (∃ j, Pool.Happened h j ⟨.analyze req.body (strip req.caption), .ok d.envelope.vision⟩) ∧
      (∃ vendors, d.envelope.vision = visionAnalyze U P pil vendors provider req.body (strip req.caption)) ∧
      ∃ t : ThresholdConfig, t.Standard ∧
        d.envelope.decision = (classifyAndRoute U (strip req.caption) d.envelope.vision t).decision ∧
        d.envelope.needsHumanReview = (classifyAndRoute U
          (strip req.caption) d.envelope.vision t).needsHumanReview := by
  obtain ⟨i, api, req, hcall, hdrawn, hhash, j, e, settings, contentType, notes, job, vision, suggested,
    llm, latencyMs,
    ⟨t, ht⟩, he, -, hcaption, hanalyze, hclassify, hbuild⟩ := judged_of_run hr hh hd
  obtain ⟨st, hst, hstart⟩ := hr.start_mem (fun _ => rfl) ht
  have hstandard := hu.standard st hst j e settings hstart he
  have hrules := hu.rules j _ _ _ hclassify
  obtain ⟨-, -, rfl, -⟩ := routeOf_build hbuild
  obtain ⟨e', hbuild', hdecision, hreview⟩ := buildEnvelope_classify U settings job d.envelope.vision latencyMs
  rw [hcaption, ← hrules] at hbuild'
  rw [hbuild] at hbuild'
  obtain rfl := Except.ok.inj hbuild'
  rw [hcaption] at hdecision hreview
  refine ⟨i, api, req, hcall, hdrawn, hhash, ⟨j, hanalyze⟩, hu.vision j _ _ _ hanalyze, _, hstandard, hdecision, ?_⟩
  rw [hreview, Bool.or_eq_left_iff_imp]
  exact fun hflag => review_of_flag (of_decide_eq_true hflag)

/-- Every decision of a run is the one that the bands and the text tell of the upload whose digest it carries, for
what the services have answered to its image. -/
theorem cloud_verdict (hr : Pool.Run FromQueue (boot D now) h c) (hh : Honest h) (hu : UsesRules U P pil provider h)
    {d : DecisionRow} (hd : d ∈ c.world.db.decisions) :
    ∃ i api req, (∃ t, c.threads i = some ⟨.acceptImage api req, t⟩) ∧
      (d.envelope.contentId, i) ∈ c.world.drawn ∧ d.envelope.contentHash = digestOf D api req ∧
      (∃ j, Pool.Happened h j ⟨.analyze req.body (strip req.caption), .ok d.envelope.vision⟩) ∧
      (∃ vendors, d.envelope.vision = visionAnalyze U P pil vendors provider req.body (strip req.caption)) ∧
      ∀ vendors, d.envelope.vision = visionAnalyze U P pil vendors provider req.body (strip req.caption) →
        Weighed U P pil vendors provider req.body (strip req.caption) d.envelope.decision := by
  obtain ⟨i, api, req, hcall, hdrawn, hhash, hanalyze, hvision, t, ht, hdecision, -⟩ := rules_of_run hr hh hu hd
  refine ⟨i, api, req, hcall, hdrawn, hhash, hanalyze, hvision, fun vendors hvendors => ?_⟩
  rw [hdecision, hvendors]
  exact weighed_of_analyze U P pil vendors provider req.body (strip req.caption) ht

/-- Safe Search finds every image to be likely violent. -/
def sampleVendors : Vendors where
  rekognition := .error (.error "Unable to locate credentials")
  annotator := .ok ⟨fun _ => .ok { safe := ⟨.int 1, .none, .enum 4 "LIKELY", .str "Likelihood.UNLIKELY", .int 0⟩ }⟩

def ratedVision (provider : VisionProvider) : VisionSignals :=
  visionAnalyze .ascii samplePython samplePil sampleVendors provider sampleRequest.body ""

/-- The requests of a delivery of the message 0, with the answers of the adapter and of the rules. -/
def ratedSample (provider : VisionProvider) : Pick :=
  { flagSample with
    vision := ratedVision provider
    suggested := (classify .ascii "" (ratedVision provider)).1
    llm := (classify .ascii "" (ratedVision provider)).2 }

/-- The sample is ingested and decided on. -/
def ruledSample (D : Deployment) (provider : VisionProvider) : List (service D).Action :=
  ingestSample D 0 1 2 ++ .step 0 {} :: .start 1 (.pollSqs {} 1) :: List.replicate 19 (.step 1 (ratedSample provider))

/-- The step is as the models of the sample have it. -/
def usesRules? (provider : VisionProvider) (st : (service D).Step) : Bool :=
  match st.action, st.request with
  | .step _ p, some (_, .analyze imageBytes caption) =>
    decide (Pick.vision p = visionAnalyze .ascii samplePython samplePil sampleVendors provider imageBytes caption)
  | .step _ p, some (_, .classify caption v) => decide ((Pick.suggested p, Pick.llm p) = classify .ascii caption v)
  | .start _ e, _ => (Entry.workerSettings? e).all fun settings =>
      decide (settings.thresholds = { policyVersion := settings.thresholds.policyVersion })
  | _, _ => true

theorem usesRules_of_check (hc : h.all (usesRules? provider) = true) :
    UsesRules .ascii samplePython samplePil provider h where
  vision j imageBytes caption v hx := by
    obtain ⟨⟨before, action, after⟩, hm, p, e, k, w, rfl, hat, hexec⟩ := hx
    have hst := List.all_eq_true.mp hc _ hm
    have hexec : some (World.answer before.world p (Pick.vision p) before.world) = some (.ok v, w) := hexec
    obtain ⟨hans, -⟩ := World.answer_ok (Option.some.inj hexec)
    rw [usesRules?, Pool.request_of_at hat] at hst
    exact ⟨sampleVendors, hans ▸ of_decide_eq_true hst⟩
  rules j caption v a hx := by
    obtain ⟨⟨before, action, after⟩, hm, p, e, k, w, rfl, hat, hexec⟩ := hx
    have hst := List.all_eq_true.mp hc _ hm
    have hexec : some (World.answer before.world p (Pick.suggested p, Pick.llm p) before.world) =
      some (.ok a, w) := hexec
    obtain ⟨hans, -⟩ := World.answer_ok (Option.some.inj hexec)
    rw [usesRules?, Pool.request_of_at hat] at hst
    exact hans ▸ of_decide_eq_true hst
  standard st hm j e settings hact he := by
    obtain ⟨before, action, after⟩ := st
    obtain rfl : action = .start j e := hact
    have hst := List.all_eq_true.mp hc _ hm
    have hst : (Entry.workerSettings? e).all (fun settings =>
        decide (settings.thresholds = { policyVersion := settings.thresholds.policyVersion })) = true := hst
    rw [he, Option.all_some] at hst
    have hst : settings.thresholds = { policyVersion := settings.thresholds.policyVersion } := of_decide_eq_true hst
    exact hst

/-- The run is made and decided on, whether Safe Search or the stub is used. -/
theorem exists_ruled (hp : provider = .gcp ∨ provider = .local) :
    ∃ h c, Pool.Run FromQueue (boot (sample .atomic) 0) h c ∧ Honest h ∧
      UsesRules .ascii samplePython samplePil provider h ∧
      ∃ d ∈ c.world.db.decisions, d.envelope.decision = .flag := by
  have hrun : (Pool.recordIf (fun _ => polled?) (ruledSample (sample .atomic) provider) []
      (boot (sample .atomic) 0)).any (fun x => honest? x.1 && x.1.all (usesRules? provider) &&
        x.2.world.db.decisions.any fun d => d.envelope.decision = .flag) = true := by
    rcases hp with rfl | rfl <;> decide +kernel
  obtain ⟨⟨h, c⟩, hx, hrun⟩ := (Option.any_eq_true _ _).mp hrun
  obtain ⟨hmodels, hflag⟩ := Bool.and_eq_true_iff.mp hrun
  obtain ⟨hhonest, hrules⟩ := Bool.and_eq_true_iff.mp hmodels
  obtain ⟨d, hd, hflag⟩ := List.any_eq_true.mp hflag
  exact ⟨h, c, Pool.Run.nil.recordIf fromQueue_of_check hx, honest_of_check hhonest, usesRules_of_check hrules, d, hd,
    of_decide_eq_true hflag⟩

theorem cloud_verdict_sample : ∃ h c, Pool.Run FromQueue (boot (sample .atomic) 0) h c ∧
    ∃ d ∈ c.world.db.decisions, d.envelope.decision = .flag ∧ ∃ (req : IngestRequest) (vendors : Vendors),
      Weighed .ascii samplePython samplePil vendors .gcp req.body (strip req.caption) d.envelope.decision := by
  obtain ⟨h, c, hr, hh, hu, d, hd, hflag⟩ := exists_ruled (.inl rfl)
  obtain ⟨i, api, req, -, -, -, -, ⟨vendors, hvendors⟩, hall⟩ := cloud_verdict hr hh hu hd
  exact ⟨h, c, hr, d, hd, hflag, req, vendors, hall vendors hvendors⟩

end CM
