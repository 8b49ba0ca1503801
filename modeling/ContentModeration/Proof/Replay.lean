import ContentModeration.Proof.Classification
import ContentModeration.Proof.OpenAi
import ContentModeration.Proof.Requests

/-!
# Replaying a decision from its envelope

`process_job` routes by the score of the classifier and records the score rounded to
four digits. Routing compares the score with one threshold at most (`decisive`), so the
record gives the same decision if and only if the score and its rounding are on the same
side of that threshold (`replays_iff`). The rounding reaches a threshold exactly if the
score does, or falls short of the threshold's own rounding up by at most half a digit
(`RoundsTo`).
-/

namespace CM

/-! ## Routing compares with one threshold -/

/-- The threshold that the confidence is compared with. -/
def decisive (t : ThresholdConfig) (suggested : Decision) (nsfwScore violenceScore : Rat) : Option Rat :=
  if t.nsfwBlock ≤ nsfwScore ∨ t.violenceBlock ≤ violenceScore then some t.autoBlock
  else if t.nsfwFlag ≤ nsfwScore ∨ t.violenceFlag ≤ violenceScore then none
  else match suggested with
    | .block => some t.autoBlock
    | .allow => some t.autoAllow
    | .flag => none

/-- Two confidences are on the same side of the threshold that matters. -/
def SameSide (θ : Option Rat) (confidence confidence' : Rat) : Prop :=
  ∀ t ∈ θ, t ≤ confidence ↔ t ≤ confidence'

/-- Two confidences lead to the same decision and review if and only if they are on the same
side of the threshold. -/
theorem routeDecision_eq_iff {suggested : Decision} {confidence confidence' nsfw violence : Rat}
    {t : ThresholdConfig} :
    let r := routeDecision suggested confidence nsfw violence t
    let r' := routeDecision suggested confidence' nsfw violence t
    r.decision = r'.decision ∧ r.needsHumanReview = r'.needsHumanReview ↔
      SameSide (decisive t suggested nsfw violence) confidence confidence' := by
  unfold routeDecision decisive SameSide
  split
  · by_cases h : t.autoBlock ≤ confidence <;> by_cases h' : t.autoBlock ≤ confidence' <;> simp [h, h']
  · split
    · simp
    · cases suggested with
      | allow => by_cases h : t.autoAllow ≤ confidence <;> by_cases h' : t.autoAllow ≤ confidence' <;> simp [h, h']
      | flag => simp
      | block => by_cases h : t.autoBlock ≤ confidence <;> by_cases h' : t.autoBlock ≤ confidence' <;> simp [h, h']

/-- A content that is to be flagged goes to a human. -/
theorem review_of_flag {suggested : Decision} {confidence nsfw violence : Rat} {t : ThresholdConfig}
    (h : (routeDecision suggested confidence nsfw violence t).decision = .flag) :
    (routeDecision suggested confidence nsfw violence t).needsHumanReview = true := by
  have hr := routeDecision_cases suggested confidence nsfw violence t
  simpa [h] using hr

/-! ## The rounded score -/

/-- The score, rounded to four digits, is at least the threshold: it is more than half a
digit below the next number of four digits, or that much below it and the last digit is even. -/
def RoundsTo (threshold score : Rat) : Prop :=
  let m := ⌈threshold * 10000⌉
  m - 1 / 2 < score * 10000 ∨ score * 10000 = m - 1 / 2 ∧ m % 2 = 0

theorem le_round4_iff {threshold score : Rat} : threshold ≤ round4 score ↔ RoundsTo threshold score := by
  have hpos : (0 : Rat) < 10000 := by norm_num
  rw [round4_eq, le_div_iff₀ hpos, ← Int.ceil_le]
  exact le_roundHalfEven_iff

/-! ## The models' answers -/

/-- What a classifier answers: its signals are labelled with what it suggests. -/
structure Suggestion where
  suggested : Decision
  llm : LlmSignals
  label : llm.label = suggested.value

theorem classify_label (U : Unicode) (caption : String) (vision : VisionSignals) :
    (classify U caption vision).2.label = (classify U caption vision).1.value := by
  unfold classify
  dsimp only
  split_ifs <;> rfl

theorem openaiClassify_label (P : Python) (U : Unicode) (endpoint : Endpoint) (openai : OpenAiSettings)
    (caption : String) (vision : VisionSignals) :
    let answer := openaiClassify P U endpoint openai caption vision
    answer.2.label = answer.1.value := by
  unfold openaiClassify
  split
  · exact classify_label U caption vision
  · split
    · rename_i answer h
      obtain ⟨decision, llm⟩ := answer
      obtain ⟨fields, s, score, r, -, -, -, -, rfl⟩ := tryOpenai_ok_iff.mp h
      rfl
    · exact classify_label U caption vision

/-- `RulesPolicyClassifier`'s answer. -/
def Suggestion.rules (U : Unicode) (caption : String) (vision : VisionSignals) : Suggestion :=
  ⟨_, _, classify_label U caption vision⟩

/-- `OpenAIPolicyClassifier`'s answer, for a score that is a number. -/
def Suggestion.openai (P : Python) (U : Unicode) (endpoint : Endpoint) (openai : OpenAiSettings)
    (caption : String) (vision : VisionSignals) (score : Rat) : Suggestion :=
  ⟨_, (openaiClassify P U endpoint openai caption vision).2.scored score,
    openaiClassify_label P U endpoint openai caption vision⟩

/-! ## What `process_job` stores -/

/-- The models answer `vision` and `answer`, where they answer. -/
def Models (vision : VisionSignals) (answer : Suggestion) : (q : Cmd) → Except Exn q.Ans → Prop
  | .analyze .., .ok signals => signals = vision
  | .classify .., .ok said => said = (answer.suggested, answer.llm)
  | _, _ => True

/-- With these answers, `process_job` may come to store the envelope. -/
def Stores (settings : WorkerSettings) (job : JobMessage) (vision : VisionSignals) (answer : Suggestion)
    (envelope : DecisionEnvelope) : Prop :=
  (processJob settings job).MayAsk (Models vision answer) (Cmd.sql (.insertDecision envelope))

variable {settings : WorkerSettings} {job : JobMessage} {vision : VisionSignals} {answer : Suggestion}
  {envelope : DecisionEnvelope}

/-- What `process_job` inserts is built from the answers. -/
def Cmd.Built (settings : WorkerSettings) (job : JobMessage) (vision : VisionSignals) (answer : Suggestion)
    (q : Cmd) : Prop :=
  ∀ envelope, q = .sql (.insertDecision envelope) →
    ∃ latencyMs, buildEnvelope settings job vision answer.suggested answer.llm latencyMs = .ok envelope

theorem processJob_built : (processJob settings job).OnlyIf (Models vision answer)
    (Cmd.Built settings job vision answer) := by
  have other : ∀ {q : Cmd}, (∀ envelope, q ≠ .sql (.insertDecision envelope)) →
      Cmd.Built settings job vision answer q :=
    fun hq envelope he => absurd he (hq envelope)
  unfold processJob
  refine .ask_bind (other (by simp)) fun _ _ => .ask_bind (other (by simp)) fun found _ => ?_
  cases found with
  | some decisionId =>
    refine .ask_bind (other (by simp)) fun stored _ => ?_
    cases stored <;> trivial
  | none =>
    refine .ask_bind (other (by simp)) fun _ _ => .ask_bind (other (by simp)) fun object _ =>
      .ofExcept_bind fun _ _ =>
      .ask_bind (other (by simp)) fun signals hv => .ask_bind (other (by simp)) fun said hs =>
      .ask_bind (other (by simp)) fun _ _ => .ofExcept_bind fun built hb => .of_only ?_
    obtain rfl : signals = vision := hv
    obtain rfl : said = (answer.suggested, answer.llm) := hs
    refine (persistEnvelope_only built).mono fun q hq envelope he => ?_
    subst he
    cases hq
    exact ⟨_, hb⟩

theorem Stores.built (h : Stores settings job vision answer envelope) :
    ∃ latencyMs, buildEnvelope settings job vision answer.suggested answer.llm latencyMs = .ok envelope :=
  processJob_built.holds h envelope rfl

/-- Every answer whose score is a confidence comes to be stored. -/
theorem exists_stores (room : 1 ≤ settings.maxUploadBytes) (h₀ : 0 ≤ answer.llm.score) (h₁ : answer.llm.score ≤ 1) :
    ∃ envelope, Stores settings job vision answer envelope := by
  obtain ⟨envelope, h⟩ : ∃ e, buildEnvelope settings job vision answer.suggested answer.llm 0 = .ok e :=
    buildEnvelope_ok_iff.mpr (round4_mem h₀ h₁)
  have hvalid : validate [0xff] "image/jpeg" settings = .ok ["validation_ok"] := by
    have htype : "image/jpeg" ∈ allowedTypes := by decide
    simp [validate, htype, Nat.not_lt.mpr room]
  refine ⟨envelope, ?_⟩
  unfold Stores processJob
  refine .ask_bind 0 trivial <| .ask_bind none trivial <| .ask_bind () trivial <|
    .ask_bind ([0xff], "image/jpeg") trivial ?_
  dsimp only
  rw [hvalid]
  refine .ask_bind vision rfl <| .ask_bind (answer.suggested, answer.llm) rfl <| .ask_bind 0 trivial ?_
  dsimp only
  rw [h]
  exact .ask_bind () trivial (.inl rfl)

/-! ## Replaying -/

def Decision.ofValue? (value : String) : Option Decision :=
  [Decision.allow, .flag, .block].find? (·.value = value)

theorem Decision.ofValue?_value (d : Decision) : ofValue? d.value = some d := by
  cases d <;> decide

/-- `route_decision` of what the envelope records. -/
def replay (t : ThresholdConfig) (envelope : DecisionEnvelope) : Option Route :=
  (Decision.ofValue? envelope.llm.label).map fun suggested =>
    routeDecision suggested envelope.confidence envelope.vision.nsfwScore envelope.vision.violenceScore t

/-- The replay gives the decision and the review that are stored. -/
def Replays (t : ThresholdConfig) (envelope : DecisionEnvelope) : Prop :=
  ∃ r, replay t envelope = some r ∧ envelope.decision = r.decision ∧ envelope.needsHumanReview = r.needsHumanReview

theorem buildEnvelope_route {latencyMs : Nat}
    (h : buildEnvelope settings job vision answer.suggested answer.llm latencyMs = .ok envelope) :
    let r := routeDecision answer.suggested answer.llm.score vision.nsfwScore vision.violenceScore settings.thresholds
    envelope.decision = r.decision ∧ envelope.needsHumanReview = r.needsHumanReview ∧
      envelope.confidence = round4 answer.llm.score ∧ envelope.vision = vision ∧ envelope.llm = answer.llm := by
  intro r
  have hflag : (r.needsHumanReview || decide (r.decision = .flag)) = r.needsHumanReview := by
    by_cases hd : r.decision = .flag
    · rw [review_of_flag hd, Bool.true_or]
    · simp [hd]
  unfold buildEnvelope at h
  dsimp only at h
  split at h
  · cases h
    exact ⟨rfl, hflag, rfl, rfl, rfl⟩
  · cases h

/-- A replay compares the rounded score where `process_job` compared the score. -/
theorem Stores.replays_iff_sameSide (h : Stores settings job vision answer envelope) :
    Replays settings.thresholds envelope ↔
      SameSide (decisive settings.thresholds answer.suggested vision.nsfwScore vision.violenceScore)
        answer.llm.score (round4 answer.llm.score) := by
  obtain ⟨latencyMs, hbuild⟩ := h.built
  obtain ⟨hdecision, hreview, hconfidence, hvision, hllm⟩ := buildEnvelope_route hbuild
  have hreplay : replay settings.thresholds envelope = some (routeDecision answer.suggested (round4 answer.llm.score)
      vision.nsfwScore vision.violenceScore settings.thresholds) := by
    rw [replay, hllm, answer.label, Decision.ofValue?_value, hconfidence, hvision]
    rfl
  simp only [Replays, hreplay, hdecision, hreview, Option.some.injEq, exists_eq_left']
  exact routeDecision_eq_iff

/-- The replay of a stored decision gives the same if and only if the threshold that decides,
if there is one, does not lie between the score and its rounding. -/
theorem replays_iff (settings : WorkerSettings) (job : JobMessage) (vision : VisionSignals) (answer : Suggestion)
    (envelope : DecisionEnvelope) (stored : Stores settings job vision answer envelope) :
    Replays settings.thresholds envelope ↔
      ∀ t, decisive settings.thresholds answer.suggested vision.nsfwScore vision.violenceScore = some t →
        (t ≤ answer.llm.score ↔ RoundsTo t answer.llm.score) := by
  rw [stored.replays_iff_sameSide, SameSide]
  simp only [le_round4_iff, Option.mem_def]

/-- The answer of a classifier that allows content with the score. -/
def sampleSuggestion (score : Rat) : Suggestion := ⟨.allow, { label := "ALLOW", score }, rfl⟩

theorem decisive_sample : decisive ({} : WorkerSettings).thresholds .allow 0 0 = some (85 / 100) := by
  decide +kernel

theorem replays_sample : ∃ envelope, Stores {} sampleJob {} (sampleSuggestion (91 / 100)) envelope ∧
    Replays {} envelope := by
  have h₀ : 0 ≤ (sampleSuggestion (91 / 100)).llm.score := by decide +kernel
  have h₁ : (sampleSuggestion (91 / 100)).llm.score ≤ 1 := by decide +kernel
  obtain ⟨envelope, h⟩ : ∃ e, Stores {} sampleJob {} (sampleSuggestion (91 / 100)) e :=
    exists_stores (by decide) h₀ h₁
  refine ⟨envelope, h, (replays_iff {} sampleJob {} _ envelope h).mpr fun t ht => ?_⟩
  obtain rfl : 85 / 100 = t := Option.some.inj (decisive_sample.symm.trans ht)
  rw [← le_round4_iff]
  decide +kernel

/-- A score just below the threshold is stored as the threshold. -/
theorem replay_differs : ¬ ∀ (settings : WorkerSettings) (job : JobMessage) (vision : VisionSignals)
    (answer : Suggestion) (envelope : DecisionEnvelope), 0 ≤ answer.llm.score → answer.llm.score ≤ 1 →
      Stores settings job vision answer envelope → Replays settings.thresholds envelope := by
  intro hall
  have h₀ : 0 ≤ (sampleSuggestion (84996 / 100000)).llm.score := by decide +kernel
  have h₁ : (sampleSuggestion (84996 / 100000)).llm.score ≤ 1 := by decide +kernel
  obtain ⟨envelope, h⟩ : ∃ e, Stores {} sampleJob {} (sampleSuggestion (84996 / 100000)) e :=
    exists_stores (by decide) h₀ h₁
  have hside := h.replays_iff_sameSide.mp (hall _ _ _ _ _ h₀ h₁ h) (85 / 100) decisive_sample
  revert hside
  decide +kernel

end CM
