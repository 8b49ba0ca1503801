import ContentModeration.Framework.Rounding
import ContentModeration.Impl.Adapters
import ContentModeration.Impl.Pipeline
import Mathlib.Data.Rat.Floor
import Mathlib.Tactic.NormNum
import Mathlib.Tactic.Linarith
import Mathlib.Tactic.Positivity

/-!
# What the local pipeline allows

* `allow_iff`: when `classify` and `route_decision` allow content without a human
  (`Clean`); in every other case it is blocked or goes to a human.
* `cue_not_allowed_iff`: when content whose caption holds a cue word is not
  allowed. A safe word in the caption resets the scores, so that it is allowed
  unless something else stops it (`cue_masked`).

`buildEnvelope_classify` connects both to the envelope of `process_job`.
-/

namespace CM

variable {U : Unicode} {caption : String} {vision : VisionSignals} {t : ThresholdConfig}

/-! ## The two stages -/

theorem routeDecision_allow_iff {suggested : Decision} {confidence nsfw violence : Rat} :
    (routeDecision suggested confidence nsfw violence t).decision = .allow ↔
      suggested = .allow ∧ t.autoAllow ≤ confidence ∧ (nsfw < t.nsfwFlag ∧ nsfw < t.nsfwBlock) ∧
        violence < t.violenceFlag ∧ violence < t.violenceBlock := by
  simp only [routeDecision]
  split
  · rename_i h
    have : ¬ (nsfw < t.nsfwBlock ∧ violence < t.violenceBlock) := fun hn =>
      h.elim (not_le.mpr hn.1) (not_le.mpr hn.2)
    split <;> simp only [reduceCtorEq, false_iff] <;> tauto
  · rename_i hb
    split
    · rename_i h
      have : ¬ (nsfw < t.nsfwFlag ∧ violence < t.violenceFlag) := fun hn =>
        h.elim (not_le.mpr hn.1) (not_le.mpr hn.2)
      simp only [reduceCtorEq, false_iff]
      tauto
    · rename_i hf
      simp only [not_or, not_le] at hb hf
      cases suggested with
      | allow => by_cases h : t.autoAllow ≤ confidence <;> simp [h, hb, hf]
      | flag => simp
      | block => by_cases h : t.autoBlock ≤ confidence <;> simp [h]

/-- What is not allowed is blocked or goes to a human. -/
theorem routeDecision_cases (suggested : Decision) (confidence nsfw violence : Rat) (t : ThresholdConfig) :
    let r := routeDecision suggested confidence nsfw violence t
    r.decision = .allow ∧ r.needsHumanReview = false ∨ r.decision = .block ∨
      r.decision = .flag ∧ r.needsHumanReview = true := by
  simp only [routeDecision]
  split
  · split <;> simp
  · split
    · simp
    · cases suggested with
      | allow => by_cases h : t.autoAllow ≤ confidence <;> simp [h]
      | flag => simp
      | block => by_cases h : t.autoBlock ≤ confidence <;> simp [h]

/-- A pattern of the policy is found in the text. -/
def Matched (U : Unicode) (text : String) : Prop :=
  ∃ p ∈ blockPatterns ++ flagPatterns, p.Occurs U.alphabet text.toList

theorem not_matched_iff {text : String} : ¬ Matched U text ↔
    blockPatterns.any (·.search U.alphabet text.toList) = false ∧
      flagPatterns.any (·.search U.alphabet text.toList) = false := by
  simp only [Matched, List.mem_append, ← Regex.search_iff, List.any_eq_false]
  constructor
  · exact fun h => ⟨fun p hp hs => h ⟨p, .inl hp, hs⟩, fun p hp hs => h ⟨p, .inr hp, hs⟩⟩
  · rintro ⟨hb, hf⟩ ⟨p, hp | hp, hs⟩
    · exact hb p hp hs
    · exact hf p hp hs

/-- The text holds a word that sends it to a human. -/
def ambiguous (text : String) : Bool := contains "uncertain" text || contains "maybe" text

/-- The confidence of an ALLOW of the classifier. -/
def allowConfidence (caption : String) : Rat := if 8 < (strip caption).length then 91 / 100 else 78 / 100

/-- The classifier has nothing against the content. -/
structure Harmless (U : Unicode) (caption : String) (vision : VisionSignals) : Prop where
  unmatched : ¬ Matched U (policyText U caption vision.ocrText)
  unambiguous : ambiguous (policyText U caption vision.ocrText) = false
  nsfw : vision.nsfwScore < 45 / 100
  violence : vision.violenceScore < 45 / 100

theorem classify_harmless (h : Harmless U caption vision) :
    (classify U caption vision).1 = .allow ∧ (classify U caption vision).2.score = allowConfidence caption := by
  obtain ⟨hb, hf⟩ := not_matched_iff.mp h.unmatched
  have hr : max vision.nsfwScore vision.violenceScore < 45 / 100 := max_lt h.nsfw h.violence
  have hlow : ¬ 85 / 100 ≤ max vision.nsfwScore vision.violenceScore := by linarith
  have ha := h.unambiguous
  rw [ambiguous] at ha
  simp only [classify, hb, hf, Bool.false_eq_true, if_false, if_neg hlow, if_neg (not_le.mpr hr), ha,
    allowConfidence, and_self]

theorem harmless_of_allow (h : (classify U caption vision).1 = .allow) : Harmless U caption vision := by
  simp only [classify] at h
  split at h
  · cases h
  · rename_i hb
    split at h
    · cases h
    · rename_i hf
      split at h
      · cases h
      · split at h
        · cases h
        · rename_i hr
          split at h
          · cases h
          · rename_i ha
            obtain ⟨hn, hv⟩ := max_lt_iff.mp (not_le.mp hr)
            exact ⟨not_matched_iff.mpr ⟨by simpa using hb, by simpa using hf⟩, by simpa [ambiguous] using ha, hn, hv⟩

/-! ## Automatic ALLOW -/

/-- What content must satisfy to be allowed without a human. -/
structure Clean (U : Unicode) (caption : String) (vision : VisionSignals) (t : ThresholdConfig) : Prop where
  unmatched : ¬ Matched U (policyText U caption vision.ocrText)
  unambiguous : contains "uncertain" (policyText U caption vision.ocrText) = false ∧
    contains "maybe" (policyText U caption vision.ocrText) = false
  low : vision.nsfwScore < 45 / 100 ∧ vision.violenceScore < 45 / 100
  nsfw : vision.nsfwScore < t.nsfwFlag ∧ vision.nsfwScore < t.nsfwBlock
  violence : vision.violenceScore < t.violenceFlag ∧ vision.violenceScore < t.violenceBlock
  confident : t.autoAllow ≤ if 8 < (strip caption).length then 91 / 100 else 78 / 100

theorem decision_allow_iff :
    (classifyAndRoute U caption vision t).decision = .allow ↔ Clean U caption vision t := by
  rw [classifyAndRoute, routeDecision_allow_iff]
  constructor
  · rintro ⟨hs, hc, hn, hv⟩
    have h := harmless_of_allow hs
    rw [(classify_harmless h).2] at hc
    exact ⟨h.unmatched, by simpa [ambiguous] using h.unambiguous, ⟨h.nsfw, h.violence⟩, hn, hv, hc⟩
  · intro h
    have hh : Harmless U caption vision :=
      ⟨h.unmatched, by simp [ambiguous, h.unambiguous], h.low.1, h.low.2⟩
    obtain ⟨hs, hc⟩ := classify_harmless hh
    exact ⟨hs, hc ▸ h.confident, h.nsfw, h.violence⟩

/-- The content is allowed exactly if it is clean, and then no human looks at it;
otherwise it is blocked or goes to a human. -/
theorem allow_iff (U : Unicode) (caption : String) (vision : VisionSignals) (t : ThresholdConfig) :
    let r := classifyAndRoute U caption vision t
    (r.decision = .allow ↔ Clean U caption vision t) ∧ (Clean U caption vision t → r.needsHumanReview = false) ∧
      (¬ Clean U caption vision t → r.decision = .block ∨ r.decision = .flag ∧ r.needsHumanReview = true) := by
  intro r
  have hr : r.decision = .allow ∧ r.needsHumanReview = false ∨ r.decision = .block ∨
      r.decision = .flag ∧ r.needsHumanReview = true := routeDecision_cases _ _ _ _ t
  have hiff : r.decision = .allow ↔ Clean U caption vision t := decision_allow_iff
  refine ⟨hiff, fun hc => ?_, fun hc => ?_⟩
  · rw [← hiff] at hc
    simpa [hc] using hr
  · rw [← hiff] at hc
    simpa [hc] using hr

/-! ## The envelope -/

theorem round4_eq (q : Rat) : round4 q = roundHalfEven (q * 10000) / 10000 := rfl

/-- `round4` gives a multiple of 1/10000 at most half of that away. -/
theorem round4_spec (q : Rat) : ∃ n : Int, round4 q = n / 10000 ∧ q * 10000 - 1 / 2 ≤ n ∧ n ≤ q * 10000 + 1 / 2 :=
  ⟨_, round4_eq q, roundHalfEven_mem _⟩

/-- Rounding makes a confidence of a score that is off by at most half of the
last digit; a half goes to 0 and to 1, which are even. -/
theorem round4_mem_iff {q : Rat} : (0 ≤ round4 q ∧ round4 q ≤ 1) ↔ -1 / 20000 ≤ q ∧ q ≤ 20001 / 20000 := by
  obtain ⟨n, hn, hlow, hhigh⟩ := round4_spec q
  constructor
  · rintro ⟨h₀, h₁⟩
    rw [hn] at h₀ h₁
    constructor <;> linarith
  · rintro ⟨h₀, h₁⟩
    rcases h₀.eq_or_lt with rfl | h₀
    · decide +kernel
    · rcases h₁.eq_or_lt with rfl | h₁
      · decide +kernel
      · have hpos : (-1 : Rat) < n := by linarith
        have hle : (n : Rat) < 10001 := by linarith
        have hpos : -1 < n := by exact_mod_cast hpos
        have hle : n < 10001 := by exact_mod_cast hle
        have hpos : (0 : Rat) ≤ n := by exact_mod_cast show 0 ≤ n by omega
        have hle : (n : Rat) ≤ 10000 := by exact_mod_cast show n ≤ 10000 by omega
        rw [hn]
        constructor <;> linarith

theorem round4_mem {q : Rat} (h₀ : 0 ≤ q) (h₁ : q ≤ 1) : 0 ≤ round4 q ∧ round4 q ≤ 1 :=
  round4_mem_iff.mpr ⟨by linarith, by linarith⟩

theorem asFloat_mono {p q : Rat} (hp : 0 ≤ p) (h : p ≤ q) : asFloat p ≤ asFloat q :=
  roundBinary_mono (by decide) hp h

theorem asFloat_mem {q : Rat} (h₀ : 0 ≤ q) (h₁ : q ≤ 1) : 0 ≤ asFloat q ∧ asFloat q ≤ 1 :=
  ⟨roundBinary_nonneg (by decide) h₀, (asFloat_mono h₀ h₁).trans (roundBinary_one (by decide)).le⟩

theorem ratio_mem {a b : Nat} (h : a ≤ b) : 0 ≤ ratio a b ∧ ratio a b ≤ 1 := by
  unfold ratio
  split
  · exact ⟨le_rfl, zero_le_one⟩
  · exact asFloat_mem (by positivity) (div_le_one_of_le₀ (Nat.cast_le.mpr h) (Nat.cast_nonneg b))

/-- The classifier's scores are confidences. -/
theorem classify_score (U : Unicode) (caption : String) (vision : VisionSignals) :
    0 ≤ (classify U caption vision).2.score ∧ (classify U caption vision).2.score ≤ 1 := by
  simp only [classify]
  split
  · norm_num
  · split
    · norm_num
    · split
      · rename_i hr
        have hmin : min (99 / 100) (7 / 10 + max vision.nsfwScore vision.violenceScore * (25 / 100)) ≤ 99 / 100 :=
          min_le_left _ _
        have hpos : 0 ≤ min (99 / 100) (7 / 10 + max vision.nsfwScore vision.violenceScore * (25 / 100)) :=
          le_min (by norm_num) (by linarith)
        exact ⟨hpos, by linarith⟩
      · rename_i hhigh
        split
        · constructor <;> linarith
        · split
          · norm_num
          · dsimp only
            split <;> norm_num

/-- The envelope that `process_job` builds from the two stages. -/
theorem buildEnvelope_classify (U : Unicode) (settings : WorkerSettings) (job : JobMessage) (vision : VisionSignals)
    (latencyMs : Nat) :
    let r := classifyAndRoute U job.caption vision settings.thresholds
    ∃ e, buildEnvelope settings job vision (classify U job.caption vision).1
      (classify U job.caption vision).2 latencyMs =
      .ok e ∧ e.decision = r.decision ∧ e.needsHumanReview = (r.needsHumanReview || decide (r.decision = .flag)) := by
  obtain ⟨h₀, h₁⟩ := classify_score U job.caption vision
  have h := round4_mem h₀ h₁
  simp only [buildEnvelope, dif_pos h]
  exact ⟨_, rfl, rfl, rfl⟩

/-! ## Cue words -/

/-- The caption, in lower case, holds a word that is taken for a sign of nudity or violence. -/
def hasCue (cap : String) : Bool := anyIn nsfwTerms cap || anyIn violenceTerms cap

/-- The caption, in lower case, forces a score. -/
def forced (cap : String) : Bool := contains "force_nsfw" cap || contains "force_violence" cap

/-- Without a safe word, a cue brings a score into the block band. -/
theorem captionCues_hard {cap : String} (cues : Cues) (hc : hasCue cap = true)
    (hs : anyIn safeTerms cap = false ∨ forced cap = true) :
    92 / 100 ≤ (captionCues cap cues).nsfw ∨ 88 / 100 ≤ (captionCues cap cues).violence := by
  simp only [hasCue, forced, Bool.or_eq_true] at hc hs
  simp only [captionCues]
  split_ifs <;> simp_all <;> norm_num

/-- A safe word brings both scores down, whatever else the caption holds, unless
it forces one. -/
theorem captionCues_masked {cap : String} (cues : Cues) (hs : anyIn safeTerms cap = true) (hf : forced cap = false) :
    (captionCues cap cues).nsfw ≤ 8 / 100 ∧ (captionCues cap cues).violence ≤ 8 / 100 := by
  simp only [forced, Bool.or_eq_false_iff] at hf
  simp only [captionCues, hs, hf.1, hf.2, if_true, Bool.false_eq_true, if_false]
  exact ⟨min_le_right _ _, min_le_right _ _⟩

theorem analyze_readable (U : Unicode) {pil : Pil} {imageBytes : List UInt8} {stat : ImageStat}
    (hp : pil imageBytes = .ok stat) (caption : String) :
    let cues := captionCues (U.lower caption) (imageCues stat)
    let v := analyze U pil imageBytes caption
    v.nsfwScore = round4 cues.nsfw ∧ v.violenceScore = round4 cues.violence ∧
      v.ocrText = captionOcr (U.lower caption) := by
  simp only [analyze, hp, and_self]

/-- What stops content whose caption holds a cue word: that it holds no safe word,
that it forces a score, or what stops any content. -/
def Stopped (U : Unicode) (caption : String) : Prop :=
  let cap := U.lower caption
  let text := policyText U caption (captionOcr cap)
  anyIn safeTerms cap = false ∨ forced cap = true ∨ Matched U text ∨ ambiguous text = true ∨
    (strip caption).length ≤ 8

/-- Content whose caption holds a cue word is not allowed exactly if something
stops it; a safe word masks the cue. -/
theorem cue_not_allowed_iff (U : Unicode) (pil : Pil) (imageBytes : List UInt8) (caption : String) (stat : ImageStat)
    (readable : pil imageBytes = .ok stat) (cue : hasCue (U.lower caption) = true) :
    (classifyAndRoute U caption (analyze U pil imageBytes caption) {}).decision ≠ .allow ↔ Stopped U caption := by
  obtain ⟨hn, hv, ho⟩ := analyze_readable U readable caption
  rw [Ne, decision_allow_iff]
  constructor
  · intro hc
    by_contra hs
    simp only [Stopped, not_or, Bool.not_eq_false, Bool.not_eq_true, not_le] at hs
    obtain ⟨hsafe, hforced, hm, ha, hl⟩ := hs
    obtain ⟨hn', hv'⟩ := captionCues_masked (imageCues stat) hsafe hforced
    obtain ⟨n, hn₁, -, hn₂⟩ := round4_spec (captionCues (U.lower caption) (imageCues stat)).nsfw
    obtain ⟨m, hm₁, -, hm₂⟩ := round4_spec (captionCues (U.lower caption) (imageCues stat)).violence
    have hnsfw : (analyze U pil imageBytes caption).nsfwScore < 40 / 100 := by
      rw [hn, hn₁]
      linarith
    have hviolence : (analyze U pil imageBytes caption).violenceScore < 40 / 100 := by
      rw [hv, hm₁]
      linarith
    refine hc ⟨ho ▸ hm, by simpa [ambiguous, ho] using ha, ⟨?_, ?_⟩, ⟨?_, ?_⟩, ⟨?_, ?_⟩, ?_⟩
    · linarith
    · linarith
    · show _ < (45 / 100 : Rat)
      linarith
    · show _ < (85 / 100 : Rat)
      linarith
    · exact hviolence
    · show _ < (80 / 100 : Rat)
      linarith
    · show (85 / 100 : Rat) ≤ _
      rw [if_pos hl]
      norm_num
  · intro hs hc
    have hnsfw : (analyze U pil imageBytes caption).nsfwScore < 45 / 100 := hc.low.1
    have hviolence : (analyze U pil imageBytes caption).violenceScore < 45 / 100 := hc.low.2
    have soft : ¬ (anyIn safeTerms (U.lower caption) = false ∨ forced (U.lower caption) = true) := by
      intro h
      obtain ⟨n, hn₁, hn₂, -⟩ := round4_spec (captionCues (U.lower caption) (imageCues stat)).nsfw
      obtain ⟨m, hm₁, hm₂, -⟩ := round4_spec (captionCues (U.lower caption) (imageCues stat)).violence
      rw [hn, hn₁] at hnsfw
      rw [hv, hm₁] at hviolence
      rcases captionCues_hard (imageCues stat) cue h with h | h
      · linarith
      · linarith
    rcases hs with h | h | h | h | h
    · exact soft (.inl h)
    · exact soft (.inr h)
    · exact hc.unmatched (ho ▸ h)
    · have := hc.unambiguous
      rw [ho] at this
      simp [ambiguous, this] at h
    · have : (85 / 100 : Rat) ≤ if 8 < (strip caption).length then 91 / 100 else 78 / 100 := hc.confident
      rw [if_neg (by omega)] at this
      norm_num at this

/-- A PIL that makes the same of every image. -/
def samplePil : Pil := fun _ => .ok ⟨640, 480, (120, 110, 100), (900, 900, 900)⟩

theorem cue_not_allowed_iff_sample :
    (classifyAndRoute .ascii "explicit demo photo" (analyze .ascii samplePil [1] "explicit demo photo") {}).decision ≠
      .allow :=
  (cue_not_allowed_iff .ascii samplePil [1] "explicit demo photo" _ rfl (by decide +kernel)).mpr
    (.inl (by decide +kernel))

/-- A caption with a cue and a safe word is allowed. -/
theorem cue_masked : ¬ ∀ (pil : Pil) (imageBytes : List UInt8) (caption : String) (stat : ImageStat),
    pil imageBytes = .ok stat → hasCue (Unicode.ascii.lower caption) = true →
      (classifyAndRoute .ascii caption (analyze .ascii pil imageBytes caption) {}).decision ≠ .allow := by
  intro h
  have hallow : (classifyAndRoute .ascii "explicit photo of a cat"
      (analyze .ascii samplePil [1] "explicit photo of a cat") {}).decision = .allow := by decide +kernel
  exact h samplePil [1] "explicit photo of a cat" _ rfl (by decide +kernel) hallow

end CM
