import ContentModeration.Impl.Routing
import Mathlib.Tactic.NormNum
import Mathlib.Tactic.Linarith
import Mathlib.Tactic.Tauto

/-!
# How severe a decision is

In the order ALLOW < FLAG < BLOCK, `route_decision` never softens when the scores of the
vision model rise (`severity_le_iff`), with one exception (`Softened`): the classifier's
confident BLOCK stands while the scores are low, but scores in the flag band overrule it, so
that a human decides (`softened_by_risk`).
-/

namespace CM

/-- ALLOW < FLAG < BLOCK. -/
def Decision.severity : Decision → Nat
  | .allow => 0
  | .flag => 1
  | .block => 2

theorem Decision.severity_le_two (d : Decision) : d.severity ≤ 2 := by cases d <;> decide

variable {t : ThresholdConfig} {suggested : Decision} {confidence nsfw violence nsfw₁ nsfw₂ violence₁ violence₂ : Rat}

/-- A score reaches a threshold that blocks. -/
def ThresholdConfig.Blocks (t : ThresholdConfig) (nsfw violence : Rat) : Prop :=
  t.nsfwBlock ≤ nsfw ∨ t.violenceBlock ≤ violence

/-- A score reaches a threshold that flags. -/
def ThresholdConfig.Flags (t : ThresholdConfig) (nsfw violence : Rat) : Prop :=
  t.nsfwFlag ≤ nsfw ∨ t.violenceFlag ≤ violence

/-- No score reaches a threshold. -/
def ThresholdConfig.Low (t : ThresholdConfig) (nsfw violence : Rat) : Prop :=
  ¬ t.Blocks nsfw violence ∧ ¬ t.Flags nsfw violence

theorem ThresholdConfig.Blocks.mono (h : t.Blocks nsfw₁ violence₁) (hn : nsfw₁ ≤ nsfw₂) (hv : violence₁ ≤ violence₂) :
    t.Blocks nsfw₂ violence₂ := h.imp hn.trans' hv.trans'

theorem ThresholdConfig.Flags.mono (h : t.Flags nsfw₁ violence₁) (hn : nsfw₁ ≤ nsfw₂) (hv : violence₁ ≤ violence₂) :
    t.Flags nsfw₂ violence₂ := h.imp hn.trans' hv.trans'

/-! ## The branches of `route_decision` -/

theorem decision_of_blocks (h : t.Blocks nsfw violence) :
    (routeDecision suggested confidence nsfw violence t).decision = .block := by
  unfold ThresholdConfig.Blocks at h
  unfold routeDecision
  rw [if_pos h]
  split <;> rfl

theorem decision_of_flags (hb : ¬ t.Blocks nsfw violence) (h : t.Flags nsfw violence) :
    (routeDecision suggested confidence nsfw violence t).decision = .flag := by
  unfold ThresholdConfig.Blocks at hb
  unfold ThresholdConfig.Flags at h
  unfold routeDecision
  rw [if_neg hb, if_pos h]

/-- Where the scores are low, the decision is that of the classifier if it is confident, and else FLAG. -/
theorem decision_of_low (h : t.Low nsfw violence) :
    (routeDecision suggested confidence nsfw violence t).decision =
      if suggested = .block ∧ t.autoBlock ≤ confidence then .block
      else if suggested = .allow ∧ t.autoAllow ≤ confidence then .allow else .flag := by
  obtain ⟨hb, hf⟩ := h
  unfold ThresholdConfig.Blocks at hb
  unfold ThresholdConfig.Flags at hf
  unfold routeDecision
  rw [if_neg hb, if_neg hf]
  cases suggested with
  | block => by_cases hc : t.autoBlock ≤ confidence <;> simp [hc]
  | allow => by_cases hc : t.autoAllow ≤ confidence <;> simp [hc]
  | flag => simp

/-! ## Monotony -/

/-- The scores rise from low ones into the flag band, where the classifier's confident BLOCK no
longer stands. -/
structure Softened (t : ThresholdConfig) (suggested : Decision)
    (confidence nsfw₁ violence₁ nsfw₂ violence₂ : Rat) : Prop where
  suggested : suggested = .block
  confident : t.autoBlock ≤ confidence
  low : t.Low nsfw₁ violence₁
  flags : t.Flags nsfw₂ violence₂
  below : ¬ t.Blocks nsfw₂ violence₂

/-- Rising scores soften the decision only in the one case. -/
theorem severity_le_iff (hn : nsfw₁ ≤ nsfw₂) (hv : violence₁ ≤ violence₂) :
    (routeDecision suggested confidence nsfw₁ violence₁ t).decision.severity ≤
      (routeDecision suggested confidence nsfw₂ violence₂ t).decision.severity ↔
    ¬ Softened t suggested confidence nsfw₁ violence₁ nsfw₂ violence₂ := by
  by_cases hb₂ : t.Blocks nsfw₂ violence₂
  · -- the second decision is BLOCK
    have hno : ¬ Softened t suggested confidence nsfw₁ violence₁ nsfw₂ violence₂ := fun h => h.below hb₂
    rw [decision_of_blocks hb₂]
    exact iff_of_true (Decision.severity_le_two _) hno
  have hb₁ : ¬ t.Blocks nsfw₁ violence₁ := fun h => hb₂ (h.mono hn hv)
  by_cases hf₂ : t.Flags nsfw₂ violence₂
  · rw [decision_of_flags hb₂ hf₂]
    by_cases hf₁ : t.Flags nsfw₁ violence₁
    · have hno : ¬ Softened t suggested confidence nsfw₁ violence₁ nsfw₂ violence₂ := fun h => h.low.2 hf₁
      rw [decision_of_flags hb₁ hf₁]
      exact iff_of_true le_rfl hno
    · -- the first decision is the classifier's, the second is FLAG
      have hlow : t.Low nsfw₁ violence₁ := ⟨hb₁, hf₁⟩
      rw [decision_of_low hlow]
      by_cases hc : suggested = .block ∧ t.autoBlock ≤ confidence
      · rw [if_pos hc]
        exact iff_of_false (by decide) (not_not_intro ⟨hc.1, hc.2, hlow, hf₂, hb₂⟩)
      · rw [if_neg hc]
        refine iff_of_true ?_ fun h => hc ⟨h.suggested, h.confident⟩
        split <;> decide
  · -- both are the classifier's
    have hno : ¬ Softened t suggested confidence nsfw₁ violence₁ nsfw₂ violence₂ := fun h => hf₂ h.flags
    have hf₁ : ¬ t.Flags nsfw₁ violence₁ := fun h => hf₂ (h.mono hn hv)
    rw [decision_of_low ⟨hb₁, hf₁⟩, decision_of_low ⟨hb₂, hf₂⟩]
    exact iff_of_true le_rfl hno

theorem severity_le_iff_sample :
    ((1 / 10 : Rat) ≤ 9 / 10 ∧ (0 : Rat) ≤ 0) ∧
    ((routeDecision .allow (95 / 100) (1 / 10) 0 {}).decision.severity ≤
      (routeDecision .allow (95 / 100) (9 / 10) 0 {}).decision.severity ↔
    ¬ Softened {} .allow (95 / 100) (1 / 10) 0 (9 / 10) 0) := by
  have hn : (1 / 10 : Rat) ≤ 9 / 10 := by norm_num
  exact ⟨⟨hn, le_rfl⟩, severity_le_iff hn le_rfl⟩

/-- A confident BLOCK with a score of 0.1 is a FLAG with a score of 0.5. -/
theorem softened_by_risk : ¬ ∀ (t : ThresholdConfig) (suggested : Decision)
    (confidence nsfw₁ nsfw₂ violence₁ violence₂ : Rat),
    nsfw₁ ≤ nsfw₂ → violence₁ ≤ violence₂ →
    (routeDecision suggested confidence nsfw₁ violence₁ t).decision.severity ≤
      (routeDecision suggested confidence nsfw₂ violence₂ t).decision.severity := by
  intro hall
  have hn : (1 / 10 : Rat) ≤ 1 / 2 := by norm_num
  have hlow : (routeDecision .block (95 / 100) (1 / 10) 0 {}).decision = .block := by decide +kernel
  have hband : (routeDecision .block (95 / 100) (1 / 2) 0 {}).decision = .flag := by decide +kernel
  have := hall {} .block (95 / 100) (1 / 10) (1 / 2) 0 0 hn le_rfl
  rw [hlow, hband] at this
  exact absurd this (by decide)

end CM
