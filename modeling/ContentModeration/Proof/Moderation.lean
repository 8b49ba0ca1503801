import ContentModeration.Framework.Refinement
import ContentModeration.Impl.Review

/-!
# What moderation is

The life of one piece of content, without jobs, messages, rows and locks: it is accepted,
gets a verdict, and is settled by it or waits for a human. A reviewer claims it for
`claimTtlSeconds`, and either resolves it, or the claim runs out and it waits again. A FLAG
is never settled without a human, and a human who overrules the verdict says why.

From these steps follow the course of every life (`life_of_trace`), and that nobody takes a
claimed review from its reviewer before the claim has run out (`exclusive_of_trace`).
-/

namespace CM

inductive Stage where
  | absent
  | accepted
  | settled (verdict : Decision)
  | pending (verdict : Decision)
  | claimed (verdict : Decision) (reviewer : String) (expires : Time)
  | resolved (verdict : Decision) (reviewer : String) (outcome : ReviewerDecision)
  deriving DecidableEq

inductive Move where
  | accept
  | decide (verdict : Decision) (human : Bool)
  | claim (reviewer : String) (now : Time)
  | release (now : Time)
  | resolve (reviewer : String) (outcome : ReviewerDecision) (notes : String)
  deriving DecidableEq

inductive Stage.Step : Stage → Move → Stage → Prop where
  | accept : Step .absent .accept .accepted
  | settle {v : Decision} (sure : v ≠ .flag) : Step .accepted (.decide v false) (.settled v)
  | escalate {v : Decision} : Step .accepted (.decide v true) (.pending v)
  | claim {v : Decision} {reviewer : String} {now : Time} :
    Step (.pending v) (.claim reviewer now) (.claimed v reviewer (now + seconds claimTtlSeconds))
  | reclaim {v : Decision} {holder reviewer : String} {expires now : Time}
      (free : reviewer = holder ∨ expires < now) :
    Step (.claimed v holder expires) (.claim reviewer now) (.claimed v reviewer (now + seconds claimTtlSeconds))
  | release {v : Decision} {holder : String} {expires now : Time} (late : expires < now) :
    Step (.claimed v holder expires) (.release now) (.pending v)
  | resolve {v : Decision} {holder notes : String} {expires : Time} {outcome : ReviewerDecision}
      (reason : isOverride outcome v = true → 3 ≤ notes.length) :
    Step (.claimed v holder expires) (.resolve holder outcome notes) (.resolved v holder outcome)

/-- The life of one piece of content. -/
def moderation : Machine Stage Move := ⟨Stage.Step⟩

variable {s s' : Stage} {tr : List Move}

/-! ## The course of a life -/

/-- The review is claimed or released. -/
def Move.handles : Move → Bool
  | .claim .. | .release _ => true
  | _ => false

/-- The reviewer of a claim. -/
def Move.claimer? : Move → Option String
  | .claim reviewer _ => some reviewer
  | _ => none

/-- The moves that lead to a stage. -/
inductive Life : List Move → Stage → Prop where
  | absent : Life [] .absent
  | accepted : Life [.accept] .accepted
  | settled {v : Decision} (sure : v ≠ .flag) : Life [.accept, .decide v false] (.settled v)
  | pending {v : Decision} {ms : List Move} (handled : ∀ m ∈ ms, m.handles = true) :
    Life (.accept :: .decide v true :: ms) (.pending v)
  | claimed {v : Decision} {ms : List Move} {reviewer : String} {expires : Time}
      (handled : ∀ m ∈ ms, m.handles = true) (last : (ms.filterMap Move.claimer?).getLast? = some reviewer) :
    Life (.accept :: .decide v true :: ms) (.claimed v reviewer expires)
  | resolved {v : Decision} {ms : List Move} {reviewer notes : String} {outcome : ReviewerDecision}
      (handled : ∀ m ∈ ms, m.handles = true) (last : (ms.filterMap Move.claimer?).getLast? = some reviewer)
      (reason : isOverride outcome v = true → 3 ≤ notes.length) :
    Life (.accept :: .decide v true :: (ms ++ [.resolve reviewer outcome notes])) (.resolved v reviewer outcome)

theorem handled_snoc {ms : List Move} {m : Move} (h : ∀ m ∈ ms, m.handles = true) (hm : m.handles = true) :
    ∀ m' ∈ ms ++ [m], m'.handles = true := by
  intro m' hm'
  rcases List.mem_append.mp hm' with h' | h'
  · exact h m' h'
  · rw [List.mem_singleton.mp h']
    exact hm

theorem Life.step {m : Move} (h : Life tr s) (hm : s.Step m s') : Life (tr ++ [m]) s' := by
  cases hm with
  | accept =>
    cases h
    exact .accepted
  | settle sure =>
    cases h
    exact .settled sure
  | escalate =>
    cases h
    have hnone : ∀ m ∈ ([] : List Move), m.handles = true := fun _ hm => (nomatch hm)
    exact .pending hnone
  | claim =>
    cases h with
    | pending handled => exact .claimed (handled_snoc handled rfl) (by simp [Move.claimer?])
  | reclaim free =>
    cases h with
    | claimed handled last => exact .claimed (handled_snoc handled rfl) (by simp [Move.claimer?])
  | release late =>
    cases h with
    | claimed handled last => exact .pending (handled_snoc handled rfl)
  | resolve reason =>
    cases h with
    | claimed handled last => exact .resolved handled last reason

/-- Every trace is a life. -/
theorem life_of_trace (h : moderation.Trace .absent tr s) : Life tr s := by
  induction h with
  | nil => exact .absent
  | snoc _ hm ih => exact ih.step hm

/-! ## Claims exclude each other -/

/-- Between two claims of different reviewers, without a claim in between, the first runs out. -/
def Exclusive (tr : List Move) : Prop :=
  ∀ pre mid post reviewer now reviewer' now',
    tr = pre ++ [.claim reviewer now] ++ mid ++ [.claim reviewer' now'] ++ post →
    (∀ m ∈ mid, m.claimer? = none) → reviewer ≠ reviewer' →
    now + seconds claimTtlSeconds < now' ∨ ∃ t, .release t ∈ mid ∧ now + seconds claimTtlSeconds < t

/-- What becomes of a claimed review before it is claimed again. -/
theorem stage_of_unclaimed {v : Decision} {reviewer : String} {expires : Time}
    (h : moderation.Trace (.claimed v reviewer expires) tr s) (hm : ∀ m ∈ tr, m.claimer? = none) :
    s = .claimed v reviewer expires ∨ (s = .pending v ∧ ∃ t, .release t ∈ tr ∧ expires < t) ∨
      ∃ outcome, s = .resolved v reviewer outcome := by
  induction h with
  | nil => exact .inl rfl
  | snoc _ hl ih =>
    rcases ih fun m hm' => hm m (List.mem_append_left _ hm') with rfl | ⟨rfl, -⟩ | ⟨outcome, rfl⟩
    · cases hl with
      | reclaim => exact absurd (hm _ (List.mem_append_right _ List.mem_cons_self)) (by simp [Move.claimer?])
      | release late => exact .inr (.inl ⟨rfl, _, by simp, late⟩)
      | resolve => exact .inr (.inr ⟨_, rfl⟩)
    · cases hl
      exact absurd (hm _ (List.mem_append_right _ List.mem_cons_self)) (by simp [Move.claimer?])
    · cases hl

/-- A claim is not taken over before it has run out. -/
theorem exclusive_of_trace (h : moderation.Trace s tr s') : Exclusive tr := by
  rintro pre mid post reviewer now reviewer' now' rfl hmid hne
  obtain ⟨s₃, h, -⟩ := h.split
  obtain ⟨s₂, h, hclaim'⟩ := h.last
  obtain ⟨s₁, h, hmoves⟩ := h.split
  obtain ⟨s₀, -, hclaim⟩ := h.last
  have claimed : ∃ v, s₁ = .claimed v reviewer (now + seconds claimTtlSeconds) := by
    cases hclaim with
    | claim => exact ⟨_, rfl⟩
    | reclaim => exact ⟨_, rfl⟩
  obtain ⟨v, rfl⟩ := claimed
  rcases stage_of_unclaimed hmoves hmid with rfl | ⟨rfl, t, ht, hlate⟩ | ⟨outcome, rfl⟩
  · cases hclaim' with
    | reclaim free =>
      rcases free with heq | hlate
      · exact absurd heq.symm hne
      · exact .inl hlate
  · exact .inr ⟨t, ht, hlate⟩
  · cases hclaim'

end CM
