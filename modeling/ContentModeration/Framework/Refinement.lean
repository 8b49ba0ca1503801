import ContentModeration.Framework.Pool
import Mathlib.Data.List.Induction

/-!
# Refinement

A `Machine` is a transition system with labelled steps; it says what a system is for. In
`Machine.family`, a copy of it for each key steps by itself, so a trace of all copies is a
trace of each (`Trace.at`).

A pool refines a machine when each of its steps makes the machine go by the labels that are
read off the step, most often none, and the thread that steps answers for them
(`Pool.Refines`). Then each of its runs is a trace by the labels of its steps
(`Pool.Refines.run`), and for each of them a thread answers (`Pool.Refines.answered`).
-/

namespace CM

structure Machine (S L : Type) where
  step : S → L → S → Prop

namespace Machine

variable {S L : Type}

/-- The machine goes from `s` to a state by steps with these labels, the first label first. -/
inductive Trace (M : Machine S L) (s : S) : List L → S → Prop where
  | nil : Trace M s [] s
  | snoc {tr s' l s''} : Trace M s tr s' → M.step s' l s'' → Trace M s (tr ++ [l]) s''

variable {M : Machine S L} {s s' s'' : S} {l : L} {tr tr' : List L}

theorem Trace.single (h : M.step s l s') : M.Trace s [l] s' := Trace.nil.snoc h

theorem Trace.eq_of_nil (h : M.Trace s [] s') : s' = s := by
  generalize ht : ([] : List L) = t at h
  cases h with
  | nil => rfl
  | snoc => simp at ht

/-- The last step of a trace. -/
theorem Trace.last (h : M.Trace s (tr ++ [l]) s'') : ∃ s', M.Trace s tr s' ∧ M.step s' l s'' := by
  generalize ht : tr ++ [l] = t at h
  cases h with
  | nil => simp at ht
  | snoc hpre hl =>
    obtain ⟨rfl, hlast⟩ := List.append_inj' ht rfl
    cases hlast
    exact ⟨_, hpre, hl⟩

theorem Trace.append (h : M.Trace s tr s') (h' : M.Trace s' tr' s'') : M.Trace s (tr ++ tr') s'' := by
  induction h' with
  | nil => rwa [List.append_nil]
  | snoc _ hl ih =>
    rw [← List.append_assoc]
    exact ih.snoc hl

/-- A trace goes through a state after each of its labels. -/
theorem Trace.split (h : M.Trace s (tr ++ tr') s'') : ∃ s', M.Trace s tr s' ∧ M.Trace s' tr' s'' := by
  induction tr' using List.reverseRecOn generalizing s'' with
  | nil =>
    rw [List.append_nil] at h
    exact ⟨s'', h, .nil⟩
  | append_singleton tr' l ih =>
    rw [← List.append_assoc] at h
    obtain ⟨s₁, hpre, hl⟩ := h.last
    obtain ⟨mid, hm, hm'⟩ := ih hpre
    exact ⟨mid, hm, hm'.snoc hl⟩

/-! ## One copy for each key -/

/-- A copy of the machine for each key; one of them steps at a time. -/
def family (κ : Type) (M : Machine S L) : Machine (κ → S) (κ × L) where
  step f x g := M.step (f x.1) x.2 (g x.1) ∧ ∀ k, k ≠ x.1 → g k = f k

/-- The labels of the copy for the key `k`. -/
def labelsAt {κ : Type} [DecidableEq κ] (k : κ) (tr : List (κ × L)) : List L :=
  tr.filterMap fun x => if x.1 = k then some x.2 else none

theorem labelsAt_snoc_self {κ : Type} [DecidableEq κ] (k : κ) (tr : List (κ × L)) (l : L) :
    labelsAt k (tr ++ [(k, l)]) = labelsAt k tr ++ [l] := by simp [labelsAt]

theorem labelsAt_snoc_ne {κ : Type} [DecidableEq κ] {k : κ} {x : κ × L} (h : x.1 ≠ k) (tr : List (κ × L)) :
    labelsAt k (tr ++ [x]) = labelsAt k tr := by simp [labelsAt, h]

theorem mem_labelsAt {κ : Type} [DecidableEq κ] {k : κ} {tr : List (κ × L)} :
    l ∈ labelsAt k tr ↔ (k, l) ∈ tr := by
  simp only [labelsAt, List.mem_filterMap, Option.ite_none_right_eq_some, Option.some.injEq]
  constructor
  · rintro ⟨x, hx, rfl, rfl⟩
    exact hx
  · exact fun h => ⟨(k, l), h, rfl, rfl⟩

/-- A trace of all copies is a trace of each. -/
theorem Trace.at {κ : Type} [DecidableEq κ] {f g : κ → S} {tr : List (κ × L)}
    (h : (M.family κ).Trace f tr g) (k : κ) :
    M.Trace (f k) (labelsAt k tr) (g k) := by
  induction h with
  | nil => exact .nil
  | @snoc tr f' x g' _ hx ih =>
    by_cases hk : x.1 = k
    · subst hk
      rw [labelsAt_snoc_self]
      exact ih.snoc hx.1
    · rw [labelsAt_snoc_ne hk, hx.2 k (Ne.symm hk)]
      exact ih

/-- The steps of one copy are a trace of all, if it leaves the others. -/
theorem family_step {κ : Type} {f g : κ → S} {k : κ} (h : M.step (f k) l (g k))
    (hother : ∀ k', k' ≠ k → g k' = f k') :
    (M.family κ).step f (k, l) g := ⟨h, hother⟩

end Machine

namespace Pool

variable {I : Iface} {ε S L : Type} {sys : Pool I ε}

/-- The labels of a history, in its order, where `label` tells those of a step. -/
def labels (label : sys.Step → List L) : List sys.Step → List L
  | [] => []
  | st :: h => labels label h ++ label st

/-- Each step of a run from `c₀` makes the machine go by the labels of the step, on what `abs`
makes of the world, and the thread that steps answers for them, from then on. -/
structure Refines (ok : sys.Config → sys.Action → Prop) (c₀ : sys.Config) (M : Machine S L) (abs : sys.World → S)
    (label : sys.Step → List L) (answers : List sys.Step → sys.Config → Nat → L → Prop) : Prop where
  step {h c a c'} : Run ok c₀ h c → ok c a → next c a = some c' →
    M.Trace (abs c.world) (label ⟨c, a, c'⟩) (abs c'.world) ∧ ∀ l ∈ label ⟨c, a, c'⟩, ∃ i, a.thread = some i ∧
      answers (⟨c, a, c'⟩ :: h) c' i l
  keep {h c a c' i l} : Run ok c₀ h c → next c a = some c' → answers h c i l → answers (⟨c, a, c'⟩ :: h) c' i l

variable {ok : sys.Config → sys.Action → Prop} {c₀ c : sys.Config} {M : Machine S L} {abs : sys.World → S}
  {label : sys.Step → List L} {answers : List sys.Step → sys.Config → Nat → L → Prop} {h : List sys.Step}

/-- A run is a trace by its labels. -/
theorem Refines.run (hM : Refines ok c₀ M abs label answers) (hr : Run ok c₀ h c) :
    M.Trace (abs c₀.world) (labels label h) (abs c.world) := by
  induction hr with
  | nil => exact .nil
  | cons hr ha hn ih => exact ih.append (hM.step hr ha hn).1

/-- At the end of a run, the threads answer for the labels of all steps. -/
theorem Refines.answered (hM : Refines ok c₀ M abs label answers) (hr : Run ok c₀ h c) {st : sys.Step}
    (hst : st ∈ h) {l : L} (hl : l ∈ label st) : ∃ i, st.action.thread = some i ∧ answers h c i l := by
  induction hr with
  | nil => cases hst
  | cons hr ha hn ih =>
    rcases List.mem_cons.mp hst with rfl | hst
    · exact (hM.step hr ha hn).2 l hl
    · obtain ⟨i, hi, hans⟩ := ih hst
      exact ⟨i, hi, hM.keep hr hn hans⟩

/-- Each step of a run is a trace by its labels. -/
theorem Refines.stepwise (hM : Refines ok c₀ M abs label answers) (hr : Run ok c₀ h c) {st : sys.Step}
    (hst : st ∈ h) : M.Trace (abs st.before.world) (label st) (abs st.after.world) := by
  obtain ⟨h', hr', ha, hn, -⟩ := hr.split hst
  exact (hM.step hr' ha hn).1

/-- The labels of a history are those of its steps. -/
theorem mem_labels {l : L} : l ∈ labels label h ↔ ∃ st ∈ h, l ∈ label st := by
  induction h with
  | nil => simp [labels]
  | cons st h ih => simp only [labels, List.mem_append, ih, List.mem_cons, exists_eq_or_imp, or_comm]

end Pool

end CM
