import ContentModeration.Framework.Pool

/-!
# Runs without some of the calls

Whether some calls of a pool, those that are `gone`, have any bearing on the
others: `Separate` relates the worlds of a run with them and of one without. The
steps of the other calls do the same in both worlds, those of the calls that are
gone leave the relation as it is. Then the run without them exists, with the same
steps of the other calls and the same results (`Run.without`).
-/

namespace CM

namespace Pool

variable {I : Iface} {ε : Type} {sys : Pool I ε}

/-- The call that a step belongs to. -/
def Step.call? (st : sys.Step) : Option sys.Entry :=
  st.action.thread.bind fun i => (st.after.threads i).map (·.entry)

/-- The result of thread `i`, if it has returned. -/
def Thread.result? (i : Nat) : sys.Thread → Option (Nat × sys.Entry × sys.Out)
  | ⟨e, some (.ret a)⟩ => some (i, e, a)
  | _ => none

/-- The result of the call, if it returns with the step. -/
def Step.result? (st : sys.Step) : Option (Nat × sys.Entry × sys.Out) :=
  st.action.thread.bind fun i => (st.after.threads i).bind (Thread.result? i)

theorem call?_set {c b : sys.Config} {a : sys.Action} {i : Nat} {w : sys.World} {t : sys.Thread}
    (ha : a.thread = some i) : (⟨b, a, c.set i w t⟩ : sys.Step).call? = some t.entry := by
  simp only [Step.call?, ha, Option.bind_some, Config.threads_set_self, Option.map_some]

theorem result?_set {c b : sys.Config} {a : sys.Action} {i : Nat} {w : sys.World} {t : sys.Thread}
    (ha : a.thread = some i) : (⟨b, a, c.set i w t⟩ : sys.Step).result? = t.result? i := by
  simp only [Step.result?, ha, Option.bind_some, Config.threads_set_self]

/-- The results of the calls, the latest first. -/
def results (h : List sys.Step) : List (Nat × sys.Entry × sys.Out) := h.filterMap Step.result?

/-- In the steps that `ok` allows, those of the calls that are gone leave the worlds with and
without them related, and every other step has a counterpart without them. -/
structure Separate (sys : Pool I ε) (gone : Nat → sys.Entry → Bool) (ok : sys.Config → sys.Action → Prop)
    (sim : sys.World → sys.World → Prop) : Prop where
  step {c : sys.Config} {i : Nat} {e : sys.Entry} {q : I.Req} {k : Except ε (I.Ans q) → Prog I ε sys.Out}
    {p : sys.Pick} {s t : sys.World} {r : Except ε (I.Ans q)} : c.At i e q k → ok c (.step i p) → gone i e = false →
    sim c.world t → sys.exec i q p c.world = some (r, s) → ∃ t', sys.exec i q p t = some (r, t') ∧ sim s t'
  skip {c : sys.Config} {i : Nat} {e : sys.Entry} {q : I.Req} {k : Except ε (I.Ans q) → Prog I ε sys.Out}
    {p : sys.Pick} {s t : sys.World} {r : Except ε (I.Ans q)} : c.At i e q k → ok c (.step i p) → gone i e = true →
    sim c.world t → sys.exec i q p c.world = some (r, s) → sim s t
  env {e : sys.Env} {s s' t : sys.World} : sim s t → sys.env e s = some s' → ∃ t', sys.env e t = some t' ∧ sim s' t'
  crash {i : Nat} {s t : sys.World} : sim s t → sim (sys.crash i s) (sys.crash i t)
  die {i : Nat} {s t : sys.World} : sim s t → sim (sys.crash i s) t

variable {gone : Nat → sys.Entry → Bool} {ok : sys.Config → sys.Action → Prop} {sim : sys.World → sys.World → Prop}

/-- The step is of a call that is gone. -/
def Step.goneBy (gone : Nat → sys.Entry → Bool) (st : sys.Step) : Bool :=
  st.action.thread.any fun i => (st.after.threads i).any fun t => gone i t.entry

/-- The thread of a run without the calls that are gone. -/
def left (gone : Nat → sys.Entry → Bool) (i : Nat) (t : Option sys.Thread) : Option sys.Thread :=
  t.filter fun t => !gone i t.entry

/-- A configuration and the one without the calls that are gone. -/
structure Without (gone : Nat → sys.Entry → Bool) (sim : sys.World → sys.World → Prop) (c c' : sys.Config) :
    Prop where
  world : sim c.world c'.world
  threads (i : Nat) : c'.threads i = left gone i (c.threads i)

theorem left_kept {i : Nat} {t : sys.Thread} (h : gone i t.entry = false) : left gone i (some t) = some t := by
  simp [left, h]

theorem left_gone {i : Nat} {t : sys.Thread} (h : gone i t.entry = true) : left gone i (some t) = none := by
  simp [left, h]

theorem goneBy_set {c b : sys.Config} {a : sys.Action} {i : Nat} {w : sys.World} {t : sys.Thread}
    (ha : a.thread = some i) : (⟨b, a, c.set i w t⟩ : sys.Step).goneBy gone = gone i t.entry := by
  simp only [Step.goneBy, ha, Option.any_some, Config.threads_set_self]

theorem goneBy_of_result? {st : sys.Step} {i : Nat} {e : sys.Entry} {a : sys.Out} (h : st.result? = some (i, e, a)) :
    st.goneBy gone = gone i e := by
  obtain ⟨j, hj, h⟩ := Option.bind_eq_some_iff.mp h
  obtain ⟨t, ht, h⟩ := Option.bind_eq_some_iff.mp h
  simp only [Step.goneBy, hj, Option.any_some, ht]
  simp only [Thread.result?] at h
  split at h
  · cases h
    rfl
  · cases h

/-- Whether a call is gone may depend on its entry alone. -/
theorem goneBy_entry (g : sys.Entry → Bool) (st : sys.Step) : st.goneBy (fun _ => g) = st.call?.any g := by
  simp only [Step.goneBy, Step.call?]
  cases st.action.thread with
  | none => rfl
  | some i => simp only [Option.any_some, Option.bind_some, Option.any_map]

namespace Without

variable {c c' : sys.Config} {i : Nat} {w w' : sys.World} {t : sys.Thread}

/-- Both sides move thread `i` to `t`. -/
theorem set (h : Without gone sim c c') (hw : sim w w') (ht : gone i t.entry = false) :
    Without gone sim (c.set i w t) (c'.set i w' t) := by
  refine ⟨hw, fun j => ?_⟩
  by_cases hj : j = i
  · subst hj
    rw [Config.threads_set_self, Config.threads_set_self, left_kept ht]
  · rw [Config.threads_set_ne _ _ _ hj, Config.threads_set_ne _ _ _ hj, h.threads j]

/-- A call that is gone moves by itself. -/
theorem skip (h : Without gone sim c c') (hw : sim w c'.world) (hi : c'.threads i = none)
    (ht : gone i t.entry = true) :
    Without gone sim (c.set i w t) c' := by
  refine ⟨hw, fun j => ?_⟩
  by_cases hj : j = i
  · subst hj
    rw [Config.threads_set_self, left_gone ht, hi]
  · rw [Config.threads_set_ne _ _ _ hj, h.threads j]

/-- A call that is not gone has the same results on both sides. -/
theorem returned_iff (h : Without gone sim c c') {e : sys.Entry} {a : sys.Out} (hg : ∀ e, gone i e = false) :
    c'.Returned i e a ↔ c.Returned i e a := by
  unfold Config.Returned
  rw [h.threads i, left, Option.filter_eq_some_iff]
  exact and_iff_left (by rw [hg]; rfl)

end Without

/-- The step of one of the calls that stay, or of the world, has a counterpart;
the other steps have no effect on what stays. -/
theorem Without.next (hS : Separate sys gone ok sim) {c d c' : sys.Config} {a : sys.Action}
    (h : Without gone sim c c') (ha : ok c a) (hn : next c a = some d) :
    ((⟨c, a, d⟩ : sys.Step).goneBy gone = true ∧ Without gone sim d c') ∨
    ((⟨c, a, d⟩ : sys.Step).goneBy gone = false ∧ ∃ d', Pool.next c' a = some d' ∧ Without gone sim d d' ∧
      (⟨c', a, d'⟩ : sys.Step).result? = (⟨c, a, d⟩ : sys.Step).result?) := by
  -- the moved thread `t`, of a call that is gone or not
  have move : ∀ {i : Nat} {w : sys.World} {t : sys.Thread}, a.thread = some i → d = c.set i w t →
      (gone i t.entry = true → c'.threads i = none ∧ sim w c'.world) →
      (gone i t.entry = false → ∃ w', Pool.next c' a = some (c'.set i w' t) ∧ sim w w') →
      ((⟨c, a, d⟩ : sys.Step).goneBy gone = true ∧ Without gone sim d c') ∨
      ((⟨c, a, d⟩ : sys.Step).goneBy gone = false ∧ ∃ d', Pool.next c' a = some d' ∧ Without gone sim d d' ∧
        (⟨c', a, d'⟩ : sys.Step).result? = (⟨c, a, d⟩ : sys.Step).result?) := by
    intro i w t ht hd hgone hkept
    subst hd
    rw [goneBy_set ht]
    cases hg : gone i t.entry with
    | true =>
      obtain ⟨hi, hw⟩ := hgone hg
      exact .inl ⟨rfl, h.skip hw hi hg⟩
    | false =>
      obtain ⟨w', hx, hw⟩ := hkept hg
      exact .inr ⟨rfl, _, hx, h.set hw hg, by rw [result?_set ht, result?_set ht]⟩
  cases a with
  | start i e =>
    obtain ⟨hi, rfl⟩ := next_start hn
    have hi' : c'.threads i = none := by rw [h.threads i, hi]; rfl
    refine move rfl rfl (fun _ => ⟨hi', h.world⟩) fun _ => ⟨_, ?_, h.world⟩
    simp only [Pool.next, hi']
  | step i p =>
    obtain ⟨e, q, k, r, w, hat, hx, rfl⟩ := next_step hn
    have hi' : c'.threads i = left gone i (some ⟨e, some (.call q k)⟩) := by
      rw [h.threads i, show c.threads i = _ from hat]
    refine move rfl rfl (fun hg => ?_) fun hg => ?_
    · exact ⟨hi'.trans (left_gone hg), hS.skip hat ha hg h.world hx⟩
    · obtain ⟨w', hx', hw⟩ := hS.step hat ha hg h.world hx
      exact ⟨w', next_of_at (hi'.trans (left_kept hg)) hx', hw⟩
  | crash i =>
    obtain ⟨e, q, k, hat, rfl⟩ := next_crash hn
    have hi' : c'.threads i = left gone i (some ⟨e, some (.call q k)⟩) := by
      rw [h.threads i, show c.threads i = _ from hat]
    refine move rfl rfl (fun hg => ?_) fun hg => ?_
    · exact ⟨hi'.trans (left_gone hg), hS.die h.world⟩
    · have hi' := hi'.trans (left_kept hg)
      exact ⟨_, by simp only [Pool.next, hi'], hS.crash h.world⟩
  | env e =>
    obtain ⟨w, hx, rfl⟩ := next_env hn
    obtain ⟨w', hx', hw⟩ := hS.env h.world hx
    refine .inr ⟨rfl, { c' with world := w' }, ?_, ⟨hw, h.threads⟩, rfl⟩
    simp only [Pool.next, hx', Option.map_some]

theorem results_cons (st : sys.Step) (h : List sys.Step) : results (st :: h) = st.result?.toList ++ results h := by
  rw [results, List.filterMap_cons]
  cases st.result? <;> rfl

theorem filter_result? {st : sys.Step} {b : Bool} (h : st.goneBy gone = b) :
    st.result?.toList.filter (fun x => !gone x.1 x.2.1) = if b then [] else st.result?.toList := by
  cases hr : st.result? with
  | none => cases b <;> rfl
  | some x =>
    rw [goneBy_of_result? hr] at h
    cases b <;> simp [h]

/-- The run without the calls that are gone: it has the other steps, and the
other calls have the same results. -/
theorem Run.without (hS : Separate sys gone ok sim) {c₀ c₀' c : sys.Config} {h : List sys.Step}
    (h₀ : Without gone sim c₀ c₀') (hr : Run ok c₀ h c) :
    ∃ h' c', Run anything c₀' h' c' ∧ Without gone sim c c' ∧
      h'.map Step.action = (h.filter fun st => !st.goneBy gone).map Step.action ∧
      results h' = (results h).filter fun x => !gone x.1 x.2.1 := by
  induction hr with
  | nil => exact ⟨[], c₀', .nil, h₀, rfl, rfl⟩
  | @cons h c a d _ ha hn ih =>
    obtain ⟨h', c', hr', hw, hacts, hres⟩ := ih
    rcases hw.next hS ha hn with ⟨hg, hw'⟩ | ⟨hg, d', hn', hw', hre⟩
    · refine ⟨h', c', hr', hw', ?_, ?_⟩
      · rw [hacts, List.filter_cons_of_neg (by simp [hg])]
      · rw [results_cons, List.filter_append, filter_result? hg, if_pos rfl, List.nil_append, hres]
    · refine ⟨_, d', .cons hr' trivial hn', hw', ?_, ?_⟩
      · rw [List.map_cons, hacts, List.filter_cons_of_pos (by simp [hg]), List.map_cons]
      · rw [results_cons, results_cons, List.filter_append, filter_result? hg, if_neg (by simp), hre, hres]

end Pool

end CM
