import ContentModeration.Framework.Pool

/-!
# Contracts for the requests of concurrent programs

`Rules` state what every thread may count on: an invariant `inv` of the
world, what the others may do between two requests of thread `i` (`rely i`),
and what thread `i` must know before it makes a request (`pre i q`). Each
request keeps the invariant and does to the others only what they may expect,
given its precondition (`Rules.Valid`, proven once, by cases on requests);
each program makes only requests whose preconditions it knows (`wp`, proven
program by program with `wp_call`, `wp_bind` and `wp_attempt`; `Triple` is a
program's specification).

`Run.sound` puts the two together: in every run, the invariant holds, every
thread about to make a request satisfies its precondition (`Sound.pre_of_at`), and
every thread that has returned satisfies its postcondition (`Sound.post_of_returned`).
What is claimed of whole runs is then proven by cases on requests, from their
preconditions, without the programs.
-/

namespace CM

open Pool

variable {I : Iface} {ε : Type} {α β : Type}

/-- What the threads of a system may count on, and what they owe each other. -/
structure Rules (sys : Pool I ε) where
  /-- The outcomes of the requests of a call that are considered. -/
  allowed : Nat → sys.Entry → (q : I.Req) → sys.Pick → sys.World → Prop
  inv : sys.World → Prop
  /-- What may happen between two requests of thread `i`. -/
  rely : Nat → sys.World → sys.World → Prop
  /-- What thread `i` knows when it makes a request. -/
  pre : Nat → (q : I.Req) → sys.World → Prop

namespace Rules

variable {sys : Pool I ε} (R : Rules sys)

/-- Requests whose preconditions hold keep the invariant and what the other
threads rely on, as do the world's own steps and the death of a thread. -/
structure Valid : Prop where
  refl {i : Nat} (s : sys.World) : R.rely i s s
  trans {i : Nat} {s s' s'' : sys.World} : R.rely i s s' → R.rely i s' s'' → R.rely i s s''
  step {i : Nat} {e : sys.Entry} {q : I.Req} {p : sys.Pick} {s s' : sys.World}
    {r : Except ε (I.Ans q)} :
    R.inv s → R.pre i q s → R.allowed i e q p s → sys.exec i q p s = some (r, s') →
      R.inv s' ∧ ∀ j ≠ i, R.rely j s s'
  env {e : sys.Env} {s s' : sys.World} : R.inv s → sys.env e s = some s' →
    R.inv s' ∧ ∀ j, R.rely j s s'
  crash {i : Nat} {s : sys.World} : R.inv s → R.inv (sys.crash i s) ∧
    ∀ j ≠ i, R.rely j s (sys.crash i s)

/-- Thread `i`, a call of `e` with the program `p` left, whatever the others
do, makes only requests whose preconditions hold, and ends with `Q`. -/
def wp (i : Nat) (e : sys.Entry) : Prog I ε α → (Except ε α → sys.World → Prop) → sys.World → Prop
  | .ret a, Q, s => ∀ s', R.rely i s s' → R.inv s' → Q (.ok a) s'
  | .throw x, Q, s => ∀ s', R.rely i s s' → R.inv s' → Q (.error x) s'
  | .call q k, Q, s => ∀ s', R.rely i s s' → R.inv s' → R.pre i q s' ∧
      ∀ p r s'', R.allowed i e q p s' → sys.exec i q p s' = some (r, s'') → wp i e (k r) Q s''

/-- The others keep `K`. -/
def Stable (i : Nat) (K : sys.World → Prop) : Prop :=
  ∀ s s', R.rely i s s' → R.inv s' → K s → K s'

/-- From `K`, the program `p` of thread `i`, a call of `e`, ends with `Q`. -/
def Triple (i : Nat) (e : sys.Entry) (K : sys.World → Prop) (p : Prog I ε α) (Q : Except ε α → sys.World → Prop) :
    Prop := ∀ s, R.inv s → K s → R.wp i e p Q s

variable {R} {i : Nat} {e : sys.Entry} {s s' : sys.World} {K L : sys.World → Prop}
  {Q Q' : Except ε α → sys.World → Prop}

/-! ## The rules for programs -/

/-- The others' steps keep what is known of the rest of a program. -/
theorem wp_rely (hv : R.Valid) {p : Prog I ε α} (h : R.wp i e p Q s) (hr : R.rely i s s') :
    R.wp i e p Q s' := by
  cases p <;> exact fun t ht => h t (hv.trans hr ht)

theorem wp_mono {p : Prog I ε α} (h : R.wp i e p Q s) (hQ : ∀ r s, R.inv s → Q r s → Q' r s) :
    R.wp i e p Q' s := by
  induction p generalizing s with
  | ret a => exact fun t ht hi => hQ _ t hi (h t ht hi)
  | throw e => exact fun t ht hi => hQ _ t hi (h t ht hi)
  | call q k ih =>
    intro t ht hi
    obtain ⟨hp, hk⟩ := h t ht hi
    exact ⟨hp, fun p r t' ha hx => ih r (hk p r t' ha hx)⟩

theorem wp_ret (hK : R.Stable i K) {a : α} (hs : K s) (hQ : ∀ t, R.inv t → K t → Q (.ok a) t) :
    R.wp i e (.ret a) Q s := fun t ht hi => hQ t hi (hK s t ht hi hs)

theorem wp_throw (hK : R.Stable i K) {x : ε} (hs : K s)
    (hQ : ∀ t, R.inv t → K t → Q (.error x) t) : R.wp i e (.throw x : Prog I ε α) Q s :=
  fun t ht hi => hQ t hi (hK s t ht hi hs)

/-- A request, from what the thread knows, `K`, to what is left after it. -/
theorem wp_call (hv : R.Valid) (hK : R.Stable i K) {q : I.Req}
    {k : Except ε (I.Ans q) → Prog I ε α} (hs : K s) (hp : ∀ t, R.inv t → K t → R.pre i q t)
    (hk : ∀ t p r t', R.inv t → K t → R.allowed i e q p t → sys.exec i q p t = some (r, t') →
      R.inv t' → R.wp i e (k r) Q t') : R.wp i e (.call q k) Q s := by
  intro t ht hi
  have hKt := hK s t ht hi hs
  have hpt := hp t hi hKt
  exact ⟨hpt, fun p r t' ha hx => hk t p r t' hi hKt ha hx (hv.step hi hpt ha hx).1⟩

theorem wp_bind (hv : R.Valid) {p : Prog I ε α} {f : α → Prog I ε β}
    {Q : Except ε β → sys.World → Prop} (hi : R.inv s)
    (h : R.wp i e p (fun
      | .ok a, s => R.wp i e (f a) Q s
      | .error x, s => Q (.error x) s) s) : R.wp i e (p >>= f) Q s := by
  induction p generalizing s with
  | ret a => exact h s (hv.refl s) hi
  | throw e => exact h
  | call q k ih =>
    intro t ht hi
    obtain ⟨hp, hk⟩ := h t ht hi
    exact ⟨hp, fun p r t' ha hx => ih r (hv.step hi hp ha hx).1 (hk p r t' ha hx)⟩

theorem wp_attempt {p : Prog I ε α} {Q : Except ε (Except ε α) → sys.World → Prop}
    (h : R.wp i e p (fun r s => Q (.ok r) s) s) : R.wp i e p.attempt Q s := by
  induction p generalizing s with
  | ret a => exact h
  | throw e => exact h
  | call q k ih =>
    intro t ht hi
    obtain ⟨hp, hk⟩ := h t ht hi
    exact ⟨hp, fun p r t' ha hx => ih r (hk p r t' ha hx)⟩

theorem wp_tryCatch (hv : R.Valid) {p : Prog I ε α} {h : ε → Prog I ε α} (hi : R.inv s)
    (hp : R.wp i e p (fun
      | .ok a, s => R.wp i e (.ret a) Q s
      | .error x, s => R.wp i e (h x) Q s) s) : R.wp i e (p.tryCatch h) Q s := by
  refine wp_bind hv hi (wp_attempt (wp_mono hp fun r t _ ht => ?_))
  cases r <;> exact ht

theorem Triple.mono {p : Prog I ε α} (h : R.Triple i e K p Q) (hK : ∀ s, R.inv s → L s → K s)
    (hQ : ∀ r s, R.inv s → Q r s → Q' r s) : R.Triple i e L p Q' :=
  fun s hi hs => wp_mono (h s hi (hK s hi hs)) hQ

theorem Triple.bind (hv : R.Valid) {p : Prog I ε α} {f : α → Prog I ε β}
    {Q : Except ε β → sys.World → Prop} {M : α → sys.World → Prop}
    (h : R.Triple i e K p fun
      | .ok a, s => M a s
      | .error x, s => Q (.error x) s)
    (hf : ∀ a, R.Triple i e (M a) (f a) Q) : R.Triple i e K (p >>= f) Q := by
  intro s hi hs
  refine wp_bind hv hi (wp_mono (h s hi hs) fun r t ht hq => ?_)
  cases r with
  | ok a => exact hf a t ht hq
  | error e => exact hq

theorem Triple.ret {a : α} (hK : R.Stable i K) (hQ : ∀ t, R.inv t → K t → Q (.ok a) t) :
    R.Triple i e K (.ret a) Q := fun _ _ hs => wp_ret hK hs hQ

theorem Triple.throw {x : ε} (hK : R.Stable i K) (hQ : ∀ t, R.inv t → K t → Q (.error x) t) :
    R.Triple i e K (.throw x : Prog I ε α) Q := fun _ _ hs => wp_throw hK hs hQ

theorem Triple.perform (hv : R.Valid) (hK : R.Stable i K) {q : I.Req}
    {Q : Except ε (I.Ans q) → sys.World → Prop} (hp : ∀ t, R.inv t → K t → R.pre i q t)
    (hQ : ∀ r, R.Stable i (Q r))
    (hk : ∀ t p r t', R.inv t → K t → R.allowed i e q p t → sys.exec i q p t = some (r, t') →
      R.inv t' → Q r t') : R.Triple i e K (Prog.perform q) Q := by
  intro s _ hs
  refine wp_call hv hK hs hp fun t p r t' hi hKt ha hx hi' => ?_
  have := hk t p r t' hi hKt ha hx hi'
  cases r with
  | ok a => exact wp_ret (hQ _) this fun _ _ h => h
  | error e => exact wp_throw (hQ _) this fun _ _ h => h

theorem Triple.attempt {p : Prog I ε α} {Q : Except ε (Except ε α) → sys.World → Prop}
    (h : R.Triple i e K p fun r s => Q (.ok r) s) : R.Triple i e K p.attempt Q :=
  fun s hi hs => wp_attempt (h s hi hs)

theorem Triple.tryCatch (hv : R.Valid) {p : Prog I ε α} {h : ε → Prog I ε α}
    {M : ε → sys.World → Prop} (hQ : ∀ a, R.Stable i (Q (.ok a)))
    (hp : R.Triple i e K p fun
      | .ok a, s => Q (.ok a) s
      | .error x, s => M x s)
    (hh : ∀ x, R.Triple i e (M x) (h x) Q) : R.Triple i e K (p.tryCatch h) Q := by
  intro s hi hs
  refine wp_tryCatch hv hi (wp_mono (hp s hi hs) fun r t ht hq => ?_)
  cases r with
  | ok a => exact wp_ret (hQ a) hq fun _ _ h => h
  | error x => exact hh x t ht hq

/-- What the requests of every thread keep is kept by every program. -/
theorem Triple.frame (hL : R.Stable i L)
    (hstep : ∀ {q p r t t'}, R.inv t → R.pre i q t → R.allowed i e q p t → sys.exec i q p t = some (r, t') →
      L t → L t') {p : Prog I ε α} (h : R.Triple i e K p Q) :
    R.Triple i e (fun s => K s ∧ L s) p fun r s => Q r s ∧ L s := by
  have key : ∀ {p : Prog I ε α} {s}, R.wp i e p Q s → L s → R.wp i e p (fun r s => Q r s ∧ L s) s := by
    intro p
    induction p with
    | ret a => exact fun {s} h hs t ht hi => ⟨h t ht hi, hL s t ht hi hs⟩
    | throw x => exact fun {s} h hs t ht hi => ⟨h t ht hi, hL s t ht hi hs⟩
    | call q k ih =>
      intro s h hs t ht hi
      obtain ⟨hp, hk⟩ := h t ht hi
      exact ⟨hp, fun p r t' ha hx => ih r (hk p r t' ha hx) (hstep hi hp ha hx (hL s t ht hi hs))⟩
  exact fun s hi hs => key (h s hi hs.1) hs.2

/-! ## Soundness -/

/-- What the rules say of thread `i` in a configuration: it can be started
(`start`), or `wp` holds of what is left of it. -/
def ThreadOk (R : Rules sys) (start : Nat → sys.World → Prop)
    (post : Nat → sys.Entry → Except ε sys.Out → sys.World → Prop) (i : Nat) (s : sys.World) :
    Option sys.Thread → Prop
  | none => start i s
  | some ⟨_, none⟩ => True
  | some ⟨e, some p⟩ => R.wp i e p (post i e) s

/-- What holds of every configuration of a run. -/
structure Sound (R : Rules sys) (start : Nat → sys.World → Prop)
    (post : Nat → sys.Entry → Except ε sys.Out → sys.World → Prop) (c : sys.Config) : Prop where
  inv : R.inv c.world
  thread (i : Nat) : ThreadOk R start post i c.world (c.threads i)

variable {start : Nat → sys.World → Prop}
  {post : Nat → sys.Entry → Except ε sys.Out → sys.World → Prop} {c : sys.Config}

theorem ThreadOk.rely (hv : R.Valid) (hs : R.Stable i (start i)) (hi : R.inv s')
    {t : Option sys.Thread} (h : ThreadOk R start post i s t) (hr : R.rely i s s') :
    ThreadOk R start post i s' t := by
  match t, h with
  | none, h => exact hs s s' hr hi h
  | some ⟨_, none⟩, _ => trivial
  | some ⟨_, some _⟩, h => exact wp_rely hv h hr

theorem Sound.pre_of_at (hv : R.Valid) (h : Sound R start post c) {q : I.Req}
    {k : Except ε (I.Ans q) → Prog I ε sys.Out} (ha : c.At i e q k) : R.pre i q c.world := by
  have := h.thread i
  rw [show c.threads i = _ from ha] at this
  exact (this c.world (hv.refl _) h.inv).1

theorem Sound.post_of_returned (hv : R.Valid) (h : Sound R start post c) {a : sys.Out}
    (ha : c.Returned i e a) : post i e (.ok a) c.world := by
  have := h.thread i
  rw [show c.threads i = _ from ha] at this
  exact this c.world (hv.refl _) h.inv

theorem Sound.post_of_raised (hv : R.Valid) (h : Sound R start post c) {x : ε}
    (ha : c.threads i = some ⟨e, some (.throw x)⟩) : post i e (.error x) c.world := by
  have := h.thread i
  rw [ha] at this
  exact this c.world (hv.refl _) h.inv

/-- The rules are kept by every request and followed by every program. -/
structure Verified (R : Rules sys) (start : Nat → sys.World → Prop)
    (post : Nat → sys.Entry → Except ε sys.Out → sys.World → Prop) : Prop where
  valid : R.Valid
  stable (i : Nat) : R.Stable i (start i)
  code (i : Nat) (e : sys.Entry) : R.Triple i e (start i) (sys.code e) (post i e)

/-- The outcomes of the steps `ok` are considered by the rules. -/
def Admits (R : Rules sys) (ok : sys.Config → sys.Action → Prop) : Prop :=
  ∀ {c : sys.Config} {i : Nat} {e : sys.Entry} {p : sys.Pick} {q : I.Req}
    {k : Except ε (I.Ans q) → Prog I ε sys.Out}, ok c (.step i p) → c.At i e q k → R.allowed i e q p c.world

/-- A configuration without threads, from which the rules hold. -/
structure Initial (R : Rules sys) (start : Nat → sys.World → Prop) (c : sys.Config) : Prop where
  threads (i : Nat) : c.threads i = none
  inv : R.inv c.world
  start (i : Nat) : start i c.world

/-- Every step keeps `Sound`. -/
theorem Sound.next (hR : R.Verified start post) {ok : sys.Config → sys.Action → Prop}
    (hok : R.Admits ok) {a : sys.Action} {c' : sys.Config} (h : Sound R start post c) (ha : ok c a)
    (hn : next c a = some c') : Sound R start post c' := by
  cases a with
  | start j e =>
    obtain ⟨hj, rfl⟩ := next_start hn
    refine ⟨h.inv, fun l => ?_⟩
    have hl := h.thread l
    by_cases hlj : l = j
    · subst hlj
      rw [hj] at hl
      rw [Config.threads_set_self]
      exact hR.code l e _ h.inv hl
    · rwa [Config.threads_set_ne _ _ _ hlj]
  | step j p =>
    obtain ⟨e, q, k, r, w, hat, hx, rfl⟩ := next_step hn
    have hp := hok ha hat
    obtain ⟨hi, hr⟩ := hR.valid.step h.inv (h.pre_of_at hR.valid hat) hp hx
    refine ⟨hi, fun l => ?_⟩
    have hl := h.thread l
    by_cases hlj : l = j
    · subst hlj
      rw [show c.threads l = _ from hat] at hl
      rw [Config.threads_set_self]
      exact (hl c.world (hR.valid.refl _) h.inv).2 p r w hp hx
    · rw [Config.threads_set_ne _ _ _ hlj]
      exact hl.rely hR.valid (hR.stable l) hi (hr l hlj)
  | crash j =>
    obtain ⟨e, q, k, hat, rfl⟩ := next_crash hn
    obtain ⟨hi, hr⟩ := hR.valid.crash (i := j) h.inv
    refine ⟨hi, fun l => ?_⟩
    have hl := h.thread l
    by_cases hlj : l = j
    · subst hlj
      rw [Config.threads_set_self]
      trivial
    · rw [Config.threads_set_ne _ _ _ hlj]
      exact hl.rely hR.valid (hR.stable l) hi (hr l hlj)
  | env e =>
    obtain ⟨w, hw, rfl⟩ := next_env hn
    obtain ⟨hi, hr⟩ := hR.valid.env h.inv hw
    exact ⟨hi, fun l => (h.thread l).rely hR.valid (hR.stable l) hi (hr l)⟩

end Rules

section Run

variable {sys : Pool I ε} {R : Rules sys} {start : Nat → sys.World → Prop}
  {post : Nat → sys.Entry → Except ε sys.Out → sys.World → Prop} {ok : sys.Config → sys.Action → Prop}
  {c₀ c : sys.Config} {h : List sys.Step}

/-- In every run whose steps the rules admit, they hold of every configuration
reached. -/
theorem Pool.Run.sound (hR : R.Verified start post) (hok : R.Admits ok) (h₀ : R.Initial start c₀)
    (hr : Run ok c₀ h c) : R.Sound start post c := by
  induction hr with
  | nil => exact ⟨h₀.inv, fun i => by rw [h₀.threads i]; exact h₀.start i⟩
  | cons _ ha hn ih => exact ih.next hR hok ha hn

/-- What every request keeps when the rules are followed, and the world's own
steps keep, holds of every world reached. -/
theorem Pool.Run.invariant (hR : R.Verified start post) (hok : R.Admits ok) (h₀ : R.Initial start c₀)
    (hr : Run ok c₀ h c) {J : sys.World → Prop} (init : J c₀.world)
    (step : ∀ {i e q p r s s'}, R.inv s → J s → R.pre i q s → R.allowed i e q p s →
      sys.exec i q p s = some (r, s') → J s')
    (env : ∀ {e s s'}, R.inv s → J s → sys.env e s = some s' → J s')
    (crash : ∀ {i s}, R.inv s → J s → J (sys.crash i s)) : J c.world := by
  induction hr with
  | nil => exact init
  | @cons h c a c' hr ha hn ih =>
    have hs := hr.sound hR hok h₀
    cases a with
    | start j e =>
      obtain ⟨-, rfl⟩ := next_start hn
      exact ih
    | step j p =>
      obtain ⟨e, q, k, r, w, hat, hx, rfl⟩ := next_step hn
      exact step hs.inv ih (hs.pre_of_at hR.valid hat) (hok ha hat) hx
    | crash j =>
      obtain ⟨e, q, k, hat, rfl⟩ := next_crash hn
      exact crash hs.inv ih
    | env e =>
      obtain ⟨w, hw, rfl⟩ := next_env hn
      exact env hs.inv ih hw

/-- What holds of every thread that dies, and is kept by the others, holds of
every dead thread. -/
theorem Pool.Run.dead (hR : R.Verified start post) (hok : R.Admits ok) (h₀ : R.Initial start c₀)
    (hr : Run ok c₀ h c) {G : Nat → sys.World → Prop} (stable : ∀ i, R.Stable i (G i))
    (crash : ∀ {c i e q k}, ok c (.crash i) → c.At i e q k → R.inv c.world → R.pre i q c.world →
      G i (sys.crash i c.world)) : ∀ i e, c.threads i = some ⟨e, none⟩ → G i c.world := by
  induction hr with
  | nil =>
    intro i e hi
    rw [h₀.threads i] at hi
    cases hi
  | @cons h c a c' hr ha hn ih =>
    have hs := hr.sound hR hok h₀
    cases a with
    | start j f =>
      obtain ⟨-, rfl⟩ := next_start hn
      intro i e hi
      by_cases hij : i = j
      · rw [hij, Config.threads_set_self] at hi
        cases hi
      · rw [Config.threads_set_ne _ _ _ hij] at hi
        exact ih i e hi
    | step j p =>
      obtain ⟨f, q, k, r, w, hat, hx, rfl⟩ := next_step hn
      obtain ⟨hinv, hrely⟩ := hR.valid.step hs.inv (hs.pre_of_at hR.valid hat) (hok ha hat) hx
      intro i e hi
      by_cases hij : i = j
      · rw [hij, Config.threads_set_self] at hi
        cases hi
      · rw [Config.threads_set_ne _ _ _ hij] at hi
        exact stable i _ _ (hrely i hij) hinv (ih i e hi)
    | crash j =>
      obtain ⟨f, q, k, hat, rfl⟩ := next_crash hn
      obtain ⟨hinv, hrely⟩ := hR.valid.crash (i := j) hs.inv
      intro i e hi
      by_cases hij : i = j
      · subst hij
        exact crash ha hat hs.inv (hs.pre_of_at hR.valid hat)
      · rw [Config.threads_set_ne _ _ _ hij] at hi
        exact stable i _ _ (hrely i hij) hinv (ih i e hi)
    | env v =>
      obtain ⟨w, hw, rfl⟩ := next_env hn
      obtain ⟨hinv, hrely⟩ := hR.valid.env hs.inv hw
      exact fun i e hi => stable i _ _ (hrely i) hinv (ih i e hi)

end Run

end CM
