import ContentModeration.Framework.Prog
import Mathlib.Logic.Function.Basic

/-!
# Runs of many programs at once

A `Pool` says what a request does to the shared world (`exec`), what happens
in the world by itself (`env`), what the death of a thread leaves behind
(`crash`), and which programs can be started (`code`). A `Config` is a world
with any number of threads, each suspended before its next request, finished
or dead; an `Action` moves one of them by one request. `exec` is a function of
a `Pick`, which settles what the request leaves open (does it fail, which
messages come back), so a list of actions can be replayed (`replay`).

A `Run` is a run of actions from `c₀`, with its history, the latest step
first; every step satisfies `ok`, which is how a theorem speaks of the runs
that avoid some behaviour. `next_start` and its siblings say once what an
action can do. `Run.requests_le` bounds how often a thread makes a kind of
request, from its program's `Prog.AtMost`.
-/

namespace CM

structure Pool (I : Iface) (ε : Type) where
  World : Type
  /-- What settles a request whose outcome is open. -/
  Pick : Type
  /-- What the world does by itself. -/
  Env : Type
  /-- The calls that can be started, and what they return. -/
  Entry : Type
  Out : Type
  /-- The request `q` of thread `i`: `none` if it cannot be served now. -/
  exec : Nat → (q : I.Req) → Pick → World → Option (Except ε (I.Ans q) × World)
  env : Env → World → Option World
  crash : Nat → World → World
  code : Entry → Prog I ε Out

namespace Pool

variable {I : Iface} {ε : Type}

/-- A started call and what is left of its program (`none` if it has died). -/
structure Thread (sys : Pool I ε) where
  entry : sys.Entry
  prog : Option (Prog I ε sys.Out)

structure Config (sys : Pool I ε) where
  world : sys.World
  threads : Nat → Option sys.Thread

inductive Action (sys : Pool I ε) where
  | start (i : Nat) (e : sys.Entry)
  | step (i : Nat) (p : sys.Pick)
  | crash (i : Nat)
  | env (e : sys.Env)

variable {sys : Pool I ε}

/-- Thread `i`, a call of `e`, is about to make the request `q`. -/
def Config.At (c : sys.Config) (i : Nat) (e : sys.Entry) (q : I.Req)
    (k : Except ε (I.Ans q) → Prog I ε sys.Out) : Prop :=
  c.threads i = some ⟨e, some (.call q k)⟩

/-- Thread `i`, a call of `e`, has returned `a`. -/
def Config.Returned (c : sys.Config) (i : Nat) (e : sys.Entry) (a : sys.Out) : Prop :=
  c.threads i = some ⟨e, some (.ret a)⟩

def Config.set (c : sys.Config) (i : Nat) (w : sys.World) (t : sys.Thread) : sys.Config :=
  ⟨w, Function.update c.threads i (some t)⟩

def next (c : sys.Config) : sys.Action → Option sys.Config
  | .start i e =>
    match c.threads i with
    | none => some (c.set i c.world ⟨e, some (sys.code e)⟩)
    | some _ => none
  | .step i p =>
    match c.threads i with
    | some ⟨e, some (.call q k)⟩ =>
      (sys.exec i q p c.world).map fun (r, w) => c.set i w ⟨e, some (k r)⟩
    | _ => none
  | .crash i =>
    match c.threads i with
    | some ⟨e, some (.call _ _)⟩ => some (c.set i (sys.crash i c.world) ⟨e, none⟩)
    | _ => none
  | .env e => (sys.env e c.world).map fun w => { c with world := w }

@[simp] theorem Config.world_set (c : sys.Config) (i : Nat) (w : sys.World) (t : sys.Thread) :
    (c.set i w t).world = w := rfl

@[simp] theorem Config.threads_set_self (c : sys.Config) (i : Nat) (w : sys.World) (t : sys.Thread) :
    (c.set i w t).threads i = some t := Function.update_self ..

theorem Config.threads_set_ne (c : sys.Config) {i j : Nat} (w : sys.World) (t : sys.Thread)
    (h : j ≠ i) : (c.set i w t).threads j = c.threads j := Function.update_of_ne h ..

/-! ## What an action can do -/

theorem next_start {c c' : sys.Config} {i : Nat} {e : sys.Entry} (h : next c (.start i e) = some c') :
    c.threads i = none ∧ c' = c.set i c.world ⟨e, some (sys.code e)⟩ := by
  simp only [next] at h
  split at h
  · rename_i hn
    exact ⟨hn, (Option.some.inj h).symm⟩
  · cases h

theorem next_step {c c' : sys.Config} {i : Nat} {p : sys.Pick} (h : next c (.step i p) = some c') :
    ∃ e q k r w, c.At i e q k ∧ sys.exec i q p c.world = some (r, w) ∧
      c' = c.set i w ⟨e, some (k r)⟩ := by
  simp only [next] at h
  split at h
  · rename_i e q k ht
    obtain ⟨⟨r, w⟩, hx, rfl⟩ := Option.map_eq_some_iff.mp h
    exact ⟨e, q, k, r, w, ht, hx, rfl⟩
  · cases h

theorem next_of_at {c : sys.Config} {i : Nat} {p : sys.Pick} {e : sys.Entry} {q : I.Req}
    {k : Except ε (I.Ans q) → Prog I ε sys.Out} {r : Except ε (I.Ans q)} {w : sys.World} (hat : c.At i e q k)
    (hx : sys.exec i q p c.world = some (r, w)) : next c (.step i p) = some (c.set i w ⟨e, some (k r)⟩) := by
  simp only [next]
  rw [show c.threads i = _ from hat]
  simp only [hx, Option.map_some]

theorem next_crash {c c' : sys.Config} {i : Nat} (h : next c (.crash i) = some c') :
    ∃ e q k, c.At i e q k ∧ c' = c.set i (sys.crash i c.world) ⟨e, none⟩ := by
  simp only [next] at h
  split at h
  · rename_i e q k ht
    exact ⟨e, q, k, ht, (Option.some.inj h).symm⟩
  · cases h

theorem next_env {c c' : sys.Config} {e : sys.Env} (h : next c (.env e) = some c') :
    ∃ w, sys.env e c.world = some w ∧ c' = { c with world := w } := by
  obtain ⟨w, hw, rfl⟩ := Option.map_eq_some_iff.mp h
  exact ⟨w, hw, rfl⟩

/-- The thread that an action moves. -/
def Action.thread : sys.Action → Option Nat
  | .start i _ | .step i _ | .crash i => some i
  | .env _ => none

/-- An action leaves the threads that it does not move. -/
theorem threads_next {c c' : sys.Config} {a : sys.Action} (h : next c a = some c') {i : Nat}
    (hi : a.thread ≠ some i) : c'.threads i = c.threads i := by
  have hne : ∀ {j}, some j ≠ some i → i ≠ j := fun h hij => h (congrArg some hij.symm)
  cases a with
  | start j e =>
    obtain ⟨-, rfl⟩ := next_start h
    exact Config.threads_set_ne _ _ _ (hne hi)
  | step j p =>
    obtain ⟨e, q, k, r, w, -, -, rfl⟩ := next_step h
    exact Config.threads_set_ne _ _ _ (hne hi)
  | crash j =>
    obtain ⟨e, q, k, -, rfl⟩ := next_crash h
    exact Config.threads_set_ne _ _ _ (hne hi)
  | env v =>
    obtain ⟨w, -, rfl⟩ := next_env h
    rfl

/-- The thread that an action moves is there after it. -/
theorem threads_of_next {c c' : sys.Config} {a : sys.Action} (h : next c a = some c') {i : Nat}
    (hi : a.thread = some i) : ∃ t, c'.threads i = some t := by
  cases a with
  | start j e =>
    cases hi
    obtain ⟨-, rfl⟩ := next_start h
    exact ⟨_, Config.threads_set_self ..⟩
  | step j p =>
    cases hi
    obtain ⟨e, q, k, r, w, -, -, rfl⟩ := next_step h
    exact ⟨_, Config.threads_set_self ..⟩
  | crash j =>
    cases hi
    obtain ⟨e, q, k, -, rfl⟩ := next_crash h
    exact ⟨_, Config.threads_set_self ..⟩
  | env v => cases hi

/-! ## Runs -/

/-- A step of a run: the action, and the configurations before and after it. -/
structure Step (sys : Pool I ε) where
  before : sys.Config
  action : sys.Action
  after : sys.Config

/-- The thread and the request of a step that makes one. -/
def Step.request (st : sys.Step) : Option (Nat × I.Req) :=
  match st.action with
  | .step i _ =>
    match st.before.threads i with
    | some ⟨_, some (.call q _)⟩ => some (i, q)
    | _ => none
  | _ => none

/-- The requests of a history, with the threads that made them. -/
def requests (h : List sys.Step) : List (Nat × I.Req) := h.filterMap Step.request

/-- A run from `c₀` to a configuration, all of whose steps satisfy `ok`, with
its history. -/
inductive Run (ok : sys.Config → sys.Action → Prop) (c₀ : sys.Config) :
    List sys.Step → sys.Config → Prop where
  | nil : Run ok c₀ [] c₀
  | cons {h c a c'} : Run ok c₀ h c → ok c a → next c a = some c' → Run ok c₀ (⟨c, a, c'⟩ :: h) c'

/-- Every action is allowed. -/
def anything (_ : sys.Config) (_ : sys.Action) : Prop := True

/-- The configuration `c` can be reached from `c₀`. -/
def Reachable (c₀ c : sys.Config) : Prop := ∃ h, Run anything c₀ h c

/-- What is allowed of a step may depend on the run that leads to it. -/
theorem Run.imp {ok ok' : sys.Config → sys.Action → Prop} {c₀ c : sys.Config} {h : List sys.Step}
    (hr : Run ok c₀ h c) (hm : ∀ {h c a}, Run ok c₀ h c → ok c a → ok' c a) : Run ok' c₀ h c := by
  induction hr with
  | nil => exact .nil
  | cons hr ha hn ih => exact .cons ih (hm hr ha) hn

theorem Run.mono {ok ok' : sys.Config → sys.Action → Prop} {c₀ c : sys.Config} {h : List sys.Step}
    (hr : Run ok c₀ h c) (hm : ∀ c a, ok c a → ok' c a) : Run ok' c₀ h c := hr.imp fun _ => hm _ _

/-- What all steps of a run satisfy may be asked of them. -/
theorem Run.of_mem {ok ok' : sys.Config → sys.Action → Prop} {c₀ c : sys.Config} {h : List sys.Step}
    (hr : Run ok c₀ h c) (hm : ∀ st ∈ h, ok' st.before st.action) : Run ok' c₀ h c := by
  induction hr with
  | nil => exact .nil
  | cons _ _ hn ih =>
    exact .cons (ih fun st hs => hm st (List.mem_cons_of_mem _ hs)) (hm _ List.mem_cons_self) hn

theorem Run.reachable {ok : sys.Config → sys.Action → Prop} {c₀ c : sys.Config} {h : List sys.Step}
    (hr : Run ok c₀ h c) : Reachable c₀ c := ⟨h, hr.mono fun _ _ _ => trivial⟩

theorem Reachable.next {c₀ c c' : sys.Config} {a : sys.Action} (hr : Reachable c₀ c)
    (hn : next c a = some c') : Reachable c₀ c' :=
  hr.elim fun h hr => ⟨_ :: h, .cons hr trivial hn⟩

theorem Reachable.trans {c₀ c₁ c₂ : sys.Config} (h₁ : Reachable c₀ c₁) (h₂ : Reachable c₁ c₂) :
    Reachable c₀ c₂ := by
  obtain ⟨h, hr⟩ := h₂
  induction hr with
  | nil => exact h₁
  | cons _ _ hn ih => exact ih.next hn

/-- What holds at the start and is kept by every step of a reachable
configuration holds in every reachable configuration. -/
theorem Reachable.induction {c₀ c : sys.Config} {P : sys.Config → Prop} (hr : Reachable c₀ c)
    (init : P c₀)
    (step : ∀ c a c', Reachable c₀ c → P c → sys.next c a = some c' → P c') : P c := by
  obtain ⟨h, hr⟩ := hr
  induction hr with
  | nil => exact init
  | cons hr _ hn ih => exact step _ _ _ hr.reachable ih hn

/-- The configuration after the actions `as`, if each of them can be taken. -/
def replay : List sys.Action → sys.Config → Option sys.Config
  | [], c => some c
  | a :: as, c => (next c a).bind (replay as)

theorem Reachable.replay {c₀ c c' : sys.Config} {as : List sys.Action} (hr : Reachable c₀ c)
    (h : replay as c = some c') : Reachable c₀ c' := by
  induction as generalizing c with
  | nil => exact Option.some.inj h ▸ hr
  | cons a as ih =>
    obtain ⟨c₁, h₁, h₂⟩ := Option.bind_eq_some_iff.mp h
    exact ih (hr.next h₁) h₂

/-- The same, as long as each action satisfies `f`. -/
def replayIf (f : sys.Config → sys.Action → Bool) : List sys.Action → sys.Config → Option sys.Config
  | [], c => some c
  | a :: as, c => if f c a then (next c a).bind (replayIf f as) else none

theorem Run.replayIf {ok : sys.Config → sys.Action → Prop} {f : sys.Config → sys.Action → Bool}
    (hf : ∀ c a, f c a = true → ok c a) {c₀ c c' : sys.Config} {as : List sys.Action} {h : List sys.Step}
    (hr : Run ok c₀ h c) (hx : replayIf f as c = some c') : ∃ h', Run ok c₀ h' c' := by
  induction as generalizing c h with
  | nil => exact ⟨h, Option.some.inj hx ▸ hr⟩
  | cons a as ih =>
    simp only [Pool.replayIf] at hx
    split at hx
    · rename_i ha
      obtain ⟨c₁, h₁, h₂⟩ := Option.bind_eq_some_iff.mp hx
      exact ih (.cons hr (hf c a ha) h₁) h₂
    · cases hx

/-- The same, adding its steps to the history `h`. -/
def recordIf (f : sys.Config → sys.Action → Bool) :
    List sys.Action → List sys.Step → sys.Config → Option (List sys.Step × sys.Config)
  | [], h, c => some (h, c)
  | a :: as, h, c => if f c a then (next c a).bind fun c' => recordIf f as (⟨c, a, c'⟩ :: h) c' else none

theorem Run.recordIf {ok : sys.Config → sys.Action → Prop} {f : sys.Config → sys.Action → Bool}
    (hf : ∀ c a, f c a = true → ok c a) {c₀ c c' : sys.Config} {h h' : List sys.Step} {as : List sys.Action}
    (hr : Run ok c₀ h c) (hx : recordIf f as h c = some (h', c')) : Run ok c₀ h' c' := by
  induction as generalizing c h with
  | nil =>
    cases hx
    exact hr
  | cons a as ih =>
    simp only [Pool.recordIf] at hx
    split at hx
    · rename_i ha
      obtain ⟨c₁, h₁, h₂⟩ := Option.bind_eq_some_iff.mp hx
      exact ih (.cons hr (hf c a ha) h₁) h₂
    · cases hx

/-- A check `f` of where a replay ends. -/
theorem exists_replay {c₀ : sys.Config} {as : List sys.Action} {f : sys.Config → Bool}
    (h : (replay as c₀).any f = true) : ∃ c, Reachable c₀ c ∧ f c = true := by
  obtain ⟨c, hc, hf⟩ := (Option.any_eq_true _ _).mp h
  exact ⟨c, Reachable.replay ⟨[], .nil⟩ hc, hf⟩

theorem exists_replayIf {ok : sys.Config → sys.Action → Prop} {f : sys.Config → sys.Action → Bool}
    (hf : ∀ c a, f c a = true → ok c a) {c₀ : sys.Config} {as : List sys.Action} {g : sys.Config → Bool}
    (h : (replayIf f as c₀).any g = true) : ∃ h c, Run ok c₀ h c ∧ g c = true := by
  obtain ⟨c, hc, hg⟩ := (Option.any_eq_true _ _).mp h
  obtain ⟨h, hr⟩ := Run.replayIf hf .nil hc
  exact ⟨h, c, hr, hg⟩

/-- A step of a run is made in a configuration that a shorter run reaches. -/
theorem Run.split {ok : sys.Config → sys.Action → Prop} {c₀ c : sys.Config} {h : List sys.Step}
    (hr : Run ok c₀ h c) {st : sys.Step} (hm : st ∈ h) :
    ∃ h', Run ok c₀ h' st.before ∧ ok st.before st.action ∧ next st.before st.action = some st.after ∧ h' <:+ h := by
  induction hr with
  | nil => cases hm
  | cons hr ha hn ih =>
    rcases List.mem_cons.mp hm with rfl | hm
    · exact ⟨_, hr, ha, hn, List.suffix_cons _ _⟩
    · obtain ⟨h', hr', ha', hn', hsuf⟩ := ih hm
      exact ⟨h', hr', ha', hn', hsuf.trans (List.suffix_cons _ _)⟩

theorem Run.mem {ok : sys.Config → sys.Action → Prop} {c₀ c : sys.Config} {h : List sys.Step}
    (hr : Run ok c₀ h c) {st : sys.Step} (hm : st ∈ h) :
    (∃ h', Run ok c₀ h' st.before) ∧ ok st.before st.action ∧ next st.before st.action = some st.after :=
  have ⟨h', hr', ha, hn, _⟩ := hr.split hm
  ⟨⟨h', hr'⟩, ha, hn⟩

/-- A thread that is not there has made no step. -/
theorem Run.thread_ne {ok : sys.Config → sys.Action → Prop} {c₀ c : sys.Config} {h : List sys.Step}
    (hr : Run ok c₀ h c) {i : Nat} (hi : c.threads i = none) {st : sys.Step} (hm : st ∈ h) :
    st.action.thread ≠ some i := by
  induction hr with
  | nil => cases hm
  | @cons h c a c' _ _ hn ih =>
    have ha : a.thread ≠ some i := by
      intro ha
      obtain ⟨t, ht⟩ := threads_of_next hn ha
      cases hi.symm.trans ht
    rcases List.mem_cons.mp hm with rfl | hm
    · exact ha
    · rw [threads_next hn ha] at hi
      exact ih hi hm

/-- What holds after a step of a run and is kept by every step holds at its end. -/
theorem Run.keeps {ok : sys.Config → sys.Action → Prop} {c₀ c : sys.Config} {h : List sys.Step}
    (hr : Run ok c₀ h c) {K : sys.Config → Prop}
    (keep : ∀ {c a c'}, Reachable c₀ c → K c → next c a = some c' → K c') {st : sys.Step} (hm : st ∈ h)
    (hs : K st.after) : K c := by
  induction hr with
  | nil => cases hm
  | cons hr _ hn ih =>
    rcases List.mem_cons.mp hm with rfl | hm
    · exact hs
    · exact keep hr.reachable (ih hm) hn

/-- A run that starts only threads below `n` has no others. -/
theorem Run.threads_none {ok : sys.Config → sys.Action → Prop} {c₀ c : sys.Config} {h : List sys.Step}
    (hr : Run ok c₀ h c) (h₀ : ∀ i, c₀.threads i = none) {n : Nat} (hs : ∀ {c i e}, ok c (.start i e) → i < n)
    {i : Nat} (hi : n ≤ i) : c.threads i = none := by
  induction hr with
  | nil => exact h₀ i
  | @cons h c a c' _ ha hn ih =>
    have hne : ∀ {j e q k}, c.At j e q k → i ≠ j := fun hat hij => by
      rw [hij, show c.threads _ = _ from hat] at ih
      cases ih
    cases a with
    | start j e =>
      obtain ⟨-, rfl⟩ := next_start hn
      have hj := hs ha
      rwa [Config.threads_set_ne _ _ _ (show i ≠ j by omega)]
    | step j p =>
      obtain ⟨e, q, k, r, w, hat, -, rfl⟩ := next_step hn
      rwa [Config.threads_set_ne _ _ _ (hne hat)]
    | crash j =>
      obtain ⟨e, q, k, hat, rfl⟩ := next_crash hn
      rwa [Config.threads_set_ne _ _ _ (hne hat)]
    | env v =>
      obtain ⟨w, -, rfl⟩ := next_env hn
      exact ih

/-- The threads that are started by the actions. -/
def started : List sys.Action → List Nat
  | [] => []
  | .start i _ :: as => i :: started as
  | _ :: as => started as

/-- A thread that is not started in a replay is not there. -/
theorem threads_replay {c c' : sys.Config} {as : List sys.Action} (h : replay as c = some c') {i : Nat}
    (hi : i ∉ started as) (h₀ : c.threads i = none) : c'.threads i = none := by
  induction as generalizing c with
  | nil => exact Option.some.inj h ▸ h₀
  | cons a as ih =>
    obtain ⟨c₁, h₁, h₂⟩ := Option.bind_eq_some_iff.mp h
    have hne : ∀ {j e q k}, c.At j e q k → i ≠ j := fun hat hij => by
      rw [hij, show c.threads _ = _ from hat] at h₀
      cases h₀
    cases a with
    | start j e =>
      have hij : i ≠ j := fun hij => hi (hij ▸ List.mem_cons_self)
      have hi : i ∉ started as := fun hm => hi (List.mem_cons_of_mem _ hm)
      obtain ⟨-, rfl⟩ := next_start h₁
      exact ih h₂ hi (by rwa [Config.threads_set_ne _ _ _ hij])
    | step j p =>
      obtain ⟨e, q, k, r, w, hat, -, rfl⟩ := next_step h₁
      exact ih h₂ hi (by rwa [Config.threads_set_ne _ _ _ (hne hat)])
    | crash j =>
      obtain ⟨e, q, k, hat, rfl⟩ := next_crash h₁
      exact ih h₂ hi (by rwa [Config.threads_set_ne _ _ _ (hne hat)])
    | env v =>
      obtain ⟨w, -, rfl⟩ := next_env h₁
      exact ih h₂ hi h₀

/-! ## How often a thread makes a request -/

theorem request_of_at {c c' : sys.Config} {i : Nat} {p : sys.Pick} {e : sys.Entry} {q : I.Req}
    {k : Except ε (I.Ans q) → Prog I ε sys.Out} (h : c.At i e q k) :
    Step.request (⟨c, .step i p, c'⟩ : sys.Step) = some (i, q) := by
  simp only [Step.request]
  rw [show c.threads i = _ from h]

theorem at_of_request {st : sys.Step} {i : Nat} {q : I.Req} (h : st.request = some (i, q)) :
    ∃ p e k, st.action = .step i p ∧ st.before.At i e q k := by
  simp only [Step.request] at h
  split at h
  · rename_i j p ha
    split at h
    · rename_i e q' k ht
      cases h
      exact ⟨p, e, k, ha, ht⟩
    · cases h
  · cases h

section Count

variable (P : I.Req → Prop) [DecidablePred P]

/-- How often thread `i` has made a request satisfying `P`. -/
def asked (i : Nat) (h : List sys.Step) : Nat :=
  (requests h).countP fun x => decide (x.1 = i ∧ P x.2)

theorem asked_append (i : Nat) (h h' : List sys.Step) : asked P i (h ++ h') = asked P i h + asked P i h' := by
  simp only [asked, requests, List.filterMap_append, List.countP_append]

theorem asked_of_request {i : Nat} {q : I.Req} {st : sys.Step} (h : st.request = some (i, q)) (hq : P q) :
    asked P i [st] = 1 := by
  simp [asked, requests, h, hq]

/-- What is left of a thread's budget of `n` requests suffices for what is
left of its program. -/
def Budget (n : Nat) (used : Nat) : Option sys.Thread → Prop
  | none => used = 0
  | some ⟨_, none⟩ => used ≤ n
  | some ⟨_, some p⟩ => ∃ m, used + m ≤ n ∧ p.AtMost P m

theorem asked_cons_of_ne {i : Nat} {st : sys.Step} {h : List sys.Step}
    (hn : ∀ q, st.request ≠ some (i, q)) : asked P i (st :: h) = asked P i h := by
  simp only [asked, requests, List.filterMap_cons]
  split
  · rfl
  · rename_i x hx
    have : x.1 ≠ i := fun e => hn x.2 (by rw [hx, ← e])
    simp [this]

/-- A thread whose program makes at most `n` requests satisfying `P` has made
at most `n` of them in any run. -/
theorem Run.budget {ok : sys.Config → sys.Action → Prop} {c₀ c : sys.Config} {h : List sys.Step}
    (hr : Run ok c₀ h c) (h₀ : ∀ i, c₀.threads i = none) {n : Nat}
    (hn : ∀ e, (sys.code e).AtMost P n) (i : Nat) : Budget P n (asked P i h) (c.threads i) := by
  induction hr with
  | nil => rw [h₀ i]; rfl
  | @cons h c a c' _ _ hx ih =>
    cases a with
    | start j e =>
      obtain ⟨hj, rfl⟩ := next_start hx
      rw [asked_cons_of_ne P (by simp [Step.request])]
      by_cases hij : i = j
      · subst hij
        rw [hj] at ih
        rw [Config.threads_set_self]
        exact ⟨n, by rw [show asked P i h = 0 from ih]; omega, hn e⟩
      · rwa [Config.threads_set_ne _ _ _ hij]
    | step j p =>
      obtain ⟨e, q, k, r, w, hat, -, rfl⟩ := next_step hx
      by_cases hij : i = j
      · subst hij
        rw [show c.threads i = _ from hat] at ih
        rw [Config.threads_set_self]
        simp only [asked, requests, List.filterMap_cons, request_of_at hat, List.countP_cons,
          true_and] at ih ⊢
        obtain ⟨m, hm, ⟨hk, hq⟩ | ⟨m, rfl, hk⟩⟩ := ih
        · exact ⟨m, by simpa [hq] using hm, hk r⟩
        · exact ⟨m, by split <;> omega, hk r⟩
      · rw [asked_cons_of_ne P (by rw [request_of_at hat]; simpa using fun h => absurd h.symm hij),
          Config.threads_set_ne _ _ _ hij]
        exact ih
    | crash j =>
      obtain ⟨e, q, k, hat, rfl⟩ := next_crash hx
      rw [asked_cons_of_ne P (by simp [Step.request])]
      by_cases hij : i = j
      · subst hij
        rw [show c.threads i = _ from hat] at ih
        rw [Config.threads_set_self]
        obtain ⟨m, hm, -⟩ := ih
        exact Nat.le_trans (Nat.le_add_right _ _) hm
      · rwa [Config.threads_set_ne _ _ _ hij]
    | env e =>
      obtain ⟨w, -, rfl⟩ := next_env hx
      rwa [asked_cons_of_ne P (by simp [Step.request])]

theorem Run.requests_le {ok : sys.Config → sys.Action → Prop} {c₀ c : sys.Config} {h : List sys.Step}
    (hr : Run ok c₀ h c) (h₀ : ∀ i, c₀.threads i = none) {n : Nat}
    (hn : ∀ e, (sys.code e).AtMost P n) (i : Nat) : asked P i h ≤ n := by
  have := hr.budget P h₀ hn i
  match ht : c.threads i with
  | none => rw [ht] at this; exact Nat.le_trans (Nat.le_of_eq this) (Nat.zero_le _)
  | some ⟨_, none⟩ => rw [ht] at this; exact this
  | some ⟨_, some p⟩ =>
    rw [ht] at this
    obtain ⟨m, hm, -⟩ := this
    omega

end Count

end Pool

end CM
