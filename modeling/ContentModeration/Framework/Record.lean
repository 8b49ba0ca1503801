import ContentModeration.Framework.Monitor
import ContentModeration.Framework.Adversary

/-!
# The record of a program is the list of its exchanges so far, the latest
first. `Prog.Justified P` says that on every path, each request is justified,
by `P`, by the record that leads to it; it is read off the program's tree, with
one rule for each former (`ask`, `bind`, `attempt`, `of_only`). In a run, the
record of a thread is what has happened (`Run.justified`): each exchange is a
step of that thread in the history (`Happened`). So a request that is made in a
run is explained by earlier steps of the run.
-/

namespace CM

variable {I : Iface} {ε α β : Type}

/-- The monitor that records. -/
def Monitor.record (P : List (Exchange I ε) → I.Req → Prop) : Monitor I ε where
  Phase := List (Exchange I ε)
  init := []
  allows := P
  after x q r := ⟨q, r⟩ :: x

namespace Prog

variable {P : List (Exchange I ε) → I.Req → Prop} {x : List (Exchange I ε)}

/-- With the record `x`, every request of the program is justified by what it has recorded then. -/
def Justified (P : List (Exchange I ε) → I.Req → Prop) (x : List (Exchange I ε)) (p : Prog I ε α) : Prop :=
  p.Follows (.record P) (fun _ y => x ⊆ y) x

theorem Justified.ret (a : α) : Justified P x (.ret a) := List.Subset.refl _

theorem Justified.throw (e : ε) : Justified P x (.throw e : Prog I ε α) := List.Subset.refl _

/-- A longer record may end with a shorter one. -/
theorem Justified.weaken {p : Prog I ε α} {y : List (Exchange I ε)} (h : Justified P y p) (hx : x ⊆ y) :
    p.Follows (.record P) (fun _ z => x ⊆ z) y := Follows.mono h fun _ _ hz => List.Subset.trans hx hz

theorem Justified.bind {p : Prog I ε α} {f : α → Prog I ε β} (hp : Justified P x p)
    (hf : ∀ a y, x ⊆ y → Justified P y (f a)) : Justified P x (p >>= f) := by
  refine Follows.bind (Follows.mono hp fun r y hy => ?_)
  cases r with
  | ok a => exact (hf a y hy).weaken hy
  | error e => exact hy

theorem Justified.attempt {p : Prog I ε α} (hp : Justified P x p) : Justified P x p.attempt :=
  Follows.attempt hp

/-- The handler runs with what was recorded up to the exception. -/
theorem Justified.tryCatch {p : Prog I ε α} {f : ε → Prog I ε α} (hp : Justified P x p)
    (hf : ∀ e y, x ⊆ y → Justified P y (f e)) : Justified P x (p.tryCatch f) := by
  refine hp.attempt.bind fun r y hy => ?_
  cases r with
  | ok a => exact .ret a
  | error e => exact hf e y hy

theorem Justified.call {q : I.Req} {k : Except ε (I.Ans q) → Prog I ε α} (hq : P x q)
    (hk : ∀ r, Justified P (⟨q, r⟩ :: x) (k r)) : Justified P x (.call q k) :=
  ⟨hq, fun r => (hk r).weaken (List.subset_cons_self _ _)⟩

/-- A request whose answer is used by what follows. -/
theorem Justified.ask {q : I.Req} {f : I.Ans q → Prog I ε α} (hq : P x q)
    (hf : ∀ a, Justified P (⟨q, .ok a⟩ :: x) (f a)) : Justified P x (perform q >>= f) := by
  refine .call hq fun r => ?_
  cases r with
  | ok a => exact hf a
  | error e => exact .throw e

/-- The same where the exception is handed over. -/
theorem Justified.try {q : I.Req} {f : Except ε (I.Ans q) → Prog I ε α} (hq : P x q)
    (hf : ∀ r, Justified P (⟨q, r⟩ :: x) (f r)) : Justified P x ((perform q).attempt >>= f) := by
  refine .call hq fun r => ?_
  cases r <;> exact hf _

theorem Justified.ofExcept {r : Except ε α} {f : α → Prog I ε β} (hf : ∀ a, r = .ok a → Justified P x (f a)) :
    Justified P x (Prog.ofExcept r >>= f) := by
  cases r with
  | ok a => exact hf a rfl
  | error e => exact .throw e

/-- Requests that every longer record justifies. -/
theorem Justified.since {p : Prog I ε α} (hp : p.Only fun q => ∀ y, x ⊆ y → P y q) : Justified P x p := by
  induction p generalizing x with
  | ret a => exact .ret a
  | throw e => exact .throw e
  | call q k ih =>
    refine .call (hp.1 x (List.Subset.refl x)) fun r => ih r ((hp.2 r).mono fun q hq y hy => ?_)
    exact hq y (List.Subset.trans (List.subset_cons_self _ _) hy)

/-- Requests that every record justifies. -/
theorem Justified.of_only {p : Prog I ε α} (hp : p.Only fun q => ∀ y, P y q) : Justified P x p :=
  .since (hp.mono fun _ hq y _ => hq y)

/-- If the program returns from here, it returns a value that its record bears out, by `E`. -/
def Yields (E : α → List (Exchange I ε) → Prop) (x : List (Exchange I ε)) (p : Prog I ε α) : Prop :=
  p.Follows (.record fun _ _ => True) (fun r y => x ⊆ y ∧ ∀ a, r = .ok a → E a y) x

variable {E : α → List (Exchange I ε) → Prop} {F : β → List (Exchange I ε) → Prop}

theorem Yields.ret {a : α} (h : E a x) : Yields E x (.ret a) :=
  ⟨List.Subset.refl _, fun _ ha => Except.ok.inj ha ▸ h⟩

theorem Yields.throw (e : ε) : Yields E x (.throw e) := ⟨List.Subset.refl _, fun _ ha => nomatch ha⟩

theorem Yields.weaken {p : Prog I ε α} {y : List (Exchange I ε)} (h : Yields E y p) (hx : x ⊆ y) :
    p.Follows (.record fun _ _ => True) (fun r z => x ⊆ z ∧ ∀ a, r = .ok a → E a z) y :=
  Follows.mono h fun _ _ hz => ⟨List.Subset.trans hx hz.1, hz.2⟩

theorem Yields.mono {p : Prog I ε α} {E' : α → List (Exchange I ε) → Prop} (h : Yields E x p)
    (hE : ∀ a y, x ⊆ y → E a y → E' a y) : Yields E' x p :=
  Follows.mono h fun _ y hy => ⟨hy.1, fun a ha => hE a y hy.1 (hy.2 a ha)⟩

theorem Yields.bind {p : Prog I ε β} {f : β → Prog I ε α} (hp : Yields F x p)
    (hf : ∀ b y, x ⊆ y → F b y → Yields E y (f b)) : Yields E x (p >>= f) := by
  refine Follows.bind (Follows.mono hp fun r y hy => ?_)
  cases r with
  | ok b => exact (hf b y hy.1 (hy.2 b rfl)).weaken hy.1
  | error e => exact ⟨hy.1, fun _ ha => nomatch ha⟩

theorem Yields.call {q : I.Req} {k : Except ε (I.Ans q) → Prog I ε α} (hk : ∀ r, Yields E (⟨q, r⟩ :: x) (k r)) :
    Yields E x (.call q k) :=
  ⟨trivial, fun r => (hk r).weaken (List.subset_cons_self _ _)⟩

/-- A request whose answer is used by what follows. -/
theorem Yields.ask {q : I.Req} {f : I.Ans q → Prog I ε α} (hf : ∀ a, Yields E (⟨q, .ok a⟩ :: x) (f a)) :
    Yields E x (perform q >>= f) := by
  refine .call fun r => ?_
  cases r with
  | ok a => exact hf a
  | error e => exact .throw e

/-- Of most programs nothing has to be known. -/
theorem Yields.of_any (p : Prog I ε α) : Yields (fun _ _ => True) x p := by
  induction p generalizing x with
  | ret a => exact .ret trivial
  | throw e => exact .throw e
  | call q k ih => exact .call fun r => ih r

end Prog

/-- A program makes only requests that the monitors it follows allow. -/
theorem Prog.Follows.only {M : Monitor I ε} {E : Except ε α → M.Phase → Prop} {y : M.Phase} {p : Prog I ε α}
    {Q : I.Req → Prop} (hp : p.Follows M E y) (hQ : ∀ y q, M.allows y q → Q q) : p.Only Q := by
  induction p generalizing y with
  | ret a => trivial
  | throw e => trivial
  | call q k ih => exact ⟨hQ y q hp.1, fun r => ih r (hp.2 r)⟩

namespace Pool

variable {sys : Pool I ε} {ok : sys.Config → sys.Action → Prop} {c₀ c : sys.Config} {h : List sys.Step}

/-- Thread `i` has made the exchange in the history. -/
def Happened (h : List sys.Step) (i : Nat) (x : Exchange I ε) : Prop :=
  ∃ st ∈ h, ∃ p e k w, st.action = .step i p ∧ st.before.At i e x.req k ∧
    sys.exec i x.req p st.before.world = some (x.ans, w)

theorem Happened.mono {h' : List sys.Step} {i : Nat} {x : Exchange I ε} (hx : Happened h i x) (hs : h ⊆ h') :
    Happened h' i x := by
  obtain ⟨st, hm, hx⟩ := hx
  exact ⟨st, hs hm, hx⟩

theorem Happened.cons {i : Nat} {x : Exchange I ε} (st : sys.Step) (hx : Happened h i x) :
    Happened (st :: h) i x := hx.mono (List.subset_cons_self _ _)

/-- In a run, what a thread has recorded has happened. -/
theorem Run.records (hr : Run ok c₀ h c) (h₀ : ∀ i, c₀.threads i = none)
    {P : sys.Entry → List (Exchange I ε) → I.Req → Prop}
    {E : sys.Entry → Except ε sys.Out → List (Exchange I ε) → Prop}
    (hcode : ∀ e, (sys.code e).Follows (.record (P e)) (E e) []) (i : Nat) :
    c.InPhase (M := fun e => .record (P e)) E (fun _ (x : List (Exchange I ε)) => ∀ y ∈ x, Happened h i y) i := by
  refine hr.follows h₀ (M := fun e => .record (P e))
    (G := fun i _ (x : List (Exchange I ε)) h _ => ∀ y ∈ x, Happened h i y) hcode
    (fun _ _ _ _ hy => by cases hy) ?_ ?_ i
  · intro h c i e q k p r s x _ _ hat hx _ hG y hy
    rcases List.mem_cons.mp hy with rfl | hy
    · exact ⟨_, List.mem_cons_self, p, e, k, s, rfl, hat, hx⟩
    · exact (hG y hy).cons _
  · intro h c a c' i e p x _ _ _ _ _ _ hG y hy
    exact (hG y hy).cons _

/-- In a run, the request that a thread is about to make is justified by exchanges that have happened. -/
theorem Run.justified (hr : Run ok c₀ h c) (h₀ : ∀ i, c₀.threads i = none)
    {P : sys.Entry → List (Exchange I ε) → I.Req → Prop} (hcode : ∀ e, (sys.code e).Justified (P e) []) {i : Nat}
    {e : sys.Entry} {q : I.Req} {k : Except ε (I.Ans q) → Prog I ε sys.Out} (hat : c.At i e q k) :
    ∃ x, P e x q ∧ ∀ y ∈ x, Happened h i y := by
  obtain ⟨x, ⟨hq, -⟩, hx⟩ := hr.records h₀ hcode i e _ hat
  exact ⟨x, hq, hx⟩

/-- In a run, what a thread has returned is borne out by exchanges that have happened. -/
theorem Run.recorded (hr : Run ok c₀ h c) (h₀ : ∀ i, c₀.threads i = none)
    {E : sys.Entry → sys.Out → List (Exchange I ε) → Prop} (hcode : ∀ e, (sys.code e).Yields (E e) []) {i : Nat}
    {e : sys.Entry} {a : sys.Out} (hret : c.Returned i e a) : ∃ x, E e a x ∧ ∀ y ∈ x, Happened h i y := by
  obtain ⟨x, ⟨-, hE⟩, hx⟩ := hr.records h₀ hcode i e _ hret
  exact ⟨x, hE a rfl, hx⟩

/-- A thread has been started as the call that it is. -/
theorem Run.start_mem (hr : Run ok c₀ h c) (h₀ : ∀ i, c₀.threads i = none) {i : Nat} {t : sys.Thread}
    (ht : c.threads i = some t) : ∃ st ∈ h, st.action = .start i t.entry := by
  induction hr generalizing t with
  | nil =>
    rw [h₀ i] at ht
    cases ht
  | @cons h c a c' _ _ hn ih =>
    have old : ∀ {t'}, c.threads i = some t' → t'.entry = t.entry →
        ∃ st ∈ (⟨c, a, c'⟩ :: h : List sys.Step), st.action = .start i t.entry := fun ht' he => by
      obtain ⟨st, hm, hact⟩ := ih ht'
      exact ⟨st, List.mem_cons_of_mem _ hm, he ▸ hact⟩
    by_cases hi : a.thread = some i
    swap
    · rw [threads_next hn hi] at ht
      exact old ht rfl
    cases a with
    | start j e =>
      cases hi
      obtain ⟨-, rfl⟩ := next_start hn
      rw [Config.threads_set_self] at ht
      cases ht
      exact ⟨_, List.mem_cons_self, rfl⟩
    | step j p =>
      cases hi
      obtain ⟨e, q, k, r, w, hat, -, rfl⟩ := next_step hn
      rw [Config.threads_set_self] at ht
      cases ht
      exact old hat rfl
    | crash j =>
      cases hi
      obtain ⟨e, q, k, hat, rfl⟩ := next_crash hn
      rw [Config.threads_set_self] at ht
      cases ht
      exact old hat rfl
    | env v => cases hi

end Pool

end CM
