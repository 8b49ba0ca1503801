import Mathlib.Tactic.Common

/-!
# Programs that make requests

A program (`Prog`) is a sequence of requests to services outside it (a
statement to a database, a command to a cache, a reading of the clock), each
of which answers or raises. It is the tree of what the program does next for
every answer, so a program that is suspended between two requests is again a
program, and code that runs concurrently is a collection of these trees
(`Pool.lean`).

`attempt` runs a program and hands its exception over as a value; `tryCatch`
is built on it. Two facts are read off the tree alone: that all requests a
program can make satisfy `P` (`Prog.Only`), and that along every path it makes
at most `n` requests satisfying `P` (`Prog.AtMost`).
-/

namespace CM

/-- The requests a program may make, and the type of the answer to each. -/
structure Iface where
  Req : Type
  Ans : Req → Type

/-- A program that returns an `α`, raises an `ε`, or makes a request and goes
on with its answer or with the exception that it raised. -/
inductive Prog (I : Iface) (ε α : Type) where
  | ret (a : α)
  | throw (e : ε)
  | call (q : I.Req) (k : Except ε (I.Ans q) → Prog I ε α)

namespace Prog

variable {I : Iface} {ε α β : Type}

def bind : Prog I ε α → (α → Prog I ε β) → Prog I ε β
  | .ret a, f => f a
  | .throw e, _ => .throw e
  | .call q k, f => .call q fun r => (k r).bind f

/-- The program that hands over the exception of `p` instead of raising it. -/
def attempt : Prog I ε α → Prog I ε (Except ε α)
  | .ret a => .ret (.ok a)
  | .throw e => .ret (.error e)
  | .call q k => .call q fun r => (k r).attempt

/-- An exception handed over by `attempt` is raised again. -/
def ofExcept : Except ε α → Prog I ε α
  | .ok a => .ret a
  | .error e => .throw e

def tryCatch (p : Prog I ε α) (h : ε → Prog I ε α) : Prog I ε α :=
  p.attempt.bind fun
    | .ok a => .ret a
    | .error e => h e

instance : Monad (Prog I ε) where
  pure := .ret
  bind := bind

instance : MonadExceptOf ε (Prog I ε) where
  throw := .throw
  tryCatch := tryCatch

/-- One request; its exception is raised. -/
def perform (q : I.Req) : Prog I ε (I.Ans q) := .call q ofExcept

@[simp] theorem ret_bind (a : α) (f : α → Prog I ε β) : (Prog.ret a >>= f) = f a := rfl

@[simp] theorem pure_bind (a : α) (f : α → Prog I ε β) : ((pure a : Prog I ε α) >>= f) = f a := rfl

@[simp] theorem throw_bind (e : ε) (f : α → Prog I ε β) : (Prog.throw e >>= f) = .throw e := rfl

@[simp] theorem call_bind (q : I.Req) (k : Except ε (I.Ans q) → Prog I ε α) (f : α → Prog I ε β) :
    (Prog.call q k >>= f) = .call q fun r => k r >>= f := rfl

theorem perform_bind (q : I.Req) (f : I.Ans q → Prog I ε α) :
    (perform q >>= f) = .call q fun r => ofExcept r >>= f := rfl

@[simp] theorem ofExcept_ok_bind (a : α) (f : α → Prog I ε β) : (ofExcept (.ok a) >>= f) = f a := rfl

theorem bind_assoc {γ : Type} (p : Prog I ε α) (f : α → Prog I ε β) (g : β → Prog I ε γ) :
    (p >>= f >>= g) = p >>= fun a => f a >>= g := by
  induction p with
  | ret a => rfl
  | throw e => rfl
  | call q k ih => exact congrArg (Prog.call q) (funext ih)

/-! ## What a program can ask -/

/-- Every request that the program can make satisfies `P`. -/
def Only (P : I.Req → Prop) : Prog I ε α → Prop
  | .ret _ => True
  | .throw _ => True
  | .call q k => P q ∧ ∀ r, (k r).Only P

/-- As long as the answers satisfy `A`, every request that the program can make satisfies `P`. -/
def OnlyIf (A : (q : I.Req) → Except ε (I.Ans q) → Prop) (P : I.Req → Prop) : Prog I ε α → Prop
  | .ret _ => True
  | .throw _ => True
  | .call q k => P q ∧ ∀ r, A q r → (k r).OnlyIf A P

/-- With answers that satisfy `A`, the program may come to make the request. -/
def MayAsk (A : (q : I.Req) → Except ε (I.Ans q) → Prop) (q₀ : I.Req) : Prog I ε α → Prop
  | .ret _ => False
  | .throw _ => False
  | .call q k => q = q₀ ∨ ∃ r, A q r ∧ (k r).MayAsk A q₀

/-- Along every path the program makes at most `n` requests satisfying `P`. -/
def AtMost (P : I.Req → Prop) : Nat → Prog I ε α → Prop
  | _, .ret _ => True
  | _, .throw _ => True
  | n, .call q k => ((∀ r, (k r).AtMost P n) ∧ ¬ P q) ∨ ∃ m, n = m + 1 ∧ ∀ r, (k r).AtMost P m

variable {P : I.Req → Prop}

theorem Only.bind {p : Prog I ε α} {f : α → Prog I ε β} (hp : p.Only P) (hf : ∀ a, (f a).Only P) :
    (p >>= f).Only P := by
  induction p with
  | ret a => exact hf a
  | throw e => trivial
  | call q k ih => exact ⟨hp.1, fun r => ih r (hp.2 r)⟩

theorem Only.attempt {p : Prog I ε α} (hp : p.Only P) : p.attempt.Only P := by
  induction p with
  | ret a => trivial
  | throw e => trivial
  | call q k ih => exact ⟨hp.1, fun r => ih r (hp.2 r)⟩

theorem Only.ofExcept {x : Except ε α} : (ofExcept x : Prog I ε α).Only P := by
  cases x <;> trivial

theorem Only.perform {q : I.Req} (hq : P q) : (Prog.perform q : Prog I ε _).Only P :=
  ⟨hq, fun r => by cases r <;> trivial⟩

theorem Only.tryCatch {p : Prog I ε α} {h : ε → Prog I ε α} (hp : p.Only P) (hh : ∀ e, (h e).Only P) :
    (p.tryCatch h).Only P :=
  Only.bind hp.attempt fun
    | .ok _ => trivial
    | .error e => hh e

theorem Only.mono {Q : I.Req → Prop} {p : Prog I ε α} (hp : p.Only P) (h : ∀ q, P q → Q q) :
    p.Only Q := by
  induction p with
  | ret a => trivial
  | throw e => trivial
  | call q k ih => exact ⟨h q hp.1, fun r => ih r (hp.2 r)⟩

variable {A : (q : I.Req) → Except ε (I.Ans q) → Prop}

theorem OnlyIf.of_only {p : Prog I ε α} (hp : p.Only P) : p.OnlyIf A P := by
  induction p with
  | ret a => trivial
  | throw e => trivial
  | call q k ih => exact ⟨hp.1, fun r _ => ih r (hp.2 r)⟩

theorem OnlyIf.ask_bind {q : I.Req} {f : I.Ans q → Prog I ε α} (hq : P q)
    (hf : ∀ a, A q (.ok a) → (f a).OnlyIf A P) : (perform q >>= f).OnlyIf A P := by
  refine ⟨hq, fun r hr => ?_⟩
  cases r with
  | ok a => exact hf a hr
  | error e => trivial

theorem OnlyIf.ofExcept_bind {x : Except ε α} {f : α → Prog I ε β} (hf : ∀ a, x = .ok a → (f a).OnlyIf A P) :
    (ofExcept x >>= f).OnlyIf A P := by
  cases x with
  | ok a => exact hf a rfl
  | error e => trivial

theorem OnlyIf.holds {p : Prog I ε α} {q₀ : I.Req} (hp : p.OnlyIf A P) (hq : p.MayAsk A q₀) : P q₀ := by
  induction p with
  | ret a => exact hq.elim
  | throw e => exact hq.elim
  | call q k ih =>
    rcases hq with rfl | ⟨r, hr, hq⟩
    · exact hp.1
    · exact ih r (hp.2 r hr) hq

theorem MayAsk.ask_bind {q q₀ : I.Req} {f : I.Ans q → Prog I ε α} (a : I.Ans q) (ha : A q (.ok a))
    (hf : (f a).MayAsk A q₀) : (perform q >>= f).MayAsk A q₀ := .inr ⟨.ok a, ha, hf⟩

theorem AtMost.mono {p : Prog I ε α} {m n : Nat} (hp : p.AtMost P m) (h : m ≤ n) : p.AtMost P n := by
  induction p generalizing m n with
  | ret a => trivial
  | throw e => trivial
  | call q k ih =>
    rcases hp with ⟨hk, hq⟩ | ⟨m, rfl, hk⟩
    · exact .inl ⟨fun r => ih r (hk r) h, hq⟩
    · exact .inr ⟨n - 1, by omega, fun r => ih r (hk r) (by omega)⟩

theorem AtMost.of_only {p : Prog I ε α} (hp : p.Only fun q => ¬ P q) (n : Nat) : p.AtMost P n := by
  induction p with
  | ret a => trivial
  | throw e => trivial
  | call q k ih => exact .inl ⟨fun r => ih r (hp.2 r), hp.1⟩

theorem AtMost.bind {p : Prog I ε α} {f : α → Prog I ε β} {m n : Nat} (hp : p.AtMost P m)
    (hf : ∀ a, (f a).AtMost P n) : (p >>= f).AtMost P (m + n) := by
  induction p generalizing m with
  | ret a => exact (hf a).mono (by omega)
  | throw e => trivial
  | call q k ih =>
    rcases hp with ⟨hk, hq⟩ | ⟨m, rfl, hk⟩
    · exact .inl ⟨fun r => ih r (hk r), hq⟩
    · exact .inr ⟨m + n, by omega, fun r => ih r (hk r)⟩

theorem AtMost.attempt {p : Prog I ε α} {n : Nat} (hp : p.AtMost P n) : p.attempt.AtMost P n := by
  induction p generalizing n with
  | ret a => trivial
  | throw e => trivial
  | call q k ih =>
    rcases hp with ⟨hk, hq⟩ | ⟨m, rfl, hk⟩
    · exact .inl ⟨fun r => ih r (hk r), hq⟩
    · exact .inr ⟨m, rfl, fun r => ih r (hk r)⟩

theorem AtMost.perform (q : I.Req) : (Prog.perform q : Prog I ε _).AtMost P 1 :=
  .inr ⟨0, rfl, fun r => by cases r <;> trivial⟩

end Prog

end CM
