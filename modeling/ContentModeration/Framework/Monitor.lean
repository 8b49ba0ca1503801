import ContentModeration.Framework.Pool

/-!
# Monitors

A `Monitor` follows the requests of a program through phases: it says which
requests may be made in a phase and which phase an answer leads to. Whether a
program follows a monitor is read off its tree (`Prog.Follows`). In a run, each
thread is in a phase of the monitor of its call, and what is known in a phase
is shown for the steps of the thread itself and kept by those of the others
(`Run.follows`).

`Monitor.pairs` is the monitor for requests that are made only as the second
of a pair.
-/

namespace CM

structure Monitor (I : Iface) (ε : Type) where
  Phase : Type
  init : Phase
  /-- The request may be made in the phase. -/
  allows : Phase → I.Req → Prop
  /-- The phase after the answer to a request. -/
  after : Phase → (q : I.Req) → Except ε (I.Ans q) → Phase

variable {I : Iface} {ε α β : Type}

namespace Prog

/-- The program follows the monitor from the phase `x`, and ends with `E`. -/
def Follows (M : Monitor I ε) (E : Except ε α → M.Phase → Prop) : M.Phase → Prog I ε α → Prop
  | x, .ret a => E (.ok a) x
  | x, .throw e => E (.error e) x
  | x, .call q k => M.allows x q ∧ ∀ r, (k r).Follows M E (M.after x q r)

variable {M : Monitor I ε} {x : M.Phase}

theorem Follows.mono {E E' : Except ε α → M.Phase → Prop} {p : Prog I ε α} (hp : p.Follows M E x)
    (hE : ∀ r y, E r y → E' r y) : p.Follows M E' x := by
  induction p generalizing x with
  | ret a => exact hE _ _ hp
  | throw e => exact hE _ _ hp
  | call q k ih => exact ⟨hp.1, fun r => ih r (hp.2 r)⟩

theorem Follows.bind {E : Except ε β → M.Phase → Prop} {p : Prog I ε α} {f : α → Prog I ε β}
    (hp : p.Follows M (fun
      | .ok a, y => (f a).Follows M E y
      | .error e, y => E (.error e) y) x) : (p >>= f).Follows M E x := by
  induction p generalizing x with
  | ret a => exact hp
  | throw e => exact hp
  | call q k ih => exact ⟨hp.1, fun r => ih r (hp.2 r)⟩

theorem Follows.attempt {E : Except ε (Except ε α) → M.Phase → Prop} {p : Prog I ε α}
    (hp : p.Follows M (fun r => E (.ok r)) x) : p.attempt.Follows M E x := by
  induction p generalizing x with
  | ret a => exact hp
  | throw e => exact hp
  | call q k ih => exact ⟨hp.1, fun r => ih r (hp.2 r)⟩

/-- A program whose requests leave the phase ends in the phase it starts in. -/
theorem Follows.of_only {p : Prog I ε α} (hp : p.Only fun q => M.allows x q ∧ ∀ r, M.after x q r = x) :
    p.Follows M (fun _ y => y = x) x := by
  induction p with
  | ret a => rfl
  | throw e => rfl
  | call q k ih =>
    refine ⟨hp.1.1, fun r => ?_⟩
    rw [hp.1.2 r]
    exact ih r (hp.2 r)

/-- A program whose requests are allowed in every phase. -/
theorem Follows.of_free {p : Prog I ε α} (hp : p.Only fun q => ∀ y, M.allows y q) :
    p.Follows M (fun _ _ => True) x := by
  induction p generalizing x with
  | ret a => trivial
  | throw e => trivial
  | call q k ih => exact ⟨hp.1 x, fun r => ih r (hp.2 r)⟩

end Prog

/-- A request whose answer has a `then?` is followed by that request at once,
and requests satisfying `P` are made only so. The phase is the request that is due. -/
def Monitor.pairs (P : I.Req → Prop) (then? : (q : I.Req) → I.Ans q → Option I.Req) : Monitor I ε where
  Phase := Option I.Req
  init := none
  allows x q := (∀ q', x = some q' → q = q') ∧ (x = none → ¬ P q)
  after
    | _, q, .ok a => then? q a
    | _, _, .error _ => none

namespace Pool

variable {sys : Pool I ε}

/-- Thread `i`, a call of `e`, is in a phase of the monitor of `e` that satisfies `G`. -/
def Config.InPhase (c : sys.Config) {M : sys.Entry → Monitor I ε}
    (E : (e : sys.Entry) → Except ε sys.Out → (M e).Phase → Prop)
    (G : (e : sys.Entry) → (M e).Phase → Prop) (i : Nat) : Prop :=
  ∀ e p, c.threads i = some ⟨e, some p⟩ → ∃ x, p.Follows (M e) (E e) x ∧ G e x

/-- What is known in the phase of a thread: it holds at the start (`start`), each
step of the thread leads to it (`own`), and the other steps keep it (`others`). -/
theorem Run.follows {ok : sys.Config → sys.Action → Prop} {c₀ c : sys.Config} {h : List sys.Step}
    (hr : Run ok c₀ h c) (h₀ : ∀ i, c₀.threads i = none) {M : sys.Entry → Monitor I ε}
    {E : (e : sys.Entry) → Except ε sys.Out → (M e).Phase → Prop}
    (hcode : ∀ e, (sys.code e).Follows (M e) (E e) (M e).init)
    {G : Nat → (e : sys.Entry) → (M e).Phase → List sys.Step → sys.World → Prop}
    (start : ∀ {h c i e c'}, Run ok c₀ h c → ok c (.start i e) → next c (.start i e) = some c' →
      G i e (M e).init (⟨c, .start i e, c'⟩ :: h) c.world)
    (own : ∀ {h c i e q k p r s x}, Run ok c₀ h c → ok c (.step i p) → c.At i e q k →
      sys.exec i q p c.world = some (r, s) → (Prog.call q k).Follows (M e) (E e) x → G i e x h c.world →
      G i e ((M e).after x q r) (⟨c, .step i p, c.set i s ⟨e, some (k r)⟩⟩ :: h) s)
    (others : ∀ {h c a c' i e p x}, Run ok c₀ h c → ok c a → next c a = some c' → a.thread ≠ some i →
      c.threads i = some ⟨e, some p⟩ → p.Follows (M e) (E e) x → G i e x h c.world →
      G i e x (⟨c, a, c'⟩ :: h) c'.world) :
    ∀ i, c.InPhase E (fun e x => G i e x h c.world) i := by
  induction hr with
  | nil =>
    intro i e p hi
    rw [h₀ i] at hi
    cases hi
  | @cons h c a c' hr ha hn ih =>
    intro i e p hi
    by_cases hm : a.thread = some i
    · cases a with
      | start j f =>
        cases hm
        have hs := start hr ha hn
        obtain ⟨-, rfl⟩ := next_start hn
        rw [Config.threads_set_self] at hi
        cases hi
        exact ⟨_, hcode e, hs⟩
      | step j pk =>
        cases hm
        obtain ⟨f, q, k, r, s', hat, hx, rfl⟩ := next_step hn
        obtain ⟨x, hp, hG⟩ := ih i f _ hat
        rw [Config.threads_set_self] at hi
        cases hi
        exact ⟨_, hp.2 r, own hr ha hat hx hp hG⟩
      | crash j =>
        cases hm
        obtain ⟨f, q, k, -, rfl⟩ := next_crash hn
        rw [Config.threads_set_self] at hi
        cases hi
      | env v => cases hm
    · rw [threads_next hn hm] at hi
      obtain ⟨x, hp, hG⟩ := ih i e p hi
      exact ⟨x, hp, others hr ha hn hm hi hp hG⟩

/-- In a run of programs that follow `Monitor.pairs`, a request satisfying `P` is
made when it is due. -/
theorem Config.InPhase.second {c : sys.Config} {P : sys.Entry → I.Req → Prop}
    {then? : sys.Entry → (q : I.Req) → I.Ans q → Option I.Req}
    {G : (e : sys.Entry) → Option I.Req → Prop} {i : Nat}
    (h : c.InPhase (M := fun e => .pairs (P e) (then? e)) (fun _ _ x => x = none) G i) {e : sys.Entry} {q : I.Req}
    {k : Except ε (I.Ans q) → Prog I ε sys.Out} (hat : c.At i e q k) (hq : P e q) : G e (some q) := by
  obtain ⟨x, ⟨⟨hdue, hfree⟩, -⟩, hG⟩ := h e _ hat
  cases x with
  | none => exact absurd hq (hfree rfl)
  | some q' => exact hdue q' rfl ▸ hG

end Pool

end CM
