import ContentModeration.Framework.Pool

/-!
# A program that runs alone

A program runs alone when no other thread moves: before each of its requests, the world
may change by itself (time passes), and then the request is settled. Both together are
a turn, and turns have a cost, of which there is a bound (`Turns`). `Turns.wp` says of a
program that it returns, whatever its turns, as long as they cost no more than the bound:
every request is served and no exception gets out. It is proven program by program with
`wp_request` and `wp_bind`, and then every run of the program alone ends, with its
postcondition (`Turns.returns_of_wp`).

`Turns.alone` evaluates a program in a list of turns, some of whose requests may fail, and
records what was asked (`Turns.Served`). `Turns.wlp` says of every such evaluation how it
ends, from the record. A program that is served turn after turn comes to its end
(`Turns.exists_alone`), and its evaluation is a run of the system (`Turns.replay_of_alone`).
-/

namespace CM

variable {I : Iface} {ε α β : Type} {sys : Pool I ε}

/-- The turns of a program that runs alone. -/
structure Turns (sys : Pool I ε) where
  Turn : Type
  /-- What the world does before the request. -/
  env : Turn → sys.Env
  pick : Turn → sys.Pick
  cost : Turn → Nat

namespace Turns

variable (T : Turns sys)

/-- The program returns a value that satisfies `Q`, whatever its turns, if they cost no
more than `b`; `Q` is told what is left of `b`. -/
def wp (i : Nat) : Prog I ε α → (α → Nat → sys.World → Prop) → Nat → sys.World → Prop
  | .ret a, Q, b, s => Q a b s
  | .throw _, _, _, _ => False
  | .call q k, Q, b, s => ∀ t, T.cost t ≤ b → ∃ s' r s'', sys.env (T.env t) s = some s' ∧
      sys.exec i q (T.pick t) s' = some (r, s'') ∧ wp i (k r) Q (b - T.cost t) s''

/-- The first `n` turns of thread `i`. -/
def actions (i : Nat) (σ : Nat → T.Turn) : Nat → List sys.Action
  | 0 => []
  | n + 1 => .env (T.env (σ 0)) :: .step i (T.pick (σ 0)) :: actions i (fun m => σ (m + 1)) n

/-- What the first `n` turns cost. -/
def spent (σ : Nat → T.Turn) : Nat → Nat
  | 0 => 0
  | n + 1 => T.cost (σ 0) + spent (fun m => σ (m + 1)) n

/-- A call of `e`, made alone by thread `i`, returns a value that satisfies `Q`; `Q` is
told the number of turns. -/
def Returns (c : sys.Config) (i : Nat) (e : sys.Entry) (σ : Nat → T.Turn)
    (Q : Nat → sys.Out → sys.Config → Prop) : Prop :=
  ∃ n c' a, Pool.replay (.start i e :: T.actions i σ n) c = some c' ∧ c'.Returned i e a ∧ Q n a c'

variable {T} {i : Nat} {b : Nat} {s : sys.World} {Q Q' : α → Nat → sys.World → Prop}

theorem wp_mono {p : Prog I ε α} (h : T.wp i p Q b s) (hQ : ∀ a b s, Q a b s → Q' a b s) : T.wp i p Q' b s := by
  induction p generalizing b s with
  | ret a => exact hQ a b s h
  | throw e => exact h
  | call q k ih =>
    intro t ht
    obtain ⟨s', r, s'', hs', hx, hk⟩ := h t ht
    exact ⟨s', r, s'', hs', hx, ih r hk⟩

theorem wp_bind {p : Prog I ε α} {f : α → Prog I ε β} {Q : β → Nat → sys.World → Prop}
    (h : T.wp i p (fun a => T.wp i (f a) Q) b s) : T.wp i (p >>= f) Q b s := by
  induction p generalizing b s with
  | ret a => exact h
  | throw e => exact h.elim
  | call q k ih =>
    intro t ht
    obtain ⟨s', r, s'', hs', hx, hk⟩ := h t ht
    exact ⟨s', r, s'', hs', hx, ih r hk⟩

/-- A request that answers. -/
theorem wp_perform {q : I.Req} {Q : I.Ans q → Nat → sys.World → Prop}
    (h : ∀ t, T.cost t ≤ b → ∃ s' a s'', sys.env (T.env t) s = some s' ∧
      sys.exec i q (T.pick t) s' = some (.ok a, s'') ∧ Q a (b - T.cost t) s'') : T.wp i (Prog.perform q) Q b s := by
  intro t ht
  obtain ⟨s', a, s'', hs', hx, ha⟩ := h t ht
  exact ⟨s', .ok a, s'', hs', hx, ha⟩

/-! ## Runs -/

theorem replay_of_wp {p : Prog I ε sys.Out} {Q : sys.Out → Nat → sys.World → Prop} {c : sys.Config} {e : sys.Entry}
    {σ : Nat → T.Turn} (h : T.wp i p Q b c.world) (hp : c.threads i = some ⟨e, some p⟩) (hσ : ∀ n, T.spent σ n ≤ b) :
    ∃ n c' a, Pool.replay (T.actions i σ n) c = some c' ∧ c'.Returned i e a ∧ Q a (b - T.spent σ n) c'.world := by
  induction p generalizing b c σ with
  | ret a => exact ⟨0, c, a, rfl, hp, h⟩
  | throw x => exact h.elim
  | call q k ih =>
    have hfirst : T.cost (σ 0) ≤ b := hσ 1
    obtain ⟨s', r, s'', hs', hx, hk⟩ := h (σ 0) hfirst
    have henv : Pool.next c (.env (T.env (σ 0))) =
      some ⟨s', c.threads⟩ := by simp only [Pool.next, hs', Option.map_some]
    have hstep := Pool.next_of_at (c := ⟨s', c.threads⟩) hp hx
    have hrest : ∀ n, T.spent (fun m => σ (m + 1)) n ≤ b - T.cost (σ 0) := fun n => by
      have : T.cost (σ 0) + T.spent (fun m => σ (m + 1)) n ≤ b := hσ (n + 1)
      omega
    obtain ⟨n, c', a, hreplay, hret, hq⟩ := ih r (c := Pool.Config.set ⟨s', c.threads⟩ i s'' ⟨e, some (k r)⟩) hk
      (Pool.Config.threads_set_self ..) hrest
    refine ⟨n + 1, c', a, ?_, hret, ?_⟩
    · show ((Pool.next c _).bind _) = _
      rw [henv]
      show ((Pool.next _ _).bind _) = _
      rw [hstep]
      exact hreplay
    · rw [spent, ← Nat.sub_sub]
      exact hq

/-- A call that is started where `wp` holds of its program returns. -/
theorem returns_of_wp {e : sys.Entry} {Q : sys.Out → Nat → sys.World → Prop} {c : sys.Config} {σ : Nat → T.Turn}
    (h : T.wp i (sys.code e) Q b c.world) (hi : c.threads i = none) (hσ : ∀ n, T.spent σ n ≤ b) :
    T.Returns c i e σ fun n a c' => Q a (b - T.spent σ n) c'.world := by
  obtain ⟨n, c', a, hreplay, hret, hq⟩ := replay_of_wp (c := c.set i c.world ⟨e, some (sys.code e)⟩) h
    (Pool.Config.threads_set_self ..) hσ
  refine ⟨n, c', a, ?_, hret, hq⟩
  have hstart : Pool.next c (.start i e) = some (c.set i c.world ⟨e, some (sys.code e)⟩) := by
    simp only [Pool.next, hi]
  show ((Pool.next c _).bind _) = _
  rw [hstart]
  exact hreplay

theorem started_actions (i : Nat) (σ : Nat → T.Turn) (n : Nat) : Pool.started (T.actions i σ n) = [] := by
  induction n generalizing σ with
  | zero => rfl
  | succ n ih => exact ih _

/-- A thread that is not there is not there after a call by another one alone. -/
theorem threads_alone {c c' : sys.Config} {e : sys.Entry} {σ : Nat → T.Turn} {n j : Nat}
    (h : Pool.replay (.start i e :: T.actions i σ n) c = some c') (hj : j ≠ i) (h₀ : c.threads j = none) :
    c'.threads j = none := by
  refine Pool.threads_replay h ?_ h₀
  rw [Pool.started, started_actions]
  simpa using hj

/-- A thread that has ended takes no more turns. -/
theorem replay_actions_of_ended {c c' : sys.Config} {σ : Nat → T.Turn} {n : Nat} (hc : ∀ e q k, ¬ c.At i e q k)
    (h : Pool.replay (T.actions i σ n) c = some c') : n = 0 := by
  cases n with
  | zero => rfl
  | succ n =>
    obtain ⟨c₁, hn₁, h⟩ := Option.bind_eq_some_iff.mp h
    obtain ⟨c₂, hn₂, -⟩ := Option.bind_eq_some_iff.mp h
    obtain ⟨w, -, rfl⟩ := Pool.next_env hn₁
    obtain ⟨e, q, k, r, w', hat, -, -⟩ := Pool.next_step hn₂
    exact (hc e q k hat).elim

/-- A thread ends after only one number of turns. -/
theorem turns_unique {c c₁ c₂ : sys.Config} {σ : Nat → T.Turn} {m n : Nat}
    (h₁ : Pool.replay (T.actions i σ m) c = some c₁) (hc₁ : ∀ e q k, ¬ c₁.At i e q k)
    (h₂ : Pool.replay (T.actions i σ n) c = some c₂) (hc₂ : ∀ e q k, ¬ c₂.At i e q k) : m = n := by
  induction m generalizing c σ n with
  | zero =>
    obtain rfl := Option.some.inj h₁
    exact (replay_actions_of_ended hc₁ h₂).symm
  | succ m ih =>
    cases n with
    | zero =>
      obtain rfl := Option.some.inj h₂
      exact replay_actions_of_ended hc₂ h₁
    | succ n =>
      obtain ⟨c₃, hn, h₁⟩ := Option.bind_eq_some_iff.mp h₁
      obtain ⟨c₄, hn', h₁⟩ := Option.bind_eq_some_iff.mp h₁
      have h₂ : ((Pool.next c _).bind _) = _ := h₂
      rw [hn] at h₂
      have h₂ : ((Pool.next c₃ _).bind _) = _ := h₂
      rw [hn'] at h₂
      exact congrArg Nat.succ (ih h₁ h₂)

/-- A call that runs alone ends in only one way. -/
theorem ended_unique {c c₁ c₂ : sys.Config} {e : sys.Entry} {σ : Nat → T.Turn} {m n : Nat}
    (h₁ : Pool.replay (.start i e :: T.actions i σ m) c = some c₁) (hc₁ : ∀ e q k, ¬ c₁.At i e q k)
    (h₂ : Pool.replay (.start i e :: T.actions i σ n) c = some c₂) (hc₂ : ∀ e q k, ¬ c₂.At i e q k) : c₁ = c₂ := by
  obtain ⟨c₀, hn, h₁⟩ := Option.bind_eq_some_iff.mp h₁
  obtain ⟨c₀', hn', h₂⟩ := Option.bind_eq_some_iff.mp h₂
  obtain rfl := Option.some.inj (hn.symm.trans hn')
  obtain rfl := turns_unique h₁ hc₁ h₂ hc₂
  exact Option.some.inj (h₁.symm.trans h₂)

theorem not_at_of_returned {c : sys.Config} {e : sys.Entry} {a : sys.Out} (h : c.Returned i e a) :
    ∀ e q k, ¬ c.At i e q k := by
  intro e' q k hat
  have : some _ = some _ := h.symm.trans hat
  cases this

/-! ## Evaluation -/

/-- A request that was served: in which turn, in which world, and with which answer. -/
structure Served (T : Turns sys) where
  req : I.Req
  turn : T.Turn
  /-- The world in which the request was settled. -/
  before : sys.World
  answer : Except ε (I.Ans req)

/-- How a program has run alone. -/
structure Outcome (T : Turns sys) (α : Type) where
  served : List T.Served
  result : Except ε α
  world : sys.World

variable (T)

/-- The program runs alone, in the turns `ts`, to its end. -/
def alone (i : Nat) : Prog I ε α → List T.Turn → sys.World → Option (T.Outcome α)
  | .ret a, [], s => some ⟨[], .ok a, s⟩
  | .throw e, [], s => some ⟨[], .error e, s⟩
  | .call q k, t :: ts, s =>
    match sys.env (T.env t) s with
    | none => none
    | some s' =>
      match sys.exec i q (T.pick t) s' with
      | none => none
      | some (r, s'') => (alone i (k r) ts s'').map fun o => ⟨⟨q, t, s', r⟩ :: o.served, o.result, o.world⟩
  | _, _, _ => none

/-- However the program runs alone, it ends with `Q`, which is told the requests that it has made. -/
def wlp (i : Nat) : Prog I ε α → (List T.Served → Except ε α → sys.World → Prop) → sys.World → Prop
  | .ret a, Q, s => Q [] (.ok a) s
  | .throw e, Q, s => Q [] (.error e) s
  | .call q k, Q, s => ∀ t s' r s'', sys.env (T.env t) s = some s' → sys.exec i q (T.pick t) s' = some (r, s'') →
      wlp i (k r) (fun tr => Q (⟨q, t, s', r⟩ :: tr)) s''

variable {T} {L L' : List T.Served → Except ε α → sys.World → Prop}

theorem wlp_mono {p : Prog I ε α} (h : T.wlp i p L s) (hL : ∀ tr r s, L tr r s → L' tr r s) : T.wlp i p L' s := by
  induction p generalizing s L L' with
  | ret a => exact hL _ _ _ h
  | throw e => exact hL _ _ _ h
  | call q k ih =>
    intro t s' r s'' hs' hx
    exact ih r (h t s' r s'' hs' hx) fun tr r s => hL _ r s

theorem wlp_bind {p : Prog I ε α} {f : α → Prog I ε β} {L : List T.Served → Except ε β → sys.World → Prop}
    (h : T.wlp i p (fun
      | tr, .ok a, s => T.wlp i (f a) (fun tr' => L (tr ++ tr')) s
      | tr, .error e, s => L tr (.error e) s) s) : T.wlp i (p >>= f) L s := by
  induction p generalizing s L with
  | ret a => exact h
  | throw e => exact h
  | call q k ih =>
    intro t s' r s'' hs' hx
    exact ih r (wlp_mono (h t s' r s'' hs' hx) fun tr r s hr => by cases r <;> exact hr)

/-- Whatever the first part has done, the second part ends as said. -/
theorem wlp_seq {p : Prog I ε α} {f : α → Prog I ε β} {P : List T.Served → Except ε α → sys.World → Prop}
    {L : List T.Served → Except ε β → sys.World → Prop} (hp : T.wlp i p P s)
    (ok : ∀ tr a s', P tr (.ok a) s' → T.wlp i (f a) (fun tr' => L (tr ++ tr')) s')
    (raise : ∀ tr x s', P tr (.error x) s' → L tr (.error x) s') : T.wlp i (p >>= f) L s := by
  refine wlp_bind (wlp_mono hp fun tr r s' h => ?_)
  cases r with
  | ok a => exact ok tr a s' h
  | error x => exact raise tr x s' h

/-- A first part that succeeds with `a`. -/
theorem wlp_next {p : Prog I ε α} {f : α → Prog I ε β} {a : α} {P : sys.World → Prop}
    {L : List T.Served → Except ε β → sys.World → Prop} (hp : T.wlp i p (fun _ r s' => r = .ok a ∧ P s') s)
    (hf : ∀ tr s', P s' → T.wlp i (f a) (fun tr' => L (tr ++ tr')) s') : T.wlp i (p >>= f) L s := by
  refine wlp_seq hp (fun tr b s' h => ?_) fun tr x s' h => ?_
  · obtain ⟨hb, h⟩ := h
    cases hb
    exact hf tr s' h
  · cases h.1

/-- A first part that raises. -/
theorem wlp_raise {p : Prog I ε α} {f : α → Prog I ε β} {P : ε → Prop}
    (hp : T.wlp i p (fun _ r _ => ∃ x, r = .error x ∧ P x) s) :
    T.wlp i (p >>= f) (fun _ r _ => ∃ x, r = .error x ∧ P x) s := by
  refine wlp_seq hp (fun tr b s' h => ?_) fun tr x s' h => ?_
  · obtain ⟨y, h, -⟩ := h
    cases h
  · obtain ⟨y, h, hy⟩ := h
    cases h
    exact ⟨x, rfl, hy⟩

theorem wlp_attempt {p : Prog I ε α} {L : List T.Served → Except ε (Except ε α) → sys.World → Prop}
    (h : T.wlp i p (fun tr r s => L tr (.ok r) s) s) : T.wlp i p.attempt L s := by
  induction p generalizing s L with
  | ret a => exact h
  | throw e => exact h
  | call q k ih =>
    intro t s' r s'' hs' hx
    exact ih r (h t s' r s'' hs' hx)

theorem wlp_tryCatch {p : Prog I ε α} {f : ε → Prog I ε α} {L : List T.Served → Except ε α → sys.World → Prop}
    (h : T.wlp i p (fun
      | tr, .ok a, s => L tr (.ok a) s
      | tr, .error e, s => T.wlp i (f e) (fun tr' => L (tr ++ tr')) s) s) : T.wlp i (p.tryCatch f) L s := by
  induction p generalizing s L with
  | ret a => exact h
  | throw e => exact h
  | call q k ih =>
    intro t s' r s'' hs' hx
    exact ih r (wlp_mono (h t s' r s'' hs' hx) fun tr r s hr => by cases r <;> exact hr)

/-- A program does run as it does. -/
theorem wlp_true (p : Prog I ε α) (s : sys.World) : T.wlp i p (fun _ _ _ => True) s := by
  induction p generalizing s with
  | ret a => trivial
  | throw e => trivial
  | call q k ih => exact fun t s' r s'' _ _ => ih r s''

theorem wlp_perform {q : I.Req} {L : List T.Served → Except ε (I.Ans q) → sys.World → Prop}
    (h : ∀ t s' r s'', sys.env (T.env t) s = some s' → sys.exec i q (T.pick t) s' = some (r, s'') →
      L [⟨q, t, s', r⟩] r s'') : T.wlp i (Prog.perform q) L s := by
  intro t s' r s'' hs' hx
  have := h t s' r s'' hs' hx
  cases r <;> exact this

theorem alone_call {q : I.Req} {k : Except ε (I.Ans q) → Prog I ε α} {ts : List T.Turn} {o : T.Outcome α}
    (h : T.alone i (.call q k) ts s = some o) : ∃ t ts' s' r s'' o', ts = t :: ts' ∧ sys.env (T.env t) s = some s' ∧
      sys.exec i q (T.pick t) s' = some (r, s'') ∧ T.alone i (k r) ts' s'' = some o' ∧
      o = ⟨⟨q, t, s', r⟩ :: o'.served, o'.result, o'.world⟩ := by
  cases ts with
  | nil => cases h
  | cons t ts =>
    simp only [alone] at h
    split at h
    · cases h
    · rename_i s' hs'
      split at h
      · cases h
      · rename_i r s'' hx
        obtain ⟨o', ho', rfl⟩ := Option.map_eq_some_iff.mp h
        exact ⟨t, ts, s', r, s'', o', rfl, hs', hx, ho', rfl⟩

/-- What `wlp` says holds of every evaluation. -/
theorem of_alone {p : Prog I ε α} (h : T.wlp i p L s) {ts : List T.Turn} {o : T.Outcome α}
    (ho : T.alone i p ts s = some o) : L o.served o.result o.world := by
  induction p generalizing s ts o L with
  | ret a =>
    cases ts with
    | nil =>
      cases ho
      exact h
    | cons t ts => cases ho
  | throw e =>
    cases ts with
    | nil =>
      cases ho
      exact h
    | cons t ts => cases ho
  | call q k ih =>
    obtain ⟨t, ts', s', r, s'', o', rfl, hs', hx, ho', rfl⟩ := alone_call ho
    exact ih r (h t s' r s'' hs' hx) ho'

/-! ### Progress -/

variable (T) in
/-- Some turn of `ts` is not served. -/
def refuses (i : Nat) : Prog I ε α → List T.Turn → sys.World → Prop
  | .call q k, t :: ts, s => ∀ s', sys.env (T.env t) s = some s' → ∀ r s'',
      sys.exec i q (T.pick t) s' = some (r, s'') → refuses i (k r) ts s''
  | _, _, _ => False

/-- The first `n` turns. -/
def first (σ : Nat → T.Turn) : Nat → List T.Turn
  | 0 => []
  | n + 1 => σ 0 :: first (fun m => σ (m + 1)) n

/-- The cost of the turns that come first. -/
theorem spent_of_first {σ : Nat → T.Turn} {n : Nat} {ts rest : List T.Turn} (h : first σ n = ts ++ rest) :
    T.spent σ ts.length = ts.foldr (fun t b => T.cost t + b) 0 := by
  induction ts generalizing σ n with
  | nil => rfl
  | cons t ts ih =>
    cases n with
    | zero => cases h
    | succ n =>
      obtain ⟨rfl, hrest⟩ := List.cons.inj h
      show T.cost (σ 0) + T.spent (fun m => σ (m + 1)) ts.length = _
      rw [ih hrest, List.foldr_cons]

theorem eq_of_first {σ : Nat → T.Turn} {n : Nat} {ts rest : List T.Turn} {t : T.Turn}
    (h : first σ n = ts ++ t :: rest) : σ ts.length = t := by
  induction ts generalizing σ n with
  | nil =>
    cases n with
    | zero => cases h
    | succ n => exact (List.cons.inj h).1
  | cons t₀ ts ih =>
    cases n with
    | zero => cases h
    | succ n => exact ih (List.cons.inj h).2

/-- A program that is served turn after turn comes to its end. -/
theorem exists_alone {p : Prog I ε α} {σ : Nat → T.Turn} (h : ∀ n, ¬ T.refuses i p (first σ n) s) :
    ∃ n o, T.alone i p (first σ n) s = some o := by
  induction p generalizing s σ with
  | ret a => exact ⟨0, _, rfl⟩
  | throw e => exact ⟨0, _, rfl⟩
  | call q k ih =>
    obtain ⟨s', hs', r, s'', hx⟩ : ∃ s', sys.env (T.env (σ 0)) s = some s' ∧
        ∃ r s'', sys.exec i q (T.pick (σ 0)) s' = some (r, s'') := by
      by_contra hno
      exact h 1 fun s' hs' r s'' hx => (hno ⟨s', hs', r, s'', hx⟩).elim
    obtain ⟨n, o, ho⟩ := ih r (s := s'') (σ := fun m => σ (m + 1)) fun n hr => h (n + 1) fun t ht r' t' hx' => by
      cases hs'.symm.trans ht
      cases hx.symm.trans hx'
      exact hr
    refine ⟨n + 1, ⟨⟨q, σ 0, s', r⟩ :: o.served, o.result, o.world⟩, ?_⟩
    simp only [first, alone, hs', hx, ho, Option.map_some]

/-- Turns that lead to the end are served. -/
theorem not_refuses_of_alone {p : Prog I ε α} {σ : Nat → T.Turn} {n : Nat} {o : T.Outcome α}
    (h : T.alone i p (first σ n) s = some o) (m : Nat) : ¬ T.refuses i p (first σ m) s := by
  induction p generalizing s σ n o m with
  | ret a => cases m <;> exact id
  | throw e => cases m <;> exact id
  | call q k ih =>
    cases m with
    | zero => exact id
    | succ m =>
      obtain ⟨t, ts', s', r, s'', o', hts, hs', hx, ho', rfl⟩ := alone_call h
      cases n with
      | zero => cases hts
      | succ n =>
        obtain ⟨rfl, rfl⟩ := List.cons.inj hts
        exact fun hr => ih r ho' m (hr s' hs' r s'' hx)

/-- The record tells the turns. -/
theorem turns_of_alone {p : Prog I ε α} {ts : List T.Turn} {o : T.Outcome α} (h : T.alone i p ts s = some o) :
    o.served.map (·.turn) = ts := by
  induction p generalizing s ts o with
  | ret a =>
    cases ts <;> cases h
    rfl
  | throw e =>
    cases ts <;> cases h
    rfl
  | call q k ih =>
    obtain ⟨t, ts', s', r, s'', o', rfl, -, -, ho', rfl⟩ := alone_call h
    exact congrArg (t :: ·) (ih r ho')

/-- A program comes to only one end. -/
theorem alone_unique {p : Prog I ε α} {σ : Nat → T.Turn} {m n : Nat} {o o' : T.Outcome α}
    (h : T.alone i p (first σ m) s = some o) (h' : T.alone i p (first σ n) s = some o') : o = o' := by
  induction p generalizing s σ m n o o' with
  | ret a =>
    cases m <;> cases n <;> cases h <;> cases h'
    rfl
  | throw e =>
    cases m <;> cases n <;> cases h <;> cases h'
    rfl
  | call q k ih =>
    obtain ⟨t, ts, s₁, r, s₂, o₁, hts, hs, hx, ho, rfl⟩ := alone_call h
    obtain ⟨t', ts', s₁', r', s₂', o₁', hts', hs', hx', ho', rfl⟩ := alone_call h'
    cases m with
    | zero => cases hts
    | succ m =>
      cases n with
      | zero => cases hts'
      | succ n =>
        obtain ⟨rfl, rfl⟩ := List.cons.inj hts
        obtain ⟨rfl, rfl⟩ := List.cons.inj hts'
        cases hs.symm.trans hs'
        cases hx.symm.trans hx'
        rw [ih r ho ho']

/-! ### Evaluations are runs -/

/-- The turns of thread `i`. -/
def steps (i : Nat) : List T.Turn → List sys.Action
  | [] => []
  | t :: ts => .env (T.env t) :: .step i (T.pick t) :: steps i ts

theorem started_steps (i : Nat) (ts : List T.Turn) : Pool.started (steps i ts) = [] := by
  induction ts with
  | nil => rfl
  | cons t ts ih => exact ih

theorem replay_steps {p : Prog I ε sys.Out} {ts : List T.Turn} {o : T.Outcome sys.Out} {c : sys.Config}
    {e : sys.Entry}
    (h : T.alone i p ts c.world = some o) (hp : c.threads i = some ⟨e, some p⟩) :
    ∃ c', Pool.replay (steps i ts) c = some c' ∧ c'.threads i = some ⟨e, some (.ofExcept o.result)⟩ ∧
      c'.world = o.world := by
  induction p generalizing ts o c with
  | ret a =>
    cases ts with
    | nil =>
      cases h
      exact ⟨c, rfl, hp, rfl⟩
    | cons t ts => cases h
  | throw x =>
    cases ts with
    | nil =>
      cases h
      exact ⟨c, rfl, hp, rfl⟩
    | cons t ts => cases h
  | call q k ih =>
    obtain ⟨t, ts', s', r, s'', o', rfl, hs', hx, ho', rfl⟩ := alone_call h
    have henv : Pool.next c (.env (T.env t)) = some ⟨s', c.threads⟩ := by simp only [Pool.next, hs', Option.map_some]
    have hstep := Pool.next_of_at (c := ⟨s', c.threads⟩) hp hx
    obtain ⟨c', hreplay, hthread, hworld⟩ := ih r (c := Pool.Config.set ⟨s', c.threads⟩ i s'' ⟨e, some (k r)⟩) ho'
      (Pool.Config.threads_set_self ..)
    refine ⟨c', ?_, hthread, hworld⟩
    show ((Pool.next c _).bind _) = _
    rw [henv]
    show ((Pool.next _ _).bind _) = _
    rw [hstep]
    exact hreplay

/-- A call that is evaluated in the world of a configuration is a run from there. -/
theorem replay_of_alone {ts : List T.Turn} {e : sys.Entry} {o : T.Outcome sys.Out} {c : sys.Config}
    (h : T.alone i (sys.code e) ts c.world = some o) (hi : c.threads i = none) :
    ∃ c', Pool.replay (.start i e :: steps i ts) c = some c' ∧ c'.threads i = some ⟨e, some (.ofExcept o.result)⟩ ∧
      c'.world = o.world := by
  obtain ⟨c', hreplay, hthread, hworld⟩ := replay_steps (c := c.set i c.world ⟨e, some (sys.code e)⟩) h
    (Pool.Config.threads_set_self ..)
  refine ⟨c', ?_, hthread, hworld⟩
  have hstart : Pool.next c (.start i e) = some (c.set i c.world ⟨e, some (sys.code e)⟩) := by
    simp only [Pool.next, hi]
  show ((Pool.next c _).bind _) = _
  rw [hstart]
  exact hreplay

/-- A call that runs alone starts no other one. -/
theorem threads_steps {c c' : sys.Config} {e : sys.Entry} {ts : List T.Turn} {j : Nat}
    (h : Pool.replay (.start i e :: steps i ts) c = some c') (hj : j ≠ i) (h₀ : c.threads j = none) :
    c'.threads j = none := by
  refine Pool.threads_replay h ?_ h₀
  rw [Pool.started, started_steps]
  simpa using hj

end Turns

end CM
