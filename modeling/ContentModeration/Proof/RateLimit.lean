import ContentModeration.Framework.Isolation
import ContentModeration.Framework.Monitor
import ContentModeration.Impl.RateLimit
import Mathlib.Order.Bounds.Defs

/-!
# The rate limiter

* `tenants_isolated`: without the calls of one tenant, the calls of the others
  get the same decisions, as no two tenants share a key (`bucketKey_inj`).
* `quota_exact`: in every window, the first calls of a tenant are allowed, up to
  the limit, and the calls of earlier windows have no part in it. The counter of a
  window is not reset before its end (`window_counts`), as its time to live begins
  in the window, if ever.
* `retryAfter_exact`: a denied call is told to wait exactly until its window ends.
-/

namespace CM

variable {dflt : String} {limit window : Int}

/-! ## The keys -/

theorem repr_injective {m n : Nat} (h : toString m = toString n) : m = n := by
  have hd := congrArg (fun s => Nat.ofDigitChars 10 s.toList 0) h
  simpa only [Nat.toString_eq_repr, Nat.toList_repr,
    Nat.ofDigitChars_toDigits (by decide : 1 < 10) (by decide : 10 ≤ 10)]
    using hd

theorem colon_notMem_toString (n : Nat) : ':' ∉ (toString n).toList := by
  intro h
  rw [Nat.toString_eq_repr, Nat.toList_repr] at h
  exact absurd (Nat.isDigit_of_mem_toDigits (by decide) (by decide) h) (by decide)

theorem toList_bucketKey (tenant : String) (b : Nat) :
    (bucketKey tenant b).toList = "ratelimit:tenant:".toList ++ tenant.toList ++ ':' :: (toString b).toList := by
  have hcolon : ":".toList = [':'] := by decide
  unfold bucketKey
  simp only [String.toList_append, hcolon, List.append_assoc, List.singleton_append]

/-- The key of a window tells its tenant and its bucket, which is what follows
the last colon. -/
theorem bucketKey_inj {tenant tenant' : String} {b b' : Nat} :
    bucketKey tenant b = bucketKey tenant' b' ↔ tenant = tenant' ∧ b = b' := by
  constructor
  · intro h
    have hl := congrArg String.toList h
    rw [toList_bucketKey, toList_bucketKey] at hl
    obtain ⟨ht, hb⟩ := append_cons_inj (colon_notMem_toString b) (colon_notMem_toString b') hl
    exact ⟨String.toList_inj.mp (List.append_cancel_left ht), repr_injective (String.toList_inj.mp hb)⟩
  · rintro ⟨rfl, rfl⟩
    rfl

theorem windowKey_inj {tenant tenant' : String} {n n' : Nat} :
    windowKey tenant window n = windowKey tenant' window n' ↔
      tenant = tenant' ∧ n / windowLength window = n' / windowLength window := bucketKey_inj

/-! ## What a step does to a key -/

/-- The request takes effect. -/
def Fault.effective : Fault → Bool
  | .before _ => false
  | _ => true

/-- The thread whose INCR of the key takes effect with the step. -/
def incr? (key : String) (st : (rateLimiter dflt limit window).Step) : Option Nat :=
  match st.action with
  | .step i fault =>
    if fault.effective && decide (st.request = some (i, .incr key)) then some i else none
  | _ => none

inductive KeyChange (key : String) (st : (rateLimiter dflt limit window).Step) : Prop where
  | same (idle : incr? key st = none) (keys : st.after.world.keys key = st.before.world.keys key)
  | incr (i : Nat) (thread : incr? key st = some i)
      (keys : st.after.world.keys key =
        some ⟨st.before.world.value key + 1, (st.before.world.keys key).bind (·.deadline)⟩)
  | expire (idle : incr? key st = none) (i ttl : Nat) (asked : st.request = some (i, .expire key ttl))
      (keys : st.after.world.keys key =
        (st.before.world.keys key).map fun c => { c with deadline := some (st.before.world.now + seconds ttl) })
  | gone (idle : incr? key st = none) (v : Nat) (d : Time) (keys : st.before.world.keys key = some ⟨v, some d⟩)
      (due : d ≤ st.after.world.now) (absent : st.after.world.keys key = none)

theorem keys_of_filter {x : Option Counter} {p : Time → Bool} (h : (x.filter fun c => c.deadline.all p) ≠ x) :
    (x.filter fun c => c.deadline.all p) = none ∧ ∃ v d, x = some ⟨v, some d⟩ ∧ p d = false := by
  cases x with
  | none => exact absurd rfl h
  | some c =>
    obtain ⟨v, d⟩ := c
    cases d with
    | none => exact absurd rfl h
    | some d =>
      cases hp : p d with
      | true => exact absurd (by simp [hp]) h
      | false => exact ⟨by simp [hp], v, d, rfl, hp⟩

theorem effective_of_answer {α : Type} {s s' w : Counters} {fault : Fault} {x : α} {r : Except Exn α}
    (h : s.answer fault x s' = (r, w)) :
    fault.effective = false ∧ w = s ∧ (∀ y, r ≠ .ok y) ∨ fault.effective = true ∧ w = s' ∧ ∀ y, r = .ok y →
    y = x := by
  cases fault <;> cases h
  · exact .inr ⟨rfl, rfl, fun y hy => (Except.ok.inj hy).symm⟩
  · exact .inl ⟨rfl, rfl, by simp⟩
  · exact .inr ⟨rfl, rfl, by simp⟩

/-- What a step can do to a key; time does not go back. -/
theorem change_of_next (key : String) {c c' : (rateLimiter dflt limit window).Config}
    {a : (rateLimiter dflt limit window).Action} (hn : Pool.next c a = some c') :
    Counters.now c.world ≤ Counters.now c'.world ∧ KeyChange key ⟨c, a, c'⟩ := by
  cases a with
  | start i e =>
    obtain ⟨-, rfl⟩ := Pool.next_start hn
    exact ⟨le_refl _, .same rfl rfl⟩
  | crash i =>
    obtain ⟨e, q, k, -, rfl⟩ := Pool.next_crash hn
    exact ⟨le_refl _, .same rfl rfl⟩
  | env e =>
    obtain ⟨w, hx, rfl⟩ := Pool.next_env hn
    cases e with
    | tick d =>
      cases hx
      refine ⟨Nat.le_add_right _ _, ?_⟩
      by_cases hk : (Counters.tick c.world d).keys key = Counters.keys c.world key
      · exact .same rfl hk
      · obtain ⟨habs, v, t, hv, ht⟩ := keys_of_filter hk
        exact .gone rfl v t hv (Nat.le_of_not_le (of_decide_eq_false ht)) habs
    | vanish k =>
      cases hx
      refine ⟨le_refl _, ?_⟩
      by_cases hk : (Counters.vanish c.world k).keys key = Counters.keys c.world key
      · exact .same rfl hk
      · by_cases hkk : key = k
        · subst hkk
          have hset : (Counters.vanish c.world key).keys key = _ := Function.update_self ..
          rw [hset] at hk
          obtain ⟨habs, v, t, hv, ht⟩ := keys_of_filter hk
          exact .gone rfl v t hv (Nat.le_of_not_lt (of_decide_eq_false ht)) (hset.trans habs)
        · exact absurd (Function.update_of_ne hkk _ _) hk
  | step i fault =>
    obtain ⟨e, q, k, r, w, hat, hx, rfl⟩ := Pool.next_step hn
    have hreq : Pool.Step.request (⟨c, .step i fault, c.set i w ⟨e, some (k r)⟩⟩ :
      (rateLimiter dflt limit window).Step) =
        some (i, q) := Pool.request_of_at hat
    have hidle : (fault.effective = false ∨ q ≠ .incr key) →
        incr? key (⟨c, .step i fault, c.set i w ⟨e, some (k r)⟩⟩ : (rateLimiter dflt limit window).Step) = none := by
      intro h
      simp only [incr?, hreq, Option.some.injEq, Prod.mk.injEq, true_and]
      rcases h with h | h <;> simp [h]
    have hx : Counters.exec c.world q fault = (r, w) := Option.some.inj hx
    cases q with
    | time =>
      cases hx
      exact ⟨le_refl _, .same (hidle (.inr (by simp))) rfl⟩
    | incr k' =>
      rcases effective_of_answer hx with ⟨hf, rfl, -⟩ | ⟨hf, rfl, -⟩
      · exact ⟨le_refl _, .same (hidle (.inl hf)) rfl⟩
      · by_cases hk : key = k'
        · subst hk
          refine ⟨le_refl _, .incr i ?_ (Function.update_self ..)⟩
          simp only [incr?, hreq, hf, decide_true, Bool.and_self, if_true]
        · have hne : RateCmd.incr k' ≠ .incr key := fun h => hk (RateCmd.incr.inj h).symm
          exact ⟨le_refl _, .same (hidle (.inr hne)) (Function.update_of_ne hk _ _)⟩
    | expire k' ttl =>
      have hne : RateCmd.expire k' ttl ≠ .incr key := by simp
      rcases effective_of_answer hx with ⟨hf, rfl, -⟩ | ⟨hf, rfl, -⟩
      · exact ⟨le_refl _, .same (hidle (.inl hf)) rfl⟩
      · by_cases hk : key = k'
        · subst hk
          exact ⟨le_refl _, .expire (hidle (.inr hne)) i ttl hreq (Function.update_self ..)⟩
        · exact ⟨le_refl _, .same (hidle (.inr hne)) (Function.update_of_ne hk _ _)⟩

/-! ## What a call knows -/

/-- Where a call is: before its clock read, after it, or after its INCR. -/
inductive RatePhase where
  | start
  | read (now : Nat)
  | counted (now count : Nat)

def rateMonitor (tenant : String) (window : Int) : Monitor rateIface Exn where
  Phase := RatePhase
  init := .start
  allows
    | .start, .time => True
    | .read now, .incr key => key = windowKey tenant window now
    | .counted now _, .expire key ttl => key = windowKey tenant window now ∧ ttl = windowLength window
    | _, _ => False
  after
    | .start, .time, .ok now => .read now
    | .read now, .incr _, .ok count => .counted now count
    | x, _, _ => x

/-- How a call ends: with the evaluation of its count, unless there is no limit. -/
def RateEnd (limit window : Int) : Except Exn RateLimitDecision → RatePhase → Prop
  | .ok d, .counted now count => d = evaluateFixedWindow count limit window now
  | .ok _, .start => limit ≤ 0
  | .ok _, .read _ => False
  | .error _, _ => True

theorem check_follows (tenant : String) (limit window : Int) :
    (checkTenantRateLimit tenant limit window).Follows (rateMonitor tenant window) (RateEnd limit window) .start := by
  rw [checkTenantRateLimit]
  split
  · rename_i hl
    exact hl
  · rw [Prog.perform_bind]
    refine ⟨trivial, fun r => ?_⟩
    cases r with
    | error x => trivial
    | ok now =>
      change Prog.Follows (rateMonitor tenant window) _ (RatePhase.read now) (Prog.perform _ >>= _)
      rw [Prog.perform_bind]
      refine ⟨rfl, fun r => ?_⟩
      cases r with
      | error x => trivial
      | ok count =>
        change Prog.Follows (rateMonitor tenant window) _ (RatePhase.counted now count) (ite _ _ _)
        split
        · rw [Prog.perform_bind]
          refine ⟨⟨rfl, rfl⟩, fun r => ?_⟩
          cases r with
          | error x => trivial
          | ok u => rfl
        · rfl

/-- A run of the rate limiter. -/
abbrev RateRun (dflt : String) (limit window : Int) (t₀ : Time) :=
  Pool.Run Pool.anything (rateBoot dflt limit window t₀)

/-- In the run, thread `i` has made its INCR of the key, which answered `count`. -/
structure Counted (dflt : String) (limit window : Int) (t₀ : Time) (i : Nat) (key : String) (count : Nat)
    (h : List (rateLimiter dflt limit window).Step) (st : (rateLimiter dflt limit window).Step)
    (h₁ h₂ : List (rateLimiter dflt limit window).Step) : Prop where
  history : h = h₂ ++ st :: h₁
  before : RateRun dflt limit window t₀ h₁ st.before
  after : RateRun dflt limit window t₀ (st :: h₁) st.after
  thread : incr? key st = some i
  answer : count = Counters.value st.before.world key + 1

/-- What thread `i` reads from the clock with the step. -/
def clock? (i : Nat) (st : (rateLimiter dflt limit window).Step) : Option Nat :=
  match st.action with
  | .step _ fault =>
    if st.request = some (i, .time) then (Counters.exec st.before.world .time fault).1.toOption else none
  | _ => none

/-- The answer to the clock request of thread `i`. -/
def clockRead (i : Nat) (h : List (rateLimiter dflt limit window).Step) : Option Nat :=
  (h.filterMap (clock? i)).getLast?

theorem clock?_eq_none {i : Nat} {st : (rateLimiter dflt limit window).Step} (h : st.request ≠ some (i, .time)) :
    clock? i st = none := by
  simp only [clock?, if_neg h]
  split <;> rfl

theorem clock?_eq_none_of_ne {i : Nat} {st : (rateLimiter dflt limit window).Step} (h : st.action.thread ≠ some i) :
    clock? i st = none := by
  refine clock?_eq_none fun hreq => h ?_
  obtain ⟨p, e, k, ha, -⟩ := Pool.at_of_request hreq
  rw [ha]
  rfl

theorem clockRead_cons {i : Nat} {st : (rateLimiter dflt limit window).Step}
    (h : List (rateLimiter dflt limit window).Step) (hst : clock? i st = none) :
    clockRead i (st :: h) = clockRead i h := by
  rw [clockRead, List.filterMap_cons_none hst, clockRead]

/-- What a call has read stays. -/
theorem clockRead_of_suffix {i now : Nat} {h h' : List (rateLimiter dflt limit window).Step} (hs : h' <:+ h)
    (hc : clockRead i h' = some now) : clockRead i h = some now := by
  obtain ⟨l, rfl⟩ := hs
  rw [clockRead, List.filterMap_append, List.getLast?_append, ← clockRead, hc, Option.some_or]

/-- What is known in a phase of a call. -/
def RateKnown (dflt : String) (limit window : Int) (t₀ : Time) (i : Nat) (raw : Option String) :
    RatePhase → List (rateLimiter dflt limit window).Step → Counters → Prop
  | .start, h, _ => clockRead i h = none
  | .read now, h, s => clockRead i h = some now ∧ now * 1000000 ≤ s.now
  | .counted now count, h, s => clockRead i h = some now ∧ now * 1000000 ≤ s.now ∧
      ∃ st h₁ h₂, Counted dflt limit window t₀ i (windowKey (normalizeTenantId raw dflt) window now) count h st h₁ h₂

theorem RateKnown.cons {t₀ : Time} {i : Nat} {raw : Option String} {x : RatePhase}
    {h : List (rateLimiter dflt limit window).Step} {s s' : Counters} {st : (rateLimiter dflt limit window).Step}
    (hk : RateKnown dflt limit window t₀ i raw x h s) (hst : clock? i st = none) (hle : s.now ≤ s'.now) :
    RateKnown dflt limit window t₀ i raw x (st :: h) s' := by
  have hread := clockRead_cons h hst
  cases x with
  | start => exact hread.trans hk
  | read now => exact ⟨hread.trans hk.1, Nat.le_trans hk.2 hle⟩
  | counted now count =>
    obtain ⟨hc, hnow, st', h₁, h₂, hcounted⟩ := hk
    exact ⟨hread.trans hc, Nat.le_trans hnow hle, st', h₁, st :: h₂,
      { hcounted with history := congrArg _ hcounted.history }⟩

theorem rate_phase {t₀ : Time} {h : List (rateLimiter dflt limit window).Step}
    {c : (rateLimiter dflt limit window).Config} (hr : RateRun dflt limit window t₀ h c) (i : Nat) :
    c.InPhase (M := fun raw => rateMonitor (normalizeTenantId raw dflt) window) (fun _ => RateEnd limit window)
      (fun raw x => RateKnown dflt limit window t₀ i raw x h c.world) i := by
  refine hr.follows (fun _ => rfl) (fun raw => check_follows _ _ _) (G := RateKnown dflt limit window t₀) ?_ ?_ ?_ i
  · intro h c i e c' hr _ hn
    have hnone : h.filterMap (clock? i) = [] := List.filterMap_eq_nil_iff.mpr fun st hm =>
      clock?_eq_none_of_ne (hr.thread_ne (Pool.next_start hn).1 hm)
    refine (clockRead_cons h (clock?_eq_none (by simp [Pool.Step.request]))).trans ?_
    rw [clockRead, hnone]
    rfl
  · intro h c i raw q k fault r s x hr _ hat hx hp hG
    obtain ⟨hq, -⟩ := hp
    have hn := Pool.next_of_at hat hx
    have hle := (change_of_next "" hn).1
    have hreq : Pool.Step.request (⟨c, .step i fault, c.set i s ⟨raw, some (k r)⟩⟩ :
        (rateLimiter dflt limit window).Step) = some (i, q) := Pool.request_of_at hat
    have hx : Counters.exec c.world q fault = (r, s) := Option.some.inj hx
    have hother : q ≠ .time → clock? i (⟨c, .step i fault, c.set i s ⟨raw, some (k r)⟩⟩ :
        (rateLimiter dflt limit window).Step) = none := fun hne =>
      clock?_eq_none (by rw [hreq]; simpa using hne)
    cases x with
    | start =>
      cases q with
      | time =>
        cases hx
        have hnone : h.filterMap (clock? i) = [] := List.getLast?_eq_none_iff.mp hG
        refine ⟨?_, Nat.div_mul_le_self _ _⟩
        rw [clockRead, List.filterMap_cons, hnone]
        simp only [clock?, hreq, if_true, Counters.exec]
        rfl
      | incr key => cases hq
      | expire key ttl => cases hq
    | read now =>
      cases q with
      | time => cases hq
      | expire key ttl => cases hq
      | incr key =>
        have hkeep := hG.cons (hother (by simp)) hle
        cases r with
        | error y => exact hkeep
        | ok count =>
          obtain rfl : key = windowKey (normalizeTenantId raw dflt) window now := hq
          rcases effective_of_answer hx with ⟨-, -, hno⟩ | ⟨hf, -, hans⟩
          · exact absurd rfl (hno count)
          · refine ⟨hkeep.1, hkeep.2, _, h, [], rfl, hr, .cons hr trivial hn, ?_, hans count rfl⟩
            simp only [incr?, hreq, hf, decide_true, Bool.and_self, if_true]
    | counted now count =>
      cases q with
      | time => cases hq
      | incr key => cases hq
      | expire key ttl => exact RateKnown.cons hG (hother (by simp)) hle
  · intro h c a c' i e p x hr _ hn hne _ _ hG
    exact hG.cons (clock?_eq_none_of_ne hne) (change_of_next "" hn).1

/-- The request reads the clock, or is about a key satisfying `K`. -/
def RateCmd.About (K : String → Prop) : RateCmd → Prop
  | .time => True
  | .incr key | .expire key _ => K key

theorem RateCmd.About.mono {K K' : String → Prop} {q : RateCmd} (hq : q.About K) (h : ∀ key, K key → K' key) :
    q.About K' := by
  cases q with
  | time => trivial
  | incr key | expire key ttl => exact h key hq

/-- A call only touches the key of its tenant's window in which it has read the clock. -/
theorem about_of_at {t₀ : Time} {h : List (rateLimiter dflt limit window).Step}
    {c : (rateLimiter dflt limit window).Config} (hr : RateRun dflt limit window t₀ h c) {i : Nat}
    {raw : Option String} {q : RateCmd} {k : Except Exn q.Ans → Prog rateIface Exn RateLimitDecision}
    (hat : c.At i raw q k) :
    q.About fun key => ∃ now, clockRead i h = some now ∧ key = windowKey (normalizeTenantId raw dflt) window now := by
  obtain ⟨x, ⟨hq, -⟩, hG⟩ := rate_phase hr i raw _ hat
  cases q with
  | time => trivial
  | incr key =>
    cases x with
    | read now => exact ⟨now, hG.1, hq⟩
    | start | counted => cases hq
  | expire key ttl =>
    cases x with
    | counted now count => exact ⟨now, hG.1, hq.1⟩
    | start | read => cases hq

/-! ## Calls apart -/

/-- Two worlds agree on the clock and on the keys satisfying `K`. -/
structure AgreeOn (K : String → Prop) (s t : Counters) : Prop where
  now : t.now = s.now
  keys {key : String} : K key → t.keys key = s.keys key

section Apart

variable {K : String → Prop} {s s' t t' w : Counters}

theorem AgreeOn.value (h : AgreeOn K s t) {key : String} (hk : K key) : t.value key = s.value key := by
  simp only [Counters.value, h.keys hk]

/-- A key is set on both sides, to the same if it satisfies `K`. -/
theorem AgreeOn.set {key : String} {x y : Option Counter} (h : AgreeOn K s t) (hxy : K key → y = x) :
    AgreeOn K (s.set key x) (t.set key y) := by
  refine ⟨h.now, fun {key'} hk => ?_⟩
  simp only [Counters.set]
  by_cases he : key' = key
  · rw [he, Function.update_self, Function.update_self, hxy (he ▸ hk)]
  · rw [Function.update_of_ne he, Function.update_of_ne he]
    exact h.keys hk

/-- A request that answers the same on both sides. -/
theorem AgreeOn.answer {α : Type} {fault : Fault} {x : α} {r : Except Exn α} (h : AgreeOn K s t)
    (h' : AgreeOn K s' t') (hx : s.answer fault x s' = (r, w)) :
    ∃ w', t.answer fault x t' = (r, w') ∧ AgreeOn K w w' := by
  cases fault <;> cases hx
  · exact ⟨t', rfl, h'⟩
  · exact ⟨t, rfl, h⟩
  · exact ⟨t', rfl, h'⟩

/-- A request about a key satisfying `K` does the same on both sides. -/
theorem AgreeOn.step {q : RateCmd} {fault : Fault} {r : Except Exn q.Ans} (h : AgreeOn K s t) (hq : q.About K)
    (hx : s.exec q fault = (r, w)) : ∃ w', t.exec q fault = (r, w') ∧ AgreeOn K w w' := by
  cases q with
  | time =>
    cases hx
    exact ⟨t, by rw [Counters.exec, h.now], h⟩
  | incr key =>
    have hk : K key := hq
    rw [Counters.exec, h.value hk]
    refine h.answer (h.set fun _ => ?_) hx
    rw [h.value hk, h.keys hk]
  | expire key ttl =>
    have hk : K key := hq
    refine h.answer (h.set fun _ => ?_) hx
    rw [h.keys hk, h.now]

/-- A request about another key does nothing to those that satisfy `K`. -/
theorem AgreeOn.skip {q : RateCmd} {fault : Fault} {r : Except Exn q.Ans} (h : AgreeOn K s t)
    (hq : q.About fun key => ¬ K key) (hx : s.exec q fault = (r, w)) : AgreeOn K w t := by
  have set : ∀ {key : String} {x : Option Counter}, ¬ K key → AgreeOn K (s.set key x) t := fun {key x} hn =>
    ⟨h.now, fun {key'} hk => (h.keys hk).trans
      (Function.update_of_ne (fun he => hn (he ▸ hk) : key' ≠ key) _ _).symm⟩
  cases q with
  | time =>
    cases hx
    exact h
  | incr key | expire key ttl =>
    cases fault <;> cases hx
    · exact set hq
    · exact h
    · exact set hq

end Apart

/-- The calls that stay make requests about the keys satisfying `K`, those that are gone about others. -/
def KeysApart (K : String → Prop) (gone : Nat → Option String → Bool) (c : (rateLimiter dflt limit window).Config)
    (a : (rateLimiter dflt limit window).Action) : Prop :=
  ∀ i raw q k fault, a = .step i fault → c.At i raw q k → q.About fun key => K key ↔ gone i raw = false

theorem separate_keys (K : String → Prop) (gone : Nat → Option String → Bool) :
    Pool.Separate (rateLimiter dflt limit window) gone (KeysApart K gone) (AgreeOn K) where
  step hat ha hg h hx := by
    have hq := (ha _ _ _ _ _ rfl hat).mono fun key hk => hk.mpr hg
    obtain ⟨w', hx', hw⟩ := h.step hq (Option.some.inj hx)
    exact ⟨w', congrArg some hx', hw⟩
  skip hat ha hg h hx := by
    have hq := (ha _ _ _ _ _ rfl hat).mono fun key hk hkey => by simp [hg] at hk; exact hk hkey
    exact h.skip hq (Option.some.inj hx)
  env {e s s' t} h hx := by
    cases e with
    | tick d =>
      cases hx
      refine ⟨t.tick d, rfl, congrArg (· + d) h.now, fun hk => ?_⟩
      simp only [Counters.tick, h.keys hk, h.now]
    | vanish key =>
      cases hx
      refine ⟨t.vanish key, rfl, h.set fun hk => ?_⟩
      rw [h.keys hk, h.now]
  crash h := h
  die h := h

theorem without_boot (K : String → Prop) (gone : Nat → Option String → Bool) (now : Time) :
    Pool.Without gone (AgreeOn K) (rateBoot dflt limit window now) (rateBoot dflt limit window now) :=
  ⟨⟨rfl, fun _ => rfl⟩, fun _ => rfl⟩

/-! ### Tenants -/

/-- The tenant whose call makes a step. -/
def stepTenant (st : (rateLimiter dflt limit window).Step) : Option String :=
  st.call?.map fun raw => normalizeTenantId raw dflt

/-- The decisions that the calls of a tenant got, with their threads, the latest first. -/
def decisions (tenant : String) (h : List (rateLimiter dflt limit window).Step) : List (Nat × RateLimitDecision) :=
  ((Pool.results h).filter fun x => decide (normalizeTenantId x.2.1 dflt = tenant)).map fun x => (x.1, x.2.2)

/-- The keys tell tenants and windows apart, and the run without the calls of one
tenant gives those of another the same decisions. -/
theorem tenants_isolated (dflt : String) (limit window : Int) (now : Time) (a b : Option String)
    (apart : normalizeTenantId a dflt ≠ normalizeTenantId b dflt)
    (h : List (rateLimiter dflt limit window).Step) (c : (rateLimiter dflt limit window).Config)
    (run : Pool.Run Pool.anything (rateBoot dflt limit window now) h c) :
    (∀ tenant tenant' n n', windowKey tenant window n = windowKey tenant' window n' ↔
      tenant = tenant' ∧ n / windowLength window = n' / windowLength window) ∧
    ∃ h' c', Pool.Run Pool.anything (rateBoot dflt limit window now) h' c' ∧
      h'.map Pool.Step.action =
        (h.filter fun st => decide (stepTenant st ≠ some (normalizeTenantId a dflt))).map Pool.Step.action ∧
      decisions (normalizeTenantId b dflt) h' = decisions (normalizeTenantId b dflt) h := by
  refine ⟨fun _ _ _ _ => windowKey_inj, ?_⟩
  let gone : Nat → Option String → Bool := fun _ raw => decide (normalizeTenantId raw dflt = normalizeTenantId a dflt)
  let K : String → Prop := fun key => ∃ tenant b, tenant ≠ normalizeTenantId a dflt ∧ key = bucketKey tenant b
  have happart : Pool.Run (KeysApart K gone) (rateBoot dflt limit window now) h c :=
    run.imp fun hr _ i raw q k fault _ hat => (about_of_at hr hat).mono fun key hkey => by
      obtain ⟨n, -, rfl⟩ := hkey
      refine Iff.trans ⟨?_, fun hne => ⟨_, _, hne, rfl⟩⟩ (decide_eq_false_iff_not.symm)
      rintro ⟨tenant, b, hne, he⟩
      exact (bucketKey_inj.mp he).1 ▸ hne
  obtain ⟨h', c', run', -, hacts, hres⟩ := happart.without (separate_keys K gone) (without_boot K gone now)
  refine ⟨h', c', run', ?_, ?_⟩
  · rw [hacts]
    congr 1
    have key : ∀ x : Option (Option String),
        (!x.any fun raw => decide (normalizeTenantId raw dflt = normalizeTenantId a dflt)) =
          decide (x.map (fun raw => normalizeTenantId raw dflt) ≠ some (normalizeTenantId a dflt)) := by
      intro x
      cases x <;> simp
    exact List.filter_congr fun st _ => (congrArg not (Pool.goneBy_entry _ st)).trans (key st.call?)
  · rw [decisions, decisions, hres, List.filter_filter]
    congr 1
    refine List.filter_congr fun x _ => ?_
    by_cases hx : normalizeTenantId x.2.1 dflt = normalizeTenantId b dflt
    · simp [gone, hx, apart.symm]
    · simp [hx]

/-- Two tenants call at once. -/
def rateSample (dflt : String) (limit window : Int) : List (rateLimiter dflt limit window).Action :=
  [.start 1 (some "acme"), .start 2 (some "globex"), .start 3 (some "globex"), .step 1 .none, .step 2 .none,
    .step 2 .none, .step 1 .none, .step 3 .none, .step 1 .none, .step 3 .none, .step 2 .none]

theorem tenants_isolated_sample : ∃ h c, Pool.Run Pool.anything (rateBoot "default" 1 60 0) h c ∧
    (decisions "globex" h).map (fun x => x.2.allowed) = [true, false] ∧
    ∃ h' c', Pool.Run Pool.anything (rateBoot "default" 1 60 0) h' c' ∧
      h'.map Pool.Step.action = (h.filter fun st => decide (stepTenant st ≠ some "acme")).map Pool.Step.action ∧
      decisions "globex" h' = decisions "globex" h := by
  have hrun : (Pool.recordIf (fun _ _ => true) (rateSample "default" 1 60) [] (rateBoot "default" 1 60 0)).any
      (fun x => decide ((decisions "globex" x.1).map (fun x => x.2.allowed) = [true, false])) = true := by
    decide +kernel
  obtain ⟨x, hx, hd⟩ := (Option.any_eq_true _ _).mp hrun
  have hany : ∀ (c : (rateLimiter "default" 1 60).Config) a, true = true → Pool.anything c a := fun _ _ _ => trivial
  have hr := Pool.Run.nil.recordIf hany hx
  exact ⟨x.1, x.2, hr, of_decide_eq_true hd,
    (tenants_isolated "default" 1 60 0 (some "acme") (some "globex") (by decide +kernel) x.1 x.2 hr).2⟩

/-! ### Windows -/

/-- Thread `i` has read the clock in a window before `b`. -/
def early (b : Nat) (h : List (rateLimiter dflt limit window).Step) (i : Nat) : Bool :=
  (clockRead i h).any fun now => decide (now / windowLength window < b)

/-- The run without the calls of the windows before `b` gives the other calls the same results. -/
theorem windows_isolated {t₀ : Time} {h : List (rateLimiter dflt limit window).Step}
    {c : (rateLimiter dflt limit window).Config} (hr : RateRun dflt limit window t₀ h c) (b : Nat) :
    ∃ h' c', RateRun dflt limit window t₀ h' c' ∧
      h'.map Pool.Step.action = (h.filter fun st => !st.action.thread.any (early b h)).map Pool.Step.action ∧
      ∀ i raw d, early b h i = false → (c'.Returned i raw d ↔ c.Returned i raw d) := by
  let gone : Nat → Option String → Bool := fun i _ => early b h i
  let K : String → Prop := fun key => ∃ tenant n, b ≤ n ∧ key = bucketKey tenant n
  have happart : Pool.Run (KeysApart K gone) (rateBoot dflt limit window t₀) h c :=
    hr.of_mem fun st hst i raw q k fault _ hat => by
      obtain ⟨h₁, hr₁, -, -, hsuf⟩ := hr.split hst
      refine (about_of_at hr₁ hat).mono fun key hkey => ?_
      obtain ⟨now, hread, rfl⟩ := hkey
      have hearly : early b h i = false ↔ b ≤ now / windowLength window := by
        simp [early, clockRead_of_suffix hsuf hread]
      refine Iff.trans ⟨?_, fun hle => ⟨_, _, hle, rfl⟩⟩ hearly.symm
      rintro ⟨tenant, n, hle, he⟩
      exact (bucketKey_inj.mp he).2 ▸ hle
  obtain ⟨h', c', hr', hw, hacts, -⟩ := happart.without (separate_keys K gone) (without_boot K gone t₀)
  refine ⟨h', c', hr', ?_, fun i raw d hi => hw.returned_iff fun _ => hi⟩
  rw [hacts]
  congr 1
  refine List.filter_congr fun st hst => ?_
  obtain ⟨-, -, hn⟩ := hr.mem hst
  cases hi : st.action.thread with
  | none => simp [Pool.Step.goneBy, hi]
  | some i =>
    obtain ⟨t, ht⟩ := Pool.threads_of_next hn hi
    simp [Pool.Step.goneBy, hi, ht, gone]

/-! ## The quota -/

def windowEnd (window : Int) (b : Nat) : Time := seconds ((b + 1) * windowLength window)

/-- The thread of a call of the tenant whose INCR takes effect with the step, before the end of the
window `b`. -/
def counts? (tenant : String) (b : Nat) (st : (rateLimiter dflt limit window).Step) : Option Nat :=
  match st.action, st.request with
  | .step i fault, some (_, .incr _) =>
    if fault.effective ∧ stepTenant st = some tenant ∧ Counters.now st.before.world < windowEnd window b then some i
    else none
  | _, _ => none

/-- The calls of the tenant that read the clock in the window `b` and made their
INCR before its end, in the order of the INCRs. -/
def windowCalls (tenant : String) (b : Nat) (h : List (rateLimiter dflt limit window).Step) : List Nat :=
  ((h.filterMap (counts? tenant b)).filter fun i =>
    (clockRead i h).any fun now => decide (now / windowLength window = b)).reverse

/-- The threads whose INCRs of the window's key took effect before its end, in their order. -/
def keyCalls (tenant : String) (b : Nat) (h : List (rateLimiter dflt limit window).Step) : List Nat :=
  (h.filterMap fun st =>
    if Counters.now st.before.world < windowEnd window b then incr? (bucketKey tenant b) st else none).reverse

/-- The calls of a window are those that count in its key. -/
theorem windowCalls_eq {t₀ : Time} {h : List (rateLimiter dflt limit window).Step}
    {c : (rateLimiter dflt limit window).Config} (hr : RateRun dflt limit window t₀ h c) (tenant : String) (b : Nat) :
    windowCalls tenant b h = keyCalls tenant b h := by
  rw [windowCalls, keyCalls, List.filter_filterMap]
  congr 1
  refine List.filterMap_congr fun st hst => ?_
  obtain ⟨h₁, hr₁, -, hn, hsuf⟩ := hr.split hst
  obtain ⟨c, a, c'⟩ := st
  dsimp only at hr₁ hn
  cases a with
  | start i e => simp [counts?, incr?]
  | crash i => simp [counts?, incr?]
  | env e => simp [counts?, incr?]
  | step i fault =>
    obtain ⟨raw, q, k, r, w, hat, -, rfl⟩ := Pool.next_step hn
    have hreq : Pool.Step.request (⟨c, .step i fault, c.set i w ⟨raw, some (k r)⟩⟩ :
        (rateLimiter dflt limit window).Step) = some (i, q) := Pool.request_of_at hat
    have hkey := about_of_at hr₁ hat
    have htenant : stepTenant (⟨c, .step i fault, c.set i w ⟨raw, some (k r)⟩⟩ :
        (rateLimiter dflt limit window).Step) = some (normalizeTenantId raw dflt) := by
      rw [stepTenant, Pool.call?_set (i := i) rfl]
      rfl
    cases q with
    | time => simp [counts?, incr?, hreq]
    | expire key ttl => simp [counts?, incr?, hreq]
    | incr key =>
      obtain ⟨now, hread, rfl⟩ := hkey
      have hwindow : windowKey (normalizeTenantId raw dflt) window now = bucketKey tenant b ↔
          normalizeTenantId raw dflt = tenant ∧ now / windowLength window = b := bucketKey_inj
      have hread' : clockRead i h = some now := clockRead_of_suffix hsuf hread
      simp only [counts?, incr?, hreq, htenant, Option.some.injEq, Prod.mk.injEq, true_and, RateCmd.incr.injEq,
        hwindow]
      by_cases hf : fault.effective = true <;> by_cases ht : normalizeTenantId raw dflt = tenant <;>
        by_cases hend : Counters.now c.world < windowEnd window b <;>
        by_cases hb : now / windowLength window = b <;> simp [hf, ht, hend, hb, hread']

theorem reverse_filterMap_cons {α β : Type} (f : α → Option β) (x : α) (l : List α) :
    ((x :: l).filterMap f).reverse = (l.filterMap f).reverse ++ (f x).toList := by
  rw [List.filterMap_cons]
  cases f x <;> simp

theorem keyCalls_cons (tenant : String) (b : Nat) (st : (rateLimiter dflt limit window).Step)
    (h : List (rateLimiter dflt limit window).Step) : keyCalls tenant b (st :: h) = keyCalls tenant b h ++
      (if Counters.now st.before.world < windowEnd window b then incr? (bucketKey tenant b) st else none).toList :=
  reverse_filterMap_cons _ st h

theorem value_congr {s s' : Counters} {key : String} (h : s'.keys key = s.keys key) : s'.value key = s.value key := by
  simp only [Counters.value, h]

theorem value_of_keys {s : Counters} {key : String} {v : Nat} {d : Option Time} (h : s.keys key = some ⟨v, d⟩) :
    s.value key = v := by
  simp only [Counters.value, h, Option.map_some, Option.getD_some]

theorem value_of_map {s s' : Counters} {key : String} {f : Counter → Counter} (h : s'.keys key = (s.keys key).map f)
    (hf : ∀ c, (f c).value = c.value) : s'.value key = s.value key := by
  simp only [Counters.value, h, Option.map_map, Function.comp_def, hf]

/-- A time to live that begins in a window, or later, does not end before it. -/
theorem windowEnd_le {n : Nat} {now : Time} (h : n * 1000000 ≤ now) :
    windowEnd window (n / windowLength window) ≤ now + seconds (windowLength window) := by
  have hdiv : n / windowLength window * windowLength window ≤ n := Nat.div_mul_le_self _ _
  have hend : windowEnd window (n / windowLength window) =
      n / windowLength window * windowLength window * 1000000 + seconds (windowLength window) := by
    rw [windowEnd, seconds, seconds, Nat.add_one_mul, Nat.add_mul]
  rw [hend]
  exact Nat.add_le_add_right (Nat.le_trans (Nat.mul_le_mul_right _ hdiv) h) _

/-- Before its window ends a counter has not been reset: its time to live does
not end earlier, whenever it is set. -/
theorem window_counts {t₀ : Time} {h : List (rateLimiter dflt limit window).Step}
    {c : (rateLimiter dflt limit window).Config} (hr : RateRun dflt limit window t₀ h c) (tenant : String) (b : Nat) :
    (∀ v d, Counters.keys c.world (bucketKey tenant b) = some ⟨v, some d⟩ → windowEnd window b ≤ d) ∧
    (Counters.now c.world < windowEnd window b →
      Counters.value c.world (bucketKey tenant b) = (keyCalls tenant b h).length) := by
  induction hr with
  | nil => exact ⟨by simp [rateBoot], fun _ => rfl⟩
  | @cons h c a c' hr _ hn ih =>
    obtain ⟨hlive, hcount⟩ := ih
    obtain ⟨hle, hc⟩ := change_of_next (bucketKey tenant b) hn
    have hearly : Counters.now c'.world < windowEnd window b → Counters.now c.world < windowEnd window b :=
      fun hlt => Nat.lt_of_le_of_lt hle hlt
    rw [keyCalls_cons]
    cases hc with
    | same idle keys =>
      refine ⟨fun v d hk => hlive v d (keys ▸ hk), fun hlt => ?_⟩
      rw [value_congr keys, idle, ite_self, hcount (hearly hlt)]
      simp
    | incr i thread keys =>
      refine ⟨fun v d hk => ?_, fun hlt => ?_⟩
      · have hd := congrArg Counter.deadline (Option.some.inj (keys.symm.trans hk))
        obtain ⟨⟨v', d'⟩, hk', hd⟩ := Option.bind_eq_some_iff.mp hd
        cases hd
        exact hlive v' d hk'
      · have hv := hcount (hearly hlt)
        rw [value_of_keys keys, thread, if_pos (hearly hlt), List.length_append, ← hv]
        rfl
    | expire idle i ttl asked keys =>
      obtain ⟨p, raw, k, rfl, hat⟩ := Pool.at_of_request asked
      obtain ⟨x, ⟨hx, -⟩, hG⟩ := rate_phase hr i raw _ hat
      cases x with
      | start => cases hx
      | read now => cases hx
      | counted now count =>
        obtain ⟨hkey, rfl⟩ := hx
        obtain ⟨-, rfl⟩ := bucketKey_inj.mp hkey
        refine ⟨fun v d hk => ?_, fun hlt => ?_⟩
        · obtain ⟨k', -, hd⟩ := Option.map_eq_some_iff.mp (keys.symm.trans hk)
          cases hd
          exact windowEnd_le hG.2.1
        · rw [value_of_map keys fun _ => rfl, idle, ite_self, hcount (hearly hlt)]
          simp
    | gone idle v d keys due absent =>
      have hend : windowEnd window b ≤ Counters.now c'.world := Nat.le_trans (hlive v d keys) due
      exact ⟨fun v d hk => by simp [show Counters.keys c'.world _ = _ from absent] at hk, fun hlt =>
        absurd hend (Nat.not_le.mpr hlt)⟩

/-- The number of INCRs of the key since it was last absent. -/
def sinceAbsent (key : String) : List (rateLimiter dflt limit window).Step → Nat
  | [] => 0
  | st :: h =>
    if Counters.keys st.after.world key = none then 0 else sinceAbsent key h + (incr? key st).toList.length

/-- A counter counts the INCRs of its key, and nothing else. -/
theorem value_eq {t₀ : Time} {h : List (rateLimiter dflt limit window).Step}
    {c : (rateLimiter dflt limit window).Config} (hr : RateRun dflt limit window t₀ h c) (key : String) :
    Counters.value c.world key = sinceAbsent key h := by
  induction hr with
  | nil => rfl
  | @cons h c a c' _ _ hn ih =>
    have hzero : Counters.keys c'.world key = none → Counters.value c'.world key = 0 := fun hk => by
      simp only [Counters.value, hk, Option.map_none, Option.getD_none]
    have hstep : Counters.keys c'.world key ≠ none →
        Counters.value c'.world key = Counters.value c.world key + (incr? key ⟨c, a, c'⟩).toList.length := by
      intro hk
      cases (change_of_next key hn).2 with
      | same idle keys => rw [value_congr keys, idle]; rfl
      | incr i thread keys => rw [value_of_keys keys, thread]; rfl
      | expire idle i ttl asked keys => rw [value_of_map keys fun _ => rfl, idle]; rfl
      | gone idle v d keys due absent => exact absurd absent hk
    rw [sinceAbsent]
    split
    · rename_i hk
      exact hzero hk
    · rename_i hk
      rw [hstep hk, ih]

def RateCmd.IsIncr (q : RateCmd) : Prop := ∃ key, q = .incr key

instance : DecidablePred RateCmd.IsIncr := fun q =>
  match q with
  | .incr key => isTrue ⟨key, rfl⟩
  | .time => isFalse (by rintro ⟨_, h⟩; cases h)
  | .expire .. => isFalse (by rintro ⟨_, h⟩; cases h)

theorem check_atMost (tenant : String) : (checkTenantRateLimit tenant limit window).AtMost RateCmd.IsIncr 1 := by
  have other : ∀ {α : Type} {p : Prog rateIface Exn α}, p.Only (fun q => ¬ RateCmd.IsIncr q) →
      p.AtMost RateCmd.IsIncr 0 := fun hp => .of_only hp 0
  rw [checkTenantRateLimit]
  split
  · trivial
  · have htime : (Prog.perform (I := rateIface) .time : Prog rateIface Exn Nat).AtMost RateCmd.IsIncr 0 :=
      other (.perform (by rintro ⟨_, h⟩; cases h))
    refine .bind htime fun now => .bind (n := 0) (.perform _) fun count => ?_
    split
    · exact .bind (m := 0) (n := 0) (other (.perform (by rintro ⟨_, h⟩; cases h))) fun _ => trivial
    · trivial

theorem request_of_incr? {key : String} {st : (rateLimiter dflt limit window).Step} {i : Nat}
    (h : incr? key st = some i) : st.request = some (i, .incr key) := by
  simp only [incr?] at h
  split at h
  · split at h
    · rename_i hc
      cases h
      exact of_decide_eq_true (Bool.and_eq_true_iff.mp hc).2
    · cases h
  · cases h

theorem asked_of_incr? {key : String} {st : (rateLimiter dflt limit window).Step} {i : Nat}
    (h : incr? key st = some i) :
    Pool.asked RateCmd.IsIncr i [st] = 1 := Pool.asked_of_request _ (request_of_incr? h) ⟨key, rfl⟩

theorem count_keyCalls (tenant : String) (b i : Nat) (h : List (rateLimiter dflt limit window).Step) :
    (keyCalls tenant b h).count i ≤ Pool.asked RateCmd.IsIncr i h := by
  induction h with
  | nil => exact le_refl _
  | cons st h ih =>
    have hcons : Pool.asked RateCmd.IsIncr i (st :: h) =
        Pool.asked RateCmd.IsIncr i [st] + Pool.asked RateCmd.IsIncr i h := Pool.asked_append _ i [st] h
    have hone : ((if Counters.now st.before.world < windowEnd window b then incr? (bucketKey tenant b) st
        else none).toList).count i ≤ Pool.asked RateCmd.IsIncr i [st] := by
      split
      · cases hj : incr? (bucketKey tenant b) st with
        | none => exact Nat.zero_le _
        | some j =>
          by_cases hij : j = i
          · subst hij
            rw [asked_of_incr? hj]
            simp
          · rw [Option.toList_some, List.count_eq_zero_of_not_mem (by simpa using fun h => hij h.symm)]
            exact Nat.zero_le _
      · exact Nat.zero_le _
    rw [keyCalls_cons, List.count_append, hcons, Nat.add_comm]
    exact Nat.add_le_add hone ih

theorem keyCalls_append (tenant : String) (b : Nat) (h h' : List (rateLimiter dflt limit window).Step) :
    keyCalls tenant b (h ++ h') = keyCalls tenant b h' ++ keyCalls tenant b h := by
  simp only [keyCalls, List.filterMap_append, List.reverse_append]

/-- An element is among the first `k` of a list exactly if fewer stand before it. -/
theorem mem_take_iff {α : Type} {xs ys : List α} {x : α} {k : Nat} (hx : x ∉ xs) :
    x ∈ (xs ++ x :: ys).take k ↔ xs.length < k := by
  rw [List.take_append, List.mem_append]
  constructor
  · rintro (h | h)
    · exact absurd (List.mem_of_mem_take h) hx
    · by_contra hk
      rw [Nat.sub_eq_zero_of_le (Nat.le_of_not_lt hk)] at h
      cases h
  · intro hk
    obtain ⟨m, hm⟩ := Nat.exists_eq_add_of_lt hk
    right
    rw [show k - xs.length = m + 1 by omega, List.take_succ_cons]
    exact List.mem_cons_self

/-- The outcome of a call of a run: the evaluation of the number of INCRs of the key of the window
in which it has read the clock. -/
def OwnOutcome (h : List (rateLimiter dflt limit window).Step) (i : Nat) (raw : Option String)
    (d : RateLimitDecision) : Prop :=
  ∃ now st h₁ h₂, clockRead i h = some now ∧ h = h₂ ++ st :: h₁ ∧
    incr? (windowKey (normalizeTenantId raw dflt) window now) st = some i ∧
    d = evaluateFixedWindow (sinceAbsent (windowKey (normalizeTenantId raw dflt) window now) (st :: h₁))
      limit window now

theorem counted_of_returned {t₀ : Time} (limited : 0 < limit) {h : List (rateLimiter dflt limit window).Step}
    {c : (rateLimiter dflt limit window).Config} (hr : RateRun dflt limit window t₀ h c) {i : Nat}
    {raw : Option String} {d : RateLimitDecision} (hd : c.Returned i raw d) : ∃ now count st h₁ h₂,
    clockRead i h = some now ∧
    Counted dflt limit window t₀ i (windowKey (normalizeTenantId raw dflt) window now) count h st h₁ h₂ ∧
      d = evaluateFixedWindow count limit window now := by
  obtain ⟨x, hx, hG⟩ := rate_phase hr i raw _ hd
  cases x with
  | start => exact absurd hx (not_le.mpr limited)
  | read now => cases hx
  | counted now count =>
    obtain ⟨hread, -, st, h₁, h₂, hc⟩ := hG
    exact ⟨now, count, st, h₁, h₂, hread, hc, hx⟩

/-- An INCR answers the number of INCRs of its key. -/
theorem Counted.sinceAbsent {t₀ : Time} {i : Nat} {key : String} {count : Nat}
    {h h₁ h₂ : List (rateLimiter dflt limit window).Step} {st : (rateLimiter dflt limit window).Step}
    (hc : Counted dflt limit window t₀ i key count h st h₁ h₂) : count = CM.sinceAbsent key (st :: h₁) := by
  have hn : Pool.next st.before st.action = some st.after := (hc.after.mem List.mem_cons_self).2.2
  rw [← value_eq hc.after key, hc.answer]
  cases (change_of_next key hn).2 with
  | incr j thread keys => exact (value_of_keys keys).symm
  | same idle | expire idle | gone idle => cases idle.symm.trans hc.thread

theorem evaluate_allowed {count : Int} {n : Nat} (limited : 0 < limit) :
    (evaluateFixedWindow count limit window n).allowed = true ↔ count ≤ limit := by
  rw [evaluateFixedWindow, if_neg (not_le.mpr limited)]
  exact decide_eq_true_iff

/-- A call of a window is allowed exactly if fewer calls than the limit came before it. -/
theorem Counted.allowed_iff {t₀ : Time} (limited : 0 < limit) {h : List (rateLimiter dflt limit window).Step}
    {c : (rateLimiter dflt limit window).Config} (hr : RateRun dflt limit window t₀ h c) {i : Nat} {key : String}
    {count now : Nat} {h₁ h₂ : List (rateLimiter dflt limit window).Step} {st : (rateLimiter dflt limit window).Step}
    (hc : Counted dflt limit window t₀ i key count h st h₁ h₂) {tenant : String} {b : Nat}
    (hi : i ∈ keyCalls tenant b h) : (evaluateFixedWindow count limit window now).allowed = true ↔
      i ∈ (keyCalls tenant b h).take (min (keyCalls tenant b h).length limit.toNat) := by
  have hcode : ∀ raw, ((rateLimiter dflt limit window).code raw).AtMost RateCmd.IsIncr 1 := fun raw => check_atMost _
  have hasked := hr.requests_le RateCmd.IsIncr (fun _ => rfl) hcode i
  rw [hc.history, show h₂ ++ st :: h₁ = h₂ ++ ([st] ++ h₁) from rfl, Pool.asked_append, Pool.asked_append,
    asked_of_incr? hc.thread] at hasked
  -- the call's one INCR is the step `st`
  have absent : ∀ h' : List (rateLimiter dflt limit window).Step, Pool.asked RateCmd.IsIncr i h' = 0 →
      i ∉ keyCalls tenant b h' := by
    intro h' h0 hm
    have := Nat.le_trans (List.count_pos_iff.mpr hm) (count_keyCalls tenant b i h')
    omega
  have hbefore := absent h₁ (by omega)
  have hafter := absent h₂ (by omega)
  have hcalls : keyCalls tenant b h = keyCalls tenant b h₁ ++
      (if Counters.now st.before.world < windowEnd window b then incr? (bucketKey tenant b) st else none).toList ++
      keyCalls tenant b h₂ := by
    rw [hc.history, keyCalls_append, keyCalls_cons]
  rw [hcalls, List.mem_append, List.mem_append] at hi
  have hst := (hi.resolve_right hafter).resolve_left hbefore
  split at hst
  · rename_i hnow
    have hincr : incr? (bucketKey tenant b) st = some i := by simpa using hst
    have hkey : key = bucketKey tenant b := by
      have := (request_of_incr? hc.thread).symm.trans (request_of_incr? hincr)
      simpa using this
    have hcount := (window_counts hc.before tenant b).2 hnow
    rw [if_pos hnow, hincr, Option.toList_some, List.append_assoc, List.singleton_append] at hcalls
    rw [hcalls, mem_take_iff hbefore, evaluate_allowed limited, hc.answer, hkey, hcount]
    simp only [List.length_append, List.length_cons]
    omega
  · cases hst

/-- The quota of a tenant's window is exact: of the calls that read the clock in it and make their
INCR before it ends, the first ones are allowed, up to the limit. The outcome of a call depends on
the INCRs of its own window: the run without the calls of earlier windows gives it the same one. -/
theorem quota_exact (dflt : String) (limit window : Int) (t₀ : Time) (limited : 0 < limit)
    (h : List (rateLimiter dflt limit window).Step) (c : (rateLimiter dflt limit window).Config)
    (run : Pool.Run Pool.anything (rateBoot dflt limit window t₀) h c) :
    (∀ tenant b, (windowCalls tenant b h).Nodup ∧ ∀ i raw d, c.Returned i raw d → i ∈ windowCalls tenant b h →
      (d.allowed = true ↔
        i ∈ (windowCalls tenant b h).take (min (windowCalls tenant b h).length limit.toNat))) ∧
    (∀ i raw d, c.Returned i raw d → OwnOutcome h i raw d) ∧
    ∀ b, ∃ h' c', Pool.Run Pool.anything (rateBoot dflt limit window t₀) h' c' ∧
      h'.map Pool.Step.action = (h.filter fun st => !st.action.thread.any (early b h)).map Pool.Step.action ∧
      ∀ i raw d, early b h i = false → (c'.Returned i raw d ↔ c.Returned i raw d) := by
  refine ⟨fun tenant b => ?_, fun i raw d hd => ?_, windows_isolated run⟩
  · rw [windowCalls_eq run]
    refine ⟨List.nodup_iff_count_le_one.mpr fun i => ?_, fun i raw d hd hi => ?_⟩
    · have hcode : ∀ raw, ((rateLimiter dflt limit window).code raw).AtMost RateCmd.IsIncr 1 :=
        fun raw => check_atMost _
      exact Nat.le_trans (count_keyCalls tenant b i h) (run.requests_le RateCmd.IsIncr (fun _ => rfl) hcode i)
    · obtain ⟨now, count, st, h₁, h₂, -, hc, rfl⟩ := counted_of_returned limited run hd
      exact hc.allowed_iff limited run hi
  · obtain ⟨now, count, st, h₁, h₂, hread, hc, rfl⟩ := counted_of_returned limited run hd
    exact ⟨now, st, h₁, h₂, hread, hc.history, hc.thread, by rw [← hc.sinceAbsent]⟩

/-- A call dies before its EXPIRE, and two calls follow in the next window. -/
def staleSample : List (rateLimiter "default" 1 60).Action :=
  [.start 1 (some "globex"), .step 1 .none, .step 1 .none, .crash 1, .env (.tick (seconds 60)),
    .start 2 (some "globex"), .start 3 (some "globex"), .step 2 .none, .step 3 .none, .step 3 .none, .step 2 .none,
    .step 3 .none]

theorem quota_exact_sample : ∃ h c, Pool.Run Pool.anything (rateBoot "default" 1 60 0) h c ∧
    windowCalls "globex" 1 h = [3, 2] ∧ early 1 h 1 = true ∧
    (∀ i raw d, c.Returned i raw d → i ∈ windowCalls "globex" 1 h →
      (d.allowed = true ↔
        i ∈ (windowCalls "globex" 1 h).take (min (windowCalls "globex" 1 h).length (Int.toNat 1)))) ∧
    ∃ h' c', Pool.Run Pool.anything (rateBoot "default" 1 60 0) h' c' ∧
      h'.map Pool.Step.action = (h.filter fun st => !st.action.thread.any (early 1 h)).map Pool.Step.action ∧
      ∀ i raw d, early 1 h i = false → (c'.Returned i raw d ↔ c.Returned i raw d) := by
  have hrun : (Pool.recordIf (fun _ _ => true) staleSample [] (rateBoot "default" 1 60 0)).any
      (fun x => decide (windowCalls "globex" 1 x.1 = [3, 2] ∧ early 1 x.1 1 = true)) = true := by
    decide +kernel
  obtain ⟨x, hx, hd⟩ := (Option.any_eq_true _ _).mp hrun
  have hany : ∀ (c : (rateLimiter "default" 1 60).Config) a, true = true → Pool.anything c a := fun _ _ _ => trivial
  have hr := Pool.Run.nil.recordIf hany hx
  obtain ⟨hcalls, hearly⟩ := of_decide_eq_true hd
  obtain ⟨hquota, -, happart⟩ := quota_exact "default" 1 60 0 (by decide) x.1 x.2 hr
  exact ⟨x.1, x.2, hr, hcalls, hearly, (hquota "globex" 1).2, happart 1⟩

/-! ## Retry-After -/

/-- The first second after the window of `now`. -/
def resetAt (window : Int) (now : Nat) : Nat := (now / windowLength window + 1) * windowLength window

theorem windowLength_pos (window : Int) : 0 < windowLength window := by
  unfold windowLength
  omega

theorem lt_resetAt (window : Int) (now : Nat) : now < resetAt window now :=
  Nat.lt_mul_of_div_lt (Nat.lt_succ_self _) (windowLength_pos window)

theorem resetAt_le (window : Int) (now : Nat) : resetAt window now ≤ now + windowLength window := by
  have hdiv : now / windowLength window * windowLength window ≤ now := Nat.div_mul_le_self _ _
  rw [resetAt, Nat.add_one_mul]
  exact Nat.add_le_add_right hdiv _

/-- From `now` on the window is the same up to its end. -/
theorem bucket_eq_iff {t now : Nat} (h : now ≤ t) :
    t / windowLength window = now / windowLength window ↔ t < resetAt window now := by
  have hmono : now / windowLength window ≤ t / windowLength window := Nat.div_le_div_right h
  rw [resetAt, ← Nat.div_lt_iff_lt_mul (windowLength_pos window)]
  omega

theorem windowKey_eq_iff {tenant : String} {t now : Nat} (h : now ≤ t) :
    windowKey tenant window t = windowKey tenant window now ↔ t < resetAt window now := by
  rw [windowKey_inj, ← bucket_eq_iff h]
  exact and_iff_right rfl

theorem resetAt_least (tenant : String) (now : Nat) :
    IsLeast {t | now < t ∧ windowKey tenant window t ≠ windowKey tenant window now} (resetAt window now) := by
  have hlt := lt_resetAt window now
  refine ⟨⟨hlt, fun hkey => ?_⟩, fun t ⟨ht, hkey⟩ => ?_⟩
  · exact absurd ((windowKey_eq_iff hlt.le).mp hkey) (lt_irrefl _)
  · by_contra hr
    exact hkey ((windowKey_eq_iff ht.le).mpr (not_le.mp hr))

theorem windowEnd_eq (now : Nat) : windowEnd window (now / windowLength window) = seconds (resetAt window now) := rfl

theorem evaluate_limited {count : Int} {now : Nat} (limited : 0 < limit) :
    evaluateFixedWindow count limit window now =
      { allowed := decide (count ≤ limit)
        limit
        remaining := if count ≤ limit then limit - count else 0
        retryAfter := if count ≤ limit then 0 else resetAt window now - now
        resetAt := resetAt window now
        count } := by
  have hlt := lt_resetAt window now
  have hreset : ((now : Int) / windowLength window + 1) * windowLength window = resetAt window now := by
    rw [resetAt]
    push_cast
    rfl
  rw [evaluateFixedWindow, if_neg (not_le.mpr limited)]
  simp only [hreset, decide_eq_true_eq]
  congr 1
  · split <;> omega
  · split <;> omega

/-- The EXPIRE of a counter, set in its window, does not end before that does. -/
theorem deadline_of_expire {s : Counters} {tenant : String} {now : Nat} {c : Counter}
    (hin : windowKey tenant window (s.now / 1000000) = windowKey tenant window now)
    (hc : (s.expire (windowKey tenant window now) (windowLength window)).keys
      (windowKey tenant window now) = some c) :
    ∃ d, c.deadline = some d ∧ seconds (resetAt window now) ≤ d := by
  obtain ⟨-, hbucket⟩ := windowKey_inj.mp hin
  have hset : (s.expire (windowKey tenant window now) (windowLength window)).keys (windowKey tenant window now) =
      (s.keys (windowKey tenant window now)).map fun c =>
        { c with deadline := some (s.now + seconds (windowLength window)) } := Function.update_self ..
  rw [hset] at hc
  obtain ⟨c', -, rfl⟩ := Option.map_eq_some_iff.mp hc
  refine ⟨_, rfl, ?_⟩
  rw [← windowEnd_eq, ← hbucket]
  exact windowEnd_le (Nat.div_mul_le_self _ _)

/-- The time to live of a window's key is always the length of a window. -/
theorem check_expires (tenant : String) : (checkTenantRateLimit tenant limit window).Only fun q =>
    ∀ key ttl, q = RateCmd.expire key ttl → ttl = windowLength window := by
  rw [checkTenantRateLimit]
  split
  · trivial
  · refine .bind (.perform (I := rateIface) (q := .time) fun _ _ h => (by cases h)) fun now => ?_
    refine .bind (.perform (I := rateIface) (q := .incr _) fun _ _ h => (by cases h)) fun count => ?_
    split
    · refine .bind (.perform (I := rateIface) (q := .expire _ _) fun key ttl h => ?_) fun _ => trivial
      cases h
      rfl
    · trivial

/-- `Retry-After` is sound and tight: the window ends at `reset_at`, a denied call
that waits for `retry_after` seconds counts in the next one and a call that waits for
less counts in this one, whose counter is still there, as every EXPIRE is for the
length of a window. -/
theorem retryAfter_exact (tenant : String) (count limit window : Int) (now : Nat) (limited : 0 < limit) :
    ∃ (d : RateLimitDecision) (reset : Nat), evaluateFixedWindow count limit window now = d ∧ d.resetAt = reset ∧
      IsLeast {t | now < t ∧ windowKey tenant window t ≠ windowKey tenant window now} reset ∧
      (d.allowed = false → 1 ≤ d.retryAfter ∧ d.retryAfter ≤ max 1 window ∧ now + d.retryAfter = d.resetAt ∧
        ∀ wait : Nat, wait < d.retryAfter →
          windowKey tenant window (now + wait) = windowKey tenant window now) ∧
      (d.remaining = 0 ↔ limit ≤ count) ∧ (count < limit → d.remaining = limit - count) ∧
      (∀ (s : Counters) (c : Counter), windowKey tenant window (s.now / 1000000) = windowKey tenant window now →
        (s.expire (windowKey tenant window now) (windowLength window)).keys (windowKey tenant window now) = some c →
        ∃ t, c.deadline = some t ∧ seconds reset ≤ t) ∧
      (checkTenantRateLimit tenant limit window).Only fun q =>
        ∀ key ttl, q = RateCmd.expire key ttl → ttl = windowLength window := by
  have hlt := lt_resetAt window now
  have hle := resetAt_le window now
  have hlength : (windowLength window : Int) = max 1 window := by
    unfold windowLength
    omega
  refine ⟨_, resetAt window now, evaluate_limited limited, rfl, resetAt_least tenant now, fun hdenied => ?_, ?_, ?_,
    fun s c hin hc => deadline_of_expire hin hc, check_expires tenant⟩
  · have hover : ¬ count ≤ limit := of_decide_eq_false hdenied
    dsimp only
    rw [if_neg hover]
    refine ⟨by omega, by omega, by omega, fun wait hw => ?_⟩
    exact (windowKey_eq_iff (by omega)).mpr (by omega)
  · dsimp only
    split <;> omega
  · intro hc
    dsimp only
    rw [if_pos hc.le]

theorem retryAfter_exact_sample : 0 < (5 : Int) ∧
    (evaluateFixedWindow 6 5 60 100).allowed = false ∧ (evaluateFixedWindow 6 5 60 100).retryAfter = 20 ∧
    IsLeast {t | 100 < t ∧ windowKey "acme" 60 t ≠ windowKey "acme" 60 100} 120 := by
  obtain ⟨d, reset, rfl, hreset, hleast, -⟩ := retryAfter_exact "acme" 6 5 60 100 (by decide)
  have h : ((120 : Nat) : Int) = reset := hreset
  obtain rfl : 120 = reset := by omega
  exact ⟨by decide, by decide, by decide, hleast⟩

end CM
