import ContentModeration.Framework.Monitor
import ContentModeration.Proof.Changes

/-!
# The review lock

Each call of `acquire_review_claim` and `release_review_claim` first reads the
key and then refreshes or deletes it (`lockMonitor`). A reviewer holds the lock
from the step that gives it to the end of its time to live (`holders`). Where
the key does not end or change hands between the two commands of a call and is
never given less time (`LockKept`), the key stands behind every holder
(`backed_of_run`), so no two reviewers hold the lock at once and nobody touches
the key of another (`lock_exclusive`); else there can be two holders
(`two_holders`).
-/

namespace CM

open World

variable {reviewId : String}

/-! ## Redis -/

theorem lookup_filter_of_pos {α β : Type} [DecidableEq α] {l : List (α × β)} {p : α × β → Bool} {a : α} {b : β}
    (h : l.lookup a = some b) (hp : p (a, b) = true) : (l.filter p).lookup a = some b := by
  induction l with
  | nil => cases h
  | cons x l ih =>
    obtain ⟨y, v⟩ := x
    rw [List.lookup_cons] at h
    split at h
    · rename_i he
      cases h
      have hy := eq_of_beq he
      subst hy
      simp [hp]
    · rename_i hne
      rw [List.filter_cons]
      split
      · rw [List.lookup_cons, hne]
        exact ih h
      · exact ih h

namespace World

variable {s s' : World} {key value : String} {deadline : Time}

/-- The value of a key and the end of its time to live. -/
def entry (s : World) (key : String) : Option (String × Time) := s.redis.lookup key

theorem redisGet_eq_some : s.redisGet key = some value ↔ ∃ d, s.entry key = some (value, d) := by
  simp [redisGet, entry]

theorem redisGet_eq_none : s.redisGet key = none ↔ s.entry key = none := by
  simp [redisGet, entry]

theorem entry_redisSet_self (s : World) (key value : String) (deadline : Time) :
    (s.redisSet key value deadline).entry key = some (value, deadline) := by
  simp [redisSet, entry]

/-- The times to live that are not over survive a tick. -/
theorem entry_tick {d : Nat} (h : s.entry key = some (value, deadline)) (hd : s.now + d ≤ deadline) :
    (s.tick d).entry key = some (value, deadline) := lookup_filter_of_pos h (by simpa using hd)

theorem redisGet_tick_of_none (h : s.redisGet key = none) (d : Nat) : (s.tick d).redisGet key = none := by
  rw [redisGet_eq_none, entry, List.lookup_eq_none_iff] at h ⊢
  exact fun e he => h e (List.mem_filter.mp he).1

end World

/-! ## One value -/

/-- Every key is there once. -/
def OneValue (s : World) : Prop := (s.redis.map Prod.fst).Nodup

theorem OneValue.filter {s s' : World} (h : OneValue s) {p : String × String × Time → Bool}
    (hr : s'.redis = s.redis.filter p) : OneValue s' := by
  rw [OneValue, hr]
  exact (List.filter_sublist.map _).nodup h

theorem OneValue.set {s : World} (h : OneValue s) (key value : String) (deadline : Time) :
    OneValue (s.redisSet key value deadline) := by
  have hrest : ((s.redis.filter (·.1 ≠ key)).map Prod.fst).Nodup := (List.filter_sublist.map _).nodup h
  refine List.nodup_cons.mpr ⟨fun hm => ?_, hrest⟩
  obtain ⟨x, hx, he⟩ := List.mem_map.mp hm
  exact of_decide_eq_true (List.mem_filter.mp hx).2 he

/-- What a step makes of Redis: a key is set if it is not there, a key keeps its value
and gets a new time to live, or keys vanish. -/
inductive RedisStep (s s' : World) : Prop where
  | setNx (key value : String) (deadline : Time) (absent : s.redisGet key = none)
    (eq : s'.redis = (s.redisSet key value deadline).redis)
  | expire (key value : String) (deadline : Time) (present : s.redisGet key = some value)
    (eq : s'.redis = (s.redisSet key value deadline).redis)
  | vanish (p : String × String × Time → Bool) (eq : s'.redis = s.redis.filter p)

theorem RedisStep.same {s s' : World} (h : s'.redis = s.redis) : RedisStep s s' :=
  .vanish (fun _ => true) (h.trans (List.filter_true _).symm)

theorem redisStep_of_change {s s' : World} {i : Nat} {q : Cmd} (h : Change i s q s') : RedisStep s s' := by
  cases h with
  | redisSet absent => exact .setNx _ _ _ absent rfl
  | redisDel => exact .vanish _ rfl
  | @redisExpire key ttl =>
    simp only [World.redisExpire]
    split
    · exact .same rfl
    · rename_i value hv
      split
      · exact .vanish _ rfl
      · exact .expire key value _ hv rfl
  | @delete queue receipt => cases queue <;> exact .same rfl
  | _ => exact .same rfl

theorem redisStep_of_next {c c' : (lockService reviewId).Config} {a : (lockService reviewId).Action}
    (hn : Pool.next c a = some c') : RedisStep c.world c'.world := by
  cases a with
  | start j e =>
    obtain ⟨-, rfl⟩ := Pool.next_start hn
    exact .same rfl
  | step j p =>
    obtain ⟨e, q, k, r, w, -, hx, rfl⟩ := Pool.next_step hn
    exact redisStep_of_change (change_of_exec hx)
  | crash j =>
    obtain ⟨e, q, k, -, rfl⟩ := Pool.next_crash hn
    exact .same rfl
  | env v =>
    obtain ⟨w, hx, rfl⟩ := Pool.next_env hn
    cases v with
    | tick d =>
      cases hx
      exact .vanish _ rfl
    | expire =>
      simp only [lockService] at hx
      split at hx
      · split at hx <;> cases hx
        exact .vanish _ rfl
      · cases hx

theorem OneValue.step {s s' : World} (h : OneValue s) (hs : RedisStep s s') : OneValue s' := by
  cases hs with
  | setNx key value deadline _ eq | expire key value deadline _ eq =>
    have := h.set key value deadline
    rwa [OneValue, ← eq] at this
  | vanish p eq => exact h.filter eq

theorem OneValue.mem {s : World} (h : OneValue s) {key : String} {x y : String × Time} (hx : (key, x) ∈ s.redis)
    (hy : (key, y) ∈ s.redis) : x = y := by
  have := List.inj_on_of_nodup_map h hx hy rfl
  exact congrArg Prod.snd this

/-- A key that stays keeps its value. -/
theorem OneValue.value {s s' : World} (h : OneValue s) (hs : RedisStep s s') {key v v' : String}
    (hv : s.redisGet key = some v) (hv' : s'.redisGet key = some v') : v' = v := by
  obtain ⟨d, hd⟩ := redisGet_eq_some.mp hv
  obtain ⟨d', hd'⟩ := redisGet_eq_some.mp hv'
  have hm := mem_of_lookup hd
  have hm' := mem_of_lookup hd'
  -- a key that was there before has its old value
  have old : (key, v', d') ∈ s.redis → v' = v := fun hm' => congrArg Prod.fst (h.mem hm' hm)
  cases hs with
  | vanish p eq =>
    rw [eq] at hm'
    exact old (List.mem_filter.mp hm').1
  | setNx key' value deadline absent eq =>
    rw [eq] at hm'
    rcases List.mem_cons.mp hm' with he | hm'
    · cases he
      rw [hv] at absent
      cases absent
    · exact old (List.mem_filter.mp hm').1
  | expire key' value deadline present eq =>
    rw [eq] at hm'
    rcases List.mem_cons.mp hm' with he | hm'
    · cases he
      rw [hv] at present
      exact (Option.some.inj present).symm
    · exact old (List.mem_filter.mp hm').1

/-! ## The calls -/

def LockEntry.reviewer : LockEntry → String
  | .acquire reviewer _ => reviewer
  | .release reviewer => reviewer

/-- How far a call of the lock has come: it has found its own value and is due to
refresh or delete it, or it has been given the lock. -/
inductive LockPhase where
  | idle
  | due
  | granted

/-- What a call does when it finds its own value. -/
def LockEntry.touch (reviewId : String) : LockEntry → Cmd
  | .acquire _ ttlSeconds => .redisExpire (claimKey reviewId) ttlSeconds
  | .release _ => .redisDel (claimKey reviewId)

def LockPhase.after (e : LockEntry) : (q : Cmd) → Except Exn q.Ans → LockPhase
  | .redisGet _, .ok (some v) => if v = e.reviewer then .due else .idle
  | .redisSetNx .., .ok true => .granted
  | .redisExpire .., .ok _ => .granted
  | _, _ => .idle

/-- The requests of a call that has not found its own value. -/
inductive Cmd.OfLock (reviewId : String) : LockEntry → Cmd → Prop where
  | get (e : LockEntry) : OfLock reviewId e (.redisGet (claimKey reviewId))
  | setNx (reviewer : String) (ttlSeconds : Nat) :
    OfLock reviewId (.acquire reviewer ttlSeconds) (.redisSetNx (claimKey reviewId) reviewer ttlSeconds)

def lockMonitor (reviewId : String) (e : LockEntry) : Monitor iface Exn where
  Phase := LockPhase
  init := .idle
  allows x q :=
    match x with
    | .idle => q.OfLock reviewId e
    | .due => q = e.touch reviewId
    | .granted => False
  after _ q r := LockPhase.after e q r

/-- A call returns `(True, reviewer)` only if it has been given the lock. -/
def lockEnds (e : LockEntry) (r : Except Exn (Option (Bool × Option String))) (x : LockPhase) : Prop :=
  x ≠ .due ∧ ∀ owner, r = .ok (some (true, owner)) → x = .granted ∧ owner = some e.reviewer

theorem lockEnds.idle {e : LockEntry} {r : Except Exn (Option (Bool × Option String))}
    (hr : ∀ owner, r ≠ .ok (some (true, owner))) : lockEnds e r .idle :=
  ⟨fun h => (nomatch h), fun owner h => absurd h (hr owner)⟩

/-- A call of the lock that is in the phase `x`. -/
def FollowsLock (reviewId : String) (e : LockEntry) (x : LockPhase) (p : M (Option (Bool × Option String))) : Prop :=
  p.Follows (lockMonitor reviewId e) (lockEnds e) x

theorem refresh_follows (reviewId reviewer : String) (ttlSeconds : Nat) (current : Option String) :
    FollowsLock reviewId (.acquire reviewer ttlSeconds)
      (LockPhase.after (.acquire reviewer ttlSeconds) (.redisGet (claimKey reviewId)) (.ok current))
      ((do
        if current = some reviewer then
          let _ ← request (.redisExpire (claimKey reviewId) ttlSeconds)
          return (true, some reviewer)
        else return (false, current) : M (Bool × Option String)) >>= fun x => return some x) := by
  by_cases hc : current = some reviewer
  · subst hc
    rw [if_pos rfl]
    show FollowsLock reviewId _ (if reviewer = reviewer then _ else _) _
    rw [if_pos rfl]
    refine ⟨rfl, fun r => ?_⟩
    cases r with
    | error x => exact lockEnds.idle (by simp)
    | ok u => exact ⟨fun h => (nomatch h), fun owner h => by cases h; exact ⟨rfl, rfl⟩⟩
  · rw [if_neg hc]
    cases current with
    | none => exact lockEnds.idle (by simp)
    | some v =>
      show FollowsLock reviewId _ (if v = reviewer then _ else _) _
      rw [if_neg fun h => hc (congrArg some h)]
      exact lockEnds.idle (by simp)

theorem acquire_follows (reviewId reviewer : String) (ttlSeconds : Nat) :
    FollowsLock reviewId (.acquire reviewer ttlSeconds) .idle
      (acquireReviewClaim reviewId reviewer ttlSeconds >>= fun x => return some x) := by
  refine ⟨.get _, fun r => ?_⟩
  cases r with
  | error x => exact lockEnds.idle (by simp)
  | ok current =>
    cases current with
    | some v => exact refresh_follows reviewId reviewer ttlSeconds (some v)
    | none =>
      refine ⟨.setNx .., fun r => ?_⟩
      cases r with
      | error x => exact lockEnds.idle (by simp)
      | ok acquired =>
        cases acquired with
        | true => exact ⟨fun h => (nomatch h), fun owner h => by cases h; exact ⟨rfl, rfl⟩⟩
        | false =>
          refine ⟨.get _, fun r => ?_⟩
          cases r with
          | error x => exact lockEnds.idle (by simp)
          | ok current => exact refresh_follows reviewId reviewer ttlSeconds current

theorem release_follows (reviewId reviewer : String) :
    FollowsLock reviewId (.release reviewer) .idle
      (releaseReviewClaim reviewId reviewer >>= fun _ => return none) := by
  refine ⟨.get _, fun r => ?_⟩
  cases r with
  | error x => exact lockEnds.idle (by simp)
  | ok current =>
    by_cases hc : current = some reviewer
    · subst hc
      show FollowsLock reviewId _ (if reviewer = reviewer then _ else _)
        ((if some reviewer = some reviewer then _ else _) >>= _)
      rw [if_pos rfl, if_pos rfl]
      refine ⟨rfl, fun r => ?_⟩
      cases r <;> exact lockEnds.idle (by simp)
    · show FollowsLock reviewId _ _ ((if current = some reviewer then _ else _) >>= _)
      rw [if_neg hc]
      cases current with
      | none => exact lockEnds.idle (by simp)
      | some v =>
        show FollowsLock reviewId _ (if v = reviewer then _ else _) _
        rw [if_neg fun h => hc (congrArg some h)]
        exact lockEnds.idle (by simp)

theorem lock_follows (reviewId : String) (e : LockEntry) :
    ((lockService reviewId).code e).Follows (lockMonitor reviewId e) (lockEnds e) .idle := by
  cases e with
  | acquire reviewer ttlSeconds => exact acquire_follows reviewId reviewer ttlSeconds
  | release reviewer => exact release_follows reviewId reviewer

/-! ## Holders -/

/-- The reviewer to whom a call returns `(True, reviewer)` by the step, and the end of
the time to live that it has set. -/
def Step.grant? (st : (lockService reviewId).Step) : Option (String × Time) :=
  match st.action with
  | .step i _ =>
    match st.before.threads i, st.after.threads i with
    | some ⟨.acquire _ ttlSeconds, some (.call ..)⟩, some ⟨_, some (.ret (some (true, some reviewer)))⟩ =>
      some (reviewer, st.before.world.now + seconds ttlSeconds)
    | _, _ => none
  | _ => none

/-- The reviewer whose release deletes the key by the step. -/
def Step.freed? (st : (lockService reviewId).Step) : Option String :=
  match st.action with
  | .step i p =>
    match st.before.threads i, (p : Pick).fault with
    | some ⟨.release _, some (.call (.redisDel _) _)⟩, .before _ => none
    | some ⟨.release reviewer, some (.call (.redisDel _) _)⟩, _ => some reviewer
    | _, _ => none
  | _ => none

/-- Who has been given the lock and has not released it, and until when. -/
def holders : List (lockService reviewId).Step → List (String × Time)
  | [] => []
  | st :: h => (Step.grant? st).toList ++ (holders h).filter fun x => decide (Step.freed? st ≠ some x.1)

/-- The reviewer holds the lock at the time `now`. -/
def Holds (h : List (lockService reviewId).Step) (now : Time) (reviewer : String) : Prop :=
  ∃ deadline, (reviewer, deadline) ∈ holders h ∧ now < deadline

/-- The key stands behind every holder. -/
def Backed (reviewId : String) (hs : List (String × Time)) (s : World) : Prop :=
  ∀ x ∈ hs, s.now < x.2 → ∃ d, s.entry (claimKey reviewId) = some (x.1, d) ∧ x.2 ≤ d

namespace Backed

variable {hs : List (String × Time)} {s : World}

theorem congr {s' : World} (h : Backed reviewId hs s) (hn : s'.now = s.now) (hr : s'.redis = s.redis) :
    Backed reviewId hs s' := by
  intro x hx hlt
  rw [World.entry, hr]
  exact h x hx (hn ▸ hlt)

theorem filter (h : Backed reviewId hs s) (p : String × Time → Bool) : Backed reviewId (hs.filter p) s :=
  fun x hx => h x (List.mem_filter.mp hx).1

theorem add (h : Backed reviewId hs s) {o : Option (String × Time)}
    (ho : ∀ x, o = some x → s.now < x.2 → s.entry (claimKey reviewId) = some x) :
    Backed reviewId (o.toList ++ hs) s := by
  intro x hx hlt
  rcases List.mem_append.mp hx with hx | hx
  · exact ⟨x.2, ho x (Option.mem_toList.mp hx) hlt, Nat.le_refl _⟩
  · exact h x hx hlt

/-- The key is set for the reviewer who has it, or for anybody if nobody has. -/
theorem set (h : Backed reviewId hs s) {reviewer : String} {t : Time}
    (hk : ∀ v d, s.entry (claimKey reviewId) = some (v, d) → v = reviewer ∧ d ≤ t) :
    Backed reviewId hs (s.redisSet (claimKey reviewId) reviewer t) := by
  intro x hx hlt
  obtain ⟨d, he, hle⟩ := h x hx hlt
  obtain ⟨hv, hd⟩ := hk _ d he
  exact ⟨t, by rw [entry_redisSet_self, hv], Nat.le_trans hle hd⟩

/-- The key is deleted when its time to live is over. -/
theorem elapsed (h : Backed reviewId hs s) {v : String} {d : Time} (he : s.entry (claimKey reviewId) = some (v, d))
    (hd : d ≤ s.now) : Backed reviewId hs (s.redisDel (claimKey reviewId)) := by
  intro x hx hlt
  obtain ⟨d', he', hle⟩ := h x hx hlt
  rw [he] at he'
  cases he'
  exact absurd (Nat.lt_of_lt_of_le hlt (Nat.le_trans hle hd)) (Nat.lt_irrefl _)

/-- The key is deleted by a reviewer to whom it belongs, if to anybody. -/
theorem del (h : Backed reviewId hs s) {reviewer : String}
    (hk : ∀ v, s.redisGet (claimKey reviewId) = some v → v = reviewer) (hne : ∀ x ∈ hs, x.1 ≠ reviewer) :
    Backed reviewId hs (s.redisDel (claimKey reviewId)) := by
  intro x hx hlt
  obtain ⟨d, he, -⟩ := h x hx hlt
  exact absurd (hk _ (redisGet_eq_some.mpr ⟨d, he⟩)) (hne x hx)

theorem tick (h : Backed reviewId hs s) (d : Nat) : Backed reviewId hs (s.tick d) := by
  intro x hx hlt
  have hlt' : s.now + d < x.2 := hlt
  obtain ⟨d', he, hle⟩ := h x hx (Nat.lt_of_le_of_lt (Nat.le_add_right _ _) hlt')
  exact ⟨d', entry_tick he (Nat.le_trans (Nat.le_of_lt hlt') hle), hle⟩

theorem unique (h : Backed reviewId hs s) {r r' : String} {t t' : Time} (hr : (r, t) ∈ hs) (hr' : (r', t') ∈ hs)
    (ht : s.now < t) (ht' : s.now < t') : r = r' := by
  obtain ⟨d, he, -⟩ := h _ hr ht
  obtain ⟨d', he', -⟩ := h _ hr' ht'
  rw [he] at he'
  cases he'
  rfl

end Backed

/-! ## Locks that are kept -/

/-- While a call that has found its own value is about to refresh or delete the key,
no other step removes the key or gives it to another reviewer; and a refresh does
not shorten the time to live. -/
structure LockKept (c : (lockService reviewId).Config) (a : (lockService reviewId).Action) : Prop where
  refresh {i reviewer ttlSeconds key k c'} : c.At i (.acquire reviewer ttlSeconds) (.redisExpire key ttlSeconds) k →
    a.thread ≠ some i → Pool.next c a = some c' → (World.redisGet c.world (claimKey reviewId)).isSome →
    (World.redisGet c'.world (claimKey reviewId)).isSome
  release {i reviewer key k c' v} : c.At i (.release reviewer) (.redisDel key) k → a.thread ≠ some i →
    Pool.next c a = some c' → World.redisGet c.world (claimKey reviewId) = none →
    World.redisGet c'.world (claimKey reviewId) = some v → v = reviewer
  longer {i reviewer ttlSeconds key k p v d} : c.At i (.acquire reviewer ttlSeconds) (.redisExpire key ttlSeconds) k →
    a = .step i p → World.entry c.world (claimKey reviewId) = some (v, d) → d ≤ World.now c.world + seconds ttlSeconds

/-- The lock before its first call. -/
def lockBoot (reviewId : String) (now : Time) : (lockService reviewId).Config := ⟨({ now } : World), fun _ => none⟩

theorem oneValue_of_reachable {c : (lockService reviewId).Config} {now : Time}
    (hr : Pool.Reachable (lockBoot reviewId now) c) : OneValue c.world := by
  have hstep : ∀ (c : (lockService reviewId).Config) a c', Pool.Reachable (lockBoot reviewId now) c →
    OneValue c.world →
      Pool.next c a = some c' → OneValue c'.world := fun _ _ _ _ h hn => h.step (redisStep_of_next hn)
  exact hr.induction (show OneValue (lockBoot reviewId now).world from List.nodup_nil) hstep

/-- What a call knows of the key that it is about to refresh or delete. -/
def DueKnown (reviewId : String) (e : LockEntry) (x : LockPhase) (s : World) : Prop :=
  x = .due → (∀ v, s.redisGet (claimKey reviewId) = some v → v = e.reviewer) ∧
    ∀ reviewer ttlSeconds, e = .acquire reviewer ttlSeconds → (s.redisGet (claimKey reviewId)).isSome

theorem lock_phase {c : (lockService reviewId).Config} {now : Time} {h : List (lockService reviewId).Step}
    (hr : Pool.Run LockKept (lockBoot reviewId now) h c) (i : Nat) :
    c.InPhase (M := lockMonitor reviewId) lockEnds (fun e x => DueKnown reviewId e x c.world) i := by
  refine hr.follows (fun _ => rfl) (M := lockMonitor reviewId) (lock_follows reviewId)
    (G := fun _ e x _ s => DueKnown reviewId e x s) ?start ?own ?others i
  case start => exact fun _ _ _ h => (nomatch h)
  case own =>
    intro h c i e q k p r s x hr ha hat hx hp hk hdue
    obtain ⟨hq, -⟩ := hp
    cases q with
    | redisGet key =>
      cases r with
      | error x => cases hdue
      | ok current =>
        cases current with
        | none => cases hdue
        | some v =>
          have hdue : (if v = e.reviewer then LockPhase.due else .idle) = .due := hdue
          split at hdue
          · rename_i hv
            subst hv
            have hkey : key = claimKey reviewId := by
              cases x with
              | idle =>
                cases hq
                rfl
              | due => cases e <;> cases hq
              | granted => exact hq.elim
            subst hkey
            obtain ⟨hget, rfl⟩ := answer_ok (Option.some.inj hx)
            refine ⟨fun v hv => ?_, fun _ _ _ => ?_⟩
            · rw [← hget] at hv
              exact (Option.some.inj hv).symm
            · rw [← hget]
              rfl
          · cases hdue
    | redisSetNx key value ttl =>
      cases r with
      | error x => cases hdue
      | ok acquired => cases acquired <;> cases hdue
    | _ => cases r <;> cases hdue
  case others =>
    intro h c a c' i e p x hr ha hn hm hi hp hk hdue
    subst hdue
    obtain ⟨hval, hsome⟩ := hk rfl
    have hone := oneValue_of_reachable hr.reachable
    cases p with
    | ret a => exact absurd rfl hp.1
    | throw x => exact absurd rfl hp.1
    | call q k =>
      obtain rfl : q = e.touch reviewId := hp.1
      have kept : ∀ v v', World.redisGet c.world (claimKey reviewId) = some v →
          World.redisGet c'.world (claimKey reviewId) = some v' → v' = e.reviewer := fun v v' hv hv' =>
        (hone.value (redisStep_of_next hn) hv hv').trans (hval v hv)
      cases e with
      | acquire reviewer ttlSeconds =>
        have hpre := hsome reviewer ttlSeconds rfl
        refine ⟨fun v' hv' => ?_, fun _ _ _ => ha.refresh hi hm hn hpre⟩
        obtain ⟨v, hv⟩ := Option.isSome_iff_exists.mp hpre
        exact kept v v' hv hv'
      | release reviewer =>
        refine ⟨fun v' hv' => ?_, fun _ _ he => (nomatch he)⟩
        cases hv : World.redisGet c.world (claimKey reviewId) with
        | none => exact ha.release hi hm hn hv hv'
        | some v => exact kept v v' hv hv'

/-! ## Exclusion -/

/-- A step that gives the lock. -/
theorem grant_spec {c c' : (lockService reviewId).Config} {i : Nat} {p : Pick} {e : LockEntry} {q : Cmd}
    {k : Except Exn q.Ans → M (Option (Bool × Option String))} {t : M (Option (Bool × Option String))}
    {x : String × Time} (hat : c.At i e q k) (hat' : c'.threads i = some ⟨e, some t⟩)
    (h : Step.grant? (⟨c, .step i p, c'⟩ : (lockService reviewId).Step) = some x) :
    ∃ reviewer ttlSeconds, e = .acquire reviewer ttlSeconds ∧ t = .ret (some (true, some x.1)) ∧
      x.2 = World.now c.world + seconds ttlSeconds := by
  simp only [Step.grant?] at h
  rw [show c.threads i = _ from hat, hat'] at h
  split at h
  · rename_i hb ha
    cases hb
    cases ha
    cases h
    exact ⟨_, _, rfl, rfl, rfl⟩
  · cases h

theorem freed_of_del {c c' : (lockService reviewId).Config} {i : Nat} {p : Pick} {reviewer key : String}
    {k : Except Exn Unit → M (Option (Bool × Option String))} (hat : c.At i (.release reviewer) (.redisDel key) k)
    (hf : ∀ text, p.fault ≠ .before text) :
    Step.freed? (⟨c, .step i p, c'⟩ : (lockService reviewId).Step) = some reviewer := by
  simp only [Step.freed?]
  rw [show c.threads i = _ from hat]
  cases hp : p.fault with
  | before text => exact absurd hp (hf text)
  | none | after text => rfl

/-- A request of a call keeps the key behind the holders; `o` is to whom it gives the
lock, and `f` who releases it. -/
theorem Backed.step {i : Nat} {p : Pick} {e : LockEntry} {q : Cmd} {r : Except Exn q.Ans} {s s' : World}
    {x : LockPhase}
    {hs : List (String × Time)} (h : Backed reviewId hs s) (hx : World.exec i q p s = some (r, s'))
    (hq : (lockMonitor reviewId e).allows x q) (hk : DueKnown reviewId e x s)
    (hlong : ∀ reviewer ttlSeconds v d, x = .due → e = .acquire reviewer ttlSeconds →
      s.entry (claimKey reviewId) = some (v, d) → d ≤ s.now + seconds ttlSeconds)
    {o : Option (String × Time)} {f : Option String}
    (ho : ∀ y, o = some y → LockPhase.after e q r = .granted ∧ ∃ ttlSeconds, e = .acquire y.1 ttlSeconds ∧
      y.2 = s.now + seconds ttlSeconds)
    (hf : ∀ reviewer, e = .release reviewer → x = .due → (∀ text, p.fault ≠ .before text) → f = some reviewer) :
    Backed reviewId (o.toList ++ hs.filter fun y => decide (f ≠ some y.1)) s' := by
  -- a step that does not give the lock
  have refuse : LockPhase.after e q r ≠ .granted → ∀ {hs'}, Backed reviewId hs' s' →
      Backed reviewId (o.toList ++ hs') s' :=
    fun hr _ h => h.add fun y hy _ => absurd (ho y hy).1 hr
  cases x with
  | granted => exact hq.elim
  | idle =>
    cases hq with
    | get =>
      obtain rfl : s' = s := by rcases answer_cases (Option.some.inj hx) with rfl | rfl <;> rfl
      refine refuse (fun hr => ?_) (h.filter _)
      cases r with
      | error x => cases hr
      | ok current =>
        cases current with
        | none => cases hr
        | some v =>
          have hr : (if v = e.reviewer then LockPhase.due else .idle) = .granted := hr
          split at hr <;> cases hr
    | setNx reviewer ttlSeconds =>
      simp only [World.exec] at hx
      split at hx
      · cases hx
        exact refuse (fun hr => by cases hr) (h.filter _)
      · split at hx
        · simp only [World.answer] at hx
          split at hx <;> cases hx <;> exact refuse (fun hr => by cases hr) (h.filter _)
        · rename_i habsent
          -- the key was free
          have hset : Backed reviewId (hs.filter fun y => decide (f ≠ some y.1))
              (s.redisSet (claimKey reviewId) reviewer (s.now + seconds ttlSeconds)) :=
            (h.filter _).set fun v d he => by
              rw [redisGet_eq_some.mpr ⟨d, he⟩] at habsent
              exact absurd rfl habsent
          simp only [World.answer] at hx
          split at hx <;> cases hx
          · refine hset.add fun y hy _ => ?_
            obtain ⟨-, ttlSeconds', he, hy⟩ := ho y hy
            cases he
            rw [entry_redisSet_self, ← hy]
          · exact refuse (fun hr => by cases hr) (h.filter _)
          · exact refuse (fun hr => by cases hr) hset
  | due =>
    have hq : q = e.touch reviewId := hq
    subst hq
    obtain ⟨hval, hsome⟩ := hk rfl
    cases e with
    | acquire reviewer ttlSeconds =>
      obtain ⟨v, hv⟩ := Option.isSome_iff_exists.mp (hsome reviewer ttlSeconds rfl)
      obtain rfl : v = reviewer := hval v hv
      obtain ⟨d, hd⟩ := redisGet_eq_some.mp hv
      have hlong := hlong v ttlSeconds v d rfl rfl hd
      have hexp : Backed reviewId (o.toList ++ hs.filter fun y => decide (f ≠ some y.1))
          (s.redisExpire (claimKey reviewId) ttlSeconds) := by
        simp only [World.redisExpire, hv]
        split
        · rename_i hzero
          subst hzero
          refine ((h.filter _).elapsed hd (by simpa [seconds] using hlong)).add fun y hy hlt => ?_
          obtain ⟨-, ttlSeconds', he, hy⟩ := ho y hy
          cases he
          rw [hy] at hlt
          exact absurd hlt (by simp [seconds, redisDel])
        · have hset : Backed reviewId (hs.filter fun y => decide (f ≠ some y.1))
              (s.redisSet (claimKey reviewId) v (s.now + seconds ttlSeconds)) :=
            (h.filter _).set fun v' d' he => by
              rw [hd] at he
              cases he
              exact ⟨rfl, hlong⟩
          refine hset.add fun y hy _ => ?_
          obtain ⟨-, ttlSeconds', he, hy⟩ := ho y hy
          cases he
          rw [entry_redisSet_self, ← hy]
      have hx := Option.some.inj hx
      simp only [World.answer] at hx
      split at hx <;> cases hx
      · exact hexp
      · exact refuse (fun hr => by cases hr) (h.filter _)
      · exact hexp
    | release reviewer =>
      have hnone : LockPhase.after (.release reviewer) (.redisDel (claimKey reviewId)) r ≠ .granted := by
        cases r <;> exact fun hr => by cases hr
      refine refuse hnone ?_
      have hdel : (∀ text, p.fault ≠ .before text) →
          Backed reviewId (hs.filter fun y => decide (f ≠ some y.1)) (s.redisDel (claimKey reviewId)) := by
        intro hfault
        refine (h.filter _).del hval fun y hy => ?_
        have hne := of_decide_eq_true (List.mem_filter.mp hy).2
        rw [hf reviewer rfl rfl hfault] at hne
        exact fun he => hne (congrArg some he.symm)
      have hx := Option.some.inj hx
      simp only [World.answer] at hx
      split at hx <;> cases hx <;> rename_i hp
      · exact hdel fun text => by simp [hp]
      · exact h.filter _
      · exact hdel fun text => by simp [hp]

/-- In a run that keeps the lock, the key stands behind every holder. -/
theorem backed_of_run {c : (lockService reviewId).Config} {now : Time} {h : List (lockService reviewId).Step}
    (hr : Pool.Run LockKept (lockBoot reviewId now) h c) : Backed reviewId (holders h) c.world := by
  induction hr with
  | nil => exact fun _ h => nomatch h
  | @cons h c a c' hr ha hn ih =>
    cases a with
    | start i e =>
      obtain ⟨-, rfl⟩ := Pool.next_start hn
      exact ih.filter _
    | step i p =>
      obtain ⟨e, q, k, r, s, hat, hx, rfl⟩ := Pool.next_step hn
      obtain ⟨x, ⟨hq, hrest⟩, hk⟩ := lock_phase hr i e _ hat
      refine ih.step hx hq hk (fun reviewer ttlSeconds v d hdue he hd => ?_) (fun y hy => ?_)
        fun reviewer he hdue hf => ?_
      · subst hdue he
        cases hq
        exact ha.longer hat rfl hd
      · obtain ⟨reviewer, ttlSeconds, rfl, hret, hy⟩ := grant_spec hat (Pool.Config.threads_set_self ..) hy
        have hend := hrest r
        rw [show k r = _ from hret] at hend
        obtain ⟨hgranted, howner⟩ := hend.2 _ rfl
        exact ⟨hgranted, ttlSeconds, by rw [Option.some.inj howner]; rfl, hy⟩
      · subst hdue he
        cases hq
        exact freed_of_del hat hf
    | crash i =>
      obtain ⟨e, q, k, hat, rfl⟩ := Pool.next_crash hn
      exact (ih.filter _).congr rfl rfl
    | env v =>
      obtain ⟨s, hx, rfl⟩ := Pool.next_env hn
      cases v with
      | tick d =>
        cases hx
        exact (ih.filter _).tick d
      | expire =>
        simp only [lockService] at hx
        split at hx
        · rename_i v d he
          split at hx <;> cases hx
          rename_i hd
          exact (ih.filter _).elapsed he hd
        · cases hx

/-- The time to live of a key is set, or the key is deleted. -/
def Cmd.touches : Cmd → Bool
  | .redisExpire .. | .redisDel _ => true
  | _ => false

/-- In a run that keeps the lock, there are never two holders, and no call refreshes or
deletes the key of another reviewer. -/
theorem lock_exclusive {c : (lockService reviewId).Config} {now : Time} {h : List (lockService reviewId).Step}
    (hr : Pool.Run LockKept (lockBoot reviewId now) h c) :
    (∀ reviewer reviewer', Holds h c.world.now reviewer → Holds h c.world.now reviewer' → reviewer = reviewer') ∧
    ∀ st ∈ h, ∀ i p e q k, st.action = .step i p → st.before.At i e q k → q.touches = true →
      ∀ v, World.redisGet st.before.world (claimKey reviewId) = some v → v = e.reviewer := by
  refine ⟨fun r r' ⟨t, ht, hlt⟩ ⟨t', ht', hlt'⟩ => (backed_of_run hr).unique ht ht' hlt hlt',
    fun st hst i p e q k hact hat hq v hv => ?_⟩
  obtain ⟨⟨h', hr'⟩, -, -⟩ := hr.mem hst
  obtain ⟨x, ⟨hallow, -⟩, hk⟩ := lock_phase hr' i e _ hat
  have hx : x = .due := by
    cases x with
    | due => rfl
    | granted => exact hallow.elim
    | idle => cases hallow <;> cases hq
  exact (hk hx).1 v hv

/-! ## Runs -/

/-- Thread `i` acquires the lock for ten seconds, and makes `n` requests. -/
def acquireSample (reviewId : String) (i : Nat) (reviewer : String) (n : Nat) : List (lockService reviewId).Action :=
  .start i (.acquire reviewer 10) :: List.replicate n (.step i ({} : Pick))

/-- A call that has found its own value and is about to refresh or delete the key. -/
def touching? (c : (lockService reviewId).Config) (i : Nat) : Bool :=
  match c.threads i with
  | some ⟨_, some (.call q _)⟩ => q.touches
  | _ => false

/-- A check that a step keeps the lock: of `n` threads, none moves while another is about
to refresh or delete the key, and no time to live is shortened. -/
def lockKept? (n : Nat) (c : (lockService reviewId).Config) (a : (lockService reviewId).Action) : Bool :=
  ((List.range n).all fun i => decide (a.thread = some i) || !touching? c i) &&
  match a with
  | .start i _ => decide (i < n)
  | .step i _ => (c.threads i).all fun t => match t.entry with
    | .acquire _ ttlSeconds =>
      (World.entry c.world (claimKey reviewId)).all fun x => decide (x.2 ≤ World.now c.world + seconds ttlSeconds)
    | .release _ => true
  | _ => true

theorem lockKept_of_check {n : Nat} {c : (lockService reviewId).Config} {a : (lockService reviewId).Action}
    (hn : ∀ i, n ≤ i → c.threads i = none) (h : lockKept? n c a = true) : LockKept c a := by
  simp only [lockKept?, Bool.and_eq_true, List.all_eq_true, List.mem_range, Bool.or_eq_true, decide_eq_true_eq] at h
  -- no other thread moves
  have alone : ∀ {i e q} {k : Except Exn (iface.Ans q) → M (Option (Bool × Option String))}, c.At i e q k →
      q.touches = true → a.thread = some i := by
    intro i e q k hat hq
    have hi : i < n := by
      refine Nat.lt_of_not_le fun hle => ?_
      have := hn i hle
      rw [show c.threads i = _ from hat] at this
      cases this
    have htouch : touching? c i = true := by
      simp only [touching?]
      rw [show c.threads i = _ from hat]
      exact hq
    simpa [htouch] using h.1 i hi
  refine ⟨fun hat hne => absurd (alone hat rfl) hne, fun hat hne => absurd (alone hat rfl) hne,
    fun {i reviewer ttlSeconds key k p v d} hat ha he => ?_⟩
  subst ha
  have hlong := h.2
  simp only [show c.threads i = _ from hat, he, Option.all_some, decide_eq_true_eq] at hlong
  exact hlong

theorem lock_exclusive_sample : ∃ h c, Pool.Run LockKept (lockBoot "r" 0) h c ∧
    holders h = [("b", seconds 10)] ∧
    (∀ reviewer reviewer', Holds h c.world.now reviewer → Holds h c.world.now reviewer' → reviewer = reviewer') ∧
    ∀ st ∈ h, ∀ i p e q k, st.action = .step i p → st.before.At i e q k → q.touches = true →
      ∀ v, World.redisGet st.before.world (claimKey "r") = some v → v = e.reviewer := by
  have hrun : (Pool.recordIf (lockKept? 4) (acquireSample "r" 0 "a" 2 ++ acquireSample "r" 1 "a" 2 ++
      .start 2 (.release "a") :: List.replicate 2 (.step 2 ({} : Pick)) ++ acquireSample "r" 3 "b" 2) []
      (lockBoot "r" 0)).any (fun x => decide (holders x.1 = [("b", seconds 10)])) = true := by
    decide +kernel
  obtain ⟨x, hx, hrun⟩ := (Option.any_eq_true _ _).mp hrun
  have hcheck : ∀ (c : (lockService "r").Config) a, lockKept? 4 c a = true → lockKept? 4 c a = true := fun _ _ h => h
  have hr := Pool.Run.nil.recordIf hcheck hx
  have hr : Pool.Run LockKept (lockBoot "r" 0) x.1 x.2 := hr.imp fun hr ha =>
    lockKept_of_check (fun i hi => hr.threads_none (fun _ => rfl)
      (fun h => of_decide_eq_true (Bool.and_eq_true_iff.mp h).2) hi) ha
  exact ⟨x.1, x.2, hr, of_decide_eq_true hrun, lock_exclusive hr⟩

/-- The reviewer "a" finds its own value just before the key ends; "b" is given the lock,
and "a" refreshes it. -/
theorem two_holders : ¬ ∀ h c, Pool.Run Pool.anything (lockBoot "r" 0) h c →
    ∀ reviewer reviewer', Holds h c.world.now reviewer → Holds h c.world.now reviewer' → reviewer = reviewer' := by
  intro hall
  have hrun : (Pool.recordIf (fun _ _ => true)
    (acquireSample "r" 0 "a" 2 ++ acquireSample "r" 1 "a" 1 ++ .env (.tick (seconds 10)) ::
      .env .expire :: acquireSample "r" 2 "b" 2 ++ [.step 1 ({} : Pick)]) [] (lockBoot "r" 0)).any
      (fun x => decide (World.now x.2.world = seconds 10 ∧ ("a", seconds 20) ∈ holders x.1 ∧
        ("b", seconds 20) ∈ holders x.1)) = true := by
    decide +kernel
  obtain ⟨x, hx, hrun⟩ := (Option.any_eq_true _ _).mp hrun
  obtain ⟨hnow, ha, hb⟩ := of_decide_eq_true hrun
  have hlt : World.now x.2.world < seconds 20 := by
    rw [hnow]
    decide
  have hany : ∀ (c : (lockService "r").Config) a, true = true → Pool.anything c a := fun _ _ _ => trivial
  have := hall x.1 x.2 (Pool.Run.nil.recordIf hany hx) "a" "b" ⟨_, ha, hlt⟩ ⟨_, hb, hlt⟩
  exact absurd this (by decide)

end CM
