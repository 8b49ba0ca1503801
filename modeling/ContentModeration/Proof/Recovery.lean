import ContentModeration.Framework.Alone
import ContentModeration.Proof.Locks
import ContentModeration.Proof.Releases

/-!
# Recovery of reviews

No lock and no claim outlives CLAIM_TTL_SECONDS (`Timed`). So when nobody has touched a
review for longer (`Quiet`), its key is gone and its row is pending or expired, whatever was
abandoned before, and a claim that runs alone goes through, as does the resolution
after it (`recovers`). The length of its notes is that of the stripped ones, though, and the
database stores no text with U+0000, be it the notes or the reviewer's name (`recovery_refused`).
-/

namespace CM

open Database World

variable {D : Deployment} {s s' : World} {i : Nat}

/-! ## Times to live -/

/-- The key that a command gives a time to live, and the time. -/
def Cmd.expires? : Cmd → Option (String × Nat)
  | .redisSetNx key _ ttl | .redisExpire key ttl => some (key, ttl)
  | _ => none

/-- If the row is claimed, it expires by `limit`. -/
def ReviewRow.ExpiresBy (limit : Time) (r : ReviewRow) : Prop :=
  r.status = .claimed → ∀ t, r.claimExpiresAt = some t → t ≤ limit

/-- Every lock and every claim is over when `claimTtlSeconds` have passed, and the open
transactions update no reviews. -/
structure Timed (s : World) : Prop where
  live : ∀ e ∈ s.redis, s.now ≤ e.2.2
  locks : ∀ e ∈ s.redis, e.2.2 ≤ s.now + seconds claimTtlSeconds
  claims : ∀ r ∈ s.db.reviews, r.ExpiresBy (s.now + seconds claimTtlSeconds)
  txns : ∀ t ∈ s.txns, ∀ w ∈ t.2.writes, ¬ w.IsReviewUpdate

theorem ReviewRow.ExpiresBy.mono {r : ReviewRow} {limit limit' : Time} (h : r.ExpiresBy limit) (hl : limit ≤ limit') :
    r.ExpiresBy limit' := fun hc t ht => Nat.le_trans (h hc t ht) hl

/-- An update that leaves no claim that lasts longer. -/
def ReviewUpdate.ExpiresBy (limit : Time) : ReviewUpdate → Prop
  | .claim _ _ expires => expires ≤ limit
  | .resolve status .. => status ≠ .claimed
  | .release => True

theorem ReviewRow.ExpiresBy.after {r : ReviewRow} {limit : Time} (h : r.ExpiresBy limit) {us : List ReviewUpdate}
    (hu : ∀ u ∈ us, u.ExpiresBy limit) : (r.after us).ExpiresBy limit := by
  induction us generalizing r with
  | nil => exact h
  | cons u us ih =>
    refine ih (r := u.apply r) ?_ fun v hv => hu v (List.mem_cons_of_mem _ hv)
    have hfirst := hu u List.mem_cons_self
    cases u with
    | claim reviewer now expires =>
      intro _ t ht
      cases ht
      exact hfirst
    | resolve status decision notes reviewer now => exact fun hc => absurd hc hfirst
    | release => exact fun hc => by cases hc

theorem now_of_change {q : Cmd} (h : Change i s q s') : s'.now = s.now := by
  cases h with
  | @redisExpire key ttl =>
    simp only [World.redisExpire]
    split
    · rfl
    · split <;> rfl
  | @delete queue receipt => cases queue <;> rfl
  | _ => rfl

/-- A key of Redis was there before, with its time to live, or gets one now. -/
theorem redis_of_change {q : Cmd} (h : Change i s q s') {e : String × String × Time} (he : e ∈ s'.redis) :
    e ∈ s.redis ∨ ∃ ttl, q.expires? = some (e.1, ttl) ∧ e.2.2 = s.now + seconds ttl := by
  cases h with
  | redisSet absent =>
    rcases List.mem_cons.mp he with rfl | he
    · exact .inr ⟨_, rfl, rfl⟩
    · exact .inl (List.mem_filter.mp he).1
  | redisDel => exact .inl (List.mem_filter.mp he).1
  | @redisExpire key ttl =>
    simp only [World.redisExpire] at he
    split at he
    · exact .inl he
    · split at he
      · exact .inl (List.mem_filter.mp he).1
      · rcases List.mem_cons.mp he with rfl | he
        · exact .inr ⟨_, rfl, rfl⟩
        · exact .inl (List.mem_filter.mp he).1
  | @delete queue receipt => cases queue <;> exact .inl he
  | _ => exact .inl he

theorem mem_setTxn {o : Option Txn} {t : Nat × Txn} (h : t ∈ (s.setTxn i o).txns) : t ∈ s.txns ∨ o = some t.2 := by
  cases o with
  | none => exact .inl (List.mem_filter.mp h).1
  | some u =>
    rcases List.mem_cons.mp h with rfl | h
    · exact .inr rfl
    · exact .inl (List.mem_filter.mp h).1

theorem txns_of_change {q : Cmd} (hc : Contract D i s q) (h : Change i s q s')
    (hs : ∀ t ∈ s.txns, ∀ w ∈ t.2.writes, ¬ w.IsReviewUpdate) :
    ∀ t ∈ s'.txns, ∀ w ∈ t.2.writes, ¬ w.IsReviewUpdate := by
  intro t ht w hw
  cases h with
  | @pend st u a t₀ ws ws' active run free =>
    rcases mem_setTxn ht with ht | ht
    · exact hs t ht w hw
    · rw [← Option.some.inj ht] at hw
      rcases List.mem_append.mp hw with hw | hw
      · exact hs _ (mem_of_lookup active) w hw
      · simp only [Contract, active] at hc
        exact kinds_of_inTxn hc (makes_of_run run w hw)
  | abort | begin =>
    rcases mem_setTxn ht with ht | ht
    · exact hs t ht w hw
    · rw [← Option.some.inj ht] at hw
      cases hw
  | commit | drop => exact hs t (List.mem_filter.mp ht).1 w hw
  | @redisExpire key ttl =>
    simp only [World.redisExpire] at ht
    split at ht
    · exact hs t ht w hw
    · split at ht <;> exact hs t ht w hw
  | @delete queue receipt => cases queue <;> exact hs t ht w hw
  | _ => exact hs t ht w hw

/-- What a step of a run writes to reviews expires in time. -/
theorem expiresBy_of_step {q : Cmd} {p : Pick} {ws : List Write} (hi : Inv s) (hs : DbStep D i s q p ws)
    (h : ∀ r ∈ s.db.reviews, r.ExpiresBy (s.now + seconds claimTtlSeconds)) :
    ∀ r ∈ (s.db.applyAll ws).reviews, r.ExpiresBy (s.now + seconds claimTtlSeconds) := by
  intro r hr
  rcases row_of_step hi hs hr with ⟨hpending, -⟩ | ⟨r₀, hr₀, rfl⟩
  · intro hc
    rw [hpending] at hc
    cases hc
  · refine (h r₀ hr₀).after fun u hu => ?_
    have hu := mem_updatesOf.mp hu
    cases hs with
    | commit complete => exact absurd ⟨_, _, rfl⟩ (hi.stored.kinds i _ hu)
    | alone idle contract run fault =>
      generalize r₀.id = id at hu
      cases makes_of_run run _ hu with
      | releaseExpired | releaseRows => trivial
      | claim row ok =>
        obtain ⟨hnow, rfl⟩ := contract
        exact Nat.add_le_add_right hnow _
      | resolve row claimed owner =>
        rw [contract.1]
        exact status_ne_claimed _

theorem Timed.of_eq (h : Timed s) (hn : s'.now = s.now) (hr : s'.redis ⊆ s.redis) (hd : s'.db = s.db)
    (ht : s'.txns ⊆ s.txns) : Timed s' where
  live e he := hn ▸ h.live e (hr he)
  locks e he := hn ▸ h.locks e (hr he)
  claims := by rw [hn, hd]; exact h.claims
  txns t hm := h.txns t (ht hm)

theorem Timed.tick (h : Timed s) (d : Nat) : Timed (s.tick d) where
  live _ he := of_decide_eq_true (List.mem_filter.mp he).2
  locks e he :=
    Nat.le_trans (h.locks e (List.mem_filter.mp he).1) (Nat.add_le_add_right (Nat.le_add_right s.now d) _)
  claims r hr := (h.claims r hr).mono (Nat.add_le_add_right (Nat.le_add_right s.now d) _)
  txns := h.txns

/-- A key whose time to live is over is gone. -/
theorem Timed.absent (h : Timed s) {key : String} {limit : Time} (hkey : ∀ e ∈ s.redis, e.1 = key → e.2.2 ≤ limit)
    (hlt : limit < s.now) : s.redisGet key = none := by
  rw [redisGet_eq_none, entry, List.lookup_eq_none_iff]
  intro e he
  refine bne_iff_ne.mpr fun hid => ?_
  exact absurd (Nat.lt_of_lt_of_le hlt (h.live e he)) (Nat.not_lt.mpr (hkey e he hid.symm))

theorem Timed.step {q : Cmd} {p : Pick} {r : Except Exn q.Ans} (h : Timed s) (hi : Inv s) (hc : Contract D i s q)
    (hx : World.exec i q p s = some (r, s')) : Timed s' := by
  have hchange := change_of_exec hx
  have hnow := now_of_change hchange
  refine ⟨fun e he => ?_, fun e he => ?_, ?_, txns_of_change hc hchange h.txns⟩
  · rw [hnow]
    rcases redis_of_change hchange he with he | ⟨ttl, -, he⟩
    · exact h.live e he
    · rw [he]
      exact Nat.le_add_right _ _
  · rw [hnow]
    rcases redis_of_change hchange he with he | ⟨ttl, hq, he⟩
    · exact h.locks e he
    · have httl : ttl ≤ claimTtlSeconds := by
        cases q with
        | redisSetNx | redisExpire =>
          cases hq
          exact hc
        | _ => cases hq
      rw [he]
      exact Nat.add_le_add_left (Nat.mul_le_mul_right _ httl) _
  · rw [hnow, db_of_commits hx]
    rcases commits_ok hc hx with hnil | hstep
    · rw [hnil]
      exact h.claims
    · exact expiresBy_of_step hi hstep h.claims

theorem Timed.event {v : Event} (h : Timed s) (hx : World.event v s = some s') : Timed s' := by
  cases v with
  | tick d =>
    cases hx
    exact h.tick d
  | loseKey key =>
    cases hx
    exact h.of_eq rfl (List.filter_subset_self _) rfl (List.Subset.refl _)
  | toDlq id =>
    obtain ⟨m, -, rfl⟩ := Option.map_eq_some_iff.mp hx
    exact h.of_eq rfl (List.Subset.refl _) rfl (List.Subset.refl _)

theorem timed_of_reachable {c : (service D).Config} {now : Time} (hr : Pool.Reachable (boot D now) c) :
    Timed c.world := by
  obtain ⟨h, hr⟩ := hr
  have hinit : Timed (boot D now).world := by constructor <;> exact fun _ h => by cases h
  exact hr.invariant (verified D False) (admits_anything D) (initial D False now) hinit
    (fun hi h hp _ hx => h.step hi hp.1 hx) (fun _ h hx => h.event hx)
    fun _ h => h.of_eq rfl (List.Subset.refl _) rfl (List.filter_subset_self _)

/-! ## Quiet times -/

/-- The step does not touch the review `id`: it gives its key no time to live, and it
does not change its row. -/
structure Quiet (id : Uuid) (c : (service D).Config) (a : (service D).Action) : Prop where
  key {i e q k p ttl} : c.At i e q k → a = .step i p → q.expires? ≠ some (claimKey id.str, ttl)
  row {i e q k p u} : c.At i e q k → a = .step i p → .updateReview id u ∉ c.world.commits i q p

/-- In quiet times the row stays as it is, and its key lives no longer. -/
theorem kept_of_quiet {now : Time} {c₀ c : (service D).Config} {h : List (service D).Step} {r : ReviewRow}
    (h₀ : Pool.Reachable (boot D now) c₀) (hq : Pool.Run (Quiet r.id) c₀ h c) (hm : r ∈ c₀.world.db.reviews) :
    r ∈ c.world.db.reviews ∧
    ∀ e ∈ c.world.redis, e.1 = claimKey r.id.str → e.2.2 ≤ c₀.world.now + seconds claimTtlSeconds := by
  induction hq with
  | nil => exact ⟨hm, fun e he _ => (timed_of_reachable h₀).locks e he⟩
  | @cons h c a c' hq ha hn ih =>
    obtain ⟨hrow, hkey⟩ := ih
    constructor
    · have hnone : updatesOf r.id (Step.writes ⟨c, a, c'⟩) = [] := by
        refine List.eq_nil_iff_forall_not_mem.mpr fun u hu => ?_
        have hu := mem_updatesOf.mp hu
        cases a with
        | step j p =>
          obtain ⟨e, q, k, r', w, hat, -, -⟩ := Pool.next_step hn
          rw [writes_of_at hat] at hu
          exact ha.row hat rfl hu
        | _ => cases hu
      have := after_mem_reviews hrow (Step.writes ⟨c, a, c'⟩)
      rwa [hnone, ← db_of_next hn] at this
    · intro e he hid
      cases a with
      | start j e =>
        obtain ⟨-, rfl⟩ := Pool.next_start hn
        exact hkey _ he hid
      | step j p =>
        obtain ⟨f, q, k, r', w, hat, hx, rfl⟩ := Pool.next_step hn
        rcases redis_of_change (change_of_exec hx) he with he | ⟨ttl, hq, -⟩
        · exact hkey e he hid
        · rw [hid] at hq
          exact absurd hq (ha.key hat rfl)
      | crash j =>
        obtain ⟨f, q, k, -, rfl⟩ := Pool.next_crash hn
        exact hkey e he hid
      | env v =>
        obtain ⟨w, hx, rfl⟩ := Pool.next_env hn
        cases v with
        | tick d | loseKey key =>
          cases hx
          exact hkey e (List.mem_filter.mp he).1 hid
        | toDlq id =>
          obtain ⟨m, -, rfl⟩ := Option.map_eq_some_iff.mp hx
          exact hkey e he hid

/-! ## A call alone -/

/-- What happens around a request of a call that runs alone with working services: time passes,
and the request does not fail. -/
structure Turn where
  delay : Nat
  pick : Pick
  works : pick.fault = .none

/-- The turns of a call that runs alone; they cost time. -/
def turns (D : Deployment) : Turns (service D) where
  Turn := Turn
  env t := .tick t.delay
  pick t := t.pick
  cost t := t.delay

/-- The write updates a review, or is an audit row. -/
def Write.OfReview : Write → Prop
  | .updateReview .. | .audit _ => True
  | _ => False

/-- Thread `i` can work on the review `id`, whose row satisfies `P`. -/
structure Ready (i : Nat) (id : Uuid) (P : ReviewRow → Prop) (s : World) : Prop where
  idle : s.txn i = none
  txns : ∀ t ∈ s.txns, ∀ w ∈ t.2.writes, ¬ w.IsReviewUpdate
  fk : s.db.FkOk
  row : ∃ r, s.db.review? id = some r ∧ P r

/-- The reviewer has the lock of the review for at least `b` more. -/
def Locked (id : Uuid) (reviewer : String) (b : Nat) (s : World) : Prop :=
  ∃ e, s.entry (claimKey id.str) = some (reviewer, e) ∧ s.now + b ≤ e

section Alone

variable {id : Uuid} {reviewer : String} {P L : ReviewRow → Prop} {b d : Nat} {p : Pick}

theorem Locked.tick (h : Locked id reviewer b s) (hd : d ≤ b) : Locked id reviewer (b - d) (s.tick d) := by
  obtain ⟨e, he, hle⟩ := h
  have hdone : s.now + d ≤ e := Nat.le_trans (Nat.add_le_add_left hd _) hle
  refine ⟨e, entry_tick he hdone, ?_⟩
  show s.now + d + (b - d) ≤ e
  rwa [Nat.add_assoc, Nat.add_sub_cancel' hd]

theorem Ready.congr (h : Ready i id P s) (ht : s'.txns = s.txns) (hd : s'.db = s.db) : Ready i id P s' where
  idle := by rw [txn, ht]; exact h.idle
  txns := ht ▸ h.txns
  fk := hd ▸ h.fk
  row := hd ▸ h.row

theorem Ready.mono (h : Ready i id P s) (hP : ∀ r, P r → L r) : Ready i id L s := by
  obtain ⟨r, hr, hp⟩ := h.row
  exact ⟨h.idle, h.txns, h.fk, r, hr, hP r hp⟩

theorem Ready.tick (h : Ready i id P s) (d : Nat) : Ready i id P (s.tick d) := h.congr rfl rfl

/-- Updates of reviews and audit rows update the row. -/
theorem review?_applyAll {db : Database} {ws : List Write} (hw : ∀ w ∈ ws, w.OfReview) (id : Uuid) :
    (db.applyAll ws).review? id = (db.review? id).map fun r => r.after (updatesOf id ws) := by
  induction ws generalizing db with
  | nil => exact Option.map_id'.symm
  | cons w ws ih =>
    have hrest : ((db.apply w).applyAll ws).review? id = _ := ih fun w hm => hw w (List.mem_cons_of_mem _ hm)
    rw [applyAll_cons, hrest]
    cases w with
    | audit row => rfl
    | updateReview id' u =>
      have hfind : (db.apply (.updateReview id' u)).review? id =
          (db.review? id).map fun r => if r.id = id' then u.apply r else r := by
        simp only [review?, Database.apply, List.find?_map]
        congr 2
        funext r
        simp only [Function.comp]
        split <;> simp [ReviewUpdate.id_apply]
      rw [hfind, Option.map_map]
      cases hr : db.review? id with
      | none => rfl
      | some r =>
        obtain rfl := id_of_review? hr
        by_cases hid : r.id = id'
        · simp [updatesOf, Write.updateOf?, hid, ReviewRow.after]
        · simp [updatesOf, Write.updateOf?, hid, Ne.symm hid]
    | _ => exact (hw _ List.mem_cons_self).elim

/-- Writes of reviews do not wait for transactions. -/
theorem not_blocked {ws : List Write} (hs : ∀ t ∈ s.txns, ∀ w ∈ t.2.writes, ¬ w.IsReviewUpdate)
    (hw : ∀ w ∈ ws, w.OfReview) : s.blocked i ws = false := by
  refine Bool.eq_false_iff.mpr fun hb => ?_
  obtain ⟨t, ht, hb⟩ := List.any_eq_true.mp hb
  obtain ⟨w, hm, hb⟩ := List.any_eq_true.mp (Bool.and_eq_true_iff.mp hb).2
  obtain ⟨w', hm', hc⟩ := List.any_eq_true.mp hb
  have hw := hw w hm
  cases w with
  | audit row => cases w' <;> cases hc
  | updateReview id u =>
    cases w' with
    | updateReview id' u' => exact hs t ht _ hm' ⟨id', u', rfl⟩
    | _ => cases hc
  | _ => exact hw.elim

theorem Ready.write (h : Ready i id P s) {ws : List Write} (hw : ∀ w ∈ ws, w.OfReview)
    (hP : ∀ r, s.db.review? id = some r → P r → L (r.after (updatesOf id ws))) :
    Ready i id L { s with db := s.db.applyAll ws } where
  idle := h.idle
  txns := h.txns
  fk := h.fk.applyAll fun w hm => by
    have := hw w hm
    cases w with
    | audit | updateReview => trivial
    | _ => exact this.elim
  row := by
    obtain ⟨r, hr, hp⟩ := h.row
    exact ⟨_, by rw [review?_applyAll hw, hr]; rfl, hP r hr hp⟩

theorem wp_request {q : Cmd} {Q : q.Ans → Nat → World → Prop}
    (h : ∀ t : Turn, t.delay ≤ b → ∃ a s', World.exec i q t.pick (s.tick t.delay) = some (.ok a, s') ∧
      Q a (b - t.delay) s') : (turns D).wp i (request q) Q b s := by
  refine Turns.wp_perform fun t ht => ?_
  obtain ⟨a, s', hx, hq⟩ := h t ht
  exact ⟨s.tick t.delay, a, s', rfl, hx, hq⟩

/-- Thread `i` can work on the review, and the reviewer has its lock for at least `b` more. -/
structure Owns (i : Nat) (id : Uuid) (reviewer : String) (P : ReviewRow → Prop) (b : Nat) (s : World) : Prop where
  ready : Ready i id P s
  locked : Locked id reviewer b s

/-- A statement on reviews outside a transaction takes effect at once. -/
theorem exec_sql_works {q : Sql} {a : q.Ans} {ws : List Write} (hi : s.txn i = none)
    (ht : ∀ t ∈ s.txns, ∀ w ∈ t.2.writes, ¬ w.IsReviewUpdate) (hp : p.fault = .none) (hq : q.refusal = none)
    (hst : q.run s.db s.now p.fresh = .ok (a, ws)) (hw : ∀ w ∈ ws, w.OfReview) :
    World.exec i (.sql q) p s = some (.ok a, { s with db := s.db.applyAll ws }) := by
  have hfree : s.blocked i ws = false := not_blocked ht hw
  simp only [World.exec, runSql, hi, Sql.execute_of_storable hq, hst, hfree, answer, hp]
  rfl

/-- A statement that finds the row satisfying `P`, and leaves it satisfying `L`. -/
theorem wp_sql {q : Sql} {R : q.Ans → Prop} (h : Owns i id reviewer P b s) (hq : q.refusal = none)
    (hrun : ∀ now fresh r, s.db.review? id = some r → P r → ∃ a ws, q.run s.db now fresh = .ok (a, ws) ∧ R a ∧
      (∀ w ∈ ws, w.OfReview) ∧ L (r.after (updatesOf id ws))) :
    (turns D).wp i (sql q) (fun a b s => R a ∧ Owns i id reviewer L b s) b s := by
  refine wp_request fun t ht => ?_
  obtain ⟨r, hr, hp⟩ := h.ready.row
  obtain ⟨a, ws, hst, ha, hw, hp'⟩ := hrun (s.now + t.delay) t.pick.fresh r hr hp
  have hready := h.ready.tick t.delay
  have hx : World.exec i (.sql q) t.pick (s.tick t.delay) =
      some (.ok a, { s.tick t.delay with db := s.db.applyAll ws }) :=
    exec_sql_works hready.idle hready.txns t.works hq hst hw
  refine ⟨a, _, hx, ha, hready.write hw fun r' hr' _ => ?_, h.locked.tick ht⟩
  obtain rfl := Option.some.inj (hr.symm.trans hr')
  exact hp'

/-- A statement that reads. -/
theorem wp_read {q : Sql} {R : q.Ans → Prop} (h : Owns i id reviewer P b s) (hq : q.refusal = none)
    (hrun : ∀ now fresh r, s.db.review? id = some r → P r → ∃ a, q.run s.db now fresh = .ok (a, []) ∧ R a) :
    (turns D).wp i (sql q) (fun a b s => R a ∧ Owns i id reviewer P b s) b s := by
  refine wp_sql h hq fun now fresh r hr hp => ?_
  obtain ⟨a, hst, ha⟩ := hrun now fresh r hr hp
  exact ⟨a, [], hst, ha, fun _ h => (nomatch h), hp⟩

/-- A statement that updates the row. -/
theorem wp_update {q : Sql} {a : q.Ans} {u : ReviewUpdate} (h : Owns i id reviewer P b s) (hq : q.refusal = none)
    (hrun : ∀ now fresh r, s.db.review? id = some r → P r → q.run s.db now fresh = .ok (a, [.updateReview id u]))
    (hP : ∀ r, P r → L (u.apply r)) :
    (turns D).wp i (sql q) (fun a' b s => a' = a ∧ Owns i id reviewer L b s) b s := by
  refine wp_sql h hq fun now fresh r hr hp => ⟨a, _, hrun now fresh r hr hp, rfl, fun w hw => ?_, ?_⟩
  · rw [List.mem_singleton.mp hw]
    trivial
  · have hus : updatesOf id [.updateReview id u] = [u] := by simp [updatesOf, Write.updateOf?]
    rw [hus]
    exact hP r hp

/-- A request that changes nothing. -/
theorem wp_same {q : Cmd} (h : Owns i id reviewer P b s)
    (hq : ∀ (p : Pick) (s : World), p.fault = .none → ∃ a, World.exec i q p s = some (.ok a, s)) :
    (turns D).wp i (request q) (fun _ => Owns i id reviewer P) b s := by
  refine wp_request fun t ht => ?_
  obtain ⟨a, hx⟩ := hq t.pick (s.tick t.delay) t.works
  exact ⟨a, _, hx, h.ready.tick _, h.locked.tick ht⟩

theorem wp_connect (h : Owns i id reviewer P b s) :
    (turns D).wp i (request .connect) (fun _ => Owns i id reviewer P) b s :=
  wp_same h fun p s hp => ⟨(), by simp only [World.exec, answer, hp]⟩

theorem wp_audit (h : Owns i id reviewer P b s) {row : AuditRow} (hd : row.detail.storable = true) :
    (turns D).wp i (sql (.insertAudit row)) (fun _ => Owns i id reviewer P) b s := by
  refine Turns.wp_mono (wp_sql (R := fun _ => True) h (Sql.refusal_insertAudit.mpr hd) fun now fresh r hr hp => ?_)
    fun _ _ _ h => h.2
  refine ⟨(), [.audit row], rfl, trivial, fun w hw => ?_, hp⟩
  rw [List.mem_singleton.mp hw]
  trivial

theorem wp_auditReleased (rows : List (Uuid × Option String)) (h : Owns i id reviewer P b s) :
    (turns D).wp i (auditReleased rows) (fun _ => Owns i id reviewer P) b s := by
  induction rows generalizing b s with
  | nil => exact h
  | cons row rows ih => exact Turns.wp_bind (Turns.wp_mono (wp_audit h rfl) fun _ _ _ h => ih h)

/-- A released row can be claimed, and one that is not released stays as it is. -/
theorem ReviewRow.claimable_after {r : ReviewRow} {now : Time} {us : List ReviewUpdate} (hu : ∀ u ∈ us, u = .release)
    (h : r.claimable reviewer now = true) : (r.after us).claimable reviewer now = true := by
  induction us generalizing r with
  | nil => exact h
  | cons u us ih =>
    obtain rfl := hu u List.mem_cons_self
    refine ih (r := ReviewUpdate.apply r .release) (fun v hv => hu v (List.mem_cons_of_mem _ hv)) ?_
    simp [claimable, ReviewUpdate.apply]

/-- A release leaves a row that can be claimed. -/
theorem wp_release {now : Time} (h : Owns i id reviewer (fun r => r.claimable reviewer now = true) b s)
    (isolation : Isolation) :
    (turns D).wp i (releaseExpiredClaims isolation now)
      (fun _ => Owns i id reviewer fun r => r.claimable reviewer now = true) b s := by
  have released : ∀ (ids : List Uuid) {r : ReviewRow}, r.claimable reviewer now = true →
      (∀ w ∈ ids.map fun id => Write.updateReview id .release, w.OfReview) ∧
      (r.after (updatesOf id (ids.map fun id => .updateReview id .release))).claimable reviewer now = true := by
    intro ids r hr
    refine ⟨fun w hw => ?_, ReviewRow.claimable_after (fun u hu => ?_) hr⟩
    · obtain ⟨id', -, rfl⟩ := List.mem_map.mp hw
      trivial
    · obtain ⟨id', -, he⟩ := List.mem_map.mp (mem_updatesOf.mp hu)
      cases he
      rfl
  refine Turns.wp_bind (Turns.wp_mono (Q := fun _ =>
    Owns i id reviewer fun r => r.claimable reviewer now = true) ?_ fun rows _ _ h =>
    Turns.wp_bind (wp_auditReleased rows h))
  cases isolation with
  | atomic =>
    refine Turns.wp_mono (wp_sql (R := fun _ => True) h rfl fun now' fresh r hr hp => ?_) fun _ _ _ h => h.2
    have hrel := released ((s.db.expiredClaims now).map (·.id)) hp
    rw [List.map_map] at hrel
    exact ⟨_, _, rfl, trivial, hrel⟩
  | readCommitted =>
    refine Turns.wp_bind (Turns.wp_mono (wp_read (R := fun _ => True) h rfl fun now' fresh r hr hp =>
      ⟨_, rfl, trivial⟩) fun rows _ s' h' => ?_)
    refine Turns.wp_mono (wp_sql (R := fun _ => True) h'.2 rfl fun now' fresh r hr hp => ?_) fun _ _ _ h => h.2
    have hrel := released (rows.map (·.1)) hp
    rw [List.map_map] at hrel
    exact ⟨_, _, rfl, trivial, hrel⟩

theorem exists_decision? {db : Database} {id : Uuid} (h : db.HasDecision id) : ∃ d, db.decision? id = some d := by
  obtain ⟨d, hd, rfl⟩ := h
  exact Option.isSome_iff_exists.mp (List.find?_isSome.mpr ⟨d, hd, decide_eq_true rfl⟩)

theorem exists_content? {db : Database} {id : Uuid} (h : db.HasContent id) : ∃ c, db.content? id = some c := by
  obtain ⟨c, hc, rfl⟩ := h
  exact Option.isSome_iff_exists.mp (List.find?_isSome.mpr ⟨c, hc, decide_eq_true rfl⟩)

theorem wp_full (h : Owns i id reviewer P b s) :
    (turns D).wp i (sql (.reviewFull id)) (fun full b s => full.isSome = true ∧ Owns i id reviewer P b s) b s := by
  refine wp_read (q := .reviewFull id) (R := fun full => full.isSome = true) h rfl fun now fresh r hr hp =>
    ⟨_, rfl, ?_⟩
  obtain ⟨hdecision, hcontent, -⟩ := h.ready.fk.reviews r (List.mem_of_find?_eq_some hr)
  obtain ⟨d, hd⟩ := exists_decision? hdecision
  obtain ⟨c, hc⟩ := exists_content? hcontent
  rw [hr, Option.bind_some, joinReview, hd, hc]
  rfl

/-- The image of the row is signed. -/
theorem wp_fullToReview {full : Option ReviewFull} (h : Ready i id P s) (hf : full.isSome = true) :
    (turns D).wp i (fullToReview full) (fun _ _ => Ready i id P) b s := by
  obtain ⟨row, rfl⟩ := Option.isSome_iff_exists.mp hf
  refine Turns.wp_bind (wp_request fun t ht => ⟨t.pick.url, s.tick t.delay, ?_, h.tick t.delay⟩)
  simp only [World.exec, answer, t.works]

/-- `acquire_review_claim` where nobody has the lock. -/
theorem wp_acquire (h : Ready i id P s) (ha : s.redisGet (claimKey id.str) = none)
    (hb : b ≤ seconds claimTtlSeconds) :
    (turns D).wp i (acquireReviewClaim id.str reviewer claimTtlSeconds)
      (fun x b s => x = (true, some reviewer) ∧ Owns i id reviewer P b s) b s := by
  refine Turns.wp_bind (wp_request fun t ht => ⟨none, s.tick t.delay, ?_, ?_⟩)
  · simp only [World.exec, answer, t.works, redisGet_tick_of_none ha]
  · refine Turns.wp_bind (wp_request fun u hu =>
      ⟨true, ((s.tick t.delay).tick u.delay).redisSet (claimKey id.str) reviewer
      (s.now + t.delay + u.delay + seconds claimTtlSeconds), ?_, ?_⟩)
    · simp only [World.exec, answer, u.works, redisGet_tick_of_none (redisGet_tick_of_none ha t.delay),
        claimTtlSeconds]
      rfl
    · refine ⟨rfl, h.congr rfl rfl, _, entry_redisSet_self .., ?_⟩
      exact Nat.add_le_add_left (Nat.le_trans (Nat.sub_le _ _) (Nat.le_trans (Nat.sub_le _ _) hb)) _

theorem run_claimReview {db : Database} {r : ReviewRow} {now t : Time} (hr : db.review? id = some r)
    (hp : r.claimable reviewer t = true) (fresh : Uuid) (expires : Time) :
    (Sql.claimReview id reviewer t expires).run db now fresh =
    .ok (some id, [.updateReview id (.claim reviewer t expires)]) := by
  simp only [Sql.run, hr, Option.filter_some, hp, if_true]

theorem run_resolveReview {db : Database} {r : ReviewRow} {now : Time} (hr : db.review? id = some r)
    (hp : r.status = .claimed ∧ r.claimedBy = some reviewer) (fresh : Uuid) (status : ReviewStatus)
    (decision : ReviewerDecision) (notes : String) (t : Time) :
    (Sql.resolveReview id status decision notes reviewer t).run db now fresh =
      .ok (some id, [.updateReview id (.resolve status decision notes reviewer t)]) := by
  simp [Sql.run, hr, Option.filter_some, hp]

/-- A claim of a review that can be claimed, and whose lock nobody has, succeeds. -/
theorem wp_claimReview {body : ClaimRequest} (isolation : Isolation)
    (h : Ready i id (fun r => ∀ t, s.now ≤ t → r.claimable body.reviewer t = true) s)
    (ha : s.redisGet (claimKey id.str) = none) (hb : b ≤ seconds claimTtlSeconds)
    (hreviewer : storable body.reviewer = true) :
    (turns D).wp i (claimReview isolation id body)
      (fun _ => Owns i id body.reviewer fun r => r.status = .claimed ∧ r.claimedBy = some body.reviewer) b s := by
  refine Turns.wp_bind (wp_request fun t ht => ⟨_, _, rfl, ?_⟩)
  have hready : Ready i id (fun r => r.claimable body.reviewer (s.now + t.delay) = true)
      { s.tick t.delay with clockRead := Function.update s.clockRead i (some (s.now + t.delay)) } :=
    (h.mono fun r hp => hp _ (Nat.le_add_right _ _)).congr rfl rfl
  refine Turns.wp_bind (Turns.wp_mono (wp_acquire hready (redisGet_tick_of_none ha t.delay)
    (Nat.le_trans (Nat.sub_le _ _) hb)) ?_)
  rintro _ b s ⟨rfl, h⟩
  refine Turns.wp_bind (Turns.wp_mono (wp_connect h) fun _ b s h => ?_)
  refine Turns.wp_bind (Turns.wp_mono (wp_release h isolation) fun _ b s h => ?_)
  refine Turns.wp_bind (Turns.wp_mono (wp_update
    (L := fun r => r.status = .claimed ∧ r.claimedBy = some body.reviewer) h
    (by simpa [Sql.refusal_eq_none_iff, Sql.texts, Sql.jsonbStorable] using hreviewer)
    (fun now fresh r hr hp => run_claimReview hr hp fresh _) fun r hp => ⟨rfl, rfl⟩) ?_)
  rintro _ b s ⟨rfl, h⟩
  refine Turns.wp_bind (Turns.wp_mono (wp_full h) ?_)
  rintro full b s ⟨hfull, h⟩
  refine Turns.wp_bind (Turns.wp_mono (wp_audit h rfl) fun _ b s h => ?_)
  obtain ⟨row, rfl⟩ := Option.isSome_iff_exists.mp hfull
  exact Turns.wp_bind (wp_same h fun p s hp => ⟨p.url, by simp only [World.exec, answer, hp]⟩)

/-- A resolution by the reviewer who has claimed the review succeeds, if the notes do. -/
theorem wp_resolveReview {body : ResolveRequest}
    (h : Owns i id body.reviewer (fun r => r.status = .claimed ∧ r.claimedBy = some body.reviewer) b s)
    (hnotes : 3 ≤ (strip body.notes).length) (hreviewer : storable body.reviewer = true)
    (htext : storable body.notes = true) :
    (turns D).wp i (resolveReview id body)
      (fun _ _ => Ready i id fun r => r.status = body.reviewerDecision.status) b s := by
  have owner : ∀ {P : ReviewRow → Prop} {b s}, Owns i id body.reviewer P b s →
      (turns D).wp i (request (.redisGet (claimKey id.str)))
        (fun v b s => v = some body.reviewer ∧ Owns i id body.reviewer P b s) b s := by
    intro P b s h
    refine wp_request fun t ht => ?_
    have hlocked := h.locked.tick ht
    obtain ⟨e, he, -⟩ := hlocked
    have hget : (s.tick t.delay).redisGet (claimKey id.str) = some body.reviewer := redisGet_eq_some.mpr ⟨e, he⟩
    exact ⟨_, _, by simp only [World.exec, answer, t.works, hget], rfl, h.ready.tick _, h.locked.tick ht⟩
  refine Turns.wp_bind (wp_request fun t ht => ⟨_, _, rfl, ?_⟩)
  have h : Owns i id body.reviewer (fun r => r.status = .claimed ∧ r.claimedBy = some body.reviewer) (b - t.delay)
      { s.tick t.delay with clockRead := Function.update s.clockRead i (some (s.now + t.delay)) } :=
    ⟨h.ready.congr rfl rfl, h.locked.tick ht⟩
  refine Turns.wp_bind (Turns.wp_mono (owner h) ?_)
  rintro _ b s ⟨rfl, h⟩
  simp only [ne_eq, not_true_eq_false, if_false]
  refine Turns.wp_bind (Turns.wp_mono (wp_connect h) fun _ b s h => ?_)
  -- the decision of the model is there
  refine Turns.wp_bind (Turns.wp_mono (wp_read (q := .modelDecision id) (R := fun model => model.isSome = true) h rfl
    fun now fresh r hr hp => ⟨_, rfl, ?_⟩) ?_)
  · obtain ⟨d, hd⟩ := exists_decision? (h.ready.fk.reviews r (List.mem_of_find?_eq_some hr)).1
    simp only [hr, Option.bind_eq_bind, Option.bind_some, hd]
    rfl
  rintro model b s ⟨hmodel, h⟩
  obtain ⟨model, rfl⟩ := Option.isSome_iff_exists.mp hmodel
  have hlong : (isOverride body.reviewerDecision model && decide ((strip body.notes).length < 3)) = false := by
    rw [decide_eq_false (by omega), Bool.and_false]
  simp only [hlong, Bool.false_eq_true, if_false]
  refine Turns.wp_bind (Turns.wp_mono (wp_update (L := fun r => r.status = body.reviewerDecision.status) h
    (by simp [Sql.refusal_eq_none_iff, Sql.texts, Sql.jsonbStorable, storable_strip, hreviewer, htext])
    (fun now fresh r hr hp => run_resolveReview hr hp fresh _ _ _ _) fun r hp => rfl) ?_)
  rintro _ b s ⟨rfl, h⟩
  refine Turns.wp_bind (Turns.wp_mono (wp_audit h rfl) fun _ b s h => ?_)
  refine Turns.wp_bind (Turns.wp_mono (wp_full h) ?_)
  rintro full b s ⟨hfull, h⟩
  refine Turns.wp_bind (Turns.wp_bind (Turns.wp_mono (owner h) ?_))
  rintro _ b s ⟨rfl, h⟩
  simp only [if_true]
  refine wp_request fun t ht => ⟨(), (s.tick t.delay).redisDel (claimKey id.str), ?_, ?_⟩
  · simp only [World.exec, answer, t.works]
  · exact wp_fullToReview (h.ready.congr rfl rfl) hfull

end Alone

/-! ## Recovery -/

section Recovery

variable {now : Time} {c₀ c : (service D).Config} {h : List (service D).Step} {r : ReviewRow} {j : Nat}

/-- A call that has not started is in no transaction. -/
theorem idle_of_unstarted (hr : Pool.Reachable (boot D now) c) (hi : c.threads i = none) : c.world.txn i = none := by
  have := (sound_of_reachable hr).thread i
  rw [hi] at this
  exact this.1

/-- The row `r` of a reachable configuration `c₀` is not resolved, and then the review is not
touched for longer than a claim lives, until `c`. -/
structure Untouched (D : Deployment) (now : Time) (c₀ c : (service D).Config) (h : List (service D).Step)
    (r : ReviewRow) :
    Prop where
  reachable : Pool.Reachable (boot D now) c₀
  row : r ∈ c₀.world.db.reviews
  free : r.resolved = false
  quiet : Pool.Run (Quiet r.id) c₀ h c
  long : c₀.world.now + seconds claimTtlSeconds < c.world.now

/-- A claim of the review that thread `i` makes alone succeeds, and so does a resolution that
thread `j` makes alone after it. -/
def Recovers (c : (service D).Config) (id : Uuid) (i : Nat) (claim : ClaimRequest) (σ : Nat → Turn) (j : Nat)
    (resolve : ResolveRequest) (τ : Nat → Turn) : Prop :=
  (turns D).Returns c i (.claimReview id claim) σ fun _ _ c₁ =>
    (∃ r ∈ c₁.world.db.reviews, r.id = id ∧ r.status = .claimed ∧ r.claimedBy = some claim.reviewer) ∧
    c₁.world.redisGet (claimKey id.str) = some claim.reviewer ∧
    (turns D).Returns c₁ j (.resolveReview id resolve) τ fun _ _ c₂ =>
      ∃ r ∈ c₂.world.db.reviews, r.id = id ∧ r.status = resolve.reviewerDecision.status

/-- A review that has not been touched can be claimed. -/
theorem ready_of_untouched (hu : Untouched D now c₀ c h r) (hi : c.threads i = none) (reviewer : String) :
    Ready i r.id (fun r => ∀ t, c.world.now ≤ t → r.claimable reviewer t = true) c.world ∧
    c.world.redisGet (claimKey r.id.str) = none := by
  obtain ⟨h₀, hm, hfree, hq, ht⟩ := hu
  have hr := h₀.trans hq.reachable
  have hinv := inv_of_reachable hr
  have htimed := timed_of_reachable hr
  obtain ⟨hrow, hkey⟩ := kept_of_quiet h₀ hq hm
  refine ⟨⟨idle_of_unstarted hr hi, htimed.txns, hinv.stored.fk, r, ?_, fun t hle => ?_⟩, ?_⟩
  · obtain ⟨r', hr'⟩ := Option.isSome_iff_exists.mp
      (List.find?_isSome (p := fun r' => decide (r'.id = r.id)) |>.mpr ⟨r, hrow, decide_eq_true rfl⟩)
    obtain rfl := eq_of_review? hinv.unique hr' hrow rfl
    exact hr'
  · have hclaims := (timed_of_reachable h₀).claims r hm
    cases hs : r.status with
    | pending => simp [ReviewRow.claimable, hs]
    | claimed =>
      have hexpired : (r.claimExpiresAt.all fun t' => decide (t' < t)) = true := by
        cases he : r.claimExpiresAt with
        | none => rfl
        | some t' =>
          exact decide_eq_true (Nat.lt_of_le_of_lt (hclaims hs t' he) (Nat.lt_of_lt_of_le ht hle))
      simp [ReviewRow.claimable, hs, hexpired]
    | approved | rejected => simp [ReviewRow.resolved, hs] at hfree
  · exact htimed.absent hkey ht

/-- Of a review that has not been touched for longer than a claim lives, a claim that runs
alone succeeds, and a resolution by the same reviewer after it does, whose notes have three
characters once they are stripped, if the database can store the reviewer's name and the notes. -/
theorem recovers (hu : Untouched D now c₀ c h r) (hi : c.threads i = none) (hj : c.threads j = none) (hij : j ≠ i)
    (claim : ClaimRequest) (resolve : ResolveRequest) (hreviewer : resolve.reviewer = claim.reviewer)
    (hnotes : 3 ≤ (strip resolve.notes).length) (hstorable : storable claim.reviewer = true)
    (htext : storable resolve.notes = true) (σ τ : Nat → Turn)
    (hspent : ∀ m n, (turns D).spent σ m + (turns D).spent τ n ≤ seconds claimTtlSeconds) :
    Recovers c r.id i claim σ j resolve τ := by
  have hr := hu.reachable.trans hu.quiet.reachable
  obtain ⟨hready, habsent⟩ := ready_of_untouched hu hi claim.reviewer
  have hclaim : (turns D).wp i ((service D).code (.claimReview r.id claim)) (fun _ =>
    Owns i r.id claim.reviewer fun r =>
      r.status = .claimed ∧ r.claimedBy = some claim.reviewer) (seconds claimTtlSeconds) c.world :=
    Turns.wp_bind (wp_claimReview D.isolation hready habsent (Nat.le_refl _) hstorable)
  obtain ⟨m, c₁, a, hreplay, hret, howns⟩ := Turns.returns_of_wp hclaim hi fun m =>
    Nat.le_trans (Nat.le_add_right _ _) (hspent m 0)
  obtain ⟨⟨-, -, -, r', hr', hclaimed, hby⟩, hlocked⟩ := howns
  refine ⟨m, c₁, a, hreplay, hret, ⟨r', List.mem_of_find?_eq_some hr', id_of_review? hr', hclaimed, hby⟩, ?_, ?_⟩
  · obtain ⟨e, he, -⟩ := hlocked
    exact redisGet_eq_some.mpr ⟨e, he⟩
  -- the resolution has what is left of the time
  have hr₁ := hr.replay hreplay
  have hj₁ := Turns.threads_alone hreplay hij hj
  have howns : Owns j r.id resolve.reviewer (fun r => r.status = .claimed ∧ r.claimedBy = some resolve.reviewer)
      (seconds claimTtlSeconds - (turns D).spent σ m) c₁.world := by
    rw [hreviewer]
    exact ⟨⟨idle_of_unstarted hr₁ hj₁, (timed_of_reachable hr₁).txns,
      (inv_of_reachable hr₁).stored.fk, r', hr', hclaimed, hby⟩,
      hlocked⟩
  have hresolve : (turns D).wp j ((service D).code (.resolveReview r.id resolve))
      (fun _ _ => Ready j r.id fun r => r.status = resolve.reviewerDecision.status)
      (seconds claimTtlSeconds - (turns D).spent σ m) c₁.world :=
    Turns.wp_bind (wp_resolveReview howns hnotes (hreviewer ▸ hstorable) htext)
  obtain ⟨n, c₂, b, hreplay₂, hret₂, hdone⟩ := Turns.returns_of_wp hresolve hj₁ fun n =>
    Nat.le_sub_of_add_le' (hspent m n)
  obtain ⟨-, -, -, r₂, hr₂, hstatus⟩ := hdone
  exact ⟨n, c₂, b, hreplay₂, hret₂, r₂, List.mem_of_find?_eq_some hr₂, id_of_review? hr₂, hstatus⟩

end Recovery

/-! ## Runs -/

/-- Turns at once. -/
def atOnce (_ : Nat) : Turn := ⟨0, {}, rfl⟩

theorem spent_atOnce (D : Deployment) (n : Nat) : (turns D).spent atOnce n = 0 := by
  induction n with
  | zero => rfl
  | succ n ih => exact (Nat.zero_add _).trans ih

/-- A claim of the reviewer "a" dies after its update, which is its request `n`. -/
def abandonedSample (D : Deployment) (n : Nat) : List (service D).Action :=
    flaggedSample D ++ claimSample D 2 n ++ [.crash 2]

/-- A check that a call has ended. -/
def ended? (c : (service D).Config) (i : Nat) : Bool :=
  match c.threads i with
  | some ⟨_, some (.call _ _)⟩ => false
  | _ => true

theorem not_at_of_check {c : (service D).Config} {i : Nat} (h : ended? c i = true) : ∀ e q k, ¬ c.At i e q k := by
  intro e q k hat
  rw [ended?, show c.threads i = _ from hat] at h
  cases h

/-- The time to live of a claim ends after the reachable configuration `c`. -/
theorem untouched_expire {now : Time} {c : (service D).Config} (hc : Pool.Reachable (boot D now) c) {r : ReviewRow}
    (hm : r ∈ c.world.db.reviews) (hfree : r.resolved = false) :
    ∃ h, Untouched D now c ⟨c.world.tick (seconds claimTtlSeconds + 1), c.threads⟩ h r := by
  have hquiet : Quiet r.id c (expireSample D) := by
    constructor
    all_goals
      intros
      rename _ = _ => ha
      cases ha
  exact ⟨_, hc, hm, hfree, .cons .nil hquiet rfl, Nat.lt_succ_self _⟩

theorem recovers_sample : ∃ c₀ c h r claim resolve, Untouched (sample .readCommitted) 0 c₀ c h r ∧
    r.status = .claimed ∧
    Recovers c r.id 3 claim atOnce 4 resolve atOnce := by
  have hrun : (Pool.replay (abandonedSample (sample .readCommitted) 7) (boot (sample .readCommitted) 0)).any (fun c =>
      c.world.db.reviews.any (fun r => decide (r.status = .claimed)) && (c.threads 3).isNone &&
          (c.threads 4).isNone) = true := by
    decide +kernel
  obtain ⟨c₀, hc₀, hrun⟩ := Pool.exists_replay hrun
  simp only [Bool.and_eq_true, Option.isNone_iff_eq_none] at hrun
  obtain ⟨⟨hrow, hi⟩, hj⟩ := hrun
  obtain ⟨r, hm, hclaimed⟩ := List.any_eq_true.mp hrow
  have hclaimed := of_decide_eq_true hclaimed
  obtain ⟨h, hu⟩ := untouched_expire hc₀ hm (ReviewRow.not_resolved_of_claimed hclaimed)
  refine ⟨c₀, _, h, r, ⟨"b", by decide, by decide⟩, ⟨"b", .block, "nsfw", by decide, by decide, by decide⟩,
    hu, hclaimed, ?_⟩
  refine recovers hu hi hj (by decide) _ _ rfl (by decide) (by decide) (by decide) _ _ fun m n => ?_
  rw [spent_atOnce, spent_atOnce]
  exact Nat.zero_le _

def raised? (c : (service D).Config) (i : Nat) : Bool :=
  match c.threads i with
  | some ⟨_, some (.throw _)⟩ => true
  | _ => false

/-- The review of the sample is claimed alone by call 3, with `n` requests. -/
def claimAlone (D : Deployment) (claim : ClaimRequest) (n : Nat) : List (service D).Action :=
  .start 3 (.claimReview ⟨3⟩ claim) :: (turns D).actions 3 atOnce n

/-- It is resolved alone by call 4. -/
def resolveAlone (D : Deployment) (resolve : ResolveRequest) (n : Nat) : List (service D).Action :=
  .start 4 (.resolveReview ⟨3⟩ resolve) :: (turns D).actions 4 atOnce n

/-- A check that the claim raises, or the resolution after it. -/
def refused? (D : Deployment) (claim : ClaimRequest) (resolve : ResolveRequest) (m n : Nat) : Bool :=
  (Pool.replay (flaggedSample D) (boot D 0)).any fun c =>
    c.world.db.reviews.any (fun r => decide (r.id = ⟨3⟩) && !r.resolved) && (c.threads 3).isNone &&
      (c.threads 4).isNone &&
    (Pool.replay (claimAlone D claim m) ⟨c.world.tick (seconds claimTtlSeconds + 1), c.threads⟩).any fun c₁ =>
      ended? c₁ 3 && (raised? c₁ 3 ||
        (Pool.replay (resolveAlone D resolve n) c₁).any fun c₂ => ended? c₂ 4 && raised? c₂ 4)

theorem not_returned_of_check {c : (service D).Config} {i : Nat} (h : raised? c i = true) {e : Entry} {a : Out} :
    ¬ c.Returned i e a := by
  intro hret
  rw [raised?, show c.threads i = _ from hret] at h
  cases h

/-- Calls that pass the check do not recover the review of the sample, although it was not touched. -/
theorem not_recovers {claim : ClaimRequest} {resolve : ResolveRequest} {m n : Nat}
    (hrun : refused? D claim resolve m n = true) :
    ∃ c₀ c h r, Untouched D 0 c₀ c h r ∧ c.threads 3 = none ∧ c.threads 4 = none ∧
      ¬ Recovers c r.id 3 claim atOnce 4 resolve atOnce := by
  obtain ⟨c₀, hc₀, hrun⟩ := Pool.exists_replay hrun
  simp only [Bool.and_eq_true, Option.isNone_iff_eq_none] at hrun
  obtain ⟨⟨⟨hrow, hi⟩, hj⟩, hcalls⟩ := hrun
  obtain ⟨r, hm, hr⟩ := List.any_eq_true.mp hrow
  obtain ⟨hid, hfree⟩ := Bool.and_eq_true_iff.mp hr
  have hid := of_decide_eq_true hid
  obtain ⟨c₁, hreplay₁, hcalls⟩ := (Option.any_eq_true _ _).mp hcalls
  obtain ⟨hend₁, hcalls⟩ := Bool.and_eq_true_iff.mp hcalls
  obtain ⟨h, hu⟩ := untouched_expire hc₀ hm (by simpa using hfree)
  refine ⟨c₀, _, h, r, hu, hi, hj, ?_⟩
  rintro ⟨m', c₁', a, hreplay₁', hret₁, -, -, n', c₂', b, hreplay₂', hret₂, -⟩
  -- the calls end in only one way
  rw [hid] at hreplay₁' hreplay₂'
  obtain rfl := Turns.ended_unique hreplay₁ (not_at_of_check hend₁) hreplay₁' (Turns.not_at_of_returned hret₁)
  rcases Bool.or_eq_true_iff.mp hcalls with hthrow | hcalls
  · exact not_returned_of_check hthrow hret₁
  · obtain ⟨c₂, hreplay₂, hcalls⟩ := (Option.any_eq_true _ _).mp hcalls
    obtain ⟨hend₂, hthrow⟩ := Bool.and_eq_true_iff.mp hcalls
    obtain rfl := Turns.ended_unique hreplay₂ (not_at_of_check hend₂) hreplay₂' (Turns.not_at_of_returned hret₂)
    exact not_returned_of_check hthrow hret₂

/-- Notes of three blanks are not enough, and neither a name nor notes with U+0000 can be stored. -/
theorem recovery_refused :
    (¬ ∀ c₀ c h r, Untouched (sample .atomic) 0 c₀ c h r → ∀ i j, c.threads i = none → c.threads j = none → j ≠ i →
      ∀ (claim : ClaimRequest) (resolve : ResolveRequest), resolve.reviewer = claim.reviewer →
        3 ≤ resolve.notes.length → storable claim.reviewer = true → storable resolve.notes = true →
        ∀ σ τ : Nat → Turn,
          (∀ m n, (turns (sample .atomic)).spent σ m + (turns (sample .atomic)).spent τ n ≤ seconds claimTtlSeconds) →
          Recovers c r.id i claim σ j resolve τ) ∧
    (¬ ∀ c₀ c h r, Untouched (sample .atomic) 0 c₀ c h r → ∀ i j, c.threads i = none → c.threads j = none → j ≠ i →
      ∀ (claim : ClaimRequest) (resolve : ResolveRequest), resolve.reviewer = claim.reviewer →
        3 ≤ (strip resolve.notes).length → storable resolve.notes = true → ∀ σ τ : Nat → Turn,
          (∀ m n, (turns (sample .atomic)).spent σ m + (turns (sample .atomic)).spent τ n ≤ seconds claimTtlSeconds) →
          Recovers c r.id i claim σ j resolve τ) ∧
    ¬ ∀ c₀ c h r, Untouched (sample .atomic) 0 c₀ c h r → ∀ i j, c.threads i = none → c.threads j = none → j ≠ i →
      ∀ (claim : ClaimRequest) (resolve : ResolveRequest), resolve.reviewer = claim.reviewer →
        3 ≤ (strip resolve.notes).length → storable claim.reviewer = true → ∀ σ τ : Nat → Turn,
          (∀ m n, (turns (sample .atomic)).spent σ m + (turns (sample .atomic)).spent τ n ≤ seconds claimTtlSeconds) →
          Recovers c r.id i claim σ j resolve τ := by
  have hspent : ∀ m n, (turns (sample .atomic)).spent atOnce m + (turns (sample .atomic)).spent atOnce n ≤
      seconds claimTtlSeconds := fun m n => by
    rw [spent_atOnce, spent_atOnce]
    exact Nat.zero_le _
  refine ⟨fun hall => ?_, fun hall => ?_, fun hall => ?_⟩
  · have hrun : refused? (sample .atomic) ⟨"b", by decide, by decide⟩
        ⟨"b", .block, "   ", by decide, by decide, by decide⟩ 9 4 = true := by
      decide +kernel
    obtain ⟨c₀, c, h, r, hu, hi, hj, hno⟩ := not_recovers hrun
    exact hno (hall c₀ c h r hu 3 4 hi hj (by decide) _ _ rfl (by decide) (by decide) (by decide) _ _ hspent)
  · have hrun : refused? (sample .atomic) ⟨"b\x00", by decide, by decide⟩
        ⟨"b\x00", .block, "nsfw", by decide, by decide, by decide⟩ 6 0 = true := by
      decide +kernel
    obtain ⟨c₀, c, h, r, hu, hi, hj, hno⟩ := not_recovers hrun
    exact hno (hall c₀ c h r hu 3 4 hi hj (by decide) _ _ rfl (by decide) (by decide) _ _ hspent)
  · have hrun : refused? (sample .atomic) ⟨"b", by decide, by decide⟩
        ⟨"b", .block, "nsfw\x00", by decide, by decide, by decide⟩ 9 5 = true := by
      decide +kernel
    obtain ⟨c₀, c, h, r, hu, hi, hj, hno⟩ := not_recovers hrun
    exact hno (hall c₀ c h r hu 3 4 hi hj (by decide) _ _ rfl (by decide) (by decide) _ _ hspent)

end CM
