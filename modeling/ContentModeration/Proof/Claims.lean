import ContentModeration.Proof.Recovery

/-!
# What a failed claim leaves behind

`claim_review` takes the lock of a review before it updates its row, and gives it back where the
row cannot be claimed. A call that fails leaves the lock behind exactly where one of its requests
raises while the reviewer has the lock and not yet the row (`tidy_iff`): the call has no handler
for it, so nobody else can claim the review until the lock's time to live is over
(`lock_left_behind`).
-/

namespace CM

open Database World

variable {D : Deployment} {s s' : World} {i : Nat} {id : Uuid} {reviewer : String} {p : Pick}

/-! ## Calls that may fail -/

/-- What happens around a request of a call that runs alone: time passes, and the request may fail. -/
structure AnyTurn where
  delay : Nat
  pick : Pick

/-- The turns of a call that runs alone, and whose requests may fail. -/
def faulty (D : Deployment) : Turns (service D) where
  Turn := AnyTurn
  env t := .tick t.delay
  pick t := t.pick
  cost t := t.delay

theorem wlp_request {q : Cmd} {L : List (faulty D).Served → Except Exn q.Ans → World → Prop}
    (h : ∀ (t : AnyTurn) r s', World.exec i q t.pick (s.tick t.delay) = some (r, s') →
      L [⟨q, t, s.tick t.delay, r⟩] r s') :
    (faulty D).wlp i (request q) L s := by
  refine Turns.wlp_perform fun t s₁ r s' ht hx => ?_
  cases ht
  exact h t r s' hx

/-- A request that works. -/
theorem wlp_request_works {q : Cmd} {L : List (turns D).Served → Except Exn q.Ans → World → Prop}
    (h : ∀ (t : Turn) r s', World.exec i q t.pick (s.tick t.delay) = some (r, s') →
      L [⟨q, t, s.tick t.delay, r⟩] r s') :
    (turns D).wlp i (request q) L s := by
  refine Turns.wlp_perform fun t s₁ r s' ht hx => ?_
  cases ht
  exact h t r s' hx

/-- A request that works, and that has only one answer. -/
theorem wlp_answered {q : Cmd} {a : q.Ans} {s' : Turn → World}
    {L : List (turns D).Served → Except Exn q.Ans → World → Prop}
    (hx : ∀ t : Turn, World.exec i q t.pick (s.tick t.delay) = some ((s.tick t.delay).answer t.pick a (s' t)))
    (h : ∀ t : Turn, L [⟨q, t, s.tick t.delay, .ok a⟩] (.ok a) (s' t)) : (turns D).wlp i (request q) L s := by
  refine wlp_request_works fun t r s₁ hr => ?_
  simp only [hx t, answer, t.works, Option.some.injEq, Prod.mk.injEq] at hr
  obtain ⟨rfl, rfl⟩ := hr
  exact h t

/-- A key of Redis has one value in every reachable world. -/
theorem oneValue_of_service {c : (service D).Config} {now : Time} (hr : Pool.Reachable (boot D now) c) :
    OneValue c.world := by
  refine hr.induction (P := fun c : (service D).Config => OneValue c.world)
    (show OneValue (boot D now).world from List.nodup_nil)
    fun c a c' _ h hn => ?_
  cases a with
  | start j e =>
    obtain ⟨-, rfl⟩ := Pool.next_start hn
    exact h
  | step j p =>
    obtain ⟨e, q, k, r, w, -, hx, rfl⟩ := Pool.next_step hn
    exact h.step (redisStep_of_change (change_of_exec hx))
  | crash j =>
    obtain ⟨e, q, k, -, rfl⟩ := Pool.next_crash hn
    exact h
  | env v =>
    obtain ⟨w, hx, rfl⟩ := Pool.next_env hn
    cases v with
    | tick d | loseKey key =>
      cases hx
      exact h.filter rfl
    | toDlq id =>
      obtain ⟨m, -, rfl⟩ := Option.map_eq_some_iff.mp hx
      exact h

/-! ## Locks and claims -/

/-- The reviewer has the lock of the review. -/
def HoldsLock (id : Uuid) (reviewer : String) (s : World) : Prop := s.redisGet (claimKey id.str) = some reviewer

/-- The row of the review is the reviewer's claim. -/
def HasClaim (id : Uuid) (reviewer : String) (s : World) : Prop :=
  ∃ r, s.db.review? id = some r ∧ r.status = .claimed ∧ r.claimedBy = some reviewer

/-- The reviewer does not have the lock without the claim. -/
def Tidy (id : Uuid) (reviewer : String) (s : World) : Prop := HoldsLock id reviewer s → HasClaim id reviewer s

/-- The row is the reviewer's claim, and none that a release at `now` takes away. -/
def LiveClaim (id : Uuid) (reviewer : String) (now : Time) (s : World) : Prop :=
  HasClaim id reviewer s ∧ id ∉ (s.db.expiredClaims now).map (·.id)

/-- The row is one that the reviewer can claim at `now`. -/
def CanClaim (id : Uuid) (reviewer : String) (now : Time) (s : World) : Prop :=
  ∃ r, s.db.review? id = some r ∧ r.claimable reviewer now = true

/-! ## The failures that leave the lock behind

A claim reads the clock, asks for the lock with GET, and takes it with SET NX or keeps it with
EXPIRE; then it connects to the database. What the failure of one of its requests leaves is told
from the world `s` before the call and the times that pass around the requests `tr` it has made.
-/

/-- The time that passes until the last of the requests is made. -/
def elapsed (tr : List (faulty D).Served) : Nat := (tr.map (·.turn.delay)).sum

/-- The time that the first request reads. -/
def clockOf (s : World) (tr : List (faulty D).Served) : Time := s.now + elapsed (tr.take 1)

/-- The third request gives the reviewer the lock: nobody has it at the time of the second, so that
the third is a SET NX, or the reviewer has it already at the time of the third, an EXPIRE. -/
def GetsLock (id : Uuid) (reviewer : String) (s : World) (tr : List (faulty D).Served) : Prop :=
  (s.tick (elapsed (tr.take 2))).redisGet (claimKey id.str) = none ∨
    HoldsLock id reviewer (s.tick (elapsed (tr.take 3)))

/-- The reviewer has the lock when the last of the requests is made: from before the call, or since
the third request, whose time to live is not over. -/
def LockRemains (id : Uuid) (reviewer : String) (s : World) (tr : List (faulty D).Served) : Prop :=
  if tr.length ≤ 3 then HoldsLock id reviewer (s.tick (elapsed tr))
  else GetsLock id reviewer s tr ∧ elapsed (tr.drop 3) ≤ seconds claimTtlSeconds

/-- The reviewer has the lock when `y`, the last of the requests, has raised. -/
def KeepsLock (id : Uuid) (reviewer : String) (s : World) (tr : List (faulty D).Served) (y : (faulty D).Served) :
    Prop :=
  match y.req, y.turn.pick.fault with
  | .redisSetNx .., .after _ => True
  -- the lock was free, or is given back
  | .redisSetNx .., _ | .redisDel _, .after _ | .sql (.reviewStatus _), _ => False
  | _, _ => LockRemains id reviewer s tr

/-- The row is the reviewer's claim when `y`, the last of the requests, has raised. -/
def KeepsRow (id : Uuid) (reviewer : String) (s : World) (tr : List (faulty D).Served) (y : (faulty D).Served) :
    Prop :=
  match y.req, y.turn.pick.fault with
  | .sql (.claimReview ..), .after _ =>
    -- the database refuses some names, and then nothing is claimed
    if storable reviewer = true then CanClaim id reviewer (clockOf s tr) s
    else LiveClaim id reviewer (clockOf s tr) s
  | .sql (.claimReview ..), _ | .sql (.releaseExpired _), .after _ | .sql (.releaseRows ..), .after _ =>
    LiveClaim id reviewer (clockOf s tr) s
  | .sql (.insertAudit row), _ => row.action = "claimed" ∨ LiveClaim id reviewer (clockOf s tr) s
  | .sql (.reviewFull _), _ | .signedUrl _, _ => True
  | _, _ => HasClaim id reviewer s

/-- The last of the requests raises, and leaves the reviewer the lock without the claim. -/
def LeavesLock (id : Uuid) (reviewer : String) (s : World) (tr : List (faulty D).Served) : Prop :=
  ∃ y, tr.getLast? = some y ∧ (∃ x, y.answer = .error x) ∧ KeepsLock id reviewer s tr y ∧
    ¬ KeepsRow id reviewer s tr y

/-! ## What requests make of the lock and the row -/

theorem redisGet_redisSet (s : World) (key value : String) (deadline : Time) :
    (s.redisSet key value deadline).redisGet key = some value :=
  redisGet_eq_some.mpr ⟨_, entry_redisSet_self ..⟩

theorem redisGet_redisDel (s : World) (key : String) : (s.redisDel key).redisGet key = none :=
  redisGet_eq_none.mpr (lookup_filter_self ..)

theorem redisGet_redisExpire (s : World) (key : String) {ttl : Nat} (h : ttl ≠ 0) :
    (s.redisExpire key ttl).redisGet key = s.redisGet key := by
  unfold redisExpire
  split
  · rfl
  · rename_i value hv
    rw [if_neg h, redisGet_redisSet, hv]

theorem holdsLock_congr (h : s'.redis = s.redis) : HoldsLock id reviewer s' ↔ HoldsLock id reviewer s := by
  rw [HoldsLock, HoldsLock, redisGet, redisGet, h]

theorem hasClaim_congr (h : s'.db.reviews = s.db.reviews) : HasClaim id reviewer s' ↔ HasClaim id reviewer s := by
  simp only [HasClaim, review?, h]

/-- The key vanishes when its time is up. -/
theorem redisGet_tick_of_late {key value : String} {deadline : Time} {d : Nat} (ho : OneValue s)
    (h : s.entry key = some (value, deadline)) (hd : deadline < s.now + d) : (s.tick d).redisGet key = none := by
  cases hv : (s.tick d).redisGet key with
  | none => rfl
  | some v =>
    obtain ⟨d', he⟩ := redisGet_eq_some.mp hv
    have hm := mem_of_lookup he
    obtain ⟨hm, hle⟩ := List.mem_filter.mp hm
    have heq := List.inj_on_of_nodup_map ho hm (mem_of_lookup h) rfl
    cases heq
    exact absurd (of_decide_eq_true hle) (Nat.not_le.mpr hd)

theorem tick_tick (s : World) (d d' : Nat) : ((s.tick d).tick d').redis = (s.tick (d + d')).redis := by
  have hnow : s.now + d + d' = s.now + (d + d') := Nat.add_assoc ..
  refine (List.filter_filter ..).trans (List.filter_congr fun e _ => Bool.eq_iff_iff.mpr ⟨fun h => ?_, fun h => ?_⟩)
  · have hle : s.now + d + d' ≤ e.2.2 := of_decide_eq_true (Bool.and_eq_true_iff.mp h).1
    exact decide_eq_true (show s.now + (d + d') ≤ e.2.2 from hnow ▸ hle)
  · have hle : s.now + d + d' ≤ e.2.2 := hnow.symm ▸ of_decide_eq_true h
    exact Bool.and_eq_true_iff.mpr ⟨decide_eq_true hle, decide_eq_true ((Nat.le_add_right _ d').trans hle)⟩

theorem claimable_of_claim {r : ReviewRow} {now : Time} (hc : r.status = .claimed)
    (hb : r.claimedBy = some reviewer) :
    r.claimable reviewer now = true := by
  simp [ReviewRow.claimable, hc, hb]

theorem ReviewRow.pending_after_release (r : ReviewRow) {us : List ReviewUpdate}
    (hu : ∀ u ∈ us, u = .release) (hne : us ≠ []) :
    (r.after us).status = .pending := by
  induction us generalizing r with
  | nil => exact absurd rfl hne
  | cons u us ih =>
    obtain rfl := hu u List.mem_cons_self
    by_cases hnil : us = []
    · rw [hnil]
      rfl
    · exact ih (ReviewUpdate.apply r .release) (fun v hv => hu v (List.mem_cons_of_mem _ hv)) hnil

/-- The row after the release of some reviews: pending if it is one of them. -/
theorem review?_release (id : Uuid) (db : Database) (ids : List Uuid) {r : ReviewRow}
    (hr : (db.applyAll (ids.map fun id => .updateReview id .release)).review? id = some r) :
    ∃ r₀, db.review? id = some r₀ ∧ (id ∈ ids → r.status = .pending) ∧ (id ∉ ids → r = r₀) := by
  have hreview : ∀ w ∈ ids.map (fun id => Write.updateReview id .release), w.OfReview := fun w hw => by
    obtain ⟨id', -, rfl⟩ := List.mem_map.mp hw
    trivial
  have hus : ∀ u ∈ updatesOf id (ids.map fun id => .updateReview id .release), u = .release := fun u hu => by
    obtain ⟨id', -, he⟩ := List.mem_map.mp (mem_updatesOf.mp hu)
    cases he
    rfl
  rw [review?_applyAll hreview] at hr
  obtain ⟨r₀, hr₀, rfl⟩ := Option.map_eq_some_iff.mp hr
  refine ⟨r₀, hr₀, fun hid => ?_, fun hid => ?_⟩
  · have hmem : ReviewUpdate.release ∈ updatesOf id (ids.map fun id => .updateReview id .release) :=
      mem_updatesOf.mpr (List.mem_map.mpr ⟨id, hid, rfl⟩)
    exact r₀.pending_after_release hus (List.ne_nil_of_mem hmem)
  · have hnil : updatesOf id (ids.map fun id => .updateReview id .release) = [] := by
      refine List.eq_nil_iff_forall_not_mem.mpr fun u hu => ?_
      obtain ⟨id', hm, he⟩ := List.mem_map.mp (mem_updatesOf.mp hu)
      cases he
      exact hid hm
    rw [hnil]
    rfl

/-- A release at `now` takes away the claims whose time is up, and leaves what can be claimed. -/
theorem claim_after_release {now : Time} (hu : s.db.UniqueRows) {ids : List Uuid}
    (hids : ids = (s.db.expiredClaims now).map (·.id))
    (h : s'.db.review? id = (s.db.applyAll (ids.map fun id => .updateReview id .release)).review? id) :
    (HasClaim id reviewer s' ↔ LiveClaim id reviewer now s) ∧
    (CanClaim id reviewer now s' ↔ CanClaim id reviewer now s) := by
  have hget : ∀ r, s'.db.review? id = some r →
      ∃ r₀, s.db.review? id = some r₀ ∧ (id ∈ ids → r.status = .pending) ∧ (id ∉ ids → r = r₀) := fun r hr => by
    refine review?_release id s.db ids ?_
    rw [← hr, h]
  have hsome : ∀ r₀, s.db.review? id = some r₀ → ∃ r, s'.db.review? id = some r := fun r₀ hr₀ => by
    refine ⟨r₀.after (updatesOf id (ids.map fun id => .updateReview id .release)), ?_⟩
    have hreview : ∀ w ∈ ids.map (fun id => Write.updateReview id .release), w.OfReview := fun w hw => by
      obtain ⟨id', -, rfl⟩ := List.mem_map.mp hw
      trivial
    rw [h, review?_applyAll hreview, hr₀]
    rfl
  have hexpired : ∀ r₀, s.db.review? id = some r₀ → (id ∈ ids ↔ r₀.Expired now) := fun r₀ hr₀ => by
    subst hids
    constructor
    · intro hid
      obtain ⟨r, hr, hrid⟩ := List.mem_map.mp hid
      obtain ⟨hm, hx⟩ := mem_expiredClaims.mp hr
      rwa [eq_of_review? hu hr₀ hm hrid] at hx
    · exact fun hx => List.mem_map.mpr ⟨r₀, mem_expiredClaims.mpr ⟨List.mem_of_find?_eq_some hr₀, hx⟩,
        id_of_review? hr₀⟩
  refine ⟨⟨?_, ?_⟩, ⟨?_, ?_⟩⟩
  · rintro ⟨r, hr, hc, hb⟩
    obtain ⟨r₀, hr₀, hin, hout⟩ := hget r hr
    have hnot : id ∉ ids := fun hid => by
      rw [hin hid] at hc
      cases hc
    obtain rfl := hout hnot
    exact ⟨⟨r, hr₀, hc, hb⟩, hids ▸ hnot⟩
  · rintro ⟨⟨r₀, hr₀, hc, hb⟩, hnot⟩
    obtain ⟨r, hr⟩ := hsome r₀ hr₀
    obtain ⟨r₁, hr₁, -, hout⟩ := hget r hr
    obtain rfl := Option.some.inj (hr₀.symm.trans hr₁)
    obtain rfl := hout (hids ▸ hnot)
    exact ⟨r, hr, hc, hb⟩
  · rintro ⟨r, hr, hp⟩
    obtain ⟨r₀, hr₀, hin, hout⟩ := hget r hr
    refine ⟨r₀, hr₀, ?_⟩
    by_cases hid : id ∈ ids
    · obtain ⟨hc, hx⟩ := (hexpired r₀ hr₀).mp hid
      rcases hx with hx | ⟨t, hx, ht⟩ <;> simp [ReviewRow.claimable, *]
    · exact hout hid ▸ hp
  · rintro ⟨r₀, hr₀, hp⟩
    obtain ⟨r, hr⟩ := hsome r₀ hr₀
    obtain ⟨r₁, hr₁, hin, hout⟩ := hget r hr
    obtain rfl := Option.some.inj (hr₀.symm.trans hr₁)
    refine ⟨r, hr, ?_⟩
    by_cases hid : id ∈ ids
    · simp [ReviewRow.claimable, hin hid]
    · exact (hout hid).symm ▸ hp

/-! ## Requests -/

/-- Thread `i` is in no transaction, a key of Redis has one value, and a review one row. -/
structure Sane (i : Nat) (s : World) : Prop where
  idle : s.txn i = none
  values : OneValue s

theorem Sane.tick (h : Sane i s) (d : Nat) : Sane i (s.tick d) := ⟨h.idle, h.values.filter rfl⟩

/-- The requests that leave the locks and the reviews as they are. -/
def Cmd.Still : Cmd → Prop
  | .utcnow | .connect | .redisGet _ | .signedUrl _ => True
  | .sql (.selectExpired _) | .sql (.insertAudit _) | .sql (.reviewStatus _) | .sql (.reviewFull _) => True
  | _ => False

/-- Time and the clock have no part in this. -/
structure SameStores (s s' : World) : Prop where
  now : s'.now = s.now
  redis : s'.redis = s.redis
  reviews : s'.db.reviews = s.db.reviews

theorem sameStores_of_still {q : Cmd} {r : Except Exn q.Ans} (hq : q.Still) (h : Sane i s)
    (hx : World.exec i q p s = some (r, s')) : SameStores s s' ∧ Sane i s' := by
  have hidle := h.idle
  have keep : ∀ s₁ : World, s₁.now = s.now → s₁.redis = s.redis → s₁.db.reviews = s.db.reviews → s₁.txns = s.txns →
      SameStores s s₁ ∧ Sane i s₁ := fun s₁ hn hr hd ht =>
    ⟨⟨hn, hr, hd⟩, by rw [txn, ht]; exact hidle, by rw [OneValue, hr]; exact h.values⟩
  have hchange := change_of_exec hx
  cases hchange with
  | pend active | abort active =>
    rw [hidle] at active
    cases active
  | write idle run =>
    refine keep _ rfl rfl ?_ rfl
    rename_i st u a ws free
    cases st with
    | selectExpired | reviewStatus | reviewFull | insertAudit =>
      cases run
      rfl
    | _ => exact hq.elim
  | drop hd => rcases hd with rfl | rfl <;> exact hq.elim
  | begin | commit | redisSet | redisExpire | redisDel | draw | enqueue | sendMessage | delete | acknowledge | log =>
    exact hq.elim
  | same | clock => exact keep _ rfl rfl rfl rfl

/-- A statement outside a transaction that raises has had no effect, or all of it. -/
theorem sql_raised {st : Sql} {x : Exn} (hi : s.txn i = none)
    (hx : World.exec i (.sql st) p s = some (.error x, s')) :
    (s' = s ∧ ((∃ y, st.execute s.db s.now p.fresh = .error y) ∨ ∃ text, p.fault = .before text)) ∨
    ∃ a ws text, st.execute s.db s.now p.fresh = .ok (a, ws) ∧ p.fault = .after text ∧
    s' = { s with db := s.db.applyAll ws } := by
  rcases runSql_idle hi hx with hsame | ⟨a, ws, hrun, hf, rfl⟩
  · exact .inl hsame
  · cases hfault : p.fault with
    | before text => exact absurd hfault (hf text)
    | after text => exact .inr ⟨a, ws, text, hrun, rfl, rfl⟩
    | none =>
      simp only [World.exec, runSql, hi, hrun, answer, hfault] at hx
      split at hx <;> cases hx

/-- An answer that raises comes before the effect or after it. -/
theorem answer_raised {α : Type} {a : α} {s₁ : World} {x : Exn} (h : s.answer p a s₁ = (.error x, s')) :
    (∃ text, p.fault = .before text ∧ s' = s) ∨ ∃ text, p.fault = .after text ∧ s' = s₁ := by
  unfold answer at h
  split at h <;> cases h
  · exact .inl ⟨_, by assumption, rfl⟩
  · exact .inr ⟨_, by assumption, rfl⟩

/-! ## A call alone -/

variable {s₀ : World} {tr : List (faulty D).Served}

/-- The last request of `tr` answered. -/
def Fine (tr : List (faulty D).Served) : Prop := ∀ y, tr.getLast? = some y → ∃ a, y.answer = .ok a

theorem Fine.snoc {y : (faulty D).Served} {a : y.req.Ans} (h : y.answer = .ok a) : Fine (tr ++ [y]) := by
  intro z hz
  rw [List.getLast?_concat] at hz
  cases hz
  exact ⟨a, h⟩

/-- Whether the call leaves the lock behind is told by its last request. -/
def EndsAs (id : Uuid) (reviewer : String) (s₀ : World) (tr : List (faulty D).Served) (s : World) : Prop :=
  Tidy id reviewer s ↔ ¬ LeavesLock id reviewer s₀ tr

/-- After the requests `tr` since the world `s₀`, the program runs from `s` until `R` holds of what it
returns, or fails and leaves what `EndsAs` says. -/
def Runs (i : Nat) (id : Uuid) (reviewer : String) (s₀ : World) {α : Type} (p : M α)
    (R : List (faulty D).Served → α → World → Prop) (tr : List (faulty D).Served) (s : World) : Prop :=
  (faulty D).wlp i p (fun tr' r s' => match r with
    | .ok a => R (tr ++ tr') a s'
    | .error _ => EndsAs id reviewer s₀ (tr ++ tr') s') s

section Runs

variable {α β : Type} {R : List (faulty D).Served → α → World → Prop}

theorem Runs.ret {a : α} (ha : R tr a s) : Runs i id reviewer s₀ (.ret a) R tr s := by
  show R (tr ++ []) a s
  rwa [List.append_nil]

/-- What the call itself raises is no matter if the lock is not left behind. -/
theorem Runs.throw {x : Exn} (hf : Fine tr) (h : Tidy id reviewer s) : Runs i id reviewer s₀ (.throw x) R tr s := by
  show EndsAs id reviewer s₀ (tr ++ []) s
  rw [List.append_nil]
  refine iff_of_true h ?_
  rintro ⟨y, hy, ⟨x, hx⟩, -⟩
  obtain ⟨a, ha⟩ := hf y hy
  rw [ha] at hx
  cases hx

theorem Runs.bind {R' : List (faulty D).Served → β → World → Prop} {q : M α} {f : α → M β}
    (h : Runs i id reviewer s₀ q R tr s)
    (hf : ∀ tr' a s', R tr' a s' → Runs i id reviewer s₀ (f a) R' tr' s') :
    Runs i id reviewer s₀ (q >>= f) R' tr s := by
  refine Turns.wlp_bind (Turns.wlp_mono h fun tr' r s' hr => ?_)
  cases r with
  | ok a =>
    refine Turns.wlp_mono (hf _ a s' hr) fun tr'' r' s'' hr' => ?_
    cases r' <;> rwa [List.append_assoc] at hr'
  | error x => exact hr

/-- A request: what is known when it has answered, and what it leaves when it raises. -/
theorem Runs.request {q : Cmd} {R : List (faulty D).Served → q.Ans → World → Prop}
    (ok : ∀ (t : AnyTurn) a s', World.exec i q t.pick (s.tick t.delay) = some (.ok a, s') →
      R (tr ++ [⟨q, t, s.tick t.delay, .ok a⟩]) a s')
    (raise : ∀ (t : AnyTurn) x s', World.exec i q t.pick (s.tick t.delay) = some (.error x, s') →
      let y : (faulty D).Served := ⟨q, t, s.tick t.delay, .error x⟩
      (HoldsLock id reviewer s' ↔ KeepsLock id reviewer s₀ (tr ++ [y]) y) ∧
      (KeepsLock id reviewer s₀ (tr ++ [y]) y → (HasClaim id reviewer s' ↔ KeepsRow id reviewer s₀ (tr ++ [y]) y))) :
    Runs i id reviewer s₀ (CM.request q) R tr s := by
  refine wlp_request fun t r s' hx => ?_
  cases r with
  | ok a => exact ok t a s' hx
  | error x =>
    obtain ⟨hlock, hrow⟩ := raise t x s' hx
    have hlast : (tr ++ [(⟨q, t, s.tick t.delay, .error x⟩ : (faulty D).Served)]).getLast? = some _ :=
      List.getLast?_concat
    constructor
    · rintro htidy ⟨y, hy, -, hl, hr⟩
      cases hlast.symm.trans hy
      exact hr ((hrow hl).mp (htidy (hlock.mpr hl)))
    · intro hn hl
      by_contra hc
      have hkeeps := hlock.mp hl
      exact hn ⟨_, hlast, ⟨x, rfl⟩, hkeeps, fun hr => hc ((hrow hkeeps).mpr hr)⟩

/-- A request that changes neither the locks nor the reviews. -/
theorem Runs.still {q : Cmd} {R : List (faulty D).Served → q.Ans → World → Prop} (hq : q.Still) (hs : Sane i s)
    (hlock : ∀ t b r, let y : (faulty D).Served := ⟨q, t, b, r⟩
      HoldsLock id reviewer (s.tick t.delay) ↔ KeepsLock id reviewer s₀ (tr ++ [y]) y)
    (hrow : ∀ t b r, let y : (faulty D).Served := ⟨q, t, b, r⟩
      KeepsLock id reviewer s₀ (tr ++ [y]) y → (HasClaim id reviewer s ↔ KeepsRow id reviewer s₀ (tr ++ [y]) y))
    (ok : ∀ (t : AnyTurn) a s', World.exec i q t.pick (s.tick t.delay) = some (.ok a, s') →
      SameStores (s.tick t.delay) s' → Sane i s' → R (tr ++ [⟨q, t, s.tick t.delay, .ok a⟩]) a s') :
    Runs i id reviewer s₀ (CM.request q) R tr s := by
  refine .request (fun t a s' hx => ?_) fun t x s' hx => ?_
  · obtain ⟨hsame, hs'⟩ := sameStores_of_still hq (hs.tick t.delay) hx
    exact ok t a s' hx hsame hs'
  · obtain ⟨hsame, -⟩ := sameStores_of_still hq (hs.tick t.delay) hx
    exact ⟨(holdsLock_congr hsame.redis).trans (hlock t _ _), fun hk =>
      (hasClaim_congr hsame.reviews).trans (hrow t _ _ hk)⟩

end Runs

/-! ### Before the lock is asked for -/

/-- The call has only made requests that change nothing. -/
structure Early (i : Nat) (s₀ : World) (tr : List (faulty D).Served) (s : World) : Prop where
  sane : Sane i s
  fine : Fine tr
  stores : SameStores (s₀.tick (elapsed tr)) s

theorem elapsed_snoc (tr : List (faulty D).Served) (y : (faulty D).Served) :
    elapsed (tr ++ [y]) = elapsed tr + y.turn.delay := by
  simp [elapsed]

theorem SameStores.tick (h : SameStores s s') (d : Nat) : SameStores (s.tick d) (s'.tick d) where
  now := congrArg (· + d) h.now
  redis := by simp only [World.tick, h.now, h.redis]
  reviews := h.reviews

theorem SameStores.trans {s'' : World} (h : SameStores s s') (h' : SameStores s' s'') : SameStores s s'' :=
  ⟨h'.now.trans h.now, h'.redis.trans h.redis, h'.reviews.trans h.reviews⟩

namespace Early

/-- What the stores are when the next request is made. -/
theorem tick (h : Early i s₀ tr s) (y : (faulty D).Served) :
    SameStores (s₀.tick (elapsed (tr ++ [y]))) (s.tick y.turn.delay) := by
  rw [elapsed_snoc]
  have hsame : SameStores (s₀.tick (elapsed tr + y.turn.delay)) ((s₀.tick (elapsed tr)).tick y.turn.delay) :=
    ⟨Nat.add_assoc .., tick_tick .., rfl⟩
  exact hsame.trans (h.stores.tick _)

theorem snoc {y : (faulty D).Served} {a : y.req.Ans} (h : Early i s₀ tr s) (ha : y.answer = .ok a)
    (hs' : Sane i s') (hsame : SameStores (s.tick y.turn.delay) s') : Early i s₀ (tr ++ [y]) s' :=
  ⟨hs', .snoc ha, (h.tick y).trans hsame⟩

theorem holds (h : Early i s₀ tr s) (hlen : tr.length ≤ 2) (y : (faulty D).Served) :
    HoldsLock id reviewer (s.tick y.turn.delay) ↔ LockRemains id reviewer s₀ (tr ++ [y]) := by
  rw [LockRemains, if_pos (by simp; omega)]
  exact holdsLock_congr (h.tick y).redis

theorem hasClaim_iff (h : Early i s₀ tr s) : HasClaim id reviewer s ↔ HasClaim id reviewer s₀ :=
  hasClaim_congr h.stores.reviews

end Early

/-! ### After the third request -/

/-- The reviewer has the lock since the time `e` ago if `taken`, until its time to live is over. -/
def LockSince (id : Uuid) (reviewer : String) (taken : Prop) (e : Nat) (s : World) : Prop :=
  (taken ∧ e ≤ seconds claimTtlSeconds ∧ ∃ deadline, s.entry (claimKey id.str) = some (reviewer, deadline) ∧
    deadline + e = s.now + seconds claimTtlSeconds) ∨
  ((taken → seconds claimTtlSeconds < e) ∧ s.redisGet (claimKey id.str) = none)

theorem le_deadline_iff {n d e ttl deadline : Nat} (h : deadline + e = n + ttl) : n + d ≤ deadline ↔ e + d ≤ ttl := by
  omega

namespace LockSince

variable {taken : Prop} {e : Nat}

theorem holds (h : LockSince id reviewer taken e s) :
    HoldsLock id reviewer s ↔ taken ∧ e ≤ seconds claimTtlSeconds := by
  rcases h with ⟨ht, hle, deadline, he, -⟩ | ⟨ht, hnone⟩
  · exact iff_of_true (redisGet_eq_some.mpr ⟨deadline, he⟩) ⟨ht, hle⟩
  · refine iff_of_false (fun h => ?_) fun h => absurd h.2 (Nat.not_le.mpr (ht h.1))
    cases hnone.symm.trans h

theorem congr (h : LockSince id reviewer taken e s) (hr : s'.redis = s.redis) (hn : s'.now = s.now) :
    LockSince id reviewer taken e s' := by
  rwa [LockSince, entry, redisGet, hr, hn]

theorem tick (h : LockSince id reviewer taken e s) (ho : OneValue s) (d : Nat) :
    LockSince id reviewer taken (e + d) (s.tick d) := by
  rcases h with ⟨ht, hle, deadline, he, hd⟩ | ⟨ht, hnone⟩
  · have hd' : deadline + (e + d) = s.now + d + seconds claimTtlSeconds := by
      rw [← Nat.add_assoc, hd, Nat.add_right_comm]
    have hiff : s.now + d ≤ deadline ↔ e + d ≤ seconds claimTtlSeconds := le_deadline_iff hd
    by_cases hlate : s.now + d ≤ deadline
    · exact .inl ⟨ht, hiff.mp hlate, deadline, entry_tick he hlate, hd'⟩
    · exact .inr ⟨fun _ => Nat.not_le.mp (mt hiff.mpr hlate), redisGet_tick_of_late ho he (Nat.not_le.mp hlate)⟩
  · exact .inr ⟨fun h => (ht h).trans_le (Nat.le_add_right ..), redisGet_tick_of_none hnone d⟩

end LockSince

/-- The requests `tr` are all served, and the first has read `now`; the third gave the reviewer the lock
if `GetsLock` says so. -/
structure Since (i : Nat) (id : Uuid) (reviewer : String) (s₀ : World) (now : Time) (tr : List (faulty D).Served)
    (s : World) : Prop where
  sane : Sane i s
  fine : Fine tr
  long : 3 ≤ tr.length
  clock : clockOf s₀ tr = now
  lock : LockSince id reviewer (GetsLock id reviewer s₀ tr) (elapsed (tr.drop 3)) s

namespace Since

variable {now : Time}

theorem clock_snoc (h : Since i id reviewer s₀ now tr s) (y : (faulty D).Served) : clockOf s₀ (tr ++ [y]) = now := by
  have hlong := h.long
  rw [← h.clock, clockOf, clockOf, List.take_append_of_le_length (by omega)]

theorem getsLock_snoc (h : Since i id reviewer s₀ now tr s) (y : (faulty D).Served) :
    GetsLock id reviewer s₀ (tr ++ [y]) ↔ GetsLock id reviewer s₀ tr := by
  have hlong := h.long
  rw [GetsLock, GetsLock, List.take_append_of_le_length (by omega), List.take_append_of_le_length hlong]

theorem elapsed_drop_snoc (h : Since i id reviewer s₀ now tr s) (y : (faulty D).Served) :
    elapsed ((tr ++ [y]).drop 3) = elapsed (tr.drop 3) + y.turn.delay := by
  rw [List.drop_append_of_le_length h.long, elapsed_snoc]

/-- The lock when the next request is made. -/
theorem lock_snoc (h : Since i id reviewer s₀ now tr s) (y : (faulty D).Served) :
    LockSince id reviewer (GetsLock id reviewer s₀ (tr ++ [y])) (elapsed ((tr ++ [y]).drop 3))
      (s.tick y.turn.delay) := by
  rw [h.elapsed_drop_snoc, LockSince, h.getsLock_snoc]
  exact h.lock.tick h.sane.values _

theorem holds (h : Since i id reviewer s₀ now tr s) (y : (faulty D).Served) :
    HoldsLock id reviewer (s.tick y.turn.delay) ↔ LockRemains id reviewer s₀ (tr ++ [y]) := by
  have hlong := h.long
  rw [LockRemains, if_neg (by simp; omega)]
  exact (h.lock_snoc y).holds

theorem snoc {y : (faulty D).Served} {a : y.req.Ans} (h : Since i id reviewer s₀ now tr s) (ha : y.answer = .ok a)
    (hs' : Sane i s') (hr : s'.redis = (s.tick y.turn.delay).redis) (hn : s'.now = (s.tick y.turn.delay).now) :
    Since i id reviewer s₀ now (tr ++ [y]) s' :=
  ⟨hs', .snoc ha, by rw [List.length_append]; exact h.long.trans (Nat.le_add_right ..), h.clock_snoc y,
    (h.lock_snoc y).congr hr hn⟩

/-- A request that changes neither the locks nor the reviews. -/
theorem still {q : Cmd} {R : q.Ans → World → Prop} (h : Since i id reviewer s₀ now tr s) (hq : q.Still)
    (hlock : ∀ t b r, let y : (faulty D).Served := ⟨q, t, b, r⟩
      KeepsLock id reviewer s₀ (tr ++ [y]) y ↔ LockRemains id reviewer s₀ (tr ++ [y]))
    (hrow : ∀ t b r, let y : (faulty D).Served := ⟨q, t, b, r⟩
      (HasClaim id reviewer s ↔ KeepsRow id reviewer s₀ (tr ++ [y]) y))
    (ok : ∀ (t : AnyTurn) a s', World.exec i q t.pick (s.tick t.delay) = some (.ok a, s') →
      s'.db.reviews = s.db.reviews → R a s') :
    Runs i id reviewer s₀ (request q) (fun tr' a s' => Since i id reviewer s₀ now tr' s' ∧ R a s') tr s :=
  .still hq h.sane (fun t b r => (h.holds _).trans (hlock t b r).symm) (fun t b r _ => hrow t b r)
    fun t a s' hx hsame hs' => ⟨h.snoc rfl hs' hsame.redis hsame.now, ok t a s' hx hsame.reviews⟩

/-- A statement that changes reviews. -/
theorem write {st : Sql} {R : st.Ans → World → Prop} (h : Since i id reviewer s₀ now tr s)
    (hlock : ∀ t b r, let y : (faulty D).Served := ⟨.sql st, t, b, r⟩
      KeepsLock id reviewer s₀ (tr ++ [y]) y ↔ LockRemains id reviewer s₀ (tr ++ [y]))
    (refused : ∀ (t : AnyTurn) b r, let y : (faulty D).Served := ⟨.sql st, t, b, r⟩
      ((∃ x, st.execute s.db (s.now + t.delay) t.pick.fresh = .error x) ∨ ∃ text, t.pick.fault = .before text) →
      (HasClaim id reviewer s ↔ KeepsRow id reviewer s₀ (tr ++ [y]) y))
    (lost : ∀ (t : AnyTurn) b r a ws text, let y : (faulty D).Served := ⟨.sql st, t, b, r⟩
      st.execute s.db (s.now + t.delay) t.pick.fresh = .ok (a, ws) → t.pick.fault = .after text →
      (HasClaim id reviewer { s with db := s.db.applyAll ws } ↔ KeepsRow id reviewer s₀ (tr ++ [y]) y))
    (ok : ∀ now' fresh a ws, st.refusal = none → st.run s.db now' fresh = .ok (a, ws) →
      ∀ s' : World, s'.db = s.db.applyAll ws → R a s') :
    Runs i id reviewer s₀ (sql st) (fun tr' a s' => Since i id reviewer s₀ now tr' s' ∧ R a s') tr s := by
  have hidle : ∀ d, (s.tick d).txn i = none := fun d => (h.sane.tick d).idle
  refine .request (fun t a s' hx => ?_) fun t x s' hx => ?_
  · obtain ⟨-, ws, hrun, rfl⟩ := runSql_ok (hidle t.delay) hx
    exact ⟨h.snoc rfl ⟨hidle t.delay, (h.sane.tick t.delay).values⟩ rfl rfl,
      ok _ _ a ws (taken_of_ok (hidle t.delay) hx) hrun _ rfl⟩
  · rcases sql_raised (hidle t.delay) hx with ⟨rfl, hf⟩ | ⟨a, ws, text, hrun, hf, rfl⟩
    · exact ⟨(h.holds _).trans (hlock t _ _).symm, fun _ => refused t _ _ hf⟩
    · exact ⟨(h.holds _).trans (hlock t _ _).symm, fun _ => lost t _ _ a ws text hrun hf⟩

end Since

/-! ## The claim -/

section Claim

variable {now : Time}

/-- What is not the reviewer's lock does not become it by itself. -/
theorem not_holdsLock_tick (h : ¬ HoldsLock id reviewer s) (ho : OneValue s) (d : Nat) :
    ¬ HoldsLock id reviewer (s.tick d) := by
  intro hn
  cases hv : s.redisGet (claimKey id.str) with
  | none =>
    have hnone := (redisGet_tick_of_none hv d).symm.trans hn
    cases hnone
  | some v =>
    have hstep : RedisStep s (s.tick d) := .vanish _ rfl
    obtain rfl := ho.value hstep hv hn
    exact h hv

/-- A GET of the lock tells who has it. -/
theorem runs_get (h : Early i s₀ tr s) (hlen : tr.length = 1) :
    Runs i id reviewer s₀ (request (.redisGet (claimKey id.str))) (fun tr' v s' => Early i s₀ tr' s' ∧
      tr'.length = 2 ∧ clockOf s₀ tr' = clockOf s₀ tr ∧ s'.redisGet (claimKey id.str) = v) tr s := by
  refine .still trivial h.sane (fun t b r => h.holds (by omega) ⟨_, t, b, r⟩) (fun t b r _ => h.hasClaim_iff)
    fun t v s' hx hsame hs' => ⟨h.snoc rfl hs' hsame, by simp [hlen], ?_, ?_⟩
  · rw [clockOf, clockOf, List.take_append_of_le_length hlen.ge]
  · obtain ⟨rfl, rfl⟩ := answer_ok (Option.some.inj hx)
    rfl

/-- When nobody had the lock at the GET, SET NX takes it. -/
theorem runs_setNx (h : Early i s₀ tr s) (hlen : tr.length = 2) (hfree : s.redisGet (claimKey id.str) = none) :
    Runs i id reviewer s₀ (request (.redisSetNx (claimKey id.str) reviewer claimTtlSeconds))
      (fun tr' acquired s' => acquired = true ∧ Since i id reviewer s₀ (clockOf s₀ tr) tr' s' ∧
        s'.db.reviews = s₀.db.reviews) tr s := by
  have hexec : ∀ (t : AnyTurn) r s',
      World.exec i (.redisSetNx (claimKey id.str) reviewer claimTtlSeconds) t.pick (s.tick t.delay) = some (r, s') →
      (s.tick t.delay).answer t.pick true
        ((s.tick t.delay).redisSet (claimKey id.str) reviewer (s.now + t.delay + seconds claimTtlSeconds)) =
            (r, s') :=
    fun t r s' hx => by
      have hnone := redisGet_tick_of_none hfree t.delay
      simp only [World.exec] at hx
      rw [if_neg (by decide), if_neg (by simp [hnone])] at hx
      exact Option.some.inj hx
  refine .request (fun t a s' hx => ?_) fun t x s' hx => ?_
  · have hvalues := (h.sane.tick t.delay).values.step (redisStep_of_change (change_of_exec hx))
    obtain ⟨rfl, rfl⟩ := answer_ok (hexec t _ _ hx)
    refine ⟨rfl, ⟨⟨(h.sane.tick t.delay).idle, hvalues⟩, .snoc rfl, by simp [hlen], ?_, .inl ⟨.inl ?_, ?_⟩⟩,
      h.stores.reviews⟩
    · rw [clockOf, clockOf, List.take_append_of_le_length (by omega)]
    · rw [List.take_append_of_le_length hlen.ge, List.take_of_length_le hlen.le, redisGet, ← h.stores.redis]
      exact hfree
    · rw [List.drop_of_length_le (by simp [hlen])]
      exact ⟨Nat.zero_le _, _, entry_redisSet_self .., Nat.add_zero _⟩
  · rcases answer_raised (hexec t _ _ hx) with ⟨text, hf, rfl⟩ | ⟨text, hf, rfl⟩
    · simp only [KeepsLock, hf]
      refine ⟨iff_of_false (fun hl => ?_) not_false, False.elim⟩
      cases (redisGet_tick_of_none hfree t.delay).symm.trans hl
    · simp only [KeepsLock, hf]
      exact ⟨iff_of_true (redisGet_redisSet ..) trivial, fun _ => h.hasClaim_iff⟩

/-- When the reviewer had the lock at the GET, EXPIRE keeps it, if it is still there. -/
theorem runs_expire (h : Early i s₀ tr s) (hlen : tr.length = 2) (hmine : HoldsLock id reviewer s) :
    Runs i id reviewer s₀ (request (.redisExpire (claimKey id.str) claimTtlSeconds))
      (fun tr' _ s' => Since i id reviewer s₀ (clockOf s₀ tr) tr' s' ∧ s'.db.reviews = s₀.db.reviews) tr s := by
  obtain ⟨deadline, he⟩ := redisGet_eq_some.mp hmine
  have hget : ∀ s : World, (s.redisExpire (claimKey id.str) claimTtlSeconds).redisGet (claimKey id.str) =
      s.redisGet (claimKey id.str) := fun s => redisGet_redisExpire s _ (by decide)
  have hdb : ∀ s : World, (s.redisExpire (claimKey id.str) claimTtlSeconds).db = s.db := fun s => by
    unfold redisExpire
    split
    · rfl
    · split <;> rfl
  refine .request (fun t a s' hx => ?_) fun t x s' hx => ?_
  · have hvalues := (h.sane.tick t.delay).values.step (redisStep_of_change (change_of_exec hx))
    obtain ⟨-, rfl⟩ := answer_ok (Option.some.inj hx)
    have hidle : ((s.tick t.delay).redisExpire (claimKey id.str) claimTtlSeconds).txn i = none := by
      unfold redisExpire
      split
      · exact h.sane.idle
      · split <;> exact h.sane.idle
    let y : (faulty D).Served := ⟨.redisExpire (claimKey id.str) claimTtlSeconds, t, s.tick t.delay, .ok a⟩
    have hgets : GetsLock id reviewer s₀ (tr ++ [y]) ↔ HoldsLock id reviewer (s.tick t.delay) := by
      rw [GetsLock, List.take_append_of_le_length hlen.ge, List.take_of_length_le hlen.le,
        List.take_of_length_le (by simp [hlen]), redisGet, ← h.stores.redis, or_iff_right]
      · exact (holdsLock_congr (h.tick y).redis).symm
      · exact fun hnone => by cases (show s.redisGet _ = none from hnone).symm.trans hmine
    refine ⟨⟨⟨hidle, hvalues⟩, .snoc rfl, by simp [hlen], ?_, ?_⟩, (congrArg _ (hdb _)).trans h.stores.reviews⟩
    · rw [clockOf, clockOf, List.take_append_of_le_length (by omega)]
    · rw [List.drop_of_length_le (by simp [hlen]), LockSince, hgets]
      by_cases hlate : s.now + t.delay ≤ deadline
      · have hentry := entry_tick he hlate
        have hsome : (s.tick t.delay).redisGet (claimKey id.str) = some reviewer := redisGet_eq_some.mpr ⟨_, hentry⟩
        refine .inl ⟨hsome, Nat.zero_le _, s.now + t.delay + seconds claimTtlSeconds, ?_, ?_⟩
        · simp only [redisExpire, hsome]
          exact entry_redisSet_self ..
        · simp only [redisExpire, hsome]
          exact Nat.add_zero _
      · have hnone := redisGet_tick_of_late h.sane.values he (Nat.not_le.mp hlate)
        exact .inr ⟨fun hl => (by cases hnone.symm.trans hl), (hget _).trans hnone⟩
  · have hsame : HoldsLock id reviewer s' ↔ HoldsLock id reviewer (s.tick t.delay) := by
      rcases answer_raised (Option.some.inj hx) with ⟨text, hf, rfl⟩ | ⟨text, hf, rfl⟩
      · exact Iff.rfl
      · rw [HoldsLock, hget]
        exact Iff.rfl
    have hreviews : s'.db.reviews = s.db.reviews := by
      rcases answer_raised (Option.some.inj hx) with ⟨text, hf, rfl⟩ | ⟨text, hf, rfl⟩
      · rfl
      · exact congrArg _ (hdb _)
    exact ⟨hsame.trans (h.holds hlen.le ⟨_, t, _, _⟩), fun _ => (hasClaim_congr hreviews).trans h.hasClaim_iff⟩

/-- What is known when the call has asked for the lock. -/
def AskedFor (i : Nat) (id : Uuid) (reviewer : String) (s₀ : World) (now : Time) (tr : List (faulty D).Served)
    (acquired : Bool) (s : World) : Prop :=
  if acquired then Since i id reviewer s₀ now tr s ∧ s.db.reviews = s₀.db.reviews
  else Fine tr ∧ ¬ HoldsLock id reviewer s

theorem runs_acquire (h : Early i s₀ tr s) (hlen : tr.length = 1) :
    Runs i id reviewer s₀ (acquireReviewClaim id.str reviewer claimTtlSeconds)
      (fun tr' a s' => AskedFor i id reviewer s₀ (clockOf s₀ tr) tr' a.1 s') tr s := by
  refine .bind (runs_get h hlen) fun tr₁ current s₁ h₁ => ?_
  obtain ⟨h₁, hlen₁, hclock, hget⟩ := h₁
  rw [← hclock]
  split
  · rename_i hnone
    refine .bind (runs_setNx h₁ hlen₁ (hget.trans hnone)) fun tr₂ acquired s₂ h₂ => ?_
    obtain ⟨rfl, h₂⟩ := h₂
    exact .ret h₂
  · show Runs i id reviewer s₀ (if current = some reviewer then _ else _) _ tr₁ s₁
    split
    · rename_i hmine
      exact .bind (runs_expire h₁ hlen₁ (hget.trans hmine)) fun tr₂ _ s₂ h₂ => .ret h₂
    · rename_i hother
      exact .ret ⟨h₁.fine, fun hl => hother (hget.symm.trans hl)⟩

/-- The row after the release of the expired claims. -/
structure Released (id : Uuid) (reviewer : String) (now : Time) (s₀ s : World) : Prop where
  hasClaim : HasClaim id reviewer s ↔ LiveClaim id reviewer now s₀
  canClaim : CanClaim id reviewer now s ↔ CanClaim id reviewer now s₀

theorem Released.congr (h : Released id reviewer now s₀ s) (hr : s'.db.reviews = s.db.reviews) :
    Released id reviewer now s₀ s' := by
  refine ⟨(hasClaim_congr hr).trans h.hasClaim, ?_⟩
  rw [← h.canClaim, CanClaim, CanClaim, review?, review?, hr]

/-- What an UPDATE of the expired claims makes of the row. -/
theorem released_of_update (hu : s₀.db.UniqueRows) (hr : s.db.reviews = s₀.db.reviews) {ids : List Uuid}
    (hids : ids = (s₀.db.expiredClaims now).map (·.id))
    (hdb : s'.db = s.db.applyAll (ids.map fun id => .updateReview id .release)) :
    Released id reviewer now s₀ s' := by
  have hreview : ∀ w ∈ ids.map (fun id => Write.updateReview id .release), w.OfReview := fun w hw => by
    obtain ⟨id', -, rfl⟩ := List.mem_map.mp hw
    trivial
  have h : s'.db.review? id = (s₀.db.applyAll (ids.map fun id => .updateReview id .release)).review? id := by
    rw [hdb, review?_applyAll hreview, review?_applyAll hreview, review?, review?, hr]
  obtain ⟨hclaim, hcan⟩ := claim_after_release hu hids h
  exact ⟨hclaim, hcan⟩

theorem runs_rows (isolation : Isolation) (hu : s₀.db.UniqueRows) (h : Since i id reviewer s₀ now tr s)
    (hr : s.db.reviews = s₀.db.reviews) :
    Runs i id reviewer s₀ (releaseRows isolation now) (fun tr' _ s' => Since i id reviewer s₀ now tr' s' ∧
      Released id reviewer now s₀ s') tr s := by
  have hsame : ∀ {s : World}, s.db.reviews = s₀.db.reviews → s.db.expiredClaims now = s₀.db.expiredClaims now :=
    fun hr => by rw [expiredClaims, expiredClaims, hr]
  cases isolation with
  | atomic =>
    have hdb : ∀ s' : World, s'.db =
      s.db.applyAll ((s.db.expiredClaims now).map fun r => .updateReview r.id .release) →
        Released id reviewer now s₀ s' := fun s' hdb =>
      released_of_update hu hr (congrArg _ (hsame hr)) (by rw [hdb, List.map_map]; rfl)
    refine h.write (fun t b r => Iff.rfl) (fun t b r hf => ?_) (fun t b r a ws text hrun hf => ?_)
      fun now' fresh a ws _ hrun s' hs' => ?_
    · rcases hf with ⟨x, hx⟩ | ⟨text, hf⟩
      · cases hx
      · simp only [KeepsRow, hf]
        exact hasClaim_congr hr
    · cases hrun
      simp only [KeepsRow, hf, h.clock_snoc]
      exact (hdb _ rfl).hasClaim
    · cases hrun
      exact hdb _ hs'
  | readCommitted =>
    refine .bind (h.still (R := fun rows s' => rows = (s₀.db.expiredClaims now).map (fun r => (r.id, r.claimedBy)) ∧
      s'.db.reviews = s₀.db.reviews) trivial (fun t b r => Iff.rfl) (fun t b r => hasClaim_congr hr)
      fun t rows s' hx hr' => ⟨?_, hr'.trans hr⟩) fun tr₁ rows s₁ h₁ => ?_
    · obtain ⟨-, ws, hrun, -⟩ := runSql_ok (h.sane.tick t.delay).idle hx
      cases hrun
      exact congrArg _ (hsame hr)
    · obtain ⟨h₁, rfl, hr₁⟩ := h₁
      have hdb : ∀ s' : World, s'.db = s₁.db.applyAll
          (((s₀.db.expiredClaims now).map fun r => (r.id, r.claimedBy)).map fun r => .updateReview r.1 .release) →
          Released id reviewer now s₀ s' := fun s' hdb =>
        released_of_update hu hr₁ rfl (by rw [hdb, List.map_map, List.map_map]; rfl)
      refine h₁.write (fun t b r => Iff.rfl) (fun t b r hf => ?_) (fun t b r a ws text hrun hf => ?_)
        fun now' fresh a ws _ hrun s' hs' => ?_
      · rcases hf with ⟨x, hx⟩ | ⟨text, hf⟩
        · cases hx
        · simp only [KeepsRow, hf]
          exact hasClaim_congr hr₁
      · cases hrun
        simp only [KeepsRow, hf, h₁.clock_snoc]
        exact (hdb _ rfl).hasClaim
      · cases hrun
        exact hdb _ hs'

theorem runs_release (isolation : Isolation) (hu : s₀.db.UniqueRows) (h : Since i id reviewer s₀ now tr s)
    (hr : s.db.reviews = s₀.db.reviews) :
    Runs i id reviewer s₀ (releaseExpiredClaims isolation now) (fun tr' _ s' => Since i id reviewer s₀ now tr' s' ∧
      Released id reviewer now s₀ s') tr s := by
  have audits : ∀ (rows : List (Uuid × Option String)) {tr : List (faulty D).Served} {s : World},
      Since i id reviewer s₀ now tr s → Released id reviewer now s₀ s →
      Runs i id reviewer s₀ (auditReleased rows) (fun tr' _ s' => Since i id reviewer s₀ now tr' s' ∧
        Released id reviewer now s₀ s') tr s := by
    intro rows
    induction rows with
    | nil => exact fun h hrel => .ret ⟨h, hrel⟩
    | cons row rows ih =>
      intro tr s h hrel
      refine .bind (h.still (R := fun _ s' => Released id reviewer now s₀ s') trivial (fun t b r => Iff.rfl)
        (fun t b r => ?_) fun t a s' hx hr' => hrel.congr hr') fun tr₁ _ s₁ h₁ => ih h₁.1 h₁.2
      simp only [KeepsRow, h.clock_snoc]
      exact hrel.hasClaim.trans (or_iff_right (by decide)).symm
  refine .bind (runs_rows isolation hu h hr) fun tr₁ rows s₁ h₁ => ?_
  exact .bind (audits rows h₁.1 h₁.2) fun tr₂ _ s₂ h₂ => .ret h₂

/-- What the claiming UPDATE makes of the row. -/
theorem hasClaim_after_claim {now' expires : Time} {fresh : Uuid} {a : Option Uuid} {ws : List Write}
    (hrun : (Sql.claimReview id reviewer now expires).run s.db now' fresh = .ok (a, ws))
    (hs' : s'.db = s.db.applyAll ws) :
    (HasClaim id reviewer s' ↔ CanClaim id reviewer now s) ∧ (a = none ↔ ¬ CanClaim id reviewer now s) := by
  simp only [Sql.run] at hrun
  split at hrun
  · rename_i r hr
    cases hrun
    obtain ⟨hr, hp⟩ := Option.filter_eq_some_iff.mp hr
    have hreview : ∀ w ∈ [Write.updateReview id (.claim reviewer now expires)], w.OfReview := fun w hw => by
      rw [List.mem_singleton.mp hw]
      trivial
    have hcan : CanClaim id reviewer now s := ⟨r, hr, by simpa using hp⟩
    refine ⟨iff_of_true ⟨_, by rw [hs', review?_applyAll hreview, hr]; rfl, ?_⟩ hcan, by simp [hcan]⟩
    simp [updatesOf, Write.updateOf?, ReviewRow.after, ReviewUpdate.apply]
  · rename_i hnone
    cases hrun
    have hno : ¬ CanClaim id reviewer now s := by
      rintro ⟨r, hr, hp⟩
      rw [hr, Option.filter_some, if_pos (by simpa using hp)] at hnone
      cases hnone
    refine ⟨iff_of_false ?_ hno, iff_of_true rfl hno⟩
    rintro ⟨r, hr, hc, hb⟩
    rw [hs'] at hr
    exact hno ⟨r, hr, claimable_of_claim hc hb⟩

theorem canClaim_of_hasClaim (h : HasClaim id reviewer s) : CanClaim id reviewer now s := by
  obtain ⟨r, hr, hc, hb⟩ := h
  exact ⟨r, hr, claimable_of_claim hc hb⟩

/-- What the answer of the claiming UPDATE tells of the row. -/
structure Updated (id : Uuid) (reviewer : String) (s₀ : World) (claimed : Option Uuid) (s : World) : Prop where
  some : claimed ≠ none → HasClaim id reviewer s
  none : claimed = none → ¬ HasClaim id reviewer s₀ ∧ ¬ HasClaim id reviewer s

theorem runs_update {expires : Time} (h : Since i id reviewer s₀ now tr s) (hrel : Released id reviewer now s₀ s) :
    Runs i id reviewer s₀ (sql (.claimReview id reviewer now expires)) (fun tr' claimed s' =>
      Since i id reviewer s₀ now tr' s' ∧ Updated id reviewer s₀ claimed s') tr s := by
  refine h.write (fun t b r => Iff.rfl) (fun t b r hf => ?_) (fun t b r a ws text hrun hf => ?_)
    fun now' fresh a ws _ hrun s' hs' => ?_
  · cases hfault : t.pick.fault with
    | none | before =>
      simp only [KeepsRow, hfault, h.clock_snoc]
      exact hrel.hasClaim
    | after =>
      simp only [KeepsRow, hfault, h.clock_snoc]
      rw [if_neg]
      · exact hrel.hasClaim
      · intro hstorable
        rcases hf with ⟨x, hx⟩ | ⟨text, hf⟩
        · rw [Sql.execute_of_storable (Sql.refusal_eq_none_iff.mpr
            ⟨by simpa [Sql.texts] using hstorable, rfl⟩)] at hx
          simp only [Sql.run] at hx
          split at hx <;> cases hx
        · cases hfault.symm.trans hf
  · have hstorable : storable reviewer = true :=
      (Sql.refusal_eq_none_iff.mp (Sql.execute_ok_iff.mp hrun).1).1 _ List.mem_cons_self
    simp only [KeepsRow, hf, h.clock_snoc, if_pos hstorable]
    exact (hasClaim_after_claim (Sql.run_of_execute hrun) rfl).1.trans hrel.canClaim
  · obtain ⟨hafter, hnone⟩ := hasClaim_after_claim hrun hs'
    refine ⟨fun hsome => hafter.mpr (not_not.mp (mt hnone.mpr hsome)), fun heq => ?_⟩
    have hno := hnone.mp heq
    exact ⟨fun hc => hno (hrel.canClaim.mpr (canClaim_of_hasClaim hc)), fun hc => hno (hafter.mp hc)⟩

/-- A call that cannot claim the row has given the lock back when it raises. -/
theorem runs_refuse (h : Since i id reviewer s₀ now tr s) (hupd : Updated id reviewer s₀ none s) :
    Runs i id reviewer s₀ (refuseClaim id reviewer) (fun _ _ _ => True) tr s := by
  obtain ⟨hno₀, hno⟩ := hupd.none rfl
  have hrow : ∀ {s' : World}, ¬ HasClaim id reviewer s' → (HasClaim id reviewer s' ↔ HasClaim id reviewer s₀) :=
    fun hno => iff_of_false hno hno₀
  refine .bind (R := fun tr' _ s' => Sane i s' ∧ Fine tr' ∧ ¬ HoldsLock id reviewer s') ?_
    fun tr₁ _ s₁ h₁ => ?_
  · -- `release_review_claim`
    refine .bind (h.still (R := fun v s' => s'.redisGet (claimKey id.str) = v ∧ s'.db.reviews = s.db.reviews) trivial
      (fun t b r => Iff.rfl) (fun t b r => hrow hno) fun t v s' hx hr' => ⟨?_, hr'⟩) fun tr₁ v s₁ h₁ => ?_
    · obtain ⟨rfl, rfl⟩ := answer_ok (Option.some.inj hx)
      rfl
    · obtain ⟨h₁, hget, hr₁⟩ := h₁
      have hno₁ : ¬ HasClaim id reviewer s₁ := mt (hasClaim_congr hr₁).mp hno
      split
      · refine .request (fun t a s' hx => ?_) fun t x s' hx => ?_
        · have hvalues := (h₁.sane.tick t.delay).values.step (redisStep_of_change (change_of_exec hx))
          obtain ⟨-, rfl⟩ := answer_ok (Option.some.inj hx)
          refine ⟨⟨(h₁.sane.tick t.delay).idle, hvalues⟩, .snoc rfl, fun hl => ?_⟩
          cases (redisGet_redisDel _ _).symm.trans hl
        · rcases answer_raised (Option.some.inj hx) with ⟨text, hf, rfl⟩ | ⟨text, hf, rfl⟩
          · simp only [KeepsLock, hf]
            exact ⟨h₁.holds ⟨_, t, _, _⟩, fun _ => hrow hno₁⟩
          · simp only [KeepsLock, hf]
            refine ⟨iff_of_false (fun hl => ?_) not_false, False.elim⟩
            cases (redisGet_redisDel _ _).symm.trans hl
      · rename_i hother
        exact .ret ⟨h₁.sane, h₁.fine, fun hl => hother (hget.symm.trans hl)⟩
  · obtain ⟨hs₁, hf₁, hfree⟩ := h₁
    have hfree' := fun d => not_holdsLock_tick hfree hs₁.values d
    refine .bind (R := fun tr' _ s' => Fine tr' ∧ ¬ HoldsLock id reviewer s') (.still trivial hs₁
      (fun t b r => iff_of_false (hfree' _) not_false) (fun t b r => False.elim)
      fun t a s' hx hsame hs' => ⟨.snoc rfl, mt (holdsLock_congr hsame.redis).mp (hfree' _)⟩) fun tr₂ row s₂ h₂ => ?_
    cases row with
    | none => exact .throw h₂.1 fun hl => absurd hl h₂.2
    | some row => exact .throw h₂.1 fun hl => absurd hl h₂.2

/-- What follows the claim of the row keeps it. -/
theorem runs_claimed {row : AuditRow} (hrow : row.action = "claimed") (h : Since i id reviewer s₀ now tr s)
    (hc : HasClaim id reviewer s) :
    Runs i id reviewer s₀ (do
      let full ← sql (.reviewFull id)
      let _ ← sql (.insertAudit row)
      fullToReview full) (fun _ _ _ => True) tr s := by
  have hkeep : ∀ {s s' : World}, HasClaim id reviewer s → s'.db.reviews = s.db.reviews → HasClaim id reviewer s' :=
    fun hc hr => (hasClaim_congr hr).mpr hc
  refine .bind (h.still (R := fun _ s' => HasClaim id reviewer s') trivial (fun t b r => Iff.rfl)
    (fun t b r => iff_of_true hc trivial) fun t a s' _ hr => hkeep hc hr) fun tr₁ full s₁ h₁ => ?_
  obtain ⟨h₁, hc₁⟩ := h₁
  refine .bind (h₁.still (R := fun _ s' => HasClaim id reviewer s') trivial (fun t b r => Iff.rfl)
    (fun t b r => iff_of_true hc₁ (.inl hrow)) fun t a s' _ hr => hkeep hc₁ hr) fun tr₂ _ s₂ h₂ => ?_
  obtain ⟨h₂, hc₂⟩ := h₂
  cases full with
  | none => exact .throw h₂.fine fun _ => hc₂
  | some row =>
    exact .bind (h₂.still (R := fun _ _ => True) trivial (fun t b r => Iff.rfl)
      (fun t b r => iff_of_true hc₂ trivial) fun _ _ _ _ _ => trivial) fun _ _ _ _ => .ret trivial

theorem runs_claimReview (isolation : Isolation) {body : ClaimRequest} (hu : s₀.db.UniqueRows) (hs : Sane i s₀) :
    Runs i id body.reviewer s₀ (claimReview isolation id body) (fun _ _ _ => True)
    ([] : List (faulty D).Served) s₀ := by
  refine .bind (R := fun tr' now s' => Early i s₀ tr' s' ∧ tr'.length = 1 ∧ clockOf s₀ tr' = now)
    (.still (q := .utcnow) trivial hs (fun t b r => Iff.rfl) (fun t b r _ => Iff.rfl)
      fun t now s' hx hsame hs' => ⟨⟨hs', .snoc rfl, hsame⟩, rfl, ?_⟩) fun tr₁ now s₁ h₁ => ?_
  · cases hx
    rfl
  obtain ⟨h₁, hlen, hclock⟩ := h₁
  refine .bind (hclock ▸ runs_acquire h₁ hlen) fun tr₂ a s₂ h₂ => ?_
  obtain ⟨acquired, owner⟩ := a
  cases acquired with
  | false => exact .throw h₂.1 fun hl => absurd hl h₂.2
  | true =>
    obtain ⟨h₂, hr₂⟩ := h₂
    refine .bind (h₂.still (q := .connect) (R := fun _ s' => s'.db.reviews = s₀.db.reviews) trivial
      (fun t b r => Iff.rfl)
      (fun t b r => hasClaim_congr hr₂) fun t a s' _ hr' => hr'.trans hr₂) fun tr₃ _ s₃ h₃ => ?_
    refine .bind (runs_release isolation hu h₃.1 h₃.2) fun tr₄ _ s₄ h₄ => ?_
    refine .bind (runs_update h₄.1 h₄.2) fun tr₅ claimed s₅ h₅ => ?_
    cases claimed with
    | none => exact runs_refuse h₅.1 h₅.2
    | some _ => exact runs_claimed rfl h₅.1 (h₅.2.some nofun)

end Claim

/-- Where a claim that runs alone fails, it leaves the lock behind if and only if its last request has
raised while the reviewer had the lock and not the row, as told by the requests it has made, and by the lock
and the row before it. -/
theorem tidy_iff {c : (service D).Config} {now : Time} (hc : Pool.Reachable (boot D now) c) (hi : c.threads i = none)
    {body : ClaimRequest} {ts : List AnyTurn} {o : (faulty D).Outcome Out} {x : Exn}
    (ho : (faulty D).alone i ((service D).code (.claimReview id body)) ts c.world = some o)
    (hx : o.result = .error x) :
    Tidy id body.reviewer o.world ↔ ¬ LeavesLock id body.reviewer c.world o.served := by
  have hs : Sane i c.world := ⟨idle_of_unstarted hc hi, oneValue_of_service hc⟩
  have hruns : Runs i id body.reviewer c.world ((service D).code (.claimReview id body)) (fun _ _ _ => True)
      ([] : List (faulty D).Served) c.world :=
    .bind (runs_claimReview D.isolation (inv_of_reachable hc).unique hs) fun _ _ _ _ =>
      .ret trivial
  have := Turns.of_alone hruns ho
  rw [hx] at this
  exact this

/-! ## A lost database -/

/-- The reviewer "a" claims the review: the clock, GET and SET NX are served, and then there is no connection. -/
def lostTurns : List AnyTurn := [⟨0, {}⟩, ⟨0, {}⟩, ⟨0, {}⟩, ⟨0, { fault := .before "no connection" }⟩]

theorem a_min : 1 ≤ "a".length := by decide

theorem a_max : "a".length ≤ 128 := by decide

def claimOfA : ClaimRequest := ⟨"a", a_min, a_max⟩

/-- A check of how the call ends: it fails, and the lock is its reviewer's, but not the row. -/
def untidy? (o : (faulty D).Outcome Out) : Bool :=
  (match o.result with
  | .ok _ => false
  | .error _ => true) &&
  decide (o.world.redisGet (claimKey (Uuid.str ⟨3⟩)) = some "a") &&
  (o.world.db.review? ⟨3⟩).all fun r => decide (r.status ≠ .claimed)

theorem lost_run : ∃ c, Pool.Reachable (boot (sample .atomic) 0) c ∧ c.threads 3 = none ∧ ∃ o,
    (faulty (sample .atomic)).alone 3 ((service (sample .atomic)).code (.claimReview ⟨3⟩ claimOfA))
    lostTurns c.world = some o ∧
    untidy? o = true := by
  have hrun : (Pool.replay (flaggedSample (sample .atomic)) (boot (sample .atomic) 0)).any (fun c =>
    (c.threads 3).isNone &&
      ((faulty (sample .atomic)).alone 3
        ((service (sample .atomic)).code (.claimReview ⟨3⟩ claimOfA)) lostTurns c.world).any
        untidy?) = true := by decide +kernel
  obtain ⟨c, hc, hrun⟩ := Pool.exists_replay hrun
  obtain ⟨hi, ho⟩ := Bool.and_eq_true_iff.mp hrun
  obtain ⟨o, ho, hu⟩ := (Option.any_eq_true _ _).mp ho
  exact ⟨c, hc, Option.isNone_iff_eq_none.mp hi, o, ho, hu⟩

theorem not_tidy_of_check {o : (faulty D).Outcome Out} (h : untidy? o = true) :
    (∃ x, o.result = .error x) ∧ ¬ Tidy ⟨3⟩ "a" o.world := by
  simp only [untidy?, Bool.and_eq_true, decide_eq_true_eq] at h
  obtain ⟨⟨hresult, hlock⟩, hrow⟩ := h
  constructor
  · cases hr : o.result with
    | ok a =>
      rw [hr] at hresult
      cases hresult
    | error x => exact ⟨x, rfl⟩
  · intro ht
    obtain ⟨r, hr, hc, -⟩ := ht hlock
    rw [hr] at hrow
    exact of_decide_eq_true hrow hc

theorem tidy_iff_sample : ∃ (c : (service (sample .atomic)).Config)
    (o : (faulty (sample .atomic)).Outcome Out) (x : Exn),
    Pool.Reachable (boot (sample .atomic) 0) c ∧ o.result = .error x ∧
    (Tidy ⟨3⟩ "a" o.world ↔ ¬ LeavesLock ⟨3⟩ "a" c.world o.served) := by
  obtain ⟨c, hc, hi, o, ho, hu⟩ := lost_run
  obtain ⟨⟨x, hx⟩, -⟩ := not_tidy_of_check hu
  exact ⟨c, o, x, hc, hx, tidy_iff hc hi ho hx⟩

/-- When the database cannot be reached, the lock of a pending review stays behind. -/
theorem lock_left_behind : ¬ ∀ (c : (service (sample .atomic)).Config), Pool.Reachable (boot (sample .atomic) 0) c →
    ∀ i id (body : ClaimRequest) (ts : List AnyTurn) (o : (faulty (sample .atomic)).Outcome Out) x,
    c.threads i = none →
    (faulty (sample .atomic)).alone i ((service (sample .atomic)).code (.claimReview id body)) ts c.world = some o →
    o.result = .error x → Tidy id body.reviewer o.world := by
  intro hall
  obtain ⟨c, hc, hi, o, ho, hu⟩ := lost_run
  obtain ⟨⟨x, hx⟩, hn⟩ := not_tidy_of_check hu
  exact hn (hall c hc 3 ⟨3⟩ claimOfA lostTurns o x hi ho hx)

end CM
