import ContentModeration.Proof.Releases

/-!
# Resolutions and their claims

The deadline of a claim exists twice: the lock of Redis ends at some time after
`claim_expires_at`, and `resolve_review` looks only at the lock. Where no
resolution finds the lock of a claim that is over (`OnTime`), a review is
resolved only under an active claim of its reviewer (`resolutions_sound`); else
it is resolved under a claim that has expired (`resolved_after_expiry`).
-/

namespace CM

open Database World

variable {D : Deployment}

/-! ## Claims of a reviewer -/

/-- If the row is claimed by the reviewer, the claim is active at `now`. -/
def ReviewRow.HeldAt (r : ReviewRow) (reviewer : String) (now : Time) : Prop :=
  r.status = .claimed → r.claimedBy = some reviewer → claimIsActive r.status r.claimExpiresAt now = true

/-- The row is an active claim of the reviewer. -/
structure ReviewRow.ActiveFor (r : ReviewRow) (reviewer : String) (now : Time) : Prop where
  claimed : r.status = .claimed
  owner : r.claimedBy = some reviewer
  active : claimIsActive r.status r.claimExpiresAt now = true

theorem claimIsActive_iff {t now : Time} : claimIsActive .claimed (some t) now = true ↔ now < t := by
  simp [claimIsActive, isClaimExpired]

/-- An update after which the claim of the reviewer, if it is one, is active. -/
def ReviewUpdate.Renews (reviewer : String) (now : Time) : ReviewUpdate → Prop
  | .claim reviewer' _ expires => reviewer' = reviewer → now < expires
  | .resolve status .. => status ≠ .claimed
  | .release => True

theorem ReviewUpdate.Renews.heldAt {reviewer : String} {now : Time} {u : ReviewUpdate} (h : u.Renews reviewer now)
    (r : ReviewRow) : (u.apply r).HeldAt reviewer now := by
  intro hclaimed howner
  cases u with
  | claim reviewer' t expires => exact claimIsActive_iff.mpr (h (Option.some.inj howner))
  | resolve => exact absurd hclaimed h
  | release => cases hclaimed

theorem ReviewRow.HeldAt.after {r : ReviewRow} {reviewer : String} {now : Time} (h : r.HeldAt reviewer now)
    {us : List ReviewUpdate} (hu : ∀ u ∈ us, u.Renews reviewer now) : (r.after us).HeldAt reviewer now := by
  induction us generalizing r with
  | nil => exact h
  | cons u us ih =>
    exact ih ((hu u List.mem_cons_self).heldAt r) fun v hv => hu v (List.mem_cons_of_mem _ hv)

/-- What the lock check of a resolution has found out about its review. -/
def Held (db : Database) (id : Uuid) (reviewer : String) (now : Time) : Prop :=
  ∀ r ∈ db.reviews, r.id = id → r.HeldAt reviewer now

theorem Held.step {s : World} {i : Nat} {q : Cmd} {p : Pick} {ws : List Write} {id : Uuid} {reviewer : String}
    {now : Time} (h : Held s.db id reviewer now) (hi : Inv s) (hs : DbStep D i s q p ws)
    (hu : ∀ t expires, .updateReview id (.claim reviewer t expires) ∈ ws → now < expires) :
    Held (s.db.applyAll ws) id reviewer now := by
  intro r hr hid
  rcases row_of_step hi hs hr with ⟨hpending, -⟩ | ⟨r₀, hr₀, rfl⟩
  · intro hclaimed
    rw [hpending] at hclaimed
    cases hclaimed
  · rw [ReviewRow.id_after] at hid
    refine (h r₀ hr₀ hid).after fun u hm => ?_
    have hm := mem_updatesOf.mp hm
    rw [hid] at hm
    cases u with
    | claim reviewer' t expires => exact fun he => hu t expires (he ▸ hm)
    | release => trivial
    | resolve =>
      cases hs with
      | commit complete => exact absurd ⟨_, _, rfl⟩ (hi.stored.kinds i _ hm)
      | alone idle contract run fault =>
        cases makes_of_run run _ hm
        exact contract.1 ▸ status_ne_claimed _

/-! ## Resolutions on time -/

/-- No resolution finds the lock of its reviewer although the reviewer's claim
has expired by its timestamp; and until its UPDATE, no claim of the reviewer is
written that has expired by then. -/
structure OnTime (c : (service D).Config) (a : (service D).Action) : Prop where
  lock {i id body key k p now} : a = .step i p → c.At i (.resolveReview id body) (.redisGet key) k →
    p.fault = .none → c.world.redisGet key = some body.reviewer → c.world.clockRead i = some now →
    Held c.world.db id body.reviewer now
  claim {i j id body q k f q' l p now t expires} : c.At i (.resolveReview id body) q k →
    q.InWindow id body.reviewer now → c.world.clockRead i = some now → a = .step j p → c.At j f q' l →
    .updateReview id (.claim body.reviewer t expires) ∈ c.world.commits j q' p → now < expires

/-- Thread `i` resolves the review by a step, with the timestamp `now`. -/
structure Resolution (st : (service D).Step) (i : Nat) (id : Uuid) (reviewer : String) (now : Time) : Prop where
  update : ∃ e p status decision notes, ∃ k : Except Exn (Option Uuid) → M Out, st.action = .step i p ∧
    st.before.At i e (.sql (.resolveReview id status decision notes reviewer now)) k ∧
    .updateReview id (.resolve status decision notes reviewer now) ∈
      st.before.world.commits i (.sql (.resolveReview id status decision notes reviewer now)) p

/-- What is known in a phase of a call of `resolve_review`. -/
def ResolveKnown (i : Nat) (e : Entry) (x : ResolvePhase) (h : List (service D).Step) (s : World) : Prop :=
  match e, x with
  | .resolveReview _ _, .read now => s.clockRead i = some now
  | .resolveReview id body, .locked now => s.clockRead i = some now ∧ Held s.db id body.reviewer now
  | .resolveReview id body, .resolved => ∃ st ∈ h, ∃ now, Resolution st i id body.reviewer now
  | _, _ => True

theorem ResolveKnown.later {i : Nat} {e : Entry} {x : ResolvePhase} {h : List (service D).Step}
    {st : (service D).Step} {s s' : World} (hk : ResolveKnown i e x h s) (hc : s'.clockRead i = s.clockRead i)
    (hx : ∀ id body now, e = .resolveReview id body → x = .locked now → s.clockRead i = some now →
      Held s.db id body.reviewer now → Held s'.db id body.reviewer now) :
    ResolveKnown i e x (st :: h) s' := by
  cases e with
  | resolveReview id body =>
    cases x with
    | read now => exact hc.trans hk
    | locked now => exact ⟨hc.trans hk.1, hx id body now rfl rfl hk.1 hk.2⟩
    | resolved =>
      obtain ⟨st', hst, hr⟩ := hk
      exact ⟨st', List.mem_cons_of_mem _ hst, hr⟩
    | _ => trivial
  | _ => trivial

theorem ResolveKnown.own {i : Nat} {e : Entry} {x : ResolvePhase} {c : (service D).Config} {q : Cmd} {p : Pick}
    {k : Except Exn q.Ans → M Out} {r : Except Exn q.Ans} {s : World} {h : List (service D).Step}
    (hc : Contract D i c.world q) (ha : OnTime c (.step i p)) (hat : c.At i e q k)
    (hx : World.exec i q p c.world = some (r, s)) (hq : (resolveMonitor e).allows x q)
    (hk : ResolveKnown i e x h c.world) (c' : (service D).Config) :
    ResolveKnown i e ((resolveMonitor e).after x q r) (⟨c, .step i p, c'⟩ :: h) s := by
  cases e with
  | resolveReview id body =>
    cases x with
    | start =>
      cases q with
      | utcnow =>
        cases hx
        exact Function.update_self ..
      | _ => trivial
    | read now =>
      cases q with
      | redisGet key =>
        cases r with
        | error x => trivial
        | ok owner =>
          cases owner with
          | none => trivial
          | some owner =>
            show ResolveKnown i _ (if owner = body.reviewer then .locked now else .closed) _ s
            have hf := fault_of_ok (Option.some.inj hx)
            obtain ⟨hown, rfl⟩ := answer_ok (Option.some.inj hx)
            split
            · rename_i he
              exact ⟨hk, ha.lock rfl hat hf (he ▸ hown.symm) hk⟩
            · trivial
      | _ => trivial
    | locked now =>
      -- a statement of the resolution is made outside transactions
      have idle : ∀ st : Sql, ¬ st.InTxn → Contract D i c.world (.sql st) → c.world.txn i = none := by
        intro st hst hc
        cases ht : c.world.txn i with
        | none => rfl
        | some t =>
          simp only [Contract, ht] at hc
          exact absurd hc hst
      cases hq with
      | connect =>
        cases r with
        | error x => trivial
        | ok u =>
          obtain ⟨-, rfl⟩ := answer_ok (Option.some.inj hx)
          exact hk
      | modelDecision =>
        cases r with
        | error x => trivial
        | ok model =>
          obtain ⟨-, ws, hr, rfl⟩ := runSql_ok (idle (.modelDecision _) (fun h => h) hc) hx
          simp only [Sql.run, Except.ok.injEq, Prod.mk.injEq] at hr
          obtain ⟨-, rfl⟩ := hr
          cases model with
          | none => trivial
          | some model =>
            show ResolveKnown i _ (if body.refused model then .closed else .locked now) _ _
            split
            · trivial
            · exact hk
      | update status decision notes =>
        cases r with
        | error x => trivial
        | ok updated =>
          have ht := idle (.resolveReview ..) (fun h => h) hc
          have htaken := taken_of_ok ht hx
          obtain ⟨hf, ws, hr, rfl⟩ := runSql_ok ht hx
          cases updated with
          | none => trivial
          | some id' =>
            refine ⟨_, List.mem_cons_self, now, ⟨_, p, status, decision, notes, k, rfl, hat, ?_⟩⟩
            simp only [World.commits, hf, ht, Sql.execute_of_storable htaken, hr]
            simp only [Sql.run] at hr
            split at hr <;> cases hr
            exact List.mem_singleton_self _
    | resolved =>
      obtain ⟨st, hst, hr⟩ := hk
      exact ⟨st, List.mem_cons_of_mem _ hst, hr⟩
    | closed => trivial
  | _ => trivial

/-- The phase of every thread of a run that is on time. -/
theorem resolve_phase {now : Time} {h : List (service D).Step} {c : (service D).Config}
    (hr : Pool.Run OnTime (boot D now) h c) (i : Nat) :
    c.InPhase (M := resolveMonitor) resolveEnds (fun e x => ResolveKnown i e x h c.world) i := by
  refine hr.follows (fun _ => rfl) (M := resolveMonitor) (code_resolves D) (G := ResolveKnown) ?start ?own ?others i
  case start =>
    intro h c i e c' hr _ hn
    cases e <;> trivial
  case own =>
    intro h c i e q k p r s x hr ha hat hx hp hk
    exact hk.own ((sound_of_reachable hr.reachable).pre_of_at (valid D False) hat).1 ha hat hx hp.1 _
  case others =>
    intro h c a c' i e p x hr ha hn hm hi hp hk
    refine hk.later (kept_of_next hr.reachable hn hm).clockRead fun id body now he hlocked hclock hheld => ?_
    subst he hlocked
    rw [db_of_next hn]
    rcases writes_ok hr.reachable hn with hnil | ⟨j, pk, f, q, l, rfl, hat, hws, hstep⟩
    · rw [hnil]
      exact hheld
    · refine hheld.step (inv_of_reachable hr.reachable) hstep fun t expires hu => ?_
      rw [hws] at hu
      -- the resolution is still to be made
      cases p with
      | ret a => exact absurd rfl (hp.1 now)
      | throw x => exact absurd rfl (hp.1 now)
      | call q k => exact ha.claim hi hp.1 hclock rfl hat hu

/-- In a run on time, a resolution is made under an active claim of its reviewer
at its own timestamp, and a call that has returned has made one. -/
theorem resolutions_sound {now : Time} {h : List (service D).Step} {c : (service D).Config}
    (hr : Pool.Run OnTime (boot D now) h c) :
    (∀ st ∈ h, ∀ i id reviewer t, Resolution st i id reviewer t → st.before.world.clockRead i = some t ∧
      ∃ r ∈ st.before.world.db.reviews, r.id = id ∧ r.ActiveFor reviewer t) ∧
    ∀ i id body a, c.Returned i (.resolveReview id body) a →
      ∃ st ∈ h, ∃ t, Resolution st i id body.reviewer t := by
  refine ⟨fun st hst i id reviewer t ⟨e, p, status, decision, notes, k, hact, hat, hu⟩ =>
    ?_, fun i id body a ha => ?_⟩
  · obtain ⟨⟨h', hr'⟩, -, hn⟩ := hr.mem hst
    obtain ⟨x, ⟨hq, -⟩, hk⟩ := resolve_phase hr' i e _ hat
    have hi := inv_of_reachable hr'.reachable
    -- only a call that has found its lock makes the statement
    cases e with
    | resolveReview id' body =>
      cases x with
      | locked now =>
        cases hq
        refine ⟨hk.1, ?_⟩
        rw [hact] at hn
        rcases writes_ok hr'.reachable hn with hnil | ⟨j, p', f, q, l, hj, hat', hws, hstep⟩
        · rw [writes_of_at hat] at hnil
          rw [hnil] at hu
          cases hu
        · cases hj
          cases hat.symm.trans hat'
          rw [hws] at hstep
          cases hstep with
          | alone idle contract run fault =>
            cases makes_of_run run _ hu with
            | @resolve _ _ _ _ _ _ r row claimed owner =>
              have hm : r ∈ st.before.world.db.reviews := List.mem_of_find?_eq_some row
              exact ⟨r, hm, id_of_review? row, claimed, owner, hk.2 r hm (id_of_review? row) claimed owner⟩
      | _ => exact absurd trivial hq
    | _ => exact absurd trivial hq
  · obtain ⟨x, hend, hk⟩ := resolve_phase hr i _ _ ha
    have hx : x = .resolved := hend.2 a rfl
    subst hx
    exact hk

/-! ## Runs -/

instance (r : ReviewRow) (reviewer : String) (now : Time) : Decidable (r.HeldAt reviewer now) :=
  inferInstanceAs (Decidable (_ → _ → _))

/-- The review and the reviewer of a running call of `resolve_review`. -/
def resolving? (c : (service D).Config) (i : Nat) : Option (Uuid × String) :=
  match c.threads i with
  | some ⟨.resolveReview id body, some (.call _ _)⟩ => some (id, body.reviewer)
  | _ => none

theorem resolving_of_at {c : (service D).Config} {i : Nat} {id : Uuid} {body : ResolveRequest} {q : Cmd}
    {k : Except Exn q.Ans → M Out} (hat : c.At i (.resolveReview id body) q k) :
    resolving? c i = some (id, body.reviewer) := by
  simp only [resolving?]
  rw [show c.threads i = _ from hat]

def Write.isClaim : Write → Bool
  | .updateReview _ (.claim ..) => true
  | _ => false

/-- A check that a step is on time: of `n` threads, none claims while another
resolves, and the claims of a reviewer who resolves are active. -/
def onTime? (n : Nat) (c : (service D).Config) : (service D).Action → Bool
  | .start i _ => decide (i < n)
  | .step j p =>
    ((List.range n).all fun i => (resolving? c i).isNone ||
      (Step.writes ⟨c, .step j p, c⟩).all fun w => !w.isClaim) &&
    (resolving? c j).all fun x => (c.world.clockRead j).all fun now =>
      c.world.db.reviews.all fun r => decide (r.HeldAt x.2 now)
  | _ => true

theorem onTime_of_check {n : Nat} {c : (service D).Config} {a : (service D).Action}
    (hn : ∀ i, n ≤ i → c.threads i = none) (h : onTime? n c a = true) : OnTime c a where
  lock {i id body key k p now} ha hat _ _ hclock := by
    rw [ha] at h
    simp only [onTime?, Bool.and_eq_true, resolving_of_at hat, Option.all_some, hclock, List.all_eq_true,
      decide_eq_true_eq] at h
    exact fun r hr _ => h.2 r hr
  claim {i j id body q k f q' l p now t expires} hat _ _ ha hat' hu := by
    have hi : i < n := by
      refine Nat.lt_of_not_le fun hle => ?_
      have := hn i hle
      rw [show c.threads i = _ from hat] at this
      cases this
    rw [ha] at h
    simp only [onTime?, Bool.and_eq_true, List.all_eq_true, writes_of_at hat'] at h
    have := h.1 i (List.mem_range.mpr hi)
    rw [resolving_of_at hat, Option.isNone_some, Bool.false_or] at this
    have := List.all_eq_true.mp this _ hu
    cases this

theorem resolutions_sound_sample : ∃ h c, Pool.Run OnTime (boot (sample .atomic) 0) h c ∧
    (∃ r ∈ c.world.db.reviews, r.resolved = true) ∧
    (∀ st ∈ h, ∀ i id reviewer t, Resolution st i id reviewer t → st.before.world.clockRead i = some t ∧
      ∃ r ∈ st.before.world.db.reviews, r.id = id ∧ r.ActiveFor reviewer t) ∧
    ∀ i id body a, c.Returned i (.resolveReview id body) a →
      ∃ st ∈ h, ∃ t, Resolution st i id body.reviewer t := by
  have hrun : (Pool.replayIf (onTime? 4) (flaggedSample (sample .atomic) ++ claimSample (sample .atomic) 2 9 ++
      resolveSample (sample .atomic) 3 10) (boot (sample .atomic) 0)).any
      (fun c => decide (∃ r ∈ c.world.db.reviews, r.resolved = true)) = true := by
    decide +kernel
  have hcheck : ∀ (c : (service (sample .atomic)).Config) a, onTime? 4 c a = true → onTime? 4 c a = true :=
    fun _ _ h => h
  obtain ⟨h, c, hr, hc⟩ := Pool.exists_replayIf hcheck hrun
  have hr : Pool.Run OnTime (boot (sample .atomic) 0) h c := hr.imp fun hr ha =>
    onTime_of_check (fun i hi => hr.threads_none (fun _ => rfl) (fun h => of_decide_eq_true h) hi) ha
  exact ⟨h, c, hr, of_decide_eq_true hc, resolutions_sound hr⟩

/-- A claim sets its lock a moment after it has read the clock, and the review is
resolved in the last moment of the lock. -/
theorem resolved_after_expiry : ¬ ∀ c₁ i p c₂, Pool.Reachable (boot (sample .atomic) 0) c₁ →
    Pool.next c₁ (.step i p) = some c₂ → ∀ t, c₁.world.clockRead i = some t →
    ∀ r ∈ c₁.world.db.reviews, r.resolved = false → ∀ r' ∈ c₂.world.db.reviews, r'.id = r.id → r'.resolved = true →
      claimIsActive r.status r.claimExpiresAt t = true := by
  intro h
  have hrun : (Pool.replay (flaggedSample (sample .atomic) ++ claimSample (sample .atomic) 2 1 ++
      .env (.tick 1) :: goOnSample _ 2 8 ++ .env (.tick (seconds claimTtlSeconds)) :: resolveSample _ 3 4)
      (boot (sample .atomic) 0)).any (fun c₁ => (Pool.next c₁ (.step 3 ({} : Pick))).any fun c₂ =>
        (c₁.world.clockRead 3).any fun t => decide (∃ r ∈ c₁.world.db.reviews, r.resolved = false ∧
          claimIsActive r.status r.claimExpiresAt t = false ∧
          ∃ r' ∈ c₂.world.db.reviews, r'.id = r.id ∧ r'.resolved = true)) = true := by
    decide +kernel
  obtain ⟨c₁, hc₁, hrun⟩ := Pool.exists_replay hrun
  obtain ⟨c₂, hc₂, hrun⟩ := (Option.any_eq_true _ _).mp hrun
  obtain ⟨t, ht, hrun⟩ := (Option.any_eq_true _ _).mp hrun
  obtain ⟨r, hm, hres, hnot, r', hm', hid, hres'⟩ := of_decide_eq_true hrun
  rw [h c₁ 3 {} c₂ hc₁ hc₂ t ht r hm hres r' hm' hid hres'] at hnot
  cases hnot

end CM
