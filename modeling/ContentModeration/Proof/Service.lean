import ContentModeration.Impl.Service
import ContentModeration.Proof.Ingest
import ContentModeration.Proof.Redrive
import ContentModeration.Proof.Review

/-!
# Every call of the services follows the rules

`verified` puts the specifications of the calls together, so that `Sound` holds
of every reachable configuration (`sound_of_reachable`). What a run commits is
its `journal`; what every commit keeps is proven by `journal_induction`.
-/

namespace CM

open Database World

variable {D : Deployment} {A : Prop} {i : Nat}

/-- A thread that has not been started has no transaction and no identifiers. -/
structure Unstarted (i : Nat) (s : World) : Prop where
  txn : s.txn i = none
  drawn : ∀ u, (u, i) ∉ s.drawn

theorem Unstarted.idle {s : World} (h : Unstarted i s) : Idle A i s :=
  ⟨h.txn, fun _ u hu => absurd hu (h.drawn u)⟩

/-- How a call ends. -/
structure Ended (D : Deployment) (A : Prop) (i : Nat) (e : Entry) (r : Except Exn Out) (s : World) : Prop where
  idle : Idle A i s
  accepted {settings : ApiSettings} {req : IngestRequest} {response : IngestResponse} :
    e = .acceptImage settings req → r = .ok (.accepted response) →
    Accepted (contentHash D.sha256 req.body (strip req.caption) settings.policyVersion) i response s

/-- A call other than `accept_image` whose program is followed by a `return`. -/
theorem Spec.ended {e : Entry} {α : Type} {p : M α} {f : α → Out} {Q : Except Exn α → World → Prop}
    (h : Spec D A i e (fun _ => True) p Q) (hne : ∀ settings req, e ≠ .acceptImage settings req) :
    (rules D A).Triple i e (Unstarted i) (p >>= fun a => pure (f a)) (Ended D A i e) := by
  refine Rules.Triple.mono (Spec.bind (Q := fun _ _ => True) h (fun _ _ _ => trivial) fun a =>
    Spec.mono (K := fun _ => True) (Spec.ret (steady_const True) fun _ _ _ => trivial) (fun _ _ => trivial)
      fun _ _ h => h) (fun s _ h => ⟨h.idle, trivial⟩) fun r s _ h => ⟨h.1, ?_⟩
  exact fun {settings req _} he => absurd he (hne settings req)

theorem acceptImage_ended (settings : ApiSettings) (req : IngestRequest) :
    (rules D A).Triple i (.acceptImage settings req) (Unstarted i)
      (acceptImage D.sha256 settings req >>= fun a => pure (.accepted a))
      (Ended D A i (.acceptImage settings req)) := by
  have hspec := acceptImage_spec (D := D) (A := A) (i := i) settings req ⟨req, rfl⟩
  refine Rules.Triple.mono (Spec.bind (Q := fun r s => ∀ response, r = .ok (.accepted response) →
    Accepted (contentHash D.sha256 req.body (strip req.caption) settings.policyVersion) i response s) hspec
    (fun _ _ _ _ h => by cases h) fun a => Spec.ret (lasting_accepted _ a).steady fun s _ h response hr => ?_)
    (fun s _ h => ⟨h.idle, trivial⟩) fun r s _ h => ⟨h.1, fun {settings' req' response} he hr => ?_⟩
  · cases hr
    exact h
  · cases he
    exact h.2 response hr

/-- Every call follows the rules. -/
theorem verified (D : Deployment) (A : Prop) : (rules D A).Verified Unstarted (Ended D A) where
  valid := valid D A
  stable i s s' hk _ h := ⟨hk.txn.trans h.txn, fun u hu => h.drawn u (hk.drawn u hu)⟩
  code i e := by
    cases e with
    | acceptImage settings req => exact acceptImage_ended settings req
    | handleMessage settings body =>
      exact Spec.ended (f := fun _ => .done) (Spec.mono (handleMessage_spec settings body False)
        (fun _ _ h => h.elim) fun _ _ h => h) fun _ _ h => by cases h
    | pollSqs settings rounds =>
      exact Spec.ended (f := fun _ => .done) (pollSqs_spec settings rounds) fun _ _ h => by cases h
    | pollPubsub settings rounds =>
      exact Spec.ended (f := fun _ => .done) (pollPubsub_spec settings rounds) fun _ _ h => by cases h
    | redrive args => exact Spec.ended (redrive_spec args) fun _ _ h => by cases h
    | listReviews req => exact Spec.ended (listReviews_spec req) fun _ _ h => by cases h
    | claimReview reviewId body => exact Spec.ended (claimReview_spec reviewId body) fun _ _ h => by cases h
    | resolveReview reviewId body => exact Spec.ended (resolveReview_spec reviewId body) fun _ _ h => by cases h

/-! ## The start -/

theorem inv_boot (D : Deployment) (now : Time) : Inv (boot D now).world where
  stored := {
    keys := fun _ => List.nodup_nil
    apart := fun _ => List.disjoint_nil_left _
    fk := ⟨fun _ h => (nomatch h), fun _ h => (nomatch h), fun _ h => (nomatch h)⟩
    refs := fun _ _ h => nomatch h
    kinds := fun _ _ h => nomatch h
    decided := fun _ h => nomatch h }
  queued := ⟨List.nodup_nil, fun _ h => (nomatch h), fun _ h => (nomatch h)⟩
  drawn := List.nodup_nil
  owned := fun _ h => nomatch h

theorem initial (D : Deployment) (A : Prop) (now : Time) : (rules D A).Initial Unstarted (boot D now) where
  threads _ := rfl
  inv := inv_boot D now
  start _ := ⟨rfl, fun _ h => nomatch h⟩

/-- The rules without their optional part admit every run. -/
theorem admits_anything (D : Deployment) : (rules D False).Admits Pool.anything :=
  fun _ _ h => h.elim

/-- What the rules say of every reachable configuration. -/
theorem sound_of_reachable {c : (service D).Config} {now : Time} (h : Pool.Reachable (boot D now) c) :
    (rules D False).Sound Unstarted (Ended D False) c := by
  obtain ⟨h, hr⟩ := h
  exact hr.sound (verified D False) (admits_anything D) (initial D False now)

theorem inv_of_reachable {c : (service D).Config} {now : Time} (h : Pool.Reachable (boot D now) c) :
    Inv c.world := (sound_of_reachable h).inv

/-- What thread `i` may count on while others move. -/
theorem kept_of_next {c c' : (service D).Config} {now : Time} {a : (service D).Action}
    (hr : Pool.Reachable (boot D now) c) (hn : Pool.next c a = some c') {i : Nat} (hi : a.thread ≠ some i) :
    Kept i c.world c'.world := by
  have hs := sound_of_reachable hr
  have hv := valid D False
  have hne : ∀ {j}, some j ≠ some i → i ≠ j := fun h hij => h (congrArg some hij.symm)
  cases a with
  | start j e =>
    obtain ⟨-, rfl⟩ := Pool.next_start hn
    exact .refl _
  | step j p =>
    obtain ⟨e, q, k, r, w, hat, hx, rfl⟩ := Pool.next_step hn
    have ha := admits_anything D (p := p) trivial hat
    exact (hv.step hs.inv (hs.pre_of_at hv hat) ha hx).2 i (hne hi)
  | crash j =>
    obtain ⟨e, q, k, hat, rfl⟩ := Pool.next_crash hn
    exact (hv.crash hs.inv).2 i (hne hi)
  | env v =>
    obtain ⟨w, hx, rfl⟩ := Pool.next_env hn
    exact (hv.env hs.inv hx).2 i

/-- What no step of any thread undoes lasts in every run. -/
theorem grows_of_next {c c' : (service D).Config} {now : Time} {a : (service D).Action}
    (hr : Pool.Reachable (boot D now) c) (hn : Pool.next c a = some c') : c.world.Grows c'.world := by
  have other : ∃ i, a.thread ≠ some i := by
    cases a with
    | start j | step j | crash j => exact ⟨j + 1, by simp [Pool.Action.thread]⟩
    | env v => exact ⟨0, by simp [Pool.Action.thread]⟩
  obtain ⟨i, hi⟩ := other
  exact (kept_of_next hr hn hi).grows

/-! ## A run -/

/-- The digest of the image `ff d8 ff` without a caption under "policy-v1". -/
def sampleDigest : Digest := fun _ => "d0f9b27d0cf9427e2868abe3f67da5515ffe99fa6bf08b104a821dbbb547f15d"

def sample (isolation : Isolation) : Deployment := { sha256 := sampleDigest, isolation }

def sampleRequest : IngestRequest := { body := [0xff, 0xd8, 0xff], contentType := "image/jpeg" }

/-- Thread `i` ingests the sample as the content `c` and the job `j`, up to where it
sends the message. -/
def ingestSample (D : Deployment) (i : Nat) (c j : BitVec 128) : List (service D).Action :=
  .start i (.acceptImage {} sampleRequest) :: List.replicate 3 (.step i {}) ++
    [.step i { fresh := ⟨c⟩ }, .step i { fresh := ⟨j⟩ }] ++ List.replicate 7 (.step i {})

/-- The requests of a delivery of the message 0 that end with a FLAG. -/
def flagSample : Pick := { image := [0xff, 0xd8, 0xff], contentType := "image/jpeg", fresh := ⟨3⟩, ids := [0] }

/-- Worker `i` receives the message 0 and makes `n` more requests; with 18 it is done. -/
def workSample (D : Deployment) (i n : Nat) : List (service D).Action :=
  .start i (.pollSqs {} 1) :: List.replicate (n + 1) (.step i flagSample)

/-! ## The database -/

/-- The requests that change the database that others see: a statement outside
transactions, and the end of a transaction. -/
inductive DbStep (D : Deployment) (i : Nat) (s : World) : Cmd → Pick → List Write → Prop where
  | alone {st : Sql} {p : Pick} {a : st.Ans} {ws : List Write} (idle : s.txn i = none)
      (contract : st.Alone D s) (run : st.run s.db s.now p.fresh = .ok (a, ws))
      (fault : ∀ text, p.fault ≠ .before text) (taken : st.refusal = none) : DbStep D i s (.sql st) p ws
  | commit {p : Pick} (complete : Complete i s (s.pending i)) : DbStep D i s .commit p (s.pending i)

/-- What a request of thread `i` commits. -/
def World.commits (s : World) (i : Nat) (q : Cmd) (p : Pick) : List Write :=
  match p.fault with
  | .before _ => []
  | _ =>
    match q with
    | .sql st =>
      match s.txn i, st.execute s.db s.now p.fresh with
      | none, .ok (_, ws) => ws
      | _, _ => []
    | .commit => s.pending i
    | _ => []

/-- Most requests commit nothing. -/
theorem commits_other {s : World} {i : Nat} {q : Cmd} {p : Pick} (hs : ∀ st, q ≠ .sql st) (hc : q ≠ .commit) :
    s.commits i q p = [] := by
  simp only [World.commits]
  split
  · rfl
  · cases q with
    | sql st => exact absurd rfl (hs st)
    | commit => exact absurd rfl hc
    | _ => rfl

/-- A request changes the database by what it commits. -/
theorem db_of_commits {s s' : World} {q : Cmd} {p : Pick} {r : Except Exn q.Ans}
    (hx : World.exec i q p s = some (r, s')) : s'.db = s.db.applyAll (s.commits i q p) := by
  have other : (∀ st, q ≠ .sql st) → q ≠ .commit → s'.db = s.db.applyAll (s.commits i q p) := by
    intro hs hc
    rw [commits_other hs hc, applyAll_nil]
    cases change_of_exec hx with
    | write => exact absurd rfl (hs _)
    | commit => exact absurd rfl hc
    | redisExpire =>
      simp only [World.redisExpire]
      split
      · rfl
      · split <;> rfl
    | delete => exact db_remove ..
    | _ => rfl
  cases q with
  | sql st =>
    simp only [World.commits]
    cases ht : s.txn i with
    | none =>
      rcases runSql_idle ht hx with ⟨rfl, ⟨x, hr⟩ | ⟨text, hf⟩⟩ | ⟨a, ws, hr, hf, rfl⟩
      · rw [hr]
        split <;> rfl
      · rw [hf]
        rfl
      · rw [hr]
        split
        · rename_i text hb
          exact absurd hb (hf text)
        · rfl
    | some t =>
      have hdb : s'.db = s.db := by
        cases change_of_sql hx with
        | write idle => rw [ht] at idle; cases idle
        | _ => rfl
      rw [hdb]
      split <;> rfl
  | commit =>
    simp only [World.exec, runCommit, Option.some.injEq] at hx
    simp only [World.commits]
    split at hx <;> rename_i hf <;> cases hx <;> rw [hf] <;> rfl
  | _ => exact other (fun _ => by simp) (by simp)

/-- What is committed keeps the contract of the request. -/
theorem commits_ok {s s' : World} {q : Cmd} {p : Pick} {r : Except Exn q.Ans} (hc : Contract D i s q)
    (hx : World.exec i q p s = some (r, s')) :
    s.commits i q p = [] ∨ DbStep D i s q p (s.commits i q p) := by
  simp only [World.commits]
  split
  · exact .inl rfl
  rename_i hf
  cases q with
  | sql st =>
    cases ht : s.txn i with
    | some t => exact .inl rfl
    | none =>
      simp only [Contract, ht] at hc
      dsimp only
      cases hr : st.execute s.db s.now p.fresh with
      | error x => exact .inl rfl
      | ok a =>
        obtain ⟨htaken, hrun⟩ := Sql.execute_ok_iff.mp hr
        exact .inr (.alone ht hc hrun hf htaken)
  | commit => exact .inr (.commit (complete_pending hc))
  | _ => exact .inl rfl

theorem db_of_exec {s s' : World} {q : Cmd} {p : Pick} {r : Except Exn q.Ans} (hc : Contract D i s q)
    (hx : World.exec i q p s = some (r, s')) :
    s'.db = s.db ∨ ∃ ws, DbStep D i s q p ws ∧ s'.db = s.db.applyAll ws := by
  have hdb := db_of_commits hx
  rcases commits_ok hc hx with hnil | hstep
  · rw [hnil] at hdb
    exact .inl hdb
  · exact .inr ⟨_, hstep, hdb⟩

theorem db_of_event {v : Event} {s s' : World} (hx : World.event v s = some s') : s'.db = s.db := by
  cases v with
  | toDlq id =>
    obtain ⟨m, -, rfl⟩ := Option.map_eq_some_iff.mp hx
    rfl
  | _ =>
    cases hx
    rfl

/-- What a step commits. -/
def Step.writes (st : (service D).Step) : List Write :=
  match st.action with
  | .step i p =>
    match st.before.threads i with
    | some ⟨_, some (.call q _)⟩ => World.commits st.before.world i q p
    | _ => []
  | _ => []

/-- Everything that a run commits, in its order. -/
def journal : List (service D).Step → List Write
  | [] => []
  | st :: h => journal h ++ Step.writes st

theorem writes_of_at {c c' : (service D).Config} {e : (service D).Entry} {q : Cmd} {p : (service D).Pick}
    {k : Except Exn q.Ans → Prog iface Exn (service D).Out} (hat : c.At i e q k) :
    Step.writes ⟨c, .step i p, c'⟩ = World.commits c.world i q p := by
  simp only [Step.writes]
  rw [show c.threads i = _ from hat]

/-- A step changes the database by what it commits. -/
theorem db_of_next {c c' : (service D).Config} {a : (service D).Action} (hn : Pool.next c a = some c') :
    c'.world.db = c.world.db.applyAll (Step.writes ⟨c, a, c'⟩) := by
  cases a with
  | start j e =>
    obtain ⟨-, rfl⟩ := Pool.next_start hn
    rfl
  | step j p =>
    obtain ⟨e, q, k, r, w, hat, hx, rfl⟩ := Pool.next_step hn
    rw [writes_of_at hat]
    exact db_of_commits hx
  | crash j =>
    obtain ⟨e, q, k, hat, rfl⟩ := Pool.next_crash hn
    rfl
  | env v =>
    obtain ⟨w, hx, rfl⟩ := Pool.next_env hn
    exact db_of_event hx

/-- The database is what was committed. -/
theorem db_of_run {ok : (service D).Config → (service D).Action → Prop} {c : (service D).Config} {now : Time}
    {h : List (service D).Step} (hr : Pool.Run ok (boot D now) h c) :
    c.world.db = Database.applyAll {} (journal h) := by
  induction hr with
  | nil => rfl
  | cons hr ha hn ih => rw [journal, applyAll_append, ← ih, db_of_next hn]

/-- What a step of a run commits keeps the contract of its request. -/
theorem writes_ok {c c' : (service D).Config} {now : Time} {a : (service D).Action}
    (hr : Pool.Reachable (boot D now) c) (hn : Pool.next c a = some c') :
    Step.writes ⟨c, a, c'⟩ = [] ∨ ∃ j p e q k, a = .step j p ∧ c.At j e q k ∧
      Step.writes ⟨c, a, c'⟩ = c.world.commits j q p ∧ DbStep D j c.world q p (Step.writes ⟨c, a, c'⟩) := by
  cases a with
  | step j p =>
    obtain ⟨e, q, k, r, w, hat, hx, rfl⟩ := Pool.next_step hn
    rw [writes_of_at hat]
    rcases commits_ok ((sound_of_reachable hr).pre_of_at (valid D False) hat).1 hx with hnil | hstep
    · exact .inl hnil
    · exact .inr ⟨j, p, e, q, k, rfl, hat, rfl, hstep⟩
  | _ => exact .inl rfl

/-- What the empty database satisfies with the empty journal, and every change of
the database keeps, holds of the database and the journal of every run. -/
theorem journal_induction {ok : (service D).Config → (service D).Action → Prop} {c : (service D).Config}
    {now : Time} {h : List (service D).Step} (hr : Pool.Run ok (boot D now) h c)
    {J : Database → List Write → Prop} (init : J {} [])
    (step : ∀ {i s q p ws log}, Inv s → J s.db log → DbStep D i s q p ws → J (s.db.applyAll ws) (log ++ ws)) :
    J c.world.db (journal h) := by
  induction hr with
  | nil => exact init
  | @cons h c a c' hr ha hn ih =>
    rw [journal, db_of_next hn]
    rcases writes_ok hr.reachable hn with hnil | ⟨j, p, e, q, k, rfl, hat, hws, hstep⟩
    · rw [hnil, List.append_nil]
      exact ih
    · exact step (inv_of_reachable hr.reachable) ih hstep

/-- What the empty database satisfies and every change of the database keeps
holds in every reachable configuration. -/
theorem database_induction {c : (service D).Config} {now : Time} (hr : Pool.Reachable (boot D now) c)
    {J : Database → Prop} (init : J {})
    (step : ∀ {i s q p ws}, Inv s → J s.db → DbStep D i s q p ws → J (s.db.applyAll ws)) : J c.world.db := by
  obtain ⟨h, hr⟩ := hr
  exact journal_induction hr (J := fun db _ => J db) init fun hi hJ hs => step hi hJ hs

end CM
