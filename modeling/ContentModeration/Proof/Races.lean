import ContentModeration.Framework.Monitor
import ContentModeration.Proof.Transitions

/-!
# The race for a digest

When an INSERT of `accept_image` violates a unique key, because another call has committed a job
for the same digest in the meantime, the handler looks up the winner's job. But it does so in the
transaction that the INSERT has aborted (`RacePhase.broken`), so the lookup raises as well, and
the call never returns (`race_never_resolved`).
-/

namespace CM

open Database World

variable {D : Deployment} {s s' : World} {i : Nat}

/-- An INSERT of `accept_image`. -/
def Cmd.IsIngestInsert : Cmd → Prop
  | .sql (.insertContent _) | .sql (.insertJob ..) => True
  | _ => False

/-- The digest that an INSERT of `accept_image` makes unique. -/
def Cmd.digest? : Cmd → Option String
  | .sql (.insertContent row) => some row.contentHash
  | .sql (.insertJob _ _ digest) => some digest
  | _ => none

/-- An INSERT of thread `i` raises `x`. -/
def FailedInsert (i : Nat) (st : (service D).Step) (x : Exn) : Prop :=
  ∃ p e q k w, st.action = .step i p ∧ st.before.At i e q k ∧ q.IsIngestInsert ∧
    World.exec i q p st.before.world = some (.error x, w)

/-! ## The phases of an ingest -/

/-- Nothing has failed; an INSERT has failed in the open transaction; it has been rolled back.
In the last anything may happen: it is the phase of the other calls, and no ingest gets to it. -/
inductive RacePhase where
  | clean
  | broken
  | ended
  | free
  deriving DecidableEq

def RacePhase.after : RacePhase → (q : Cmd) → Except Exn q.Ans → RacePhase
  | .clean, .sql (.insertContent _), .error _ | .clean, .sql (.insertJob ..), .error _ => .broken
  | .broken, .sql (.jobByHash _), .ok _ => .free
  | .broken, .rollback, _ => .ended
  | x, _, _ => x

/-- After an INSERT has failed, there are lookups, and then the transaction is rolled back. -/
def RacePhase.allows : RacePhase → Cmd → Prop
  | .broken, q => (∃ digest, q = .sql (.jobByHash digest)) ∨ q = .rollback
  | .ended, _ => False
  | _, _ => True

def raceMonitor (e : Entry) : Monitor iface Exn where
  Phase := RacePhase
  init := match e with
    | .acceptImage .. => .clean
    | _ => .free
  allows := RacePhase.allows
  after := RacePhase.after

/-- A call that returns has not failed to insert. -/
def raceEnds {α : Type} (r : Except Exn α) (x : RacePhase) : Prop :=
  match r with
  | .ok _ => x = .clean ∨ x = .free
  | .error _ => True

theorem after_clean (q : Cmd) (r : Except Exn q.Ans) :
    RacePhase.after .clean q r = .clean ∧ ¬ (q.IsIngestInsert ∧ ∃ x, r = .error x) ∨
    RacePhase.after .clean q r = .broken ∧ q.IsIngestInsert ∧ ∃ x, r = .error x := by
  have other : ¬ q.IsIngestInsert → RacePhase.after .clean q r = .clean := by
    intro hq
    cases q with
    | sql st => cases st <;> first | rfl | exact absurd trivial hq
    | _ => rfl
  have insert : q.IsIngestInsert → ∀ x, r = .error x → RacePhase.after .clean q r = .broken := by
    rintro hq x rfl
    cases q with
    | sql st => cases st <;> first | rfl | cases hq
    | _ => cases hq
  have answered : ∀ a, r = .ok a → RacePhase.after .clean q r = .clean := by
    rintro a rfl
    cases q with
    | sql st => cases st <;> rfl
    | _ => rfl
  by_cases hq : q.IsIngestInsert
  · cases r with
    | ok a => exact .inl ⟨answered a rfl, fun ⟨_, x, hx⟩ => by cases hx⟩
    | error x => exact .inr ⟨insert hq x rfl, hq, x, rfl⟩
  · exact .inl ⟨other hq, fun h => hq h.1⟩

theorem after_free (q : Cmd) (r : Except Exn q.Ans) : RacePhase.after .free q r = .free := by
  cases q with
  | sql st => cases st <;> rfl
  | _ => rfl

/-! ## `accept_image` follows the phases -/

section Follows

variable {α β : Type} {e : Entry} {p : M α} {f : α → M β}

/-- A program that inserts nothing stays in the clean phase. -/
theorem follows_clean (h : p.Only fun q : Cmd => ¬ q.IsIngestInsert) :
    p.Follows (raceMonitor e) (fun _ x => x = .clean) .clean := by
  refine Prog.Follows.of_only (h.mono fun q hq => ⟨trivial, fun r => ?_⟩)
  rcases after_clean q r with ⟨ha, -⟩ | ⟨-, hin, -⟩
  · exact ha
  · exact absurd hin hq

/-- In the free phase a program may do anything. -/
theorem follows_free (p : M α) : p.Follows (raceMonitor e) (fun _ x => x = .free) .free := by
  induction p with
  | ret a => rfl
  | throw x => rfl
  | call q k ih =>
    refine ⟨trivial, fun r => ?_⟩
    have hr : (raceMonitor e).after .free q r = .free := after_free q r
    rw [hr]
    exact ih r

theorem races_clean (h : p.Only fun q : Cmd => ¬ q.IsIngestInsert) : p.Follows (raceMonitor e) raceEnds .clean :=
  (follows_clean h).mono fun r x hx => by cases r <;> first | exact .inl hx | trivial

theorem races_free (p : M α) : p.Follows (raceMonitor e) raceEnds .free :=
  (follows_free p).mono fun r x hx => by cases r <;> first | exact .inr hx | trivial

/-- A program that inserts nothing, and then one that follows the phases. -/
theorem races_then (hp : p.Only fun q : Cmd => ¬ q.IsIngestInsert)
    (hf : ∀ a, (f a).Follows (raceMonitor e) raceEnds .clean) :
    (p >>= f).Follows (raceMonitor e) raceEnds .clean := by
  refine .bind ((follows_clean hp).mono fun r x hx => ?_)
  cases r with
  | ok a =>
    obtain rfl : x = .clean := hx
    exact hf a
  | error y => trivial

/-- An INSERT, and then what follows the phases: if it raises, the phase is broken. -/
theorem races_insert {st : Sql} (hst : (Cmd.sql st).IsIngestInsert) {g : st.Ans → M β}
    {E : Except Exn β → RacePhase → Prop} (hE : ∀ x, E (.error x) .broken)
    (hg : ∀ a, (g a).Follows (raceMonitor e) E .clean) : (sql st >>= g).Follows (raceMonitor e) E .clean := by
  refine .bind ⟨trivial, fun r => ?_⟩
  rcases after_clean (.sql st) r with ⟨ha, hno⟩ | ⟨ha, -, x, rfl⟩
  · cases r with
    | ok a =>
      rw [show (raceMonitor e).after .clean (.sql st) (.ok a) = .clean from ha]
      exact hg a
    | error x => exact absurd ⟨hst, x, rfl⟩ hno
  · rw [show (raceMonitor e).after .clean (.sql st) (.error x) = .broken from ha]
    exact hE x

/-- Before the transaction of an ingest ends, a failed INSERT has not been rolled back, and it is
forgotten only in the free phase. -/
def raceBodyEnds (r : Except Exn α) (x : RacePhase) : Prop := x ≠ .ended ∧ ∀ a, r = .ok a → x = .clean ∨ x = .free

theorem raceBodyEnds.raised {x : RacePhase} {y : Exn} (hx : x ≠ .ended) : raceBodyEnds (.error y : Except Exn α) x :=
  ⟨hx, fun a ha => by cases ha⟩

/-- The handler of the transaction: the lookup answers only where it has not been broken. -/
theorem races_handler {g : Option JobRef → M (Option IngestResponse)} {x : RacePhase} {digest : String}
    (hx : x = .clean ∨ x = .broken) (hg : ∀ j, (∃ a, g j = .ret a) ∨ ∃ y, g j = .throw y) :
    (sql (.jobByHash digest) >>= g).Follows (raceMonitor e) raceBodyEnds x := by
  have continued : ∀ (y : RacePhase) j, y = .clean ∨ y = .free → (g j).Follows (raceMonitor e) raceBodyEnds y := by
    intro y j hy
    have hne : y ≠ .ended := by rcases hy with rfl | rfl <;> simp
    rcases hg j with ⟨a, ha⟩ | ⟨z, hz⟩
    · rw [ha]
      exact ⟨hne, fun _ _ => hy⟩
    · rw [hz]
      exact raceBodyEnds.raised hne
  refine .bind ?_
  rcases hx with rfl | rfl
  · refine ⟨trivial, fun r => ?_⟩
    cases r with
    | ok j => exact continued .clean j (.inl rfl)
    | error y => exact raceBodyEnds.raised (by simp [raceMonitor, RacePhase.after])
  · refine ⟨.inl ⟨digest, rfl⟩, fun r => ?_⟩
    cases r with
    | ok j => exact continued .free j (.inr rfl)
    | error y => exact raceBodyEnds.raised (by simp [raceMonitor, RacePhase.after])

/-- A transaction whose body follows the phases. -/
theorem races_transaction {body : M α} (h : body.Follows (raceMonitor e) raceBodyEnds .clean) :
    (transaction body).Follows (raceMonitor e) raceEnds .clean := by
  refine races_then (.ask id) fun _ => .bind (.attempt (h.mono ?_))
  rintro r x ⟨hne, hok⟩
  cases r with
  | ok a =>
    have hcommit : (request .commit >>= fun _ => pure a : M α).Only fun q : Cmd => ¬ q.IsIngestInsert :=
      .bind (.ask id) fun _ => trivial
    rcases hok a rfl with rfl | rfl
    · exact races_clean hcommit
    · exact races_free _
  | error y =>
    cases x with
    | clean => exact races_clean (.bind (.ask id) fun _ => trivial)
    | free => exact races_free _
    | broken => exact ⟨.inr rfl, fun r => by cases r <;> trivial⟩
    | ended => exact absurd rfl hne

/-- Two INSERTs and another statement, with a handler for what they raise. -/
theorem races_inserts {insert insert' audit : Sql} {a : α} {handler : Exn → M α}
    (hi : (Cmd.sql insert).IsIngestInsert)
    (hi' : (Cmd.sql insert').IsIngestInsert) (ha : ¬ (Cmd.sql audit).IsIngestInsert)
    (hh : ∀ y x, x = .clean ∨ x = .broken → (handler y).Follows (raceMonitor e) raceBodyEnds x) :
    (Prog.tryCatch
      (do
        let _ ← sql insert
        let _ ← sql insert'
        let _ ← sql audit
        return a) handler).Follows (raceMonitor e) raceBodyEnds .clean := by
  refine .bind (.attempt (races_insert hi (fun y => hh y .broken (.inr rfl)) fun _ =>
    races_insert hi' (fun y => hh y .broken (.inr rfl)) fun _ =>
      .bind ((follows_clean (.stmt ha)).mono fun r x hx => ?_)))
  obtain rfl : x = .clean := hx
  cases r with
  | ok a => exact ⟨by simp, fun _ _ => .inl rfl⟩
  | error y => exact hh y .clean (.inl rfl)

theorem races_persistJob (content : ContentItem) (jobId : Uuid) (tenantId : String) :
    (persistJob content jobId tenantId).Follows (raceMonitor e) raceEnds .clean := by
  refine races_transaction (races_inserts (by trivial) (by trivial) id fun y x hx => ?_)
  split
  · exact races_handler hx fun j => by cases j <;> first | exact .inl ⟨_, rfl⟩ | exact .inr ⟨_, rfl⟩
  · exact raceBodyEnds.raised (by rcases hx with rfl | rfl <;> simp)

theorem races_acceptImage (sha256 : Digest) (settings : ApiSettings) (req : IngestRequest) :
    (acceptImage sha256 settings req).Follows (raceMonitor e) raceEnds .clean := by
  have waits : ∀ digest n, (awaitIngest digest n).Only fun q : Cmd => ¬ q.IsIngestInsert := by
    intro digest n
    induction n with
    | zero => trivial
    | succ n ih =>
      refine .bind (.stmt id) fun found => ?_
      cases found with
      | some j => trivial
      | none => exact .bind (.ask id) fun _ => ih
  have sends : ∀ (carrier : List (String × String)) (content : ContentItem) (jobId : Uuid),
      (sendJob settings carrier content jobId).Only fun q : Cmd => ¬ q.IsIngestInsert := by
    intro carrier content jobId
    refine .bind (.attempt (.ask id)) fun r => ?_
    cases r with
    | ok u => trivial
    | error x => exact .bind (.ask id) fun _ => .bind (.stmt id) fun _ => trivial
  simp only [acceptImage]
  split
  · trivial
  split
  · trivial
  split
  · trivial
  refine races_then (.ask id) fun _ => races_then (.stmt id) fun found => ?_
  cases found with
  | some j => exact .inl rfl
  | none =>
    refine races_then (.ask id) fun acquired => ?_
    split
    · refine races_then (.ask id) fun contentId => races_then (.ask id) fun jobId =>
        races_then (.attempt (.ask id)) fun stored => ?_
      cases stored with
      | error x => trivial
      | ok u =>
        refine races_then (.ask id) fun _ => .bind ((races_persistJob _ _ _).mono fun r x hx => ?_)
        cases r with
        | error y => trivial
        | ok found =>
          rcases hx with rfl | rfl
          · cases found with
            | some response => exact .inl rfl
            | none => exact races_clean (sends ..)
          · exact races_free _
    · exact races_clean (.bind (.ask id) fun _ => waits _ _)

theorem races_code (D : Deployment) (e : Entry) :
    ((service D).code e).Follows (raceMonitor e) raceEnds (raceMonitor e).init := by
  cases e with
  | acceptImage settings req =>
    refine .bind ((races_acceptImage D.sha256 settings req).mono fun r x hx => ?_)
    cases r with
    | ok a => exact hx
    | error y => trivial
  | _ => exact races_free _

end Follows

/-! ## Runs -/

/-- A statement that raises in a transaction aborts it. -/
theorem aborted_of_error {st : Sql} {p : Pick} {x : Exn} {t : Txn} (ht : s.txn i = some t)
    (hx : World.exec i (.sql st) p s = some (.error x, s')) : s'.txn i = some .aborted := by
  simp only [World.exec, runSql, ht] at hx
  cases t with
  | aborted =>
    cases hx
    exact ht
  | active started ws =>
    dsimp only at hx
    split at hx
    · split at hx <;> cases hx
    · cases hx
      exact txn_setTxn_self ..
    · cases hx
      exact txn_setTxn_self ..
    · cases hx
      exact txn_setTxn_self ..

/-- What is known in the phases of an ingest. -/
def RaceKnown (i : Nat) (e : Entry) (x : RacePhase) (h : List (service D).Step) (s : World) : Prop :=
  match x with
  | .clean => ∀ st ∈ h, ∀ y, ¬ FailedInsert i st y
  | .broken => s.txn i = some .aborted
  | .ended => True
  | .free => ∀ settings req, e ≠ .acceptImage settings req

/-- A request of thread `i` leads from what is known in a phase to what is known in the next. -/
theorem RaceKnown.own {h : List (service D).Step} {c : (service D).Config} {e : Entry} {q : Cmd}
    {k : Except Exn q.Ans → M Out} {p : Pick} {r : Except Exn q.Ans} {x : RacePhase} (hg : RaceKnown i e x h c.world)
    (hc : Contract D i c.world q) (ha : RacePhase.allows x q) (hat : c.At i e q k)
    (hx : World.exec i q p c.world = some (r, s')) {c' : (service D).Config} :
    RaceKnown i e (x.after q r) (⟨c, .step i p, c'⟩ :: h) s' := by
  cases x with
  | clean =>
    rcases after_clean q r with ⟨hq, hno⟩ | ⟨hq, hin, y, rfl⟩
    · rw [hq]
      rintro st hm y ⟨p', e', q', k', w, hact, hat', hin, hx'⟩
      rcases List.mem_cons.mp hm with rfl | hm
      · cases hact
        cases show some _ = some _ from hat.symm.trans hat'
        cases hx.symm.trans hx'
        exact hno ⟨hin, y, rfl⟩
      · exact hg st hm y ⟨p', e', q', k', w, hact, hat', hin, hx'⟩
    · rw [hq]
      have hst : ∃ st, q = .sql st ∧ ¬ st.Alone D c.world := by
        cases q with
        | sql st => exact ⟨st, rfl, by cases st <;> first | exact id | cases hin⟩
        | _ => cases hin
      obtain ⟨st, rfl, hne⟩ := hst
      cases ht : c.world.txn i with
      | none =>
        simp only [Contract, ht] at hc
        exact absurd hc hne
      | some t => exact aborted_of_error ht hx
  | broken =>
    rcases ha with ⟨digest, rfl⟩ | rfl
    · have hg : c.world.txn i = some .aborted := hg
      simp only [World.exec, runSql, hg] at hx
      cases hx
      exact hg
    · trivial
  | ended => exact ha.elim
  | free =>
    rw [after_free]
    exact hg

/-- In every run, each ingest is in a phase of the race. -/
theorem races_of_run {now : Time} {h : List (service D).Step} {c : (service D).Config}
    (hr : Pool.Run Pool.anything (boot D now) h c) :
    c.InPhase (M := raceMonitor) (fun _ => raceEnds) (fun e x => RaceKnown i e x h c.world) i := by
  refine hr.follows (fun _ => rfl) (G := RaceKnown) (races_code D) ?_ ?_ ?_ i
  · intro h c i e c' hr _ hn
    have hclean : RaceKnown i e .clean (⟨c, .start i e, c'⟩ :: h) c.world := by
      rintro st hm y ⟨p, e', q, k, w, hact, hrest⟩
      rcases List.mem_cons.mp hm with rfl | hm
      · cases hact
      · exact hr.thread_ne (Pool.next_start hn).1 hm (by rw [hact]; rfl)
    cases e with
    | acceptImage settings req => exact hclean
    | _ => exact fun _ _ he => by cases he
  · intro h c i e q k p r s x hr _ hat hx hp hg
    exact hg.own ((sound_of_reachable hr.reachable).pre_of_at (valid D False) hat).1 hp.1 hat hx
  · intro h c a c' i e p x hr _ hn hi hat hp hg
    cases x with
    | clean =>
      rintro st hm y ⟨p', e', q', k', w, hact, hrest⟩
      rcases List.mem_cons.mp hm with rfl | hm
      · obtain rfl : a = .step i p' := hact
        exact hi rfl
      · exact hg st hm y ⟨p', e', q', k', w, hact, hrest⟩
    | broken => exact (kept_of_next hr.reachable hn hi).txn.trans hg
    | ended => trivial
    | free => exact hg

/-- The INSERT of thread `i`, an ingest, violates the unique key of its digest. -/
def LostRace (i : Nat) (settings : ApiSettings) (req : IngestRequest) (st : (service D).Step) : Prop :=
  ∃ p q k w digest key, st.action = .step i p ∧ st.before.At i (.acceptImage settings req) q k ∧
    q.digest? = some digest ∧ (key = .contentHash digest ∨ key = .jobHash digest) ∧
    World.exec i q p st.before.world = some (.error (uniqueViolation key), w)

/-- The ingest has returned the job that is there for its digest. -/
def RaceResolved (c : (service D).Config) (i : Nat) (settings : ApiSettings) (req : IngestRequest) : Prop :=
  ∃ response, c.Returned i (.acceptImage settings req) (.accepted response) ∧ response.deduplicated = true ∧
    ∃ j ∈ c.world.db.jobs, j.contentHash = response.contentHash ∧ j.id = response.jobId ∧
      j.contentId = response.contentId

theorem LostRace.failed {settings : ApiSettings} {req : IngestRequest} {st : (service D).Step}
    (h : LostRace i settings req st) : ∃ x, FailedInsert i st x := by
  obtain ⟨p, q, k, w, digest, key, hact, hat, hd, -, hx⟩ := h
  refine ⟨_, p, _, q, k, w, hact, hat, ?_, hx⟩
  cases q with
  | sql st => cases st <;> trivial
  | _ => cases hd

/-- An ingest that has lost the race never returns, so the race is not resolved. -/
theorem race_never_resolved {now : Time} {h : List (service D).Step} {c : (service D).Config}
    (hr : Pool.Run Pool.anything (boot D now) h c) {settings : ApiSettings} {req : IngestRequest}
    {st : (service D).Step}
    (hm : st ∈ h) (hl : LostRace i settings req st) :
    (∀ a, ¬ c.Returned i (.acceptImage settings req) a) ∧ ¬ RaceResolved c i settings req := by
  have hnever : ∀ a, ¬ c.Returned i (.acceptImage settings req) a := by
    intro a hret
    obtain ⟨x, hx, hg⟩ := races_of_run hr _ _ hret
    obtain ⟨y, hf⟩ := hl.failed
    rcases hx with rfl | rfl
    · exact hg st hm y hf
    · exact hg settings req rfl
  exact ⟨hnever, fun ⟨response, hret, _⟩ => hnever _ hret⟩

/-! ## A lost race -/

/-- Thread 0 looks for the sample's job and is given the lock, which expires before it inserts its
row; thread 1 then ingests the sample. -/
def raceSample (D : Deployment) : List (service D).Action :=
  (ingestSample D 0 1 2).take 9 ++ .env (.tick (seconds 121)) :: ingestSample D 1 3 4

/-- The thread is an ingest of the sample that is about to insert its content. -/
def inserting? (c : (service D).Config) (i : Nat) : Option ContentItem :=
  match c.threads i with
  | some ⟨.acceptImage settings req, some (.call (.sql (.insertContent row)) _)⟩ =>
    if settings = {} ∧ req = sampleRequest then some row else none
  | _ => none

/-- The step is the INSERT of the sample's content by thread `i`, while the job of thread `j` has
the digest, and it violates the unique key of the digest. -/
def lost? (i j : Nat) (st : (service D).Step) : Bool :=
  match st.action, inserting? st.before i with
  | .step i' p, some row => decide (i' = i) &&
    (World.db st.before.world).jobs.any (fun job => decide (job.contentHash = row.contentHash ∧
      (job.id, j) ∈ World.drawn st.before.world)) &&
    match World.exec i (.sql (.insertContent row)) p st.before.world with
    | some (.error x, _) => decide (x = uniqueViolation (.contentHash row.contentHash))
    | _ => false
  | _, _ => false

theorem lostRace_of_check {j : Nat} {st : (service D).Step} (h : lost? i j st = true) :
    LostRace i {} sampleRequest st ∧
    ∃ job ∈ (World.db st.before.world).jobs, (job.id, j) ∈ World.drawn st.before.world := by
  simp only [lost?] at h
  split at h
  · rename_i i' p row hact hin
    simp only [Bool.and_eq_true, decide_eq_true_eq] at h
    obtain ⟨⟨rfl, hwin⟩, hx⟩ := h
    obtain ⟨job, hm, hjob⟩ := List.any_eq_true.mp hwin
    split at hx
    · rename_i x w hexec
      obtain rfl := of_decide_eq_true hx
      simp only [inserting?] at hin
      split at hin
      · rename_i settings req row' k hat
        split at hin
        · rename_i heq
          obtain ⟨rfl, rfl⟩ := heq
          cases hin
          exact ⟨⟨p, _, k, w, row.contentHash, _, hact, hat, rfl, .inl rfl, hexec⟩, job, hm,
            (of_decide_eq_true hjob).2⟩
        · cases hin
      · cases hin
    · cases hx
  · cases h

/-- The ingest of thread `i` has raised since its transaction had failed. -/
def failed? (c : (service D).Config) (i : Nat) : Bool :=
  match c.threads i with
  | some ⟨.acceptImage .., some (.throw x)⟩ => decide (x = inFailedTransaction)
  | _ => false

/-- Thread 0 has lost the race to thread 1, and its lookup of the job that thread 1 has committed raises. -/
theorem lost_race_raises : ∃ h c, Pool.Run Pool.anything (boot (sample .atomic) 0) h c ∧
    (∃ st ∈ h, LostRace 0 {} sampleRequest st ∧
      ∃ job ∈ (World.db st.before.world).jobs, (job.id, 1) ∈ World.drawn st.before.world) ∧
    (∃ e, c.threads 0 = some ⟨e, some (.throw inFailedTransaction)⟩) ∧ ¬ RaceResolved c 0 {} sampleRequest := by
  have hrun : (Pool.recordIf (fun _ _ => true) (raceSample (sample .atomic) ++ List.replicate 3 (.step 0 {})) []
      (boot (sample .atomic) 0)).any (fun x => x.1.any (lost? 0 1) && failed? x.2 0) = true := by
    decide +kernel
  obtain ⟨⟨h, c⟩, hx, hrun⟩ := (Option.any_eq_true _ _).mp hrun
  have hany : ∀ (c : (service (sample .atomic)).Config) a, true = true → Pool.anything c a := fun _ _ _ => trivial
  have hr := Pool.Run.nil.recordIf hany hx
  obtain ⟨hlost, hfailed⟩ := Bool.and_eq_true_iff.mp hrun
  obtain ⟨st, hm, hst⟩ := List.any_eq_true.mp hlost
  simp only [failed?] at hfailed
  split at hfailed
  · rename_i e x ht
    obtain rfl := of_decide_eq_true hfailed
    refine ⟨h, c, hr, ⟨st, hm, lostRace_of_check hst⟩, ⟨_, ht⟩, ?_⟩
    rintro ⟨response, hret, -⟩
    cases show some _ = some _ from ht.symm.trans hret
  · cases hfailed

theorem race_never_resolved_sample : ∃ h c st, Pool.Run Pool.anything (boot (sample .atomic) 0) h c ∧ st ∈ h ∧
    LostRace 0 {} sampleRequest st ∧ (∀ a, ¬ c.Returned 0 (.acceptImage {} sampleRequest) a) ∧
    ¬ RaceResolved c 0 {} sampleRequest := by
  have hrun : (Pool.recordIf (fun _ _ => true) (raceSample (sample .atomic) ++ [.step 0 {}]) []
      (boot (sample .atomic) 0)).any (fun x => x.1.any (lost? 0 1)) = true := by
    decide +kernel
  obtain ⟨⟨h, c⟩, hx, hlost⟩ := (Option.any_eq_true _ _).mp hrun
  have hany : ∀ (c : (service (sample .atomic)).Config) a, true = true → Pool.anything c a := fun _ _ _ => trivial
  have hr := Pool.Run.nil.recordIf hany hx
  obtain ⟨st, hm, hst⟩ := List.any_eq_true.mp hlost
  have hl := (lostRace_of_check hst).1
  exact ⟨h, c, st, hr, hm, hl, race_never_resolved hr hm hl⟩

end CM
