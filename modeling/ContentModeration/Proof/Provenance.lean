import ContentModeration.Proof.AuditLog
import ContentModeration.Proof.ContentHash

/-!
# Where rows and messages come from

The identifiers and hashes of a job are carried through its message, its decision and
its review, and no constraint of the schema ties them together. `Coherent` says that they
agree, in every state of a run in which `handle_message` is given what a queue holds
(`coherent_of_run`).

Every content item is that of a call of `accept_image`, and the object under its key is the
image of that call (`Accepted`). So the content hash of a decision is that of the stored
image under the policy version of the call, and under the policy version of the decision
only as long as the worker has the same one (`labelled_iff`).
-/

namespace CM

open Database World

variable {D : Deployment} {i : Nat} {ok : (service D).Config → (service D).Action → Prop} {now : Time}
  {h : List (service D).Step} {c c' : (service D).Config} {a : (service D).Action}

/-! ## What lasts in a run -/

/-- A started call is not forgotten. -/
theorem entry_of_next (hn : Pool.next c a = some c') {e : Entry} (hi : ∃ t, c.threads i = some ⟨e, t⟩) :
    ∃ t, c'.threads i = some ⟨e, t⟩ := by
  obtain ⟨t, ht⟩ := hi
  by_cases hm : a.thread = some i
  · cases a with
    | start j f =>
      cases hm
      rw [(Pool.next_start hn).1] at ht
      cases ht
    | step j p =>
      cases hm
      obtain ⟨f, q, k, r, w, hat, -, rfl⟩ := Pool.next_step hn
      cases ht.symm.trans hat
      exact ⟨_, Pool.Config.threads_set_self ..⟩
    | crash j =>
      cases hm
      obtain ⟨f, q, k, hat, rfl⟩ := Pool.next_crash hn
      cases ht.symm.trans hat
      exact ⟨_, Pool.Config.threads_set_self ..⟩
    | env v => cases hm
  · rw [Pool.threads_next hn hm]
    exact ⟨t, ht⟩

/-- What a request leaves in a transaction was there, or is written by a statement of it. -/
theorem pending_of_exec {s s' : World} {q : Cmd} {p : Pick} {r : Except Exn q.Ans} (hc : Contract D i s q)
    (hx : World.exec i q p s = some (r, s')) {w : Write} (hw : w ∈ s'.pending i) :
    w ∈ s.pending i ∨ ∃ st, q = .sql st ∧ st.InTxn ∧ ∃ db t, Makes db t st w := by
  have same : s'.txn i = s.txn i → w ∈ s.pending i := fun ht => pending_congr ht ▸ hw
  have none : s'.pending i = [] → w ∈ s.pending i := fun hp => by
    rw [hp] at hw
    cases hw
  cases change_of_exec hx with
  | pend active run free =>
    rw [pending_of_txn (txn_setTxn_self ..)] at hw
    rcases List.mem_append.mp hw with hw | hw
    · exact .inl (pending_of_txn active ▸ hw)
    · simp only [Contract, active] at hc
      exact .inr ⟨_, rfl, hc, _, _, makes_of_run run w hw⟩
  | abort => exact .inl (none (pending_of_aborted (txn_setTxn_self ..)))
  | begin => exact .inl (none (pending_of_txn (txn_setTxn_self ..)))
  | commit => exact .inl (none (pending_of_idle (txn_finish_self ..)))
  | drop => exact .inl (none (pending_of_idle (txn_finish_self ..)))
  | redisExpire =>
    refine .inl (same ?_)
    simp only [World.redisExpire]
    split
    · rfl
    · split <;> rfl
  | delete | acknowledge => exact .inl (same (txn_remove ..))
  | _ => exact .inl (same rfl)

/-- What a thread has written and not yet committed, it has written by statements of a
transaction. -/
theorem pending_of_next (hr : Pool.Reachable (boot D now) c) (hn : Pool.next c a = some c') {w : Write}
    (hw : w ∈ c'.world.pending i) : w ∈ c.world.pending i ∨
    ∃ p e st k, a = .step i p ∧ c.At i e (.sql st) k ∧ st.InTxn ∧ ∃ db t, Makes db t st w := by
  by_cases hm : a.thread = some i
  · cases a with
    | start j f =>
      obtain ⟨-, rfl⟩ := Pool.next_start hn
      exact .inl hw
    | step j p =>
      cases hm
      obtain ⟨e, q, k, r, s, hat, hx, rfl⟩ := Pool.next_step hn
      rcases pending_of_exec ((sound_of_reachable hr).pre_of_at (valid D False) hat).1 hx hw with hw | ⟨st,
        rfl, hst, hm⟩
      · exact .inl hw
      · exact .inr ⟨p, e, st, k, rfl, hat, hst, hm⟩
    | crash j =>
      cases hm
      obtain ⟨e, q, k, hat, rfl⟩ := Pool.next_crash hn
      have hnone : (World.crash i c.world).pending i = [] := pending_of_idle (txn_setTxn_self ..)
      have hw : w ∈ (World.crash i c.world).pending i := hw
      rw [hnone] at hw
      cases hw
    | env v => cases hm
  · exact .inl (pending_congr (kept_of_next hr hn hm).txn ▸ hw)

/-! ## What calls are told -/

/-- `handle_message` is given what a queue holds. -/
def FromQueue (c : (service D).Config) (a : (service D).Action) : Prop :=
  ∀ i settings body, a = .start i (.handleMessage settings body) → ∃ m ∈ c.world.messages, m.body = .json body

/-- Every message is read as a job message. -/
def Readable (s : World) : Prop := ∀ m ∈ s.messages, ∃ job, Reads m.body job

/-- The image `body` is stored as the object `key`. -/
def PutIn (h : List (service D).Step) (key : String) (body : List UInt8) : Prop :=
  ∃ st ∈ h, ∃ i p e contentType k, st.action = .step i p ∧ st.before.At i e (.putObject key body contentType) k ∧
    ∀ text, p.fault ≠ .before text

theorem PutIn.mono {key : String} {body : List UInt8} (st : (service D).Step) (hp : PutIn h key body) :
    PutIn (st :: h) key body := by
  obtain ⟨st', hm, hp⟩ := hp
  exact ⟨st', List.mem_cons_of_mem _ hm, hp⟩

/-- What thread `i` has seen is so. -/
structure Informed (h : List (service D).Step) (i : Nat) (x : Known) (s : World) : Prop where
  grounded : Grounded i x s
  received : ∀ b ∈ x.received, (∃ job, Reads b job) ∧ BodyOk s.db b
  put : ∀ key ∈ x.put, ∃ body, PutIn h key body

/-- Messages are received and objects stored by their own requests. -/
theorem Known.after_eq {x : Known} {q : Cmd} {r : Except Exn q.Ans} (hr : ∀ queue max, q ≠ .receive queue max)
    (hp : ∀ key body contentType, q ≠ .putObject key body contentType) :
    (x.after q r).received = x.received ∧ (x.after q r).put = x.put := by
  cases q with
  | receive queue max => exact absurd rfl (hr queue max)
  | putObject key body contentType => exact absurd rfl (hp key body contentType)
  | sql st =>
    cases st with
    | insertAudit row =>
      cases r with
      | error err => exact ⟨rfl, rfl⟩
      | ok a =>
        show (if x.inTxn then x else { x with owed := x.owed.tail }).received = _ ∧ Known.put (ite ..) = _
        split <;> exact ⟨rfl, rfl⟩
    | jobAttempts | resetJob | claimReview | resolveReview =>
      cases r with
      | error err => exact ⟨rfl, rfl⟩
      | ok a => cases a <;> exact ⟨rfl, rfl⟩
    | _ => cases r <;> exact ⟨rfl, rfl⟩
  | _ => cases r <;> exact ⟨rfl, rfl⟩

theorem Informed.own {x : Known} {e : Entry} {q : Cmd} {k : Except Exn q.Ans → M Out} {p : Pick}
    {r : Except Exn q.Ans} {s' : World} (hx : Informed h i x c.world) (hr : Pool.Run ok (boot D now) h c)
    (hat : c.At i e q k) (hexec : World.exec i q p c.world = some (r, s')) (hread : Readable c.world) :
    Informed (⟨c, .step i p, c'⟩ :: h) i (x.after q r) s' := by
  have hs := sound_of_reachable hr.reachable
  have hg := grows_of_next hr.reachable (Pool.next_of_at hat hexec)
  have hground : Grounded i (x.after q r) s' := hx.grounded.step hr hat hexec
  have received : ∀ b ∈ x.received, (∃ job, Reads b job) ∧ BodyOk s'.db b := fun b hb =>
    ⟨(hx.received b hb).1, (hx.received b hb).2.mono hg.db⟩
  have put : ∀ key ∈ x.put, ∃ body, PutIn (⟨c, .step i p, c'⟩ :: h) key body := fun key hk =>
    (hx.put key hk).imp fun _ => .mono _
  cases q with
  | receive queue max =>
    cases r with
    | error err => exact ⟨hground, received, put⟩
    | ok ms =>
      refine ⟨hground, fun b hb => ?_, put⟩
      rcases List.mem_append.mp hb with hb | hb
      · obtain ⟨m, hm, rfl⟩ := List.mem_map.mp hb
        have hm : m ∈ c.world.messages := by
          simp only [World.exec] at hexec
          split at hexec
          · obtain ⟨ms', hpick, ha⟩ := Option.map_eq_some_iff.mp hexec
            obtain ⟨rfl, -⟩ := answer_ok ha
            exact mem_of_pick hpick m hm
          · cases hexec
        exact ⟨hread m hm, (hs.inv.queued.bodies m hm).mono hg.db⟩
      · exact received b hb
  | putObject key body contentType =>
    cases r with
    | error err => exact ⟨hground, received, put⟩
    | ok u =>
      refine ⟨hground, received, List.forall_mem_cons.mpr ⟨⟨body, _, List.mem_cons_self, i, p, e, contentType, k, rfl,
        hat, fun text hf => ?_⟩, put⟩⟩
      have := fault_of_ok (Option.some.inj hexec)
      rw [hf] at this
      cases this
  | _ =>
    obtain ⟨hrec, hput⟩ := Known.after_eq (x := x) (r := r) (fun _ _ => by simp) fun _ _ _ => by simp
    exact ⟨hground, hrec ▸ received, hput ▸ put⟩

/-- What the calls of a run have seen is so. -/
theorem informed_of_run (hok : ∀ c a, ok c a → FromQueue c a ∧ Readable c.world) (hr : Pool.Run ok (boot D now) h c)
    (i : Nat) : c.InPhase (M := track D) (fun _ _ y => y.Idle) (fun _ x => Informed h i x c.world) i := by
  refine hr.follows (fun _ => rfl) (M := track D) (code_tracked D) (G := fun i _ x h s => Informed h i x s)
    (fun {h c i e c'} hr ha hn => ?_) (fun {h c i e q k p r s x} hr ha hat hx _ hG => ?_)
    (fun {h c a c' i e p x} hr ha hn hm _ _ hG => ?_) i
  · have hs := sound_of_reachable hr.reachable
    refine ⟨.init hr hn, fun b hb => ?_, fun _ h => (nomatch h)⟩
    cases e with
    | handleMessage settings body =>
      obtain rfl := List.mem_singleton.mp hb
      obtain ⟨hqueue, hread⟩ := hok _ _ ha
      obtain ⟨m, hm, hbody⟩ := hqueue i settings body rfl
      exact hbody ▸ ⟨hread m hm, hs.inv.queued.bodies m hm⟩
    | _ => cases hb
  · exact hG.own hr hat hx (hok _ _ ha).2
  · have hk := kept_of_next hr.reachable hn hm
    exact ⟨hG.grounded.mono hk.grows (by rw [hk.txn]),
      fun b hb => ⟨(hG.received b hb).1, (hG.received b hb).2.mono hk.grows.db⟩,
      fun key hk => (hG.put key hk).imp fun _ => .mono _⟩

/-! ## Messages -/

/-- A request adds a message to the queues only by sending it. -/
theorem messages_of_exec {s s' : World} {q : Cmd} {p : Pick} {r : Except Exn q.Ans}
    (hx : World.exec i q p s = some (r, s')) {m : Message} (hm : m ∈ s'.messages) : m ∈ s.messages ∨
    (∃ provider job body, q = .enqueue provider job body m.attributes ∧ m.body = .json body) ∨
    q = .sendMessage m.body m.attributes := by
  cases change_of_exec hx with
  | enqueue =>
    rcases mem_messages_send.mp hm with hm | rfl
    · exact .inl hm
    · exact .inr (.inl ⟨_, _, _, rfl, rfl⟩)
  | sendMessage =>
    rcases mem_messages_send.mp hm with hm | rfl
    · exact .inl hm
    · exact .inr (.inr rfl)
  | delete | acknowledge => exact .inl ((sublist_messages_remove _ _ _).subset hm)
  | redisExpire =>
    simp only [World.redisExpire] at hm
    split at hm
    · exact .inl hm
    · split at hm <;> exact .inl hm
  | _ => exact .inl hm

theorem messages_of_event {s s' : World} {v : Event} (hx : World.event v s = some s') {m : Message}
    (hm : m ∈ s'.messages) : m ∈ s.messages := by
  cases v with
  | toDlq id =>
    obtain ⟨m', hfind, rfl⟩ := Option.map_eq_some_iff.mp hx
    simp only [World.messages, List.mem_append, List.mem_filter, List.mem_singleton] at hm ⊢
    rcases hm with ⟨hm, -⟩ | hm | rfl
    · exact .inl hm
    · exact .inr hm
    · exact .inl (List.mem_of_find?_eq_some hfind)
  | _ =>
    cases hx
    exact hm

theorem Readable.next (hr : Pool.Run ok (boot D now) h c) (hread : Readable c.world)
    (hok : ∀ c a, ok c a → FromQueue c a ∧ Readable c.world) (hn : Pool.next c a = some c') : Readable c'.world := by
  intro m hm
  cases a with
  | start j e =>
    obtain ⟨-, rfl⟩ := Pool.next_start hn
    exact hread m hm
  | step j p =>
    obtain ⟨e, q, k, r, s, hat, hx, rfl⟩ := Pool.next_step hn
    have hc := ((sound_of_reachable hr.reachable).pre_of_at (valid D False) hat).1
    rcases messages_of_exec hx hm with hm | ⟨provider, job, body, rfl, hb⟩ | rfl
    · exact hread m hm
    · obtain ⟨job', hreads, -⟩ := hc.2.1
      exact hb ▸ ⟨job', hreads⟩
    · obtain ⟨x, ⟨⟨-, hsent⟩, -⟩, hx⟩ := informed_of_run hok hr j e _ hat
      exact (hx.received _ hsent).1
  | crash j =>
    obtain ⟨e, q, k, hat, rfl⟩ := Pool.next_crash hn
    exact hread m hm
  | env v =>
    obtain ⟨w, hx, rfl⟩ := Pool.next_env hn
    exact hread m (messages_of_event hx hm)

/-- In a run in which `handle_message` is given what a queue holds, all messages are job
messages. -/
theorem readable_of_run (hr : Pool.Run FromQueue (boot D now) h c) :
    Readable c.world ∧ Pool.Run (fun c a => FromQueue c a ∧ Readable c.world) (boot D now) h c := by
  induction hr with
  | nil => exact ⟨fun _ h => (nomatch h), .nil⟩
  | cons hr ha hn ih => exact ⟨ih.1.next ih.2 (fun _ _ h => h) hn, .cons ih.2 ⟨ha, ih.1⟩ hn⟩

/-! ## Decisions and contents -/

/-- The decision is that of its job, and is labelled with the policy version of the worker,
which is the call `i`. -/
structure Attributed (c : (service D).Config) (i : Nat) (d : DecisionRow) : Prop where
  link : (d.envelope.jobId, d.envelope.contentId, d.envelope.contentHash) ∈ c.world.db.jobs.map Job.link
  worker : ∃ e t, c.threads i = some ⟨e, t⟩ ∧ e.policyVersion? = some d.envelope.policyVersion

/-- The content item is that of the call `i` of `accept_image`, which has stored its image. -/
structure Ingested (h : List (service D).Step) (c : (service D).Config) (i : Nat) (row : ContentItem) : Prop where
  drawn : (row.id, i) ∈ c.world.drawn
  call : ∃ settings req, (∃ t, c.threads i = some ⟨.acceptImage settings req, t⟩) ∧
    row.objectKey = objectKeyOf (digestOf D settings req) row.id req.contentType ∧
    row.contentHash = digestOf D settings req ∧ row.caption = strip req.caption
  stored : ∃ body, PutIn h row.objectKey body

/-- Where the rows come from that thread `i` inserts in a transaction. -/
def Sourced (h : List (service D).Step) (c : (service D).Config) (i : Nat) : Write → Prop
  | .decision d => Attributed c i d
  | .content row => Ingested h c i row
  | _ => True

theorem Sourced.next {w : Write} (hs : Sourced h c i w) (hr : Pool.Reachable (boot D now) c)
    (hn : Pool.next c a = some c') : Sourced (⟨c, a, c'⟩ :: h) c' i w := by
  have hg := grows_of_next hr hn
  cases w with
  | decision d =>
    obtain ⟨e, t, ht, hv⟩ := hs.worker
    obtain ⟨t', ht'⟩ := entry_of_next hn ⟨t, ht⟩
    exact ⟨hg.db.jobs hs.link, e, t', ht', hv⟩
  | content row =>
    obtain ⟨settings, req, ht, hrow⟩ := hs.call
    exact ⟨hg.drawn hs.drawn, ⟨settings, req, entry_of_next hn ht, hrow⟩, hs.stored.imp fun _ => .mono _⟩
  | _ => trivial

/-- A statement of a transaction inserts what the call has seen. -/
theorem sourced_of_makes {e : Entry} {st : Sql} {k : Except Exn st.Ans → M Out} {x : Known} {db : Database} {t : Time}
    {w : Write} (hat : c.At i e (.sql st) k) (hx : Informed h i x c.world) (hq : x.Allows D e (.sql st))
    (hm : Makes db t st w) : Sourced h c i w := by
  cases hm with
  | decision =>
    obtain ⟨-, hv, b, hb, m, hreads, hjob, hcontent, hhash⟩ := hq
    refine ⟨?_, e, _, hat, hv⟩
    have hlink := ((hx.received b hb).2 m hreads).1
    rwa [← hjob, ← hcontent, ← hhash] at hlink
  | content =>
    obtain ⟨-, settings, req, rfl, hdrawn, hput, hrow⟩ := hq
    exact ⟨hx.grounded.drawn _ hdrawn, ⟨settings, req, ⟨_, hat⟩, hrow⟩, hx.put _ hput⟩
  | _ => trivial

/-- Where the rows of a run come from: those of open transactions and those that were
committed. -/
theorem sourced_of_run (hok : ∀ c a, ok c a → FromQueue c a ∧ Readable c.world) (hr : Pool.Run ok (boot D now) h c) :
    (∀ i, ∀ w ∈ c.world.pending i, Sourced h c i w) ∧ ∀ w ∈ journal h, w.Plain ∨ ∃ i, Sourced h c i w := by
  induction hr with
  | nil => exact ⟨fun _ _ h => (nomatch h), fun _ h => (nomatch h)⟩
  | @cons h c a c' hr ha hn ih =>
    refine ⟨fun i w hw => ?_, fun w hw => ?_⟩
    · rcases pending_of_next hr.reachable hn hw with hw | ⟨p, e, st, k, rfl, hat, -, db, t, hm⟩
      · exact (ih.1 i w hw).next hr.reachable hn
      · obtain ⟨x, ⟨hq, -⟩, hx⟩ := informed_of_run hok hr i e _ hat
        exact (sourced_of_makes hat hx hq hm).next hr.reachable hn
    · rcases List.mem_append.mp hw with hw | hw
      · exact (ih.2 w hw).imp_right fun ⟨i, hs⟩ => ⟨i, hs.next hr.reachable hn⟩
      · rcases writes_ok hr.reachable hn with hnil | ⟨j, p, e, q, k, rfl, hat, -, hstep⟩
        · rw [hnil] at hw
          cases hw
        · generalize Step.writes _ = ws at hw hstep
          cases hstep with
          | alone idle contract run fault => exact .inl (plain_of_alone contract (makes_of_run run w hw))
          | commit complete => exact .inr ⟨j, (ih.1 j w hw).next hr.reachable hn⟩

theorem attributed_of_run (hr : Pool.Run FromQueue (boot D now) h c) :
    ∀ d ∈ c.world.db.decisions, ∃ i, Attributed c i d := by
  intro d hd
  rw [db_of_run hr, decisions_applyAll] at hd
  rcases (sourced_of_run (fun _ _ h => h) (readable_of_run hr).2).2 _ (mem_of_filterMap_decision hd) with hp | hs
  · cases hp.keys
  · exact hs

theorem mem_of_filterMap_content {ws : List Write} {row : ContentItem} (h : row ∈ ws.filterMap Write.content?) :
    .content row ∈ ws := by
  obtain ⟨w, hw, he⟩ := List.mem_filterMap.mp h
  cases w <;> simp only [Write.content?, Option.some.injEq, reduceCtorEq] at he
  exact he ▸ hw

theorem ingested_of_run (hr : Pool.Run FromQueue (boot D now) h c) :
    ∀ row ∈ c.world.db.contents, ∃ i, Ingested h c i row := by
  intro row hm
  rw [db_of_run hr, contents_applyAll] at hm
  rcases (sourced_of_run (fun _ _ h => h) (readable_of_run hr).2).2 _ (mem_of_filterMap_content hm) with hp | hs
  · cases hp.keys
  · exact hs

/-! ## Rows and messages agree -/

/-- The message is that of a job and of its content. -/
def MessageOf (db : Database) (m : JobMessage) : Prop :=
  ∃ j ∈ db.jobs, j.id = m.jobId ∧ j.contentId = m.contentId ∧ j.contentHash = m.contentHash ∧
  ∃ c ∈ db.contents, c.id = j.contentId ∧ c.contentHash = m.contentHash ∧ c.objectKey = m.objectKey ∧
    c.caption = m.caption

/-- The rows of all tables and the messages of both queues agree. -/
structure Coherent (s : World) : Prop where
  messages : ∀ msg ∈ s.messages, ∃ m, Reads msg.body m ∧ MessageOf s.db m
  decisions : ∀ d ∈ s.db.decisions, ∃ j ∈ s.db.jobs, j.id = d.envelope.jobId ∧ j.contentId = d.envelope.contentId ∧
    j.contentHash = d.envelope.contentHash ∧ ∃ c ∈ s.db.contents, c.id = j.contentId ∧ c.contentHash = j.contentHash
  reviews : ∀ r ∈ s.db.reviews, ∃ d ∈ s.db.decisions, d.id = r.decisionId ∧ r.jobId = d.envelope.jobId ∧
    r.contentId = d.envelope.contentId

/-- Every review is that of its decision. -/
def ReviewsOk (db : Database) : Prop :=
  ∀ r ∈ db.reviews, ∃ d ∈ db.decisions, d.id = r.decisionId ∧ r.jobId = d.envelope.jobId ∧
    r.contentId = d.envelope.contentId

theorem ReviewsOk.applyAll {db : Database} {ws : List Write} (h : ReviewsOk db)
    (hnew : ∀ r, .review r ∈ ws → ∃ d ∈ (db.applyAll ws).decisions, d.id = r.decisionId ∧ r.jobId = d.envelope.jobId ∧
      r.contentId = d.envelope.contentId) : ReviewsOk (db.applyAll ws) := by
  intro r hr
  obtain ⟨r₀, he, hr₀⟩ := link_of_mem_reviews hr
  simp only [ReviewRow.link, Prod.mk.injEq] at he
  rw [← he.2.1, ← he.2.2.1, ← he.2.2.2]
  rcases hr₀ with hr₀ | hr₀
  · obtain ⟨d, hd, hrow⟩ := h r₀ hr₀
    exact ⟨d, (extends_applyAll db ws).decisions hd, hrow⟩
  · exact hnew r₀ hr₀

theorem reviews_of_run (hr : Pool.Reachable (boot D now) c) : ReviewsOk c.world.db := by
  refine database_induction hr (fun _ h => (nomatch h)) fun {i s q p ws} hi h hs => h.applyAll fun r hm => ?_
  cases hs with
  | alone idle contract run fault =>
    cases (plain_of_alone contract (makes_of_run run _ hm)).keys
  | commit complete =>
    generalize s.pending i = ws at complete hm
    cases complete with
    | nil => cases hm
    | decision e id reviewId t =>
      refine ⟨⟨id, e⟩, by rw [decisions_decisionBundle]; exact List.mem_append_right _ List.mem_cons_self, ?_⟩
      by_cases hn : e.needsHumanReview = true <;> simp [decisionBundle, hn] at hm
      exact hm ▸ ⟨rfl, rfl, rfl⟩
    | ingest => simp [ingestBundle] at hm

theorem coherent_of_run (hr : Pool.Run FromQueue (boot D now) h c) : Coherent c.world := by
  have hi := inv_of_reachable hr.reachable
  refine ⟨fun msg hm => ?_, fun d hd => ?_, reviews_of_run hr.reachable⟩
  · obtain ⟨m, hreads⟩ := (readable_of_run hr).1 msg hm
    obtain ⟨hlink, row, hrow, hid, hcontent⟩ := hi.queued.bodies msg hm m hreads
    obtain ⟨j, hj, he⟩ := List.mem_map.mp hlink
    simp only [Job.link, Prod.mk.injEq] at he
    exact ⟨m, hreads, j, hj, he.1, he.2.1, he.2.2, row, hrow, hid.trans he.2.1.symm, hcontent⟩
  · obtain ⟨i, ha⟩ := attributed_of_run hr d hd
    obtain ⟨-, row, hrow, hid, hhash⟩ := hi.owned _ ha.link
    obtain ⟨j, hj, he⟩ := List.mem_map.mp ha.link
    simp only [Job.link, Prod.mk.injEq] at he
    exact ⟨j, hj, he.1, he.2.1, he.2.2, row, hrow, hid.trans he.2.1.symm, hhash.trans he.2.2.symm⟩

/-- A check that the workers take their messages from the queues themselves. -/
def polled? : (service D).Action → Bool
  | .start _ (.handleMessage ..) => false
  | _ => true

theorem fromQueue_of_check (c : (service D).Config) (a : (service D).Action) (h : polled? a = true) :
    FromQueue c a := by
  rintro i settings body rfl
  cases h

theorem coherent_sample : ∃ h c, Pool.Run FromQueue (boot (sample .atomic) 0) h c ∧
    (c.world.messages ≠ [] ∧ c.world.db.reviews ≠ []) ∧ Coherent c.world := by
  have hrun : (Pool.replayIf (fun _ => polled?) (ingestSample (sample .atomic) 0 1 2 ++ .step 0 {} ::
      workSample (sample .atomic) 1 17 ++ [.env (.toDlq 0)]) (boot (sample .atomic) 0)).any
      (fun c => decide (c.world.messages ≠ [] ∧ c.world.db.reviews ≠ [])) = true := by
    decide +kernel
  obtain ⟨h, c, hr, hc⟩ := Pool.exists_replayIf fromQueue_of_check hrun
  exact ⟨h, c, hr, of_decide_eq_true hc, coherent_of_run hr⟩

/-! ## The policy version of a decision -/

theorem dot_notMem_objectExtension (contentType : String) : '.' ∉ (objectExtension contentType).toList := by
  simp only [objectExtension]
  split <;> decide

theorem toList_objectKeyOf (digest : String) (u : Uuid) (contentType : String) :
    (objectKeyOf digest u contentType).toList = ("content/" ++ takeStr 2 digest ++ "/" ++ digest ++ "/").toList ++
      u.strChars ++ '.' :: (objectExtension contentType).toList := by
  have hdot : ".".toList = ['.'] := by decide
  unfold objectKeyOf
  generalize "content/" ++ takeStr 2 digest ++ "/" ++ digest ++ "/" = directory
  rw [String.toList_append, String.toList_append, String.toList_append, hdot, Uuid.str, String.toList_ofList,
    List.append_assoc, List.singleton_append]

/-- The key of an object tells the content item: its identifier is what stands before the last dot. -/
theorem id_of_objectKey {digest digest' contentType contentType' : String} {u u' : Uuid}
    (h : objectKeyOf digest u contentType = objectKeyOf digest' u' contentType') : u = u' := by
  have hl := congrArg String.toList h
  rw [toList_objectKeyOf, toList_objectKeyOf] at hl
  have hkey := (append_cons_inj (dot_notMem_objectExtension _) (dot_notMem_objectExtension _) hl).1
  have hchars := (List.append_inj' hkey (by rw [Uuid.length_strChars, Uuid.length_strChars])).2
  exact Uuid.str_injective (congrArg String.ofList hchars)

/-- SHA-256 gives two inputs the same digest. -/
def Deployment.Collides (D : Deployment) (x y : List UInt8) : Prop := x ≠ y ∧ D.sha256 x = D.sha256 y

/-- Two policy versions give an image the same digest only if they are the same, or SHA-256 collides. -/
theorem contentHash_eq_iff (body : List UInt8) (caption v v' : String) :
    contentHash D.sha256 body caption v = contentHash D.sha256 body caption v' ↔
      v = v' ∨ D.Collides (hashInput body caption v) (hashInput body caption v') := by
  have hinput : hashInput body caption v = hashInput body caption v' → v = v' := by
    intro h
    rw [hashInput_eq, hashInput_eq] at h
    have hlabel := encode_injective (List.cons.inj (List.append_cancel_left h)).2
    exact String.toList_inj.mp (List.cons.inj (List.append_cancel_left hlabel)).2
  rw [contentHash_eq, contentHash_eq]
  refine ⟨fun h => ?_, ?_⟩
  · by_cases he : v = v'
    · exact .inl he
    · exact .inr ⟨fun hi => he (hinput hi), h⟩
  · rintro (rfl | ⟨-, h⟩)
    · rfl
    · exact h

/-- The content hash of the decision is that of its stored image and caption under its
own policy version. -/
def Labelled (h : List (service D).Step) (db : Database) (d : DecisionRow) : Prop :=
  ∃ row ∈ db.contents, row.id = d.envelope.contentId ∧ (∃ body, PutIn h row.objectKey body) ∧
  ∀ body, PutIn h row.objectKey body →
    d.envelope.contentHash = contentHash D.sha256 body row.caption d.envelope.policyVersion

/-- The version is the one under which the call accepts its image, unless SHA-256 does not
tell them apart. -/
def AcceptedUnder (D : Deployment) (settings : ApiSettings) (req : IngestRequest) (version : String) : Prop :=
  version = settings.policyVersion ∨ D.Collides (hashInput req.body (strip req.caption) version)
    (hashInput req.body (strip req.caption) settings.policyVersion)

/-- A worker that commits a decision has the policy version under which the call of
`accept_image` that has drawn its content has accepted it. -/
def SameVersion (st : (service D).Step) : Prop :=
  ∀ j p e t version d, st.action = .step j p → st.before.threads j = some ⟨e, t⟩ → e.policyVersion? = some version →
    .decision d ∈ Step.writes st → ∀ i settings req t', st.before.threads i = some ⟨.acceptImage settings req, t'⟩ →
    (d.envelope.contentId, i) ∈ st.before.world.drawn → AcceptedUnder D settings req version

/-- The object of a content item is the image that was accepted. -/
theorem image_of_put (hr : Pool.Run FromQueue (boot D now) h c) {row : ContentItem} {settings : ApiSettings}
    {req : IngestRequest} (hdrawn : (row.id, i) ∈ c.world.drawn)
    (hcall : ∃ t, c.threads i = some ⟨.acceptImage settings req, t⟩) {digest contentType : String}
    (hkey : row.objectKey = objectKeyOf digest row.id contentType) {body : List UInt8}
    (hput : PutIn h row.objectKey body) : body = req.body := by
  have hr' := (readable_of_run hr).2
  obtain ⟨st, hst, i', p, e, ct, k, hact, hat, -⟩ := hput
  obtain ⟨⟨h₀, hr₀⟩, -, hn⟩ := hr'.mem hst
  obtain ⟨x, ⟨⟨-, settings', req', rfl, rfl, u, hu, hkey'⟩, -⟩, hx⟩ :=
    informed_of_run (fun _ _ h => h) hr₀ i' e _ hat
  obtain rfl := id_of_objectKey (hkey'.symm.trans hkey)
  have hdrawn' : (row.id, i') ∈ c.world.drawn :=
    hr'.keeps (K := fun c => (row.id, i') ∈ c.world.drawn) (fun hr hd hn => (grows_of_next hr hn).drawn hd) hst
      ((grows_of_next hr₀.reachable hn).drawn (hx.grounded.drawn _ hu))
  obtain rfl := drawn_unique (inv_of_reachable hr.reachable).drawn hdrawn' hdrawn
  obtain ⟨t, ht⟩ := hcall
  obtain ⟨t', ht'⟩ := hr'.keeps (K := fun c => ∃ t, c.threads i' = some ⟨.acceptImage settings' req', t⟩)
    (fun _ hi hn => entry_of_next hn hi) hst (entry_of_next hn ⟨_, hat⟩)
  cases ht.symm.trans ht'
  rfl

/-- A decision has the content hash of its stored image under its own policy version if
and only if its content was accepted under this version. -/
theorem labelled_iff_accepted (hr : Pool.Run FromQueue (boot D now) h c) {d : DecisionRow}
    (hd : d ∈ c.world.db.decisions)
    {settings : ApiSettings} {req : IngestRequest} (hdrawn : (d.envelope.contentId, i) ∈ c.world.drawn)
    (hcall : ∃ t, c.threads i = some ⟨.acceptImage settings req, t⟩) :
    Labelled h c.world.db d ↔ AcceptedUnder D settings req d.envelope.policyVersion := by
  have hi := inv_of_reachable hr.reachable
  obtain ⟨j, ha⟩ := attributed_of_run hr d hd
  obtain ⟨-, row, hrow, hid, hhash⟩ := hi.owned _ ha.link
  obtain ⟨i', hin⟩ := ingested_of_run hr row hrow
  -- the call that has drawn the content is the one that has stored it
  have hid : row.id = d.envelope.contentId := hid
  rw [← hid] at hdrawn
  obtain rfl := drawn_unique hi.drawn hin.drawn hdrawn
  obtain ⟨settings', req', ⟨t', ht'⟩, hkey, hdigest, hcaption⟩ := hin.call
  obtain ⟨t, ht⟩ := hcall
  cases ht.symm.trans ht'
  have himage : ∀ body, PutIn h row.objectKey body → body = req.body := fun body hput =>
    image_of_put hr hin.drawn ⟨_, ht⟩ hkey hput
  have hcontent : d.envelope.contentHash = contentHash D.sha256 req.body (strip req.caption) settings.policyVersion :=
    hhash.symm.trans hdigest
  rw [AcceptedUnder, ← contentHash_eq_iff, ← hcontent]
  refine ⟨fun ⟨row', hrow', hid', ⟨body, hput⟩, hall⟩ => ?_, fun he =>
    ⟨row, hrow, hid, hin.stored, fun body hput => ?_⟩⟩
  · obtain rfl := List.inj_on_of_nodup_map hi.unique.contents hrow' hrow (hid'.trans hid.symm)
    rw [hall body hput, himage body hput, hcaption]
  · rw [himage body hput, hcaption, he]

/-- The content of a decision is that of a call of `accept_image`. -/
theorem Attributed.accepted (hr : Pool.Run FromQueue (boot D now) h c) {j : Nat} {d : DecisionRow}
    (hd : Attributed c j d) :
    ∃ i settings req, (d.envelope.contentId, i) ∈ c.world.drawn ∧
      ∃ t, c.threads i = some ⟨.acceptImage settings req, t⟩ := by
  obtain ⟨-, row, hrow, hid, -⟩ := (inv_of_reachable hr.reachable).owned _ hd.link
  obtain ⟨i, hin⟩ := ingested_of_run hr row hrow
  obtain ⟨settings, req, ht, -⟩ := hin.call
  have hid : row.id = d.envelope.contentId := hid
  exact ⟨i, settings, req, hid ▸ hin.drawn, ht⟩

/-- What a step commits is labelled if and only if the worker has the policy version of
the accepted content. -/
theorem sameVersion_iff (hr : Pool.Run FromQueue (boot D now) h c) (ha : FromQueue c a)
    (hn : Pool.next c a = some c') :
    SameVersion (⟨c, a, c'⟩ : (service D).Step) ↔
      ∀ d, .decision d ∈ Step.writes ⟨c, a, c'⟩ → Labelled (⟨c, a, c'⟩ :: h) c'.world.db d := by
  have hr' := Pool.Run.cons hr ha hn
  have hg := grows_of_next hr.reachable hn
  have committed : ∀ d, .decision d ∈ Step.writes ⟨c, a, c'⟩ → d ∈ c'.world.db.decisions := fun d hm => by
    rw [db_of_next hn, decisions_applyAll]
    exact List.mem_append_right _ (List.mem_filterMap.mpr ⟨_, hm, rfl⟩)
  -- the decision is in the transaction of the worker
  have source : ∀ d, .decision d ∈ Step.writes ⟨c, a, c'⟩ → ∃ j p, a = .step j p ∧ Attributed c j d := by
    intro d hm
    rcases writes_ok hr.reachable hn with hnil | ⟨j, p, e, q, k, rfl, hat, -, hstep⟩
    · rw [hnil] at hm
      cases hm
    · generalize Step.writes _ = ws at hm hstep
      cases hstep with
      | alone idle contract run fault =>
        cases (plain_of_alone contract (makes_of_run run _ hm)).keys
      | commit complete =>
        exact ⟨j, p, rfl, (sourced_of_run (fun _ _ h => h) (readable_of_run hr).2).1 j _ hm⟩
  refine ⟨fun hs d hm => ?_, fun hl j p e t version d hact ht hv hm i settings req t' ht' hdrawn => ?_⟩
  · obtain ⟨j, p, rfl, hd⟩ := source d hm
    obtain ⟨e, t, ht, hv⟩ := hd.worker
    obtain ⟨i, settings, req, hdrawn, t', ht'⟩ := hd.accepted hr
    exact (labelled_iff_accepted hr' (committed d hm) (hg.drawn hdrawn) (entry_of_next hn ⟨t', ht'⟩)).mpr
      (hs j p e t _ d rfl ht hv hm i settings req t' ht' hdrawn)
  · obtain ⟨j', p', he, hd⟩ := source d hm
    cases hact.symm.trans he
    obtain ⟨e', t'', ht'', hv'⟩ := hd.worker
    cases ht.symm.trans ht''
    cases hv.symm.trans hv'
    exact (labelled_iff_accepted hr' (committed d hm) (hg.drawn hdrawn) (entry_of_next hn ⟨t', ht'⟩)).mp (hl d hm)

/-- Every decision of a run has the content hash of its stored image under its own policy
version if and only if every worker that commits one has the policy version under which
its content was accepted. -/
theorem labelled_iff (hr : Pool.Run FromQueue (boot D now) h c) :
    (∀ d ∈ c.world.db.decisions, Labelled h c.world.db d) ↔ ∀ st ∈ h, SameVersion st := by
  induction hr with
  | nil => exact ⟨fun _ _ h => (nomatch h), fun _ _ h => (nomatch h)⟩
  | @cons h c a c' hr ha hn ih =>
    have hr' := Pool.Run.cons hr ha hn
    have hg := grows_of_next hr.reachable hn
    -- a decision that was there is labelled now if it was before
    have old : ∀ d ∈ c.world.db.decisions,
        (Labelled (⟨c, a, c'⟩ :: h) c'.world.db d ↔ Labelled h c.world.db d) := by
      intro d hd
      obtain ⟨j, hj⟩ := attributed_of_run hr d hd
      obtain ⟨i, settings, req, hdrawn, ht⟩ := hj.accepted hr
      rw [labelled_iff_accepted hr hd hdrawn ht,
        labelled_iff_accepted hr' (hg.db.decisions hd) (hg.drawn hdrawn) (entry_of_next hn ht)]
    have hrows : ∀ d, d ∈ c'.world.db.decisions ↔ d ∈ c.world.db.decisions ∨
        .decision d ∈ Step.writes ⟨c, a, c'⟩ := by
      intro d
      rw [db_of_next hn, decisions_applyAll, List.mem_append]
      exact or_congr_right ⟨mem_of_filterMap_decision, fun hm => List.mem_filterMap.mpr ⟨_, hm, rfl⟩⟩
    rw [List.forall_mem_cons, sameVersion_iff hr ha hn, ← ih]
    refine ⟨fun hl => ⟨fun d hm => hl d ((hrows d).mpr (.inr hm)), fun d hd =>
      (old d hd).mp (hl d ((hrows d).mpr (.inl hd)))⟩,
      fun ⟨hnew, hold⟩ d hd => ?_⟩
    rcases (hrows d).mp hd with hd | hd
    · exact (old d hd).mpr (hold d hd)
    · exact hnew d hd

/-! ## Runs -/

theorem labelled_sample : ∃ h c, Pool.Run FromQueue (boot (sample .atomic) 0) h c ∧ c.world.db.decisions ≠ [] ∧
    ((∀ d ∈ c.world.db.decisions, Labelled h c.world.db d) ↔ ∀ st ∈ h, SameVersion st) := by
  have hrun : (Pool.replayIf (fun _ => polled?) (flaggedSample (sample .atomic)) (boot (sample .atomic) 0)).any
      (fun c => decide (c.world.db.decisions ≠ [])) = true := by
    decide +kernel
  obtain ⟨h, c, hr, hc⟩ := Pool.exists_replayIf fromQueue_of_check hrun
  exact ⟨h, c, hr, of_decide_eq_true hc, labelled_iff hr⟩

/-- The digests of the image `ff d8 ff` without a caption under "policy-v1" and "policy-v2". -/
def rolloutDigest : Digest := fun bytes =>
  if bytes = hashInput [0xff, 0xd8, 0xff] "" "policy-v2" then
    "765a50d6b029da49f74b9fd68a0c2e6491918043bf01bbd84132da4a68cd4f76"
  else sampleDigest bytes

def rollout : Deployment := { sha256 := rolloutDigest }

/-- The settings and the image of a call of `accept_image`. -/
def acceptedBy? (c : (service D).Config) (i : Nat) : Option (ApiSettings × IngestRequest) :=
  match c.threads i with
  | some ⟨.acceptImage settings req, _⟩ => some (settings, req)
  | _ => none

theorem call_of_acceptedBy? {c : (service D).Config} {settings : ApiSettings} {req : IngestRequest}
    (h : acceptedBy? c i = some (settings, req)) : ∃ t, c.threads i = some ⟨.acceptImage settings req, t⟩ := by
  simp only [acceptedBy?] at h
  split at h
  · rename_i ht
    cases h
    exact ⟨_, ht⟩
  · cases h

/-- A worker of "policy-v2" decides on an image that was accepted under "policy-v1". -/
theorem mislabelled : ¬ ∀ h c, Pool.Run FromQueue (boot rollout 0) h c →
    ∀ d ∈ c.world.db.decisions, Labelled h c.world.db d := by
  intro hall
  have hrun : (Pool.replayIf (fun _ => polled?) (ingestSample rollout 0 1 2 ++ .step 0 {} ::
      .start 1 (.pollSqs { policyVersion := "policy-v2" } 1) :: List.replicate 19 (.step 1 flagSample))
      (boot rollout 0)).any (fun c => c.world.db.decisions.any fun d => (acceptedBy? c 0).any fun (settings, req) =>
        decide ((d.envelope.contentId, 0) ∈ c.world.drawn ∧ d.envelope.policyVersion ≠ settings.policyVersion ∧
          rolloutDigest (hashInput req.body (strip req.caption) d.envelope.policyVersion) ≠
            rolloutDigest (hashInput req.body (strip req.caption) settings.policyVersion))) = true := by
    decide +kernel
  obtain ⟨h, c, hr, hc⟩ := Pool.exists_replayIf fromQueue_of_check hrun
  obtain ⟨d, hd, hc⟩ := List.any_eq_true.mp hc
  obtain ⟨⟨settings, req⟩, hcall, hc⟩ := (Option.any_eq_true _ _).mp hc
  obtain ⟨hdrawn, hv, hdigest⟩ := of_decide_eq_true hc
  rcases (labelled_iff_accepted hr hd hdrawn (call_of_acceptedBy? hcall)).mp (hall h c hr d hd) with he | ⟨-, he⟩
  · exact hv he
  · exact hdigest he

end CM
