import ContentModeration.Framework.Record
import ContentModeration.Proof.Provenance

/-!
# Decisions are made on what was uploaded

A worker decides on what it fetches from the object store and on the caption of its message. Every
request that it makes is justified by what it has been answered before (`Reasons`): the image it
analyzes is the one it has fetched, the signals it classifies are those of that image, and the
decision it inserts is routed from both. In a run whose object store gives out what was stored under
a key (`Honest`), the stored decision is therefore the route of the models' answers on exactly the
bytes and the caption of the call of `accept_image` whose digest it carries (`verdict_of_upload`).
Nothing that is stored is ever stored over (`puts_nodup`).
-/

namespace CM

open Database World

variable {D : Deployment} {i j : Nat} {ok : (service D).Config → (service D).Action → Prop} {now : Time}
  {h : List (service D).Step} {c c' : (service D).Config} {e : Entry} {α β : Type}

/-! ## The record of a worker -/

/-- The settings of a worker. -/
def Entry.workerSettings? : Entry → Option WorkerSettings
  | .handleMessage settings _ | .pollSqs settings _ | .pollPubsub settings _ => some settings
  | _ => none

/-- What a call has asked and been answered. -/
abbrev Record := List (Exchange iface Exn)

/-- The call has been handed a message with the body `b`. -/
def Handed (e : Entry) (x : Record) (b : RawBody) : Prop :=
  (∃ settings body, e = .handleMessage settings body ∧ b = .json body) ∨
  ∃ queue max ms, ⟨.receive queue max, .ok ms⟩ ∈ x ∧ ∃ m ∈ ms, m.body = b

/-- The envelope is built from the models' answers on the image that was fetched for the job. -/
def Judges (settings : WorkerSettings) (job : JobMessage) (x : Record) (envelope : DecisionEnvelope) : Prop :=
  ∃ image contentType notes vision suggested llm latencyMs,
    ⟨.fetchObject job.objectKey, .ok (image, contentType)⟩ ∈ x ∧ validate image contentType settings = .ok notes ∧
    ⟨.analyze image job.caption, .ok vision⟩ ∈ x ∧ ⟨.classify job.caption vision, .ok (suggested, llm)⟩ ∈ x ∧
    buildEnvelope settings job vision suggested llm latencyMs = .ok envelope

/-- What justifies a request of the call: a decision is inserted only for a message that was handed to a
worker, and as the models' answers say. -/
def Reasons (e : Entry) (x : Record) : Cmd → Prop
  | .sql (.insertDecision envelope) => ∃ settings b job, e.workerSettings? = some settings ∧ Handed e x b ∧
      Reads b job ∧ Judges settings job x envelope
  | _ => True

theorem Handed.mono {x y : Record} {b : RawBody} (h : Handed e x b) (hy : x ⊆ y) : Handed e y b := by
  rcases h with h | ⟨queue, max, ms, hm, hb⟩
  · exact .inl h
  · exact .inr ⟨queue, max, ms, hy hm, hb⟩

theorem Reasons.mono {x y : Record} {q : Cmd} (h : Reasons e x q) (hy : x ⊆ y) : Reasons e y q := by
  unfold Reasons at h ⊢
  split
  · obtain ⟨settings, b, job, he, hb, hread, image, ct, notes, vision, suggested, llm, latency, hf, hv, ha, hc,
      hbuild⟩ := h
    exact ⟨settings, b, job, he, hb.mono hy, hread, image, ct, notes, vision, suggested, llm, latency, hy hf, hv,
      hy ha, hy hc, hbuild⟩
  · trivial

/-! ## Around the messages -/

/-- The requests of the polling loops around the messages. -/
def Cmd.OfPolling : Cmd → Prop
  | .receive .. | .sleep | .delete .. | .acknowledge _ | .modifyAckDeadline _ => True
  | _ => False

/-- A worker's requests are justified by `P`: those of its loop are always, and those for a message that it
was handed by its record. -/
structure Attends (P : Record → Cmd → Prop) (e : Entry) (settings : WorkerSettings) : Prop where
  polling : ∀ {q : Cmd} (x : Record), q.OfPolling → P x q
  job : ∀ {x : Record} {b : RawBody} {job : JobMessage}, Handed e x b → Reads b job →
    (handleJob settings job).Justified P x

namespace Attends

open Prog (Justified)

variable {P : Record → Cmd → Prop} {settings : WorkerSettings} {x : Record}

theorem ask (h : Attends P e settings) {q : Cmd} {f : q.Ans → M α} (hq : q.OfPolling)
    (hf : ∀ a, (f a).Justified P (⟨q, .ok a⟩ :: x)) : (request q >>= f).Justified P x :=
  Justified.ask (h.polling x hq) hf

theorem one (h : Attends P e settings) {q : Cmd} (hq : q.OfPolling) : (request q).Justified P x :=
  Justified.call (h.polling x hq) fun r => by cases r <;> exact List.Subset.refl _

theorem consume (h : Attends P e settings) {b : RawBody} (hb : Handed e x b) :
    (consume settings b).Justified P x := by
  unfold CM.consume
  split
  · exact .throw _
  · exact .throw _
  · exact Justified.ofExcept fun job hread => h.job hb ⟨_, rfl, hread⟩
  · exact .throw _

theorem deliverAllSqs (h : Attends P e settings) (ms : List Message) (hms : ∀ m ∈ ms, Handed e x m.body) :
    (deliverAllSqs settings ms).Justified P x := by
  induction ms generalizing x with
  | nil => exact .ret _
  | cons msg ms ih =>
    have hdone : (CM.consume settings msg.body >>= fun _ => request (.delete .main msg.id) : M Unit).Justified P x :=
      Justified.bind (h.consume (hms msg List.mem_cons_self)) fun _ _ _ => h.one trivial
    refine Justified.bind (Justified.bind hdone.attempt fun r y _ => ?_) fun _ y hy =>
      ih fun m hm => (hms m (List.mem_cons_of_mem _ hm)).mono hy
    split
    · exact .ret _
    · exact h.one trivial
    · exact .ret _

theorem pollSqs (h : Attends P e settings) (rounds : Nat) : (pollSqs settings rounds).Justified P x := by
  induction rounds generalizing x with
  | zero => exact .ret _
  | succ rounds ih =>
    refine Justified.try (h.polling x trivial) fun r => ?_
    cases r with
    | error err => exact h.ask trivial fun _ => ih
    | ok ms =>
      refine Justified.bind (h.deliverAllSqs ms fun m hm => ?_) fun _ _ _ => ih
      exact .inr ⟨.main, 5, ms, List.mem_cons_self, m, hm, rfl⟩

theorem deliverPubsub (h : Attends P e settings) (acks : Acks) (ms : List Message)
    (hms : ∀ m ∈ ms, Handed e x m.body) : (deliverPubsub settings acks ms).Justified P x := by
  induction ms generalizing x acks with
  | nil => exact .ret _
  | cons msg ms ih =>
    refine Justified.bind (h.consume (hms msg List.mem_cons_self)).attempt fun r y hy => ?_
    have hrest : ∀ m ∈ ms, Handed e y m.body := fun m hm => (hms m (List.mem_cons_of_mem _ hm)).mono hy
    split <;> exact ih _ hrest

theorem settle (h : Attends P e settings) (acks : Acks) : (settle acks).Justified P x := by
  have nack : ∀ y : Record, (do
      if acks.nackIds ≠ [] then
        let _ ← request (.modifyAckDeadline acks.nackIds) : M Unit).Justified P y := fun y => by
    split
    · exact h.ask trivial fun _ => .ret _
    · exact .ret _
  simp only [CM.settle]
  split
  · exact h.ask trivial fun _ => nack _
  · exact nack _

theorem pullPubsub (h : Attends P e settings) (rounds : Nat) : (pullPubsub settings rounds).Justified P x := by
  induction rounds generalizing x with
  | zero => exact .ret _
  | succ rounds ih =>
    refine Justified.try (h.polling x trivial) fun r => ?_
    cases r with
    | error err =>
      dsimp only
      split
      · exact ih
      · exact h.ask trivial fun _ => ih
    | ok ms =>
      refine Justified.bind (h.deliverPubsub {} ms fun m hm => ?_) fun acks _ _ =>
        Justified.bind (h.settle acks) fun _ _ _ => ih
      exact .inr ⟨.main, 5, ms, List.mem_cons_self, m, hm, rfl⟩

/-- So are all requests of the worker. -/
theorem code (h : Attends P e settings) (he : e.workerSettings? = some settings) : (e.code D).Justified P [] := by
  cases e with
  | handleMessage _ body =>
    cases he
    have hb : Handed (.handleMessage settings body) [] (.json body) := .inl ⟨settings, body, rfl, rfl⟩
    refine Justified.bind (Justified.ofExcept fun job hread => ?_) fun _ _ _ => .ret _
    exact h.job hb ⟨body, rfl, hread⟩
  | pollSqs _ rounds =>
    cases he
    exact Justified.bind (h.pollSqs rounds) fun _ _ _ => .ret _
  | pollPubsub _ rounds =>
    cases he
    refine Justified.bind ?_ fun _ _ _ => .ret _
    unfold CM.pollPubsub
    split
    · exact .throw _
    · exact h.pullPubsub rounds
  | _ => cases he

end Attends

/-- A transaction, whose own requests need no reason. -/
theorem justified_transaction {P : Record → Cmd → Prop} {x : Record} {body : M α}
    (hq : ∀ y, P y .begin ∧ P y .commit ∧ P y .rollback) (hb : ∀ y, x ⊆ y → body.Justified P y) :
    (transaction body).Justified P x := by
  refine Prog.Justified.ask (hq _).1 fun _ =>
    Prog.Justified.bind (hb _ (List.subset_cons_self _ _)).attempt fun r y _ => ?_
  cases r with
  | ok a => exact Prog.Justified.ask (hq _).2.1 fun _ => .ret a
  | error err => exact Prog.Justified.ask (hq _).2.2 fun _ => .throw err

/-! ## Every call has its reasons -/

/-- From the record `x`, every request of the program has its reasons. -/
def Reasoned (e : Entry) (x : Record) (p : M α) : Prop := p.Justified (Reasons e) x

/-- A request that needs no reason. -/
def Cmd.Free : Cmd → Prop
  | .sql (.insertDecision _) => False
  | _ => True

theorem Cmd.Free.reasons {q : Cmd} (h : q.Free) (x : Record) : Reasons e x q := by
  cases q with
  | sql st => cases st <;> trivial
  | _ => trivial

namespace Reasoned

variable {x : Record} {p : M α}

theorem ask {q : Cmd} {f : q.Ans → M α} (hq : q.Free) (hf : ∀ a, Reasoned e (⟨q, .ok a⟩ :: x) (f a)) :
    Reasoned e x (request q >>= f) := Prog.Justified.ask (hq.reasons x) hf

theorem stmt {st : Sql} {f : st.Ans → M α} (hq : (Cmd.sql st).Free)
    (hf : ∀ a, Reasoned e (⟨.sql st, .ok a⟩ :: x) (f a)) : Reasoned e x (sql st >>= f) :=
  Prog.Justified.ask (hq.reasons x) hf

theorem free (hp : p.Only Cmd.Free) : Reasoned e x p :=
  Prog.Justified.of_only (hp.mono fun _ hq => hq.reasons)

theorem bind {f : α → M β} (hp : Reasoned e x p) (hf : ∀ a y, x ⊆ y → Reasoned e y (f a)) :
    Reasoned e x (p >>= f) := Prog.Justified.bind hp hf

theorem attempt (hp : Reasoned e x p) : Reasoned e x p.attempt := Prog.Justified.attempt hp

theorem ret (a : α) : Reasoned e x (pure a : M α) := Prog.Justified.ret a

theorem raise (err : Exn) : Reasoned e x (throw err : M α) := Prog.Justified.throw err

theorem transaction {body : M α} (hb : ∀ y, x ⊆ y → Reasoned e y body) : Reasoned e x (transaction body) :=
  justified_transaction (fun _ => ⟨trivial, trivial, trivial⟩) hb

end Reasoned

theorem persistEnvelope_reasoned {x : Record} {envelope : DecisionEnvelope}
    (h : Reasons e x (.sql (.insertDecision envelope))) : Reasoned e x (persistEnvelope envelope) := by
  refine .transaction fun y hy => Prog.Justified.ask (h.mono hy) fun found => ?_
  cases found with
  | some id =>
    have hnew : (persistNew envelope id).Only Cmd.Free := by
      refine .bind (.stmt trivial) fun _ => .bind (.stmt trivial) fun _ =>
        .bind (.stmt trivial) fun _ => ?_
      split
      · exact .bind (.stmt trivial) fun _ => .bind (.stmt trivial) fun _ => trivial
      · trivial
    exact Reasoned.free hnew
  | none =>
    refine Reasoned.stmt trivial fun stored => ?_
    cases stored with
    | some envelope => exact .ret _
    | none => exact .throw _

variable {settings : WorkerSettings} {b : RawBody} {job : JobMessage} {x : Record}

theorem processJob_reasoned (he : e.workerSettings? = some settings) (hb : Handed e x b) (hr : Reads b job) :
    Reasoned e x (processJob settings job) := by
  refine .ask trivial fun _ => .stmt trivial fun found => ?_
  cases found with
  | some id =>
    refine .stmt trivial fun stored => ?_
    cases stored with
    | some envelope => exact .ret _
    | none => exact .raise _
  | none =>
    refine .stmt trivial fun _ => .ask trivial fun fetched => ?_
    refine Prog.Justified.ofExcept fun notes hvalid => .ask trivial fun vision => ?_
    refine .ask trivial fun said => .ask trivial fun _ => ?_
    refine Prog.Justified.ofExcept fun envelope hbuild => persistEnvelope_reasoned ?_
    refine ⟨settings, b, job, he, hb.mono ?_, hr, fetched.1, fetched.2, notes, vision, said.1, said.2, _,
      ?_, hvalid, ?_,
      ?_, hbuild⟩
    · exact fun y hy => by simp [hy]
    all_goals simp

theorem markFailed_free (jobId : Uuid) (error : String) : (markFailed jobId error).Only Cmd.Free := by
  refine .bind (.stmt trivial) fun found => ?_
  cases found with
  | none => trivial
  | some _ => exact .bind (.stmt trivial) fun _ => .stmt trivial

theorem handleJob_reasoned (he : e.workerSettings? = some settings) (hb : Handed e x b) (hr : Reads b job) :
    Reasoned e x (handleJob settings job) := by
  have failed : ∀ (err : Exn) (line : LogLine) (text : String) (y : Record), Reasoned e y (do
      markFailed job.jobId text
      let _ ← request (.log line)
      throw err : M Unit) := fun err line text y =>
    .bind (.free (markFailed_free _ _)) fun _ _ _ => .ask trivial fun _ => .raise err
  refine .ask trivial fun _ => .stmt trivial fun status => ?_
  split
  · exact .ret _
  · refine .bind (processJob_reasoned he (hb.mono ?_) hr).attempt fun r y hy => ?_
    · exact fun y hy => by simp [hy]
    split
    · exact .ret _
    · exact failed _ _ _ y
    · exact failed _ _ _ y

theorem Entry.workerSettings?_policyVersion? (e : Entry) :
    e.policyVersion? = e.workerSettings?.map WorkerSettings.policyVersion := by cases e <;> rfl

/-- The requests of every call have their reasons. -/
theorem code_reasoned (D : Deployment) (e : Entry) : Reasoned e [] (e.code D) := by
  -- only workers insert decisions
  have rest : e.workerSettings? = none → Reasoned e [] (e.code D) := fun hn =>
    Reasoned.free ((code_tracked D e).only fun y q hq => by
      cases q with
      | sql st =>
        cases st with
        | insertDecision envelope =>
          have hv := hq.2.1
          rw [e.workerSettings?_policyVersion?, hn] at hv
          cases hv
        | _ => trivial
      | _ => trivial)
  cases hs : e.workerSettings? with
  | none => exact rest hs
  | some settings =>
    have hattends : Attends (Reasons e) e settings :=
      ⟨fun {q} x hq => by cases q <;> trivial, fun hb hr => handleJob_reasoned hs hb hr⟩
    exact hattends.code hs

/-! ## What workers are handed -/

/-- A queue hands out what it holds. -/
theorem mem_of_receive {s s' : World} {queue : QueueName} {max : Nat} {p : Pick} {ms : List Message}
    (hx : World.exec j (.receive queue max) p s = some (.ok ms, s')) {m : Message} (hm : m ∈ ms) :
    m ∈ s.messages := by
  simp only [World.exec] at hx
  split at hx
  · obtain ⟨ms', hpick, ha⟩ := Option.map_eq_some_iff.mp hx
    obtain ⟨rfl, -⟩ := answer_ok ha
    exact mem_of_pick hpick m hm
  · cases hx

/-- What a worker has been handed is the message of a committed job. -/
theorem bodyOk_of_handed (hr : Pool.Run FromQueue (boot D now) h c) {x : Record} {b : RawBody}
    (ht : ∃ t, c.threads j = some ⟨e, t⟩) (hx : ∀ y ∈ x, Pool.Happened h j y) (hb : Handed e x b) :
    BodyOk c.world.db b := by
  -- what holds of the body when it is handed over is kept
  have kept : ∀ st ∈ h, (∃ m ∈ World.messages st.before.world, m.body = b) → BodyOk c.world.db b := by
    rintro st hm ⟨m, hmsg, rfl⟩
    obtain ⟨⟨h', hr'⟩, -, hn⟩ := hr.mem hm
    have hok := (inv_of_reachable hr'.reachable).queued.bodies m hmsg
    exact hr.keeps (K := fun c => BodyOk c.world.db m.body)
      (fun hreach hok hn => hok.mono (grows_of_next hreach hn).db) hm
      (hok.mono (grows_of_next hr'.reachable hn).db)
  rcases hb with ⟨settings, body, rfl, rfl⟩ | ⟨queue, max, ms, hm, m, hms, rfl⟩
  · obtain ⟨t, ht⟩ := ht
    obtain ⟨st, hst, hact⟩ := hr.start_mem (fun _ => rfl) ht
    exact kept st hst ((hr.mem hst).2.1 j settings body hact)
  · obtain ⟨st, hst, p, e', k, w, hact, hat, hx⟩ := hx _ hm
    have hexec : World.exec j (.receive queue max) p st.before.world = some (.ok ms, w) := hx
    exact kept st hst ⟨m, mem_of_receive hexec hms, rfl⟩

/-! ## What transactions write -/

/-- What holds of the writes of a transaction when they are made, and is kept, holds of the open
transactions and of what was committed. -/
theorem written_of_run {W : List (service D).Step → (service D).Config → Nat → Write → Prop}
    (make : ∀ {h c i p e st k w db t}, Pool.Run ok (boot D now) h c → ok c (.step i p) → c.At i e (.sql st) k →
      st.InTxn → Makes db t st w → W h c i w)
    (keep : ∀ {h c a c' i w}, Pool.Run ok (boot D now) h c → Pool.next c a = some c' → W h c i w →
      W (⟨c, a, c'⟩ :: h) c' i w) (hr : Pool.Run ok (boot D now) h c) :
    (∀ i, ∀ w ∈ c.world.pending i, W h c i w) ∧ ∀ w ∈ journal h, w.Plain ∨ ∃ i, W h c i w := by
  induction hr with
  | nil => exact ⟨fun _ _ h => (nomatch h), fun _ h => (nomatch h)⟩
  | @cons h c a c' hr ha hn ih =>
    refine ⟨fun i w hw => ?_, fun w hw => ?_⟩
    · rcases pending_of_next hr.reachable hn hw with hw | ⟨p, e, st, k, rfl, hat, hst, db, t, hm⟩
      · exact keep hr hn (ih.1 i w hw)
      · exact keep hr hn (make hr ha hat hst hm)
    · rcases List.mem_append.mp hw with hw | hw
      · exact (ih.2 w hw).imp_right fun ⟨i, hs⟩ => ⟨i, keep hr hn hs⟩
      · rcases writes_ok hr.reachable hn with hnil | ⟨j, p, e, q, k, rfl, hat, -, hstep⟩
        · rw [hnil] at hw
          cases hw
        · generalize Step.writes _ = ws at hw hstep
          cases hstep with
          | alone idle contract run fault => exact .inl (plain_of_alone contract (makes_of_run run w hw))
          | commit complete => exact .inr ⟨j, keep hr hn (ih.1 j w hw)⟩

/-- The call `j` has had its reasons for the decision. -/
def Reasonable (h : List (service D).Step) (c : (service D).Config) (j : Nat) : Write → Prop
  | .decision d => ∃ e, (∃ t, c.threads j = some ⟨e, t⟩) ∧
      ∃ x, Reasons e x (.sql (.insertDecision d.envelope)) ∧ ∀ y ∈ x, Pool.Happened h j y
  | _ => True

theorem reasonable_of_run (hr : Pool.Run ok (boot D now) h c) {d : DecisionRow} (hd : d ∈ c.world.db.decisions) :
    ∃ j, Reasonable h c j (.decision d) := by
  rw [db_of_run hr, decisions_applyAll] at hd
  have hw := (written_of_run (W := Reasonable) ?_ ?_ hr).2 _ (mem_of_filterMap_decision hd)
  · rcases hw with hp | hw
    · cases hp.keys
    · exact hw
  · intro h c i p e st k w db t hr _ hat _ hm
    cases hm with
    | decision =>
      obtain ⟨x, hq, hx⟩ := hr.justified (fun _ => rfl) (code_reasoned D) hat
      exact ⟨e, ⟨_, hat⟩, x, hq, hx⟩
    | _ => trivial
  · intro h c a c' i w hr hn hw
    cases w with
    | decision d =>
      obtain ⟨e, ht, x, hq, hx⟩ := hw
      exact ⟨e, entry_of_next hn ht, x, hq, fun y hy => (hx y hy).cons _⟩
    | _ => trivial

/-! ## The object store -/

/-- The object store gives out what was stored under the key. -/
def Honest : List (service D).Step → Prop
  | [] => True
  | st :: h => Honest h ∧ ∀ i p e key k, st.action = .step i p → st.before.At i e (.fetchObject key) k →
      Pick.fault p = .none → PutIn h key (Pick.image p)

/-- What a worker has fetched was stored. -/
theorem Honest.fetched (hh : Honest h) {key : String} {image : List UInt8} {contentType : String}
    (hx : Pool.Happened h j ⟨.fetchObject key, .ok (image, contentType)⟩) : PutIn h key image := by
  obtain ⟨st, hm, p, e, k, w, hact, hat, hexec⟩ := hx
  have hexec : some (World.answer st.before.world p (Pick.image p, Pick.contentType p) st.before.world) =
      some (.ok (image, contentType), w) := hexec
  have hfault := fault_of_ok (Option.some.inj hexec)
  obtain ⟨hans, -⟩ := answer_ok (Option.some.inj hexec)
  obtain ⟨rfl, -⟩ := Prod.mk.inj hans
  clear hexec hans
  induction h with
  | nil => cases hm
  | cons st' h ih =>
    rcases List.mem_cons.mp hm with rfl | hm
    · exact (hh.2 j p e key k hact hat hfault).mono _
    · exact (ih hh.1 hm).mono _

/-- The decision is the route of what the models say. -/
structure RouteOf (settings : WorkerSettings) (suggested : Decision) (d : DecisionEnvelope) (r : Route) : Prop where
  route : r = routeDecision suggested d.llm.score d.vision.nsfwScore d.vision.violenceScore settings.thresholds
  decision : d.decision = r.decision
  review : d.needsHumanReview = (r.needsHumanReview || decide (r.decision = .flag))
  confidence : d.confidence = round4 d.llm.score

theorem routeOf_build {settings : WorkerSettings} {job : JobMessage} {vision : VisionSignals} {suggested : Decision}
    {llm : LlmSignals} {latencyMs : Nat} {d : DecisionEnvelope}
    (hb : buildEnvelope settings job vision suggested llm latencyMs = .ok d) :
    d.contentId = job.contentId ∧ d.contentHash = job.contentHash ∧ d.vision = vision ∧ d.llm = llm ∧
      ∃ r, RouteOf settings suggested d r := by
  unfold buildEnvelope at hb
  dsimp only at hb
  split at hb
  · cases hb
    exact ⟨rfl, rfl, rfl, rfl, _, rfl, rfl, rfl, rfl⟩
  · cases hb

/-- A decision that needs no human is no FLAG. -/
theorem sure_of_reasons {e : Entry} {record : Record} {envelope : DecisionEnvelope}
    (h : Reasons e record (.sql (.insertDecision envelope))) :
    envelope.needsHumanReview = false → envelope.decision ≠ .flag := by
  obtain ⟨settings, b, job, -, -, -, image, contentType, notes, vision, suggested, llm, latencyMs,
    -, -, -, -, hbuild⟩ := h
  obtain ⟨-, -, -, -, r, hroute⟩ := routeOf_build hbuild
  rw [hroute.review, hroute.decision]
  intro hn hf
  simp [hf] at hn

/-- A worker has judged the image that `i` was called with, for a job with its stripped caption. -/
def JudgedUpload (h : List (service D).Step) (c : (service D).Config) (req : IngestRequest)
    (d : DecisionEnvelope) : Prop :=
  ∃ j e settings contentType notes job vision suggested llm latencyMs, (∃ t, c.threads j = some ⟨e, t⟩) ∧
    e.workerSettings? = some settings ∧ validate req.body contentType settings = .ok notes ∧
    job.caption = strip req.caption ∧ Pool.Happened h j ⟨.analyze req.body (strip req.caption), .ok vision⟩ ∧
    Pool.Happened h j ⟨.classify (strip req.caption) vision, .ok (suggested, llm)⟩ ∧
    buildEnvelope settings job vision suggested llm latencyMs = .ok d

/-- As long as the object store gives out what was stored, every decision of a run is made on the image and
the caption of the call of `accept_image` whose digest it carries. -/
theorem judged_of_run (hr : Pool.Run FromQueue (boot D now) h c) (hh : Honest h) {d : DecisionRow}
    (hd : d ∈ c.world.db.decisions) :
    ∃ i api req, (∃ t, c.threads i = some ⟨.acceptImage api req, t⟩) ∧
      (d.envelope.contentId, i) ∈ c.world.drawn ∧ d.envelope.contentHash = digestOf D api req ∧
      JudgedUpload h c req d.envelope := by
  obtain ⟨j, e, ht, x, ⟨settings, b, job, he, hb, hread, image, contentType, notes, vision, suggested, llm, latencyMs,
    hfetch, hvalid, hanalyze, hclassify, hbuild⟩, hx⟩ := reasonable_of_run hr hd
  obtain ⟨hid, hhash, -⟩ := routeOf_build hbuild
  -- the message is that of a content item, and the item that of an upload
  obtain ⟨-, row, hrow, hrowid, hrowhash, hkey, hcaption⟩ := bodyOk_of_handed hr ht hx hb job hread
  obtain ⟨i, hin⟩ := ingested_of_run hr row hrow
  obtain ⟨api, req, hcall, hobject, hdigest, hstrip⟩ := hin.call
  have himage : image = req.body :=
    image_of_put hr hin.drawn hcall hobject (hkey ▸ hh.fetched (hx _ hfetch))
  have hcap : job.caption = strip req.caption := hcaption.symm.trans hstrip
  subst himage
  refine ⟨i, api, req, hcall, ?_, ?_, j, e, settings, contentType, notes, job, vision, suggested, llm, latencyMs, ht,
    he, hvalid, hcap, hcap ▸ hx _ hanalyze, hcap ▸ hx _ hclassify, hbuild⟩
  · rw [hid, ← hrowid]
    exact hin.drawn
  · rw [hhash, ← hrowhash, hdigest]

/-- As long as the object store gives out what was stored, every decision of a run is routed from what the
models said of the very image and caption of the call of `accept_image` whose digest it carries. -/
theorem verdict_of_upload (hr : Pool.Run FromQueue (boot D now) h c) (hh : Honest h) {d : DecisionRow}
    (hd : d ∈ c.world.db.decisions) :
    ∃ i api req, (∃ t, c.threads i = some ⟨.acceptImage api req, t⟩) ∧
      (d.envelope.contentId, i) ∈ c.world.drawn ∧ d.envelope.contentHash = digestOf D api req ∧
      ∃ j e settings contentType notes suggested r, (∃ t, c.threads j = some ⟨e, t⟩) ∧
        e.workerSettings? = some settings ∧ validate req.body contentType settings = .ok notes ∧
        Pool.Happened h j ⟨.analyze req.body (strip req.caption), .ok d.envelope.vision⟩ ∧
        Pool.Happened h j ⟨.classify (strip req.caption) d.envelope.vision, .ok (suggested, d.envelope.llm)⟩ ∧
        RouteOf settings suggested d.envelope r := by
  obtain ⟨i, api, req, hcall, hdrawn, hhash, j, e, settings, contentType, notes, job, vision, suggested,
    llm, latencyMs,
    ht, he, hvalid, -, hanalyze, hclassify, hbuild⟩ := judged_of_run hr hh hd
  obtain ⟨-, -, rfl, rfl, r, hroute⟩ := routeOf_build hbuild
  exact ⟨i, api, req, hcall, hdrawn, hhash, j, e, settings, contentType, notes, suggested, r, ht, he,
    hvalid, hanalyze,
    hclassify, hroute⟩

/-! ## Objects are stored once -/

/-- The key under which a request stores an object. -/
def Cmd.putKey? : Cmd → Option String
  | .putObject key _ _ => some key
  | _ => none

/-- The keys under which a run stores objects, the latest first. -/
def puts (h : List (service D).Step) : List String := (Pool.requests h).filterMap fun x => x.2.putKey?

/-- An object is stored. -/
def Cmd.Puts (q : Cmd) : Prop := q.putKey?.isSome

instance : DecidablePred Cmd.Puts := fun q => inferInstanceAs (Decidable (q.putKey?.isSome = true))

theorem not_puts {q : Cmd} (h : q.putKey? = none) : ¬ q.Puts := by simp [Cmd.Puts, h]

theorem persistJob_no_put (content : ContentItem) (jobId : Uuid) (tenantId : String) :
    (persistJob content jobId tenantId).Only fun q : Cmd => ¬ q.Puts := by
  refine transaction_only (not_puts rfl) (not_puts rfl) (not_puts rfl)
    (.tryCatch (.bind (.stmt (not_puts rfl)) fun _ =>
      .bind (.stmt (not_puts rfl)) fun _ => .bind (.stmt (not_puts rfl)) fun _ => trivial) fun err => ?_)
  split
  · refine .bind (.stmt (not_puts rfl)) fun found => ?_
    cases found <;> trivial
  · trivial

theorem sendJob_no_put (settings : ApiSettings) (carrier : List (String × String)) (content : ContentItem)
    (jobId : Uuid) : (sendJob settings carrier content jobId).Only fun q : Cmd => ¬ q.Puts := by
  refine .bind (Prog.Only.attempt (.ask (not_puts rfl))) fun r => ?_
  cases r with
  | ok u => trivial
  | error err => exact .bind (.ask (not_puts rfl)) fun _ => .bind (.stmt (not_puts rfl)) fun _ => trivial

theorem awaitIngest_no_put (digest : String) (n : Nat) : (awaitIngest digest n).Only fun q : Cmd => ¬ q.Puts :=
  (awaitIngest_only digest n).mono fun q hq => by
    cases q with
    | putObject => cases hq
    | _ => exact not_puts rfl

theorem acceptImage_puts (sha256 : Digest) (settings : ApiSettings) (req : IngestRequest) :
    (acceptImage sha256 settings req).AtMost Cmd.Puts 1 := by
  have none : ∀ {α : Type} {p : M α} (n : Nat), (p.Only fun q : Cmd => ¬ q.Puts) → p.AtMost Cmd.Puts n :=
    fun n hp => .of_only hp n
  have after : ∀ {α β : Type} {p : M α} {f : α → M β} {n : Nat}, (p.Only fun q : Cmd => ¬ q.Puts) →
      (∀ a, (f a).AtMost Cmd.Puts n) → (p >>= f).AtMost Cmd.Puts n := fun hp hf => by
    simpa using Prog.AtMost.bind (none 0 hp) hf
  simp only [acceptImage]
  split
  · trivial
  split
  · trivial
  split
  · trivial
  refine after (.ask (not_puts rfl)) fun _ => after (.stmt (not_puts rfl)) fun found => ?_
  cases found with
  | some j => trivial
  | none =>
    refine after (.ask (not_puts rfl)) fun acquired => ?_
    split
    · refine after (.ask (not_puts rfl)) fun contentId => after (.ask (not_puts rfl)) fun jobId => ?_
      refine Prog.AtMost.bind (m := 1) (n := 0) (.attempt (.perform _)) fun stored => ?_
      cases stored with
      | error err => trivial
      | ok u =>
        refine after (.ask (not_puts rfl)) fun _ => after (persistJob_no_put _ _ _) fun found => ?_
        cases found with
        | some response => trivial
        | none => exact none 0 (sendJob_no_put _ _ _ _)
    · exact none 1 (.bind (.ask (not_puts rfl)) fun _ => awaitIngest_no_put _ 20)

/-- Only calls of `accept_image` store objects. -/
theorem code_no_put (D : Deployment) {e : Entry} (hne : ∀ settings req, e ≠ .acceptImage settings req) :
    (e.code D).Only fun q : Cmd => ¬ q.Puts :=
  (code_tracked D e).only fun y q hq => by
    cases q with
    | putObject key body contentType =>
      obtain ⟨-, settings, req, he, -⟩ := hq
      exact absurd he (hne settings req)
    | _ => exact not_puts rfl

/-- A call stores at most one object. -/
theorem code_puts (D : Deployment) (e : Entry) : (e.code D).AtMost Cmd.Puts 1 := by
  cases e with
  | acceptImage settings req =>
    exact Prog.AtMost.bind (n := 0) (acceptImage_puts D.sha256 settings req) fun _ => trivial
  | _ => exact .of_only (code_no_put D (by simp)) 1

/-- The identifier in the key was drawn by the call that stores the object. -/
theorem drawn_of_put {st : (service D).Step} (hr : Pool.Run ok (boot D now) h c) (hm : st ∈ h)
    {key : String} {q : Cmd}
    (hq : st.request = some (i, q)) (hkey : q.putKey? = some key) :
    ∃ digest u contentType, key = objectKeyOf digest u contentType ∧ (u, i) ∈ c.world.drawn := by
  obtain ⟨p, e, k, hact, hat⟩ := Pool.at_of_request hq
  obtain ⟨⟨h', hr'⟩, -, hn⟩ := hr.mem hm
  cases q with
  | putObject key' body contentType =>
    obtain rfl := Option.some.inj hkey
    obtain ⟨x, ⟨⟨-, settings, req, -, -, u, hu, hobject⟩, -⟩, hx⟩ := grounded_of_run hr' i e _ hat
    exact ⟨_, u, _, hobject, hr.keeps (K := fun c => (u, i) ∈ c.world.drawn)
      (fun hreach hd hn => (grows_of_next hreach hn).drawn hd) hm
      ((grows_of_next hr'.reachable hn).drawn (hx.drawn u hu))⟩
  | _ => cases hkey

/-- No object is ever stored over: a run stores at most one under each key. -/
theorem puts_nodup (hr : Pool.Run ok (boot D now) h c) : (puts h).Nodup := by
  induction hr with
  | nil => exact List.nodup_nil
  | @cons h c a c' hr ha hn ih =>
    have hr' := Pool.Run.cons hr ha hn
    cases hreq : Pool.Step.request (⟨c, a, c'⟩ : (service D).Step) with
    | none => simpa [puts, Pool.requests, hreq] using ih
    | some x =>
      obtain ⟨i, q⟩ := x
      cases hkey : Cmd.putKey? q with
      | none => simpa [puts, Pool.requests, hreq, hkey] using ih
      | some key =>
        have hputs : puts (⟨c, a, c'⟩ :: h : List (service D).Step) = key :: puts h := by
          simp [puts, Pool.requests, hreq, hkey]
        rw [hputs]
        refine List.nodup_cons.mpr ⟨fun hm => ?_, ih⟩
        obtain ⟨⟨i', q'⟩, hm, hkey'⟩ := List.mem_filterMap.mp hm
        obtain ⟨st, hst, hreq'⟩ := List.mem_filterMap.mp hm
        obtain ⟨digest, u, ct, hobject, hdrawn⟩ := drawn_of_put hr' List.mem_cons_self hreq hkey
        obtain ⟨digest', u', ct', hobject', hdrawn'⟩ := drawn_of_put hr' (List.mem_cons_of_mem _ hst) hreq' hkey'
        obtain rfl := id_of_objectKey (hobject.symm.trans hobject')
        -- both objects were stored by one call, which stores at most one
        obtain rfl := drawn_unique (inv_of_reachable hr'.reachable).drawn hdrawn hdrawn'
        have hcode : ∀ e, ((service D).code e).AtMost Cmd.Puts 1 := code_puts D
        have hle : Pool.asked Cmd.Puts i (⟨c, a, c'⟩ :: h) ≤ 1 := hr'.requests_le _ (fun _ => rfl) hcode i
        have hone := Pool.asked_of_request Cmd.Puts hreq (show (q : Cmd).Puts by simp [Cmd.Puts, hkey])
        have hpos : 0 < Pool.asked Cmd.Puts i h :=
          List.countP_pos_iff.mpr ⟨(i, q'), hm, by simp [Cmd.Puts, show q'.putKey? = some key from hkey']⟩
        have hsum := Pool.asked_append Cmd.Puts i [(⟨c, a, c'⟩ : (service D).Step)] h
        rw [List.singleton_append, hone] at hsum
        omega

/-! ## A run -/

/-- The step has stored the image under the key. -/
def stores? (key : String) (image : List UInt8) (st : (service D).Step) : Bool :=
  match st.action, st.request with
  | .step _ p, some (_, .putObject key' body _) => decide (key' = key ∧ body = image ∧ Pick.fault p = .none)
  | _, _ => false

/-- What every fetch is answered was stored before. -/
def honest? : List (service D).Step → Bool
  | [] => true
  | st :: h => honest? h && match st.action, st.request with
    | .step _ p, some (_, .fetchObject key) =>
      decide (Pick.fault p ≠ .none) || h.any (stores? key (Pick.image p))
    | _, _ => true

theorem putIn_of_check {key : String} {image : List UInt8} (hs : h.any (stores? key image) = true) :
    PutIn h key image := by
  obtain ⟨st, hm, hs⟩ := List.any_eq_true.mp hs
  simp only [stores?] at hs
  split at hs
  · rename_i i p i' key' body contentType hact hreq
    obtain ⟨rfl, rfl, hfault⟩ := of_decide_eq_true hs
    obtain ⟨p', e, k, hact', hat⟩ := Pool.at_of_request hreq
    cases hact.symm.trans hact'
    exact ⟨st, hm, _, p, e, contentType, k, hact, hat, fun text ht => by rw [hfault] at ht; cases ht⟩
  · cases hs

theorem honest_of_check (hc : honest? h = true) : Honest h := by
  induction h with
  | nil => trivial
  | cons st h ih =>
    obtain ⟨hrest, hst⟩ := Bool.and_eq_true_iff.mp hc
    refine ⟨ih hrest, fun i p e key k hact hat hfault => ?_⟩
    have hreq : st.request = some (i, .fetchObject key) := by
      obtain ⟨before, action, after⟩ := st
      obtain rfl : action = .step i p := hact
      exact Pool.request_of_at hat
    rw [hact, hreq] at hst
    rcases Bool.or_eq_true_iff.mp hst with hst | hst
    · exact absurd hfault (of_decide_eq_true hst)
    · exact putIn_of_check hst

/-- The sample is uploaded and flagged, with an object store that gives out what was stored. -/
theorem exists_honest : ∃ h c, Pool.Run FromQueue (boot (sample .atomic) 0) h c ∧ Honest h ∧
    c.world.db.decisions ≠ [] ∧ puts h ≠ [] := by
  have hrun : (Pool.recordIf (fun _ => polled?) (flaggedSample (sample .atomic)) [] (boot (sample .atomic) 0)).any
      (fun x => honest? x.1 && decide (x.2.world.db.decisions ≠ [] ∧ puts x.1 ≠ [])) = true := by
    decide +kernel
  obtain ⟨⟨h, c⟩, hx, hrun⟩ := (Option.any_eq_true _ _).mp hrun
  obtain ⟨hhonest, hne⟩ := Bool.and_eq_true_iff.mp hrun
  exact ⟨h, c, Pool.Run.nil.recordIf fromQueue_of_check hx, honest_of_check hhonest, of_decide_eq_true hne⟩

theorem verdict_of_upload_sample : ∃ h c, Pool.Run FromQueue (boot (sample .atomic) 0) h c ∧
    ∃ d ∈ c.world.db.decisions, ∃ i api req, (∃ t, c.threads i = some ⟨.acceptImage api req, t⟩) ∧
      d.envelope.contentHash = digestOf (sample .atomic) api req ∧
      ∃ j, Pool.Happened h j ⟨.analyze req.body (strip req.caption), .ok d.envelope.vision⟩ := by
  obtain ⟨h, c, hr, hh, hne, -⟩ := exists_honest
  obtain ⟨d, hd⟩ := List.exists_mem_of_ne_nil _ hne
  obtain ⟨i, api, req, ht, -, hhash, j, -, -, -, -, -, -, -, -, -, hanalyze, -⟩ := verdict_of_upload hr hh hd
  exact ⟨h, c, hr, d, hd, i, api, req, ht, hhash, j, hanalyze⟩

theorem puts_nodup_sample : ∃ h c, Pool.Run FromQueue (boot (sample .atomic) 0) h c ∧ puts h ≠ [] ∧
    (puts h).Nodup := by
  obtain ⟨h, c, hr, -, -, hne⟩ := exists_honest
  exact ⟨h, c, hr, hne, puts_nodup hr⟩

end CM
