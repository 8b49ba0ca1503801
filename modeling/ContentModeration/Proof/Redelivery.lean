import ContentModeration.Proof.DeadLetters
import ContentModeration.Proof.Drain
import ContentModeration.Proof.Messages
import ContentModeration.Proof.QueueText

/-!
# Dead letters can be delivered again

Every dead letter of a run is the message of an upload, so its job identifier is one that the script and the
driver accept (`jobId_of_uploaded`). A redrive that runs alone therefore comes to its end if the main queue takes
the dead letters, and puts back every message that it has received and was not told to leave, unless its job has
succeeded. A worker that is then
handed what is in the main queue ends with all their jobs decided, unless an answer that it was given is to
blame (`redelivers`).
-/

namespace CM

open Database World

variable {D : Deployment} {i j : Nat} {s s' : World} {args : RedriveArgs} {m : Message} {job : JobMessage}
  {now : Time} {c : (service D).Config}

/-! ## The letters of a run -/

/-- The filter does not leave the job out. -/
def Chosen (args : RedriveArgs) (job : Uuid) : Prop := ∀ filter ∈ args.jobIdFilter, filter = "" ∨ filter = job.str

theorem str_ne_empty (u : Uuid) : u.str ≠ "" := by
  intro h
  have hlen : u.str.length = 0 := by rw [h]; rfl
  rw [Uuid.str, String.length_ofList, Uuid.length_strChars] at hlen
  cases hlen

theorem reads_of_uploaded {b : RawBody} (h : Uploaded c b) : ∃ job, Reads b job := by
  obtain ⟨i, settings, req, jobId, contentId, key, -, rfl⟩ := h
  exact ⟨_, _, rfl, readJobMessage_jobBody ..⟩

theorem dlqField_of_str {v : Json} {key field : String} (hb : m.body = .json v) (hv : v.get? key = some (.str field))
    (hne : field ≠ "") : dlqField m key = some { str := field } := by
  have hfalsy : (Json.str field).falsy = false := decide_eq_false hne
  simp only [dlqField, hb, hv, Option.getD_some, hfalsy, Bool.false_eq_true, if_false, Json.pyStr, Json.isLone]

/-- A field that is a string has no lone surrogate, nor does an attribute. -/
theorem lone_of_str {v : Json} {key field : String} (hb : m.body = .json v) (hv : v.get? key = some (.str field))
    {s : PyStr} (hs : dlqField m key = some s) : s.lone = false := by
  simp only [dlqField, hb, hv, Option.getD_some] at hs
  split at hs
  · obtain ⟨text, -, rfl⟩ := Option.map_eq_some_iff.mp hs
    rfl
  · cases hs
    rfl

theorem jobId_of_uploaded (h : Uploaded c m.body) (hr : Reads m.body job) :
    (dlqMessage m).jobId = some { str := job.jobId.str } := by
  obtain ⟨i, settings, req, jobId, contentId, key, -, hb⟩ := h
  obtain ⟨v, hv, hread⟩ := hr
  obtain rfl := RawBody.json.inj (hb.symm.trans hv)
  rw [readJobMessage_jobBody] at hread
  have hid : jobId = job.jobId := congrArg JobMessage.jobId (Except.ok.inj hread)
  rw [← hid]
  exact dlqField_of_str hb rfl (str_ne_empty jobId)

theorem redrivable_of_uploaded (h : Uploaded c m.body) (hr : Reads m.body job) (hc : Chosen args job.jobId) :
    Redrivable args m := by
  have hid := jobId_of_uploaded h hr
  obtain ⟨v, hv, -⟩ := hr
  have hkept : ((args.jobIdFilter.filter (· ≠ "")).any (· ≠ job.jobId.str)) = false := by
    cases hfilter : args.jobIdFilter with
    | none => rfl
    | some filter =>
      rcases hc filter hfilter with rfl | rfl
      · rfl
      · simp [Option.filter_some, str_ne_empty]
  have hempty : (dlqMessage m).bodyRaw.isEmpty = false := by
    show m.body.isEmpty = false
    rw [hv]
    rfl
  simp only [Redrivable, planRedrive, hempty, hid, PyStr.uuid, Uuid.parse_str, Option.isNone_some, hkept,
    Bool.false_eq_true, if_false]

theorem castUuid_str (u : Uuid) : castUuid u.str = .ok u := by simp only [castUuid, Uuid.asyncpgUuid_str]

theorem parses_of_reads (hr : Reads m.body job) (error : String) : m.body ≠ .raises error := by
  obtain ⟨v, hv, -⟩ := hr
  simp [hv]

/-- The job that the script asks for is that of the message, if it asks at all. -/
theorem jobOf_of_uploaded (h : Uploaded c m.body) (hr : Reads m.body job) :
    jobOf args m = .ok (if args.skipDb then none else some job.jobId) := by
  obtain ⟨msg, hmsg⟩ := parseDlqMessage_ok_iff.mpr (parses_of_reads hr)
  obtain rfl := dlqMessage_of_parse hmsg
  simp only [jobOf, hmsg, Except.bind, askedJob, jobId_of_uploaded h hr]
  cases args.skipDb with
  | true => rfl
  | false =>
    simp only [PyStr.encode, Bool.false_eq_true, if_false, castUuid_str]
    rfl

/-- The message of an upload ends no redrive, if the main queue takes it. -/
theorem passable_of_uploaded (h : Uploaded c m.body) (hr : Reads m.body job)
    (ht : s.takes m.body (redriveAttributes (dlqMessage m)) = true) : Passable args s m := by
  have hhash : ∀ hash, (dlqMessage m).contentHash = some hash → hash.lone = false := by
    obtain ⟨i, settings, req, jobId, contentId, key, -, hb⟩ := h
    exact fun hash hash? => lone_of_str hb rfl hash?
  refine ⟨parses_of_reads hr, fun jobId hjob => ?_, fun _ hash hash? => ?_, fun _ _ => ⟨hhash, ht⟩⟩
  · obtain rfl := Option.some.inj ((jobId_of_uploaded h hr).symm.trans hjob)
    exact ⟨rfl, fun _ => ⟨_, castUuid_str _⟩⟩
  · simp [PyStr.take, hhash hash hash?]

/-! ## What a redrive keeps -/

theorem succeeded_iff {db : Database} {u : Uuid} : db.Succeeded u ↔ statusOf db (some u) = some .succeeded := Iff.rfl

theorem requeue_succeeded {db : Database} {u : Uuid} (k : Option Uuid) (t : Time) (h : db.Succeeded u) :
    (requeue db k t).Succeeded u := by
  rw [succeeded_iff, statusOf_requeue, if_neg]
  · exact h
  · rintro ⟨-, hk⟩
    obtain ⟨-, hfailed⟩ := Option.filter_eq_some_iff.mp hk.symm
    rw [succeeded_iff] at h
    simp [h] at hfailed

theorem decisions_requeue (db : Database) (k : Option Uuid) (t : Time) :
    (requeue db k t).decisions = db.decisions := by
  unfold requeue
  split <;> rfl

/-- A redrive keeps what has been decided, and what has succeeded. -/
theorem Redrives.keeps {counts : RedriveCounts} {ms : List Message} {r : Except Exn RedriveCounts} {qs : List Cmd}
    (h : Redrives args s counts ms r s' qs) :
    s'.db.decisions = s.db.decisions ∧ ∀ u, s.db.Succeeded u → s'.db.Succeeded u := by
  induction h with
  | done still | raise still found => exact ⟨by rw [still.db], fun u hu => still.db ▸ hu⟩
  | unsent reset found moves dryRun refused tried =>
    obtain ⟨t, hdb⟩ := reset.db
    exact ⟨by rw [hdb, decisions_requeue], fun u hu => hdb ▸ requeue_succeeded _ t hu⟩
  | skip still found stays rest ih => exact ⟨by rw [ih.1, still.db], fun u hu => ih.2 u (still.db ▸ hu)⟩
  | dry still found moves dryRun rest ih => exact ⟨by rw [ih.1, still.db], fun u hu => ih.2 u (still.db ▸ hu)⟩
  | move moved found moves dryRun sent rest ih =>
    obtain ⟨t, hdb⟩ := moved.db
    exact ⟨by rw [ih.1, hdb, decisions_requeue], fun u hu => ih.2 u (hdb ▸ requeue_succeeded _ t hu)⟩

/-! ## Redrive and delivery -/

/-- What a redrive that has ended has made of the messages that it has received. -/
structure PutBack (args : RedriveArgs) (c : (service D).Config) (o : (turns D).Outcome Out) : Prop where
  exits : ∃ counts, o.result = .ok (.report ⟨0, counts⟩)
  dead : ∀ m ∈ received o.served, m ∈ World.dlq c.world
  main : ∀ m ∈ World.main c.world, m ∈ World.main o.world
  back : ∀ m ∈ received o.served, ∀ job, Reads m.body job → Chosen args job.jobId →
    (World.db c.world).Succeeded job.jobId ∨ ∃ m' ∈ World.main o.world, m'.body = m.body
  decided : ∀ u, (World.db o.world).Decided u ↔ (World.db c.world).Decided u
  succeeded : ∀ u, (World.db c.world).Succeeded u → (World.db o.world).Succeeded u

theorem putBack_of_alone (hc : Pool.Reachable (boot D now) c) (hi : c.threads i = none)
    (hsqs : lower args.queueProvider = "sqs") (hreal : args.dryRun = false)
    (htakes : ∀ m ∈ World.dlq c.world, (World.takes c.world) m.body (redriveAttributes (dlqMessage m)) = true)
    {ts : List Turn}
    {o : (turns D).Outcome Out} (ho : (turns D).alone i ((service D).code (.redrive args)) ts c.world = some o) :
    PutBack args c o := by
  obtain ⟨h, hr⟩ := hc
  have hinv := inv_of_reachable ⟨h, hr⟩
  have huploaded : ∀ m ∈ World.dlq c.world, Uploaded c m.body := fun m hm =>
    (uploaded_of_run hr).1 m (List.mem_append_right _ hm)
  obtain ⟨r, hres, hends⟩ := Turns.of_alone (wlp_code_redrive (idle_of_unstarted ⟨h, hr⟩ hi) hinv.unique.jobs) ho
  unfold RedriveEnds at hends
  rw [if_pos hsqs] at hends
  obtain ⟨hdead, rc, rfl, hrun⟩ := hends
  obtain ⟨counts, rfl⟩ := hrun.ok_iff.mpr fun m hm => by
    obtain ⟨job, hread⟩ := reads_of_uploaded (huploaded m (hdead m hm))
    exact passable_of_uploaded (huploaded m (hdead m hm)) hread (htakes m (hdead m hm))
  refine ⟨⟨counts, hres⟩, hdead, fun m hm => hrun.main.1 hm, fun m hm job hread hchosen => ?_, fun u =>
    ?_, hrun.keeps.2⟩
  · by_cases hdone : (World.db c.world).Succeeded job.jobId
    · exact .inl hdone
    have hup := huploaded m (hdead m hm)
    have hmoves := hrun.moves hreal hm (redrivable_of_uploaded hup hread hchosen) fun k hk => by
      obtain rfl := Except.ok.inj ((jobOf_of_uploaded hup hread).symm.trans hk)
      cases args.skipDb with
      | true => exact fun h => (by cases h)
      | false => exact hdone
    have hsent := hmoves.subset List.mem_cons_self
    obtain ⟨m', hm', hbody, -⟩ := hrun.main.2 _ _ hsent
    exact .inr ⟨m', hm', hbody⟩
  · rw [Database.Decided, hrun.keeps.1]
    rfl

/-- From every reachable state, a redrive that runs alone with working services, of which the main queue takes the
dead letters, and is served turn after turn comes to its end and puts back what it has received, but for jobs that
are left out or have succeeded. A worker that runs after it comes to its end too; if it was handed the messages that
were then in the main queue, and no answer is to blame, the queue is empty, and the jobs of all messages that were in
the main queue before or were put back are decided. -/
theorem redelivers (hc : Pool.Reachable (boot D now) c) (hi : c.threads i = none) (hj : c.threads j = none)
    (hij : j ≠ i)
    (hsqs : lower args.queueProvider = "sqs") (hreal : args.dryRun = false)
    (htakes : ∀ m ∈ World.dlq c.world, (World.takes c.world) m.body (redriveAttributes (dlqMessage m)) = true)
    {σ : Nat → Turn}
    (hσ : ∀ n, ¬ (turns D).refuses i ((service D).code (.redrive args)) (Turns.first (T := turns D) σ n) c.world) :
    ∃ n o, (turns D).alone i ((service D).code (.redrive args)) (Turns.first (T := turns D) σ n) c.world = some o ∧
      PutBack args c o ∧
      ∀ (settings : WorkerSettings) (e : Entry) (σ' : Nat → Turn), e.Polls settings →
        (∀ n, ¬ (turns D).refuses j ((service D).code e) (Turns.first (T := turns D) σ' n) o.world) →
        ∃ n' o', (turns D).alone j ((service D).code e) (Turns.first (T := turns D) σ' n') o.world = some o' ∧
          ((∀ m ∈ World.main o.world, m ∈ received o'.served) →
            (∀ y ∈ o'.served, ∀ key x, ¬ Blames settings key x y) →
            World.main o'.world = [] ∧ ∀ m job, Reads m.body job →
              (m ∈ World.main c.world ∨ m ∈ received o.served ∧ Chosen args job.jobId) →
              (World.db o'.world).Succeeded job.jobId ∨ (World.db c.world).Decided job.jobId) := by
  obtain ⟨n, o, ho⟩ := Turns.exists_alone hσ
  have hback := putBack_of_alone hc hi hsqs hreal htakes ho
  refine ⟨n, o, ho, hback, fun settings e σ' he hσ' => ?_⟩
  -- the redrive is a run from there, so the world that it leaves is that of a run
  obtain ⟨c₁, hreplay, -, hworld⟩ := Turns.replay_of_alone ho hi
  have hc₁ := hc.replay hreplay
  have hfree := Turns.threads_steps hreplay hij hj
  have hdeliverable := deliverable_of_reachable hc₁
  have hidle := idle_of_unstarted hc₁ hfree
  rw [hworld] at hdeliverable hidle
  obtain ⟨n', o', ho', honward, -, hempty⟩ := drained hdeliverable hidle he hσ'
  refine ⟨n', o', ho', fun hall hnone => ?_⟩
  obtain ⟨hmain, hdone⟩ := hempty hall hnone
  have hdecided {m : Message} (hm : m ∈ World.main o.world) {job : JobMessage} (hread : Reads m.body job) :
      (World.db o'.world).Succeeded job.jobId ∨ (World.db c.world).Decided job.jobId := by
    obtain ⟨job', hread', hend⟩ := hdone m hm
    obtain rfl := Reads.unique hread' hread
    exact hend.imp_right fun hd => (hback.decided _).mp hd
  refine ⟨hmain, fun m job hread hm => ?_⟩
  rcases hm with hm | ⟨hm, hchosen⟩
  · exact hdecided (hback.main m hm) hread
  · rcases hback.back m hm job hread hchosen with hold | ⟨m', hm', hbody⟩
    · exact .inl (honward.succeeded _ (hback.succeeded _ hold))
    · exact hdecided hm' (hbody ▸ hread)

theorem redelivers_sample : ∃ c, Pool.Reachable (boot (sample .atomic) 0) c ∧ World.dlq c.world ≠ [] ∧
    ∃ n o, (turns (sample .atomic)).alone 2 ((service (sample .atomic)).code (.redrive redriveAll))
        (Turns.first (T := turns (sample .atomic)) receivingOnce n) c.world = some o ∧ PutBack redriveAll c o ∧
      ∀ (settings : WorkerSettings) (e : Entry) (σ' : Nat → Turn), e.Polls settings →
        (∀ n, ¬ (turns (sample .atomic)).refuses 3 ((service (sample .atomic)).code e)
          (Turns.first (T := turns (sample .atomic)) σ' n) o.world) →
        ∃ n' o', (turns (sample .atomic)).alone 3 ((service (sample .atomic)).code e)
            (Turns.first (T := turns (sample .atomic)) σ' n') o.world = some o' ∧
          ((∀ m ∈ World.main o.world, m ∈ received o'.served) →
            (∀ y ∈ o'.served, ∀ key x, ¬ Blames settings key x y) →
            World.main o'.world = [] ∧ ∀ m job, Reads m.body job →
              (m ∈ World.main c.world ∨ m ∈ received o.served ∧ Chosen redriveAll job.jobId) →
              (World.db o'.world).Succeeded job.jobId ∨ (World.db c.world).Decided job.jobId) := by
  have hrun : (Pool.recordIf (fun _ _ => true) (ingestSample (sample .atomic) 1 1 2 ++ [.step 1 {}, .env (.toDlq 0)])
      [] (boot (sample .atomic) 0)).any (fun x => (x.2.threads 2).isNone && (x.2.threads 3).isNone &&
        (World.dlq x.2.world).all (fun m => (World.takes x.2.world) m.body (redriveAttributes (dlqMessage m))) &&
        !(World.dlq x.2.world).isEmpty &&
        ((turns (sample .atomic)).alone 2 ((service (sample .atomic)).code (.redrive redriveAll))
          (Turns.first (T := turns (sample .atomic)) receivingOnce 8) x.2.world).isSome) = true := by
    decide +kernel
  obtain ⟨⟨h, c⟩, hx, hrun⟩ := (Option.any_eq_true _ _).mp hrun
  obtain ⟨hcheck, hsome⟩ := Bool.and_eq_true_iff.mp hrun
  obtain ⟨hfree, hdlq⟩ := Bool.and_eq_true_iff.mp hcheck
  obtain ⟨hfree, htakes⟩ := Bool.and_eq_true_iff.mp hfree
  obtain ⟨hi, hj⟩ := Bool.and_eq_true_iff.mp hfree
  obtain ⟨o, ho⟩ := Option.isSome_iff_exists.mp hsome
  have hr : Pool.Run Pool.anything (boot (sample .atomic) 0) h c :=
    Pool.Run.nil.recordIf (fun _ _ _ => trivial) hx
  have hne : World.dlq c.world ≠ [] := fun hnil => by simp [hnil] at hdlq
  exact ⟨c, ⟨h, hr⟩, hne, redelivers ⟨h, hr⟩ (Option.isNone_iff_eq_none.mp hi) (Option.isNone_iff_eq_none.mp hj)
    (by decide) (by decide) rfl (List.all_eq_true.mp htakes) (Turns.not_refuses_of_alone ho)⟩

end CM
