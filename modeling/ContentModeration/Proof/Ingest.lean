import ContentModeration.Impl.Ingest
import ContentModeration.Proof.Worker

/-!
# Ingest follows the rules

A call of `accept_image` commits a job with its content in one transaction
(`persistJob_spec`), and then owes its message (`Owing`), which it sends before
any other request. What it returns names a committed job with the digest of
the request (`Accepted`). The lookup after a unique violation is made in a
transaction that has failed, so it always raises.
-/

namespace CM

open Database World

variable {D : Deployment} {A : Prop} {i : Nat} {e : Entry}

/-! ## What the call knows -/

/-- Thread `i` has drawn the identifier `u`, and no job has it. -/
structure Fresh (i : Nat) (u : Uuid) (s : World) : Prop where
  drawn : (u, i) ∈ s.drawn
  unused : ¬ s.db.HasJob u

theorem steady_fresh (u : Uuid) : Steady i (Fresh i u) := fun _ _ hk h =>
  ⟨hk.grows.drawn h.drawn, fun hj => h.unused (hk.jobs u h.drawn hj)⟩

/-- The job is committed with its content, and its identifier was drawn by thread `i`. -/
structure Stocked (i : Nat) (content : ContentItem) (jobId : Uuid) (s : World) : Prop where
  link : (jobId, content.id, content.contentHash) ∈ s.db.jobs.map Job.link
  content : content ∈ s.db.contents
  drawn : (jobId, i) ∈ s.drawn

theorem lasting_stocked (content : ContentItem) (jobId : Uuid) : Lasting (Stocked i content jobId) :=
  fun _ _ hg h => ⟨hg.db.jobs h.link, hg.db.contents h.content, hg.drawn h.drawn⟩

/-- Thread `i` has created the job, whose message may be missing. -/
structure Owing (A : Prop) (i : Nat) (jobId : Uuid) (s : World) : Prop where
  txn : s.txn i = none
  jobs : A → ∀ u, (u, i) ∈ s.drawn → s.db.HasJob u → u = jobId ∨ s.JobCovered u

theorem steady_owing (jobId : Uuid) : Steady i (Owing A i jobId) := fun _ _ hk h =>
  ⟨hk.txn.trans h.txn, fun hA u hu hj => (h.jobs hA u (hk.drawn u hu) (hk.jobs u (hk.drawn u hu) hj)).imp_right
    (.mono hk.grows)⟩

/-- What `accept_image` answers. -/
structure Accepted (digest : String) (i : Nat) (r : IngestResponse) (s : World) : Prop where
  link : (r.jobId, r.contentId, r.contentHash) ∈ s.db.jobs.map Job.link
  digest : r.contentHash = digest
  drawn : r.deduplicated = false → (r.jobId, i) ∈ s.drawn

theorem lasting_accepted (digest : String) (r : IngestResponse) : Lasting (Accepted digest i r) :=
  fun _ _ hg h => ⟨hg.db.jobs h.link, h.digest, fun hd => hg.drawn (h.drawn hd)⟩

/-- The end of a call of `accept_image` with this digest. -/
def AcceptEnd (digest : String) (i : Nat) (r : Except Exn IngestResponse) (s : World) : Prop :=
  match r with
  | .ok response => Accepted digest i response s
  | .error _ => True

/-! ## Fresh identifiers -/

theorem uuid4_spec : Spec D A i e (fun _ => True) (request .uuid4) fun r s => match r with
    | .ok u => Fresh i u s
    | .error _ => True := by
  refine Rules.Triple.perform (valid D A) (steady_const True).stable (fun s hi h => ⟨trivial, ?_⟩)
    (fun r => ?_) ?_
  · exact fun hA u hu hj => .inr (h.1.clear hA u hu hj)
  · cases r with
    | ok u => exact (steady_fresh u).stable
    | error x => exact (steady_const True).stable
  · intro s p r s' hi h _ hx _
    have hx' : World.exec i .uuid4 p s = some (r, s') := hx
    simp only [World.exec] at hx'
    split at hx'
    · cases hx'
    · rename_i hnew
      cases hx'
      have unused : ¬ s.db.HasJob p.fresh := by
        rintro ⟨j, hj, hid⟩
        obtain ⟨⟨k, hk⟩, -⟩ := hi.owned j.link (List.mem_map_of_mem hj)
        exact hnew (List.any_eq_true.mpr ⟨_, hk, decide_eq_true hid⟩)
      refine ⟨⟨h.1.txn, fun hA u hu hj => ?_⟩, List.mem_cons_self, unused⟩
      rcases List.mem_cons.mp hu with hu | hu
      · cases hu
        exact absurd hj unused
      · exact h.1.clear hA u hu hj

/-! ## The transaction -/

theorem run_insertContent {db : Database} {row : ContentItem} {t : Time} {u : Uuid} {a : Unit}
    {ws : List Write} (hr : (Sql.insertContent row).run db t u = .ok (a, ws)) : ws = [.content row] := by
  simp only [Sql.run] at hr
  exact (insert_ok hr).2.1

theorem run_insertJob {db : Database} {id contentId : Uuid} {hash : String} {t : Time} {u : Uuid} {a : Unit}
    {ws : List Write} (hr : (Sql.insertJob id contentId hash).run db t u = .ok (a, ws)) :
    ws = [.job { id, contentId, contentHash := hash, status := .queued, enqueuedAt := t }] := by
  simp only [Sql.run] at hr
  exact (insert_ok hr).2.1

/-- What `accept_image` knows of its writes when it commits them. -/
def PersistJobEnd (i : Nat) (content : ContentItem) (jobId : Uuid) (tenantId : String)
    (a : Option IngestResponse) (t : Time) (ws : List Write) (s : World) : Prop :=
  a = none ∧ ws = ingestBundle content jobId tenantId t ∧ (jobId, i) ∈ s.drawn

theorem lasting_drawn (u : Uuid) : Lasting fun s => (u, i) ∈ s.drawn := fun _ _ hg h => hg.drawn h

theorem persistRows_spec (content : ContentItem) (jobId : Uuid) (tenantId : String) (t : Time) :
    (rules D A).Triple i e (fun s => Open A i t [] s ∧ (jobId, i) ∈ s.drawn)
      (do
        let _ ← sql (.insertContent content)
        let _ ← sql (.insertJob jobId content.id content.contentHash)
        let _ ← sql (.insertAudit
          ⟨"job", jobId, "enqueued", "api", enqueuedDetail content.contentHash tenantId content.source⟩)
        return none)
      fun r s => match r with
        | .ok a => ∃ ws, Open A i t ws s ∧ Complete i s ws ∧ PersistJobEnd i content jobId tenantId a t ws s
        | .error _ => Broken A i s ∧ (jobId, i) ∈ s.drawn := by
  have hK := lasting_drawn (i := i) jobId
  have broken : ∀ (x : Exn) (s : World), Broken A i s → (jobId, i) ∈ s.drawn →
      Broken A i s ∧ (jobId, i) ∈ s.drawn := fun _ _ h h' => ⟨h, h'⟩
  refine stmt_bind_write hK (w := fun _ => .content content) trivial
    (fun s u a ws' _ _ _ hr => run_insertContent hr) broken fun _ _ => ?_
  refine stmt_bind_write hK (w := fun _ => .job
      { id := jobId, contentId := content.id, contentHash := content.contentHash, status := .queued
        enqueuedAt := t }) trivial (fun s u a ws' _ _ _ hr => run_insertJob hr) broken fun _ _ => ?_
  refine stmt_bind_write hK (w := fun _ => .audit
      ⟨"job", jobId, "enqueued", "api", enqueuedDetail content.contentHash tenantId content.source⟩) trivial
    (fun s u a ws' _ _ _ hr => run_insertAudit hr) broken fun _ _ => ?_
  refine Rules.Triple.ret (fun s s' hk _ h => ⟨steady_open _ _ s s' hk h.1, hK s s' hk.grows h.2⟩)
    fun s _ h => ⟨_, h.1, .ingest content jobId tenantId t h.2, rfl, rfl, h.2⟩

/-- The lookup of `accept_image` after a unique violation raises as well. -/
theorem raceLookup_spec (content : ContentItem) (x : Exn) {K : World → Prop} (hK : Lasting K) :
    (rules D A).Triple i e (fun s => Broken A i s ∧ K s)
      (if x.isDuplicate then do
        match ← sql (.jobByHash content.contentHash) with
        | some j => return some (j.response content.contentHash "idempotent hit — race resolved")
        | none => throw x
      else throw x : M (Option IngestResponse))
      fun r s => match r with
        | .ok _ => False
        | .error _ => K s ∧ Clear A i s := by
  have hs : (rules D A).Stable i fun s => Broken A i s ∧ K s :=
    fun s s' hk _ h => ⟨steady_broken s s' hk h.1, hK s s' hk.grows h.2⟩
  split
  · have hlookup : (Sql.jobByHash content.contentHash).InTxn := trivial
    refine Rules.Triple.bind (valid D A) (M := fun _ _ => False)
      ((stmt_broken hK hlookup).mono (fun _ _ h => h) fun r s _ h => ?_) fun _ _ _ h => h.elim
    cases r with
    | ok a => exact h.2.2
    | error y => exact ⟨h.2.1, h.1.clear⟩
  · exact Rules.Triple.throw hs fun s _ h => ⟨h.2, h.1.clear⟩

/-- What is committed with a new job, and what is then owed. -/
theorem Committed.stocked {content : ContentItem} {jobId : Uuid} {tenantId : String}
    {a : Option IngestResponse} {t : Time} {ws : List Write} {s : World}
    (h : Committed A i (PersistJobEnd i content jobId tenantId a t ws) t ws s) :
    a = none ∧ Owing A i jobId s ∧ Stocked i content jobId s := by
  obtain ⟨s₀, -, ⟨rfl, rfl, hd⟩, ho, hk⟩ := h
  have hx := hk.grows.db
  refine ⟨rfl, ⟨hk.txn.trans (txn_finish_self ..), fun hA u hu hj => ?_⟩, hx.jobs ?_, hx.contents ?_,
    hk.grows.drawn hd⟩
  · have hu₀ : (u, i) ∈ s₀.drawn := hk.drawn u hu
    rcases hasJob_applyAll (hk.jobs u hu₀ hj) with hj | ⟨j, hw, rfl⟩
    · exact .inr (((ho.clear hA u hu₀ hj).mono (grows_finish s₀ _)).mono hk.grows)
    · left
      simp only [ingestBundle, List.mem_cons, Write.job.injEq, reduceCtorEq, false_or, List.not_mem_nil,
        or_false] at hw
      rw [hw]
  · show _ ∈ ((s₀.db.applyAll _).jobs.map Job.link)
    rw [jobs_applyAll JobUpdate.link_apply]
    exact List.mem_append_right _ List.mem_cons_self
  · show _ ∈ (s₀.db.applyAll _).contents
    rw [contents_applyAll]
    exact List.mem_append_right _ List.mem_cons_self

/-- The transaction commits the new job, or raises. -/
theorem persistJob_spec (content : ContentItem) (jobId : Uuid) (tenantId : String)
    (he : ∃ settings req, e = .acceptImage settings req) :
    (rules D A).Triple i e (fun s => Idle A i s ∧ (jobId, i) ∈ s.drawn) (persistJob content jobId tenantId)
      fun r s => match r with
        | .ok a => a = none ∧ Owing A i jobId s ∧ Stocked i content jobId s
        | .error _ => Idle A i s := by
  have hK := lasting_drawn (i := i) jobId
  refine Rules.Triple.mono (transaction_spec hK (P := PersistJobEnd i content jobId tenantId)
    (fun a t ws s s' hg h => ⟨h.1, h.2.1, hK s s' hg h.2.2⟩) (fun _ _ _ _ _ => .inr he) fun t => ?_)
    (fun _ _ h => h) fun r s _ h => ?_
  · refine Rules.Triple.tryCatch (valid D A) (M := fun _ s => Broken A i s ∧ (jobId, i) ∈ s.drawn) (fun a => ?_)
      ((persistRows_spec content jobId tenantId t).mono (fun _ _ h => h) fun r s _ h => ?_) fun x => ?_
    · exact fun s s' hk _ ⟨ws, ho, hc, h⟩ =>
        ⟨ws, steady_open t ws s s' hk ho, hc.mono hk.grows, h.1, h.2.1, hK s s' hk.grows h.2.2⟩
    · cases r <;> exact h
    · refine (raceLookup_spec content x hK).mono (fun _ _ h => h) fun r s _ h => ?_
      cases r with
      | ok a => exact h.elim
      | error y => exact h
  · cases r with
    | ok a =>
      obtain ⟨t, ws, hc⟩ := h
      exact hc.stocked
    | error x => exact h

/-! ## The message -/

theorem bodyString_obj {fields : List (String × Json)} {key text : String}
    (h : fields.lookup key = some (.str text)) : bodyString (.obj fields) key = .ok text := by
  simp only [bodyString, Json.get?, h]

theorem bodyUuid_obj {fields : List (String × Json)} {key : String} {u : Uuid}
    (h : fields.lookup key = some (.str u.str)) : bodyUuid (.obj fields) key = .ok u := by
  simp only [bodyUuid, bodyString_obj h, bind, Except.bind, Uuid.parse_str]

/-- The worker reads from the message what was put into it. -/
theorem readJobMessage_jobBody (settings : ApiSettings) (jobId contentId : Uuid)
    (contentHash objectKey caption : String) :
    readJobMessage (jobBody settings jobId contentId contentHash objectKey caption) =
      .ok { jobId, contentId, contentHash, objectKey, caption } := by
  have hjob : bodyUuid (jobBody settings jobId contentId contentHash objectKey caption) "job_id" = .ok jobId :=
    bodyUuid_obj rfl
  have hcontent : bodyUuid (jobBody settings jobId contentId contentHash objectKey caption) "content_id" =
      .ok contentId := bodyUuid_obj rfl
  have hhash : bodyString (jobBody settings jobId contentId contentHash objectKey caption) "content_hash" =
      .ok contentHash := bodyString_obj rfl
  have hkey : bodyString (jobBody settings jobId contentId contentHash objectKey caption) "object_key" =
      .ok objectKey := bodyString_obj rfl
  have hcaption : bodyString (jobBody settings jobId contentId contentHash objectKey caption) "caption" =
      .ok caption := bodyString_obj rfl
  have hget : (jobBody settings jobId contentId contentHash objectKey caption).get? "caption" =
      some (.str caption) := rfl
  simp only [readJobMessage, hjob, hcontent, hhash, hkey, hcaption, hget, bind, Except.bind, Option.getD_some,
    Json.falsy, decide_eq_true_eq]
  split
  · rename_i h
    rw [h]
    rfl
  · rfl

theorem bodyOk_jobBody {content : ContentItem} {jobId : Uuid} {settings : ApiSettings} {s : World}
    (h : Stocked i content jobId s) :
    BodyOk s.db (.json (jobBody settings jobId content.id content.contentHash content.objectKey
      content.caption)) := by
  rintro m ⟨v, hv, hm⟩
  cases hv
  rw [readJobMessage_jobBody] at hm
  cases hm
  exact ⟨h.link, content, h.content, rfl, rfl, rfl, rfl⟩

/-- The message is sent, or sending it fails. -/
theorem sent_or_same {provider : QueueProvider} {job : Uuid} {body : Json} {attributes : List (String × String)}
    {p : Pick} {s s' : World} {r : Except Exn Unit}
    (hx : World.exec i (.enqueue provider job body attributes) p s = some (r, s')) :
    s' = s.send (.json body) attributes ∨
      s' = s ∧
        (provider = .pubsub "" ∨ s.takes (.json body) attributes = false ∨ ∃ text, p.fault = .before text) := by
  simp only [World.exec, runSend] at hx
  split at hx
  · rename_i hp
    cases hx
    exact .inr ⟨rfl, .inl hp⟩
  · split at hx
    · cases hf : p.fault with
      | none | after text =>
        simp only [answer, hf] at hx
        cases hx
        exact .inl rfl
      | before text =>
        simp only [answer, hf] at hx
        cases hx
        exact .inr ⟨rfl, .inr (.inr ⟨text, rfl⟩)⟩
    · rename_i ht
      cases hx
      exact .inr ⟨rfl, .inr (.inl (Bool.eq_false_iff.mpr ht))⟩

/-- `enqueue_job` leaves no message owing, unless sending may fail. -/
theorem enqueueJob_spec (settings : ApiSettings) (carrier : List (String × String)) (content : ContentItem)
    (jobId : Uuid) :
    (rules D A).Triple i e (fun s => Owing A i jobId s ∧ Stocked i content jobId s)
      (enqueueJob settings carrier jobId content.id content.contentHash content.objectKey content.caption)
      fun _ s => Idle A i s ∧ Stocked i content jobId s := by
  refine Rules.Triple.perform (valid D A)
    (fun s s' hk _ h => ⟨steady_owing jobId s s' hk h.1, lasting_stocked _ _ s s' hk.grows h.2⟩)
    (fun s _ h => ⟨⟨h.2.drawn, ⟨_, ⟨_, rfl, readJobMessage_jobBody ..⟩, rfl⟩, bodyOk_jobBody h.2⟩, ?_⟩)
    (fun r s s' hk _ h => ⟨steady_idle s s' hk h.1, lasting_stocked _ _ s s' hk.grows h.2⟩) ?_
  · intro hA u hu hj
    refine (h.1.jobs hA u hu hj).imp_left fun hu => ?_
    rw [hu]
    exact ⟨_, _, _, rfl⟩
  · intro s p r s' _ h ha hx _
    rcases sent_or_same (i := i) hx with rfl | ⟨rfl, hno⟩
    · have hsend := grows_send (s := s) (.json (jobBody settings jobId content.id content.contentHash
        content.objectKey content.caption)) (jobAttributes carrier jobId content.contentHash)
      refine ⟨⟨h.1.txn, fun hA u hu hj => ?_⟩, lasting_stocked _ _ _ _ hsend h.2⟩
      rcases h.1.jobs hA u hu hj with rfl | hc
      · refine ⟨_, _, ⟨_, rfl, readJobMessage_jobBody ..⟩, rfl, .inl ⟨_, mem_messages_send.mpr (.inr rfl),
          Nat.zero_le _, rfl⟩⟩
      · exact hc.mono hsend
    · refine ⟨⟨h.1.txn, fun hA => ?_⟩, h.2⟩
      rcases hno with hno | hno | ⟨text, hno⟩
      · exact absurd hno (ha hA).1
      · exact absurd (ha hA).2.1 (Bool.eq_false_iff.mp hno)
      · exact absurd hno ((ha hA).2.2 text)

/-! ## `accept_image` -/

theorem sendJob_spec (settings : ApiSettings) (carrier : List (String × String)) (content : ContentItem)
    (jobId : Uuid) :
    (rules D A).Triple i e (fun s => Owing A i jobId s ∧ Stocked i content jobId s)
      (sendJob settings carrier content jobId) fun r s => Idle A i s ∧ AcceptEnd content.contentHash i r s := by
  refine Rules.Triple.bind (valid D A) (M := fun _ s => Idle A i s ∧ Stocked i content jobId s)
    (Rules.Triple.attempt ((enqueueJob_spec settings carrier content jobId).mono (fun _ _ h => h)
      fun r s _ h => h)) fun r => ?_
  have hS := (lasting_stocked (i := i) content jobId).steady (i := i)
  cases r with
  | ok u =>
    exact Spec.ret (Q := AcceptEnd content.contentHash i) hS fun s _ h => ⟨h.link, rfl, fun _ => h.drawn⟩
  | error x =>
    refine Spec.skip (Q := AcceptEnd content.contentHash i) trivial hS (fun _ _ => trivial)
      (fun _ _ _ _ => trivial) fun _ => ?_
    exact Spec.skip (q := .sql _) trivial hS (fun s ht => contract_sql ht trivial) (fun _ _ _ _ => trivial)
      fun _ => Spec.throw hS fun _ _ _ => trivial

/-- The transaction, and then the message. -/
theorem storeJob_spec (settings : ApiSettings) (carrier : List (String × String)) (content : ContentItem)
    (jobId : Uuid) (tenantId : String) (he : ∃ req, e = .acceptImage settings req) :
    Spec D A i e (Fresh i jobId)
      (do match ← persistJob content jobId tenantId with
          | some response => return response
          | none => sendJob settings carrier content jobId)
      (AcceptEnd content.contentHash i) := by
  refine Rules.Triple.bind (valid D A)
    (M := fun a s => a = none ∧ Owing A i jobId s ∧ Stocked i content jobId s)
    ((persistJob_spec content jobId tenantId ⟨settings, he⟩).mono (fun s _ h => ⟨h.1, h.2.drawn⟩) fun r s _ h => ?_)
    fun a s hi h => ?_
  · cases r with
    | ok a => exact h
    | error x => exact ⟨h, trivial⟩
  · obtain ⟨rfl, h⟩ := h
    exact sendJob_spec settings carrier content jobId s hi h

theorem ingestNew_spec (settings : ApiSettings) (req : IngestRequest) (caption digest : String)
    (he : ∃ req, e = .acceptImage settings req) :
    Spec D A i e (fun _ => True) (ingestNew settings req caption digest) (AcceptEnd digest i) := by
  refine Spec.bind uuid4_spec (fun _ _ _ => trivial) fun contentId => ?_
  refine Spec.mono (K := fun _ => True) ?_ (fun _ _ => trivial) fun _ _ h => h
  refine Spec.bind uuid4_spec (fun _ _ _ => trivial) fun jobId => ?_
  refine Spec.attempt_bind (P := fun _ s => Fresh i jobId s) (Spec.mono (request_spec trivial
    (steady_fresh jobId) fun _ _ _ _ => trivial) (fun _ h => h) fun _ _ h => h.1) fun r => ?_
  cases r with
  | error x => exact Spec.throw (steady_fresh jobId) fun _ _ _ => trivial
  | ok u =>
    refine Spec.skip trivial (steady_fresh jobId) (fun _ _ => trivial) (fun _ _ _ _ => trivial) fun _ => ?_
    exact Spec.mono (storeJob_spec settings req.carrier _ jobId req.tenantId he) (fun _ h => h)
      fun _ _ h => h

theorem Answered.jobRef {st : Sql} {a : st.Ans} {j : JobRef} {digest : String} {K : World → Prop} {s : World}
    (h : Answered i K (.sql st) a s)
    (hj : ∀ db t u ws, st.run db t u = .ok (a, ws) →
      (j.jobId, j.contentId, digest) ∈ db.jobs.map Job.link) (message : String) :
    Accepted digest i (j.response digest message) s := by
  obtain ⟨s₀, u, ws, -, -, hr, hk⟩ := h.sql
  exact ⟨hk.grows.db.jobs ((extends_applyAll s₀.db ws).jobs (hj _ _ _ _ hr)), rfl, fun h => by cases h⟩

theorem link_of_jobByHash {db : Database} {digest : String} {j : Job} (h : db.jobByHash? digest = some j) :
    (j.id, j.contentId, digest) ∈ db.jobs.map Job.link := by
  have hd : j.contentHash = digest := by simpa using List.find?_some h
  exact List.mem_map.mpr ⟨j, List.mem_of_find?_eq_some h, by rw [← hd]; rfl⟩

theorem run_jobByHash {db : Database} {digest : String} {j : JobRef} {t : Time} {u : Uuid} {ws : List Write}
    (h : (Sql.jobByHash digest).run db t u = .ok (some j, ws)) :
    (j.jobId, j.contentId, digest) ∈ db.jobs.map Job.link := by
  simp only [Sql.run, Except.ok.injEq, Prod.mk.injEq, Option.map_eq_some_iff] at h
  obtain ⟨⟨j', hj', rfl⟩, -⟩ := h
  exact link_of_jobByHash hj'

theorem run_existingJob {db : Database} {digest : String} {j : JobRef} {t : Time} {u : Uuid} {ws : List Write}
    (h : (Sql.existingJob digest).run db t u = .ok (some j, ws)) :
    (j.jobId, j.contentId, digest) ∈ db.jobs.map Job.link := by
  simp only [Sql.run, Except.ok.injEq, Prod.mk.injEq] at h
  obtain ⟨j', hj', h⟩ := Option.bind_eq_some_iff.mp h.1
  obtain ⟨c, -, h⟩ := Option.bind_eq_some_iff.mp h
  cases h
  exact link_of_jobByHash hj'

theorem awaitIngest_spec (digest : String) (n : Nat) :
    Spec D A i e (fun _ => True) (awaitIngest digest n) (AcceptEnd digest i) := by
  induction n with
  | zero => exact Spec.throw (steady_const True) fun _ _ _ => trivial
  | succ n ih =>
    refine Spec.request (q := .sql _) trivial (steady_const True) (fun s _ ht _ => contract_sql ht trivial)
      (fun _ _ _ _ => trivial) fun found => ?_
    cases found with
    | some j =>
      exact Spec.ret ((steady_const True).and (steady_answered _ _)) fun s _ h =>
        Answered.jobRef h.2 (fun _ _ _ _ => run_jobByHash) _
    | none =>
      refine Spec.mono (K := fun _ => True) ?_ (fun _ _ => trivial) fun _ _ h => h
      exact Spec.skip trivial (steady_const True) (fun _ _ => trivial) (fun _ _ _ _ => trivial) fun _ => ih

/-- What a call of `accept_image` answers names a committed job with the digest
of the request. -/
theorem acceptImage_spec (settings : ApiSettings) (req : IngestRequest)
    (he : ∃ req, e = .acceptImage settings req) :
    Spec D A i e (fun _ => True) (acceptImage D.sha256 settings req)
      (AcceptEnd (contentHash D.sha256 req.body (strip req.caption) settings.policyVersion) i) := by
  have raise : ∀ (x : Exn), Spec D A i e (fun _ => True) (throw x)
      (AcceptEnd (contentHash D.sha256 req.body (strip req.caption) settings.policyVersion) i) :=
    fun _ => Spec.throw (steady_const True) fun _ _ _ => trivial
  simp only [acceptImage]
  split
  · exact raise _
  split
  · exact raise _
  split
  · exact raise _
  refine Spec.skip trivial (steady_const True) (fun _ _ => trivial) (fun _ _ _ _ => trivial) fun _ => ?_
  refine Spec.request (q := .sql _) trivial (steady_const True) (fun s _ ht _ => contract_sql ht trivial)
    (fun _ _ _ _ => trivial) fun found => ?_
  cases found with
  | some j =>
    exact Spec.ret ((steady_const True).and (steady_answered _ _)) fun s _ h =>
      Answered.jobRef h.2 (fun _ _ _ _ => run_existingJob) _
  | none =>
    refine Spec.mono (K := fun _ => True) ?_ (fun _ _ => trivial) fun _ _ h => h
    refine Spec.skip trivial (steady_const True) (fun _ _ => show 120 ≤ claimTtlSeconds by decide)
      (fun _ _ _ _ => trivial) fun acquired => ?_
    split
    · exact ingestNew_spec settings req _ _ he
    · exact Spec.skip trivial (steady_const True) (fun _ _ => trivial) (fun _ _ _ _ => trivial) fun _ =>
        awaitIngest_spec _ _

end CM
