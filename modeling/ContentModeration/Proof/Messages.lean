import ContentModeration.Proof.Decisions
import ContentModeration.Proof.Requests

/-!
# Messages

The message of a job stays in a queue until the job has a decision or has been
rejected (`sent_stays_covered`). Content that was accepted is not lost either,
as long as every job that is committed has its message sent
(`accepted_accounted`), and calls that accept the same content agree on its job
(`ingest_agrees`).
-/

namespace CM

open Database World

variable {D : Deployment}

/-! ## At least once -/

/-- A message is in fact sent for the job, with this body, and the queue takes it. -/
def Sent (st : (service D).Step) (job : Uuid) (body : Json) : Prop :=
  ∃ i p e provider attributes k, st.action = .step i p ∧
    st.before.At i e (.enqueue provider job body attributes) k ∧ provider ≠ .pubsub "" ∧
    st.before.world.takes (.json body) attributes = true ∧ ∀ text, p.fault ≠ .before text

/-- The body names the job and is covered. -/
def CoveredAs (job : Uuid) (b : RawBody) (s : World) : Prop :=
  (∃ m, Reads b m ∧ m.jobId = job) ∧ s.Covered 0 b

theorem Reads.unique {b : RawBody} {m m' : JobMessage} (h : Reads b m) (h' : Reads b m') : m = m' := by
  obtain ⟨v, rfl, hv⟩ := h
  obtain ⟨v', he, hv'⟩ := h'
  cases he
  rw [hv] at hv'
  exact Except.ok.inj hv'

theorem sent_covered {st : (service D).Step} {now : Time} {job : Uuid} {body : Json}
    (hr : Pool.Reachable (boot D now) st.before) (hn : Pool.next st.before st.action = some st.after)
    (hs : Sent st job body) : CoveredAs job (.json body) st.after.world := by
  obtain ⟨i, p, e, provider, attributes, k, ha, hat, hp, ht, hf⟩ := hs
  have hsound := sound_of_reachable hr
  obtain ⟨-, hreads, -⟩ := (hsound.pre_of_at (valid D False) hat).1
  rw [ha] at hn
  obtain ⟨e', q, k', r, w, hat', hx, hafter⟩ := Pool.next_step hn
  cases hat.symm.trans hat'
  rw [hafter]
  refine ⟨hreads, .inl ?_⟩
  rcases sent_or_same (i := i) hx with rfl | ⟨-, rfl | hno | ⟨text, hb⟩⟩
  · exact ⟨_, mem_messages_send.mpr (.inr rfl), Nat.zero_le _, rfl⟩
  · exact absurd rfl hp
  · exact absurd ht (Bool.eq_false_iff.mp hno)
  · exact absurd hb (hf text)

/-- Once the message of a job is sent, in every later state it is in a queue,
or the job has a decision, or a delivery of it has ended in `ValidationError`. -/
theorem sent_stays_covered {now : Time} {h : List (service D).Step} {c : (service D).Config}
    (hr : Pool.Run Pool.anything (boot D now) h c) {st : (service D).Step} (hm : st ∈ h) {job : Uuid} {body : Json}
    (hs : Sent st job body) :
    (∃ m ∈ c.world.messages, m.body = .json body) ∨ c.world.db.Decided job ∨ c.world.Rejected job := by
  obtain ⟨⟨h', hr'⟩, -, hn⟩ := hr.mem hm
  have hafter := sent_covered hr'.reachable hn hs
  obtain ⟨⟨m, hreads, hjob⟩, hc⟩ := hr.keeps (K := fun c => CoveredAs job (.json body) c.world)
    (fun hr hc hn => ⟨hc.1, (grows_of_next hr hn).covered _ _ hc.2⟩) hm hafter
  rcases hc with ⟨m', hm', -, hb⟩ | ⟨m', hreads', h'⟩
  · exact .inl ⟨m', hm', hb⟩
  · rw [hreads.unique hreads'] at hjob
    exact .inr (hjob ▸ h')

/-- The message that thread `i` is about to send. -/
def sending? (c : (service D).Config) (i : Nat) :
    Option (QueueProvider × Uuid × Json × List (String × String)) :=
  match c.threads i with
  | some ⟨_, some (.call (.enqueue provider job body attributes) _)⟩ => some (provider, job, body, attributes)
  | _ => none

theorem sending?_eq {c : (service D).Config} {i : Nat} {provider : QueueProvider} {job : Uuid} {body : Json}
    {attributes : List (String × String)} :
    sending? c i = some (provider, job, body, attributes) ↔
      ∃ e k, c.At i e (.enqueue provider job body attributes) k := by
  constructor
  · intro h
    simp only [sending?] at h
    split at h
    · rename_i e provider job body attributes k hat
      cases h
      exact ⟨e, k, hat⟩
    · cases h
  · rintro ⟨e, k, hat⟩
    simp only [sending?]
    rw [show c.threads i = _ from hat]

theorem sent_stays_covered_sample : ∃ h c st job body, Pool.Run Pool.anything (boot (sample .atomic) 0) h c ∧
    st ∈ h ∧ Sent st job body ∧
    ((∃ m ∈ c.world.messages, m.body = .json body) ∨ c.world.db.Decided job ∨ c.world.Rejected job) := by
  have hrun : (Pool.replayIf (fun _ _ => true) (ingestSample (sample .atomic) 0 1 2) (boot (sample .atomic) 0)).any
      (fun c => (sending? c 0).any fun x => decide (x.1 = .sqs) && c.world.takes (.json x.2.2.1) x.2.2.2) = true := by
    decide +kernel
  have hany : ∀ (c : (service (sample .atomic)).Config) a, true = true → Pool.anything c a := fun _ _ _ => trivial
  obtain ⟨h, c, hr, hc⟩ := Pool.exists_replayIf hany hrun
  obtain ⟨⟨provider, job, body, attributes⟩, hx, hp⟩ := (Option.any_eq_true _ _).mp hc
  obtain ⟨e, k, hat⟩ := sending?_eq.mp hx
  obtain ⟨hp, htakes⟩ := Bool.and_eq_true_iff.mp hp
  obtain rfl : provider = .sqs := of_decide_eq_true hp
  have hx : World.exec 0 (.enqueue .sqs job body attributes) {} c.world =
      some (.ok (), c.world.send (.json body) attributes) := by
    simp [World.exec, runSend, htakes, answer]
  have hn := Pool.next_of_at hat hx
  have hsent : ∀ c', Sent ⟨c, .step 0 {}, c'⟩ job body := fun c' =>
    ⟨0, {}, e, .sqs, attributes, k, rfl, hat, by simp, htakes, by simp⟩
  exact ⟨_, _, _, job, body, .cons hr trivial hn, List.mem_cons_self, hsent _,
    sent_stays_covered (.cons hr trivial hn) List.mem_cons_self (hsent _)⟩

/-! ## Accepted content -/

/-- The job has a decision, or a message in a queue, or was rejected, or the
call that created it has yet to send its message. -/
def Accounted (c : (service D).Config) (job : Uuid) : Prop :=
  c.world.db.Decided job ∨ (∃ m ∈ c.world.messages, ∃ jm, Reads m.body jm ∧ jm.jobId = job) ∨
  c.world.Rejected job ∨ ∃ i e provider body attributes k, c.At i e (.enqueue provider job body attributes) k

/-- Every step that sends a message succeeds in it: no commit of a new job
loses its acknowledgement, no sending fails without having taken effect, the queue
takes the message, and no call dies before it has sent it. -/
structure Delivers (c : (service D).Config) (a : (service D).Action) : Prop where
  step {i p e q k} : a = .step i p → c.At i e q k → SendsOk e q p c.world
  crash {i e provider job body attributes k} :
    a = .crash i → ¬ c.At i e (.enqueue provider job body attributes) k

theorem admits_delivers (D : Deployment) : (rules D True).Admits Delivers :=
  fun ha hat _ => ha.step rfl hat

theorem World.JobCovered.accounted {c : (service D).Config} {job : Uuid} (h : c.world.JobCovered job) :
    Accounted c job := by
  obtain ⟨b, m, hb, rfl, ⟨m', hm', -, rfl⟩ | ⟨m', hb', hd | hr⟩⟩ := h
  · exact .inr (.inl ⟨m', hm', m, hb, rfl⟩)
  · exact .inl (hb.unique hb' ▸ hd)
  · exact .inr (.inr (.inl (hb.unique hb' ▸ hr)))

/-- When all messages are sent, no job is lost. -/
theorem job_accounted {now : Time} {h : List (service D).Step} {c : (service D).Config}
    (hr : Pool.Run Delivers (boot D now) h c) {job : Uuid} (hj : c.world.db.HasJob job) : Accounted c job := by
  have hR := verified D True
  have hs := hr.sound hR (admits_delivers D) (initial D _ now)
  obtain ⟨j, hm, rfl⟩ := hj
  obtain ⟨⟨i, hi⟩, -⟩ := hs.inv.owned j.link (List.mem_map_of_mem hm)
  have clear : Clear True i c.world → Accounted c j.id :=
    fun h => (h trivial j.id hi ⟨j, hm, rfl⟩).accounted
  have hthread := hs.thread i
  match ht : c.threads i with
  | none =>
    rw [ht] at hthread
    exact absurd hi (hthread.drawn j.id)
  | some ⟨e, none⟩ =>
    refine clear (hr.dead hR (admits_delivers D) (initial D _ now) (G := Clear _) (fun _ s s' hk _ h =>
      steady_clear s s' hk h) (fun {c i e q k} ha hat hi hp hA u hu hj => ?_) i e ht)
    rcases hp.2 hA u hu hj with ⟨provider, body, attributes, rfl⟩ | hc
    · exact absurd hat (ha.crash rfl)
    · exact hc
  | some ⟨e, some (.ret a)⟩ => exact clear (hs.post_of_returned hR.valid ht).idle.clear
  | some ⟨e, some (.throw x)⟩ => exact clear (hs.post_of_raised hR.valid ht).idle.clear
  | some ⟨e, some (.call q k)⟩ =>
    rcases (hs.pre_of_at hR.valid ht).2 trivial j.id hi ⟨j, hm, rfl⟩ with ⟨provider, body, attributes, rfl⟩ | hc
    · exact .inr (.inr (.inr ⟨i, e, provider, body, attributes, k, ht⟩))
    · exact hc.accounted

/-- When all messages are sent, content that was accepted is not lost. -/
theorem accepted_accounted {now : Time} {h : List (service D).Step} {c : (service D).Config}
    (hr : Pool.Run Delivers (boot D now) h c) {i : Nat} {settings : ApiSettings} {req : IngestRequest}
    {response : IngestResponse} (ha : c.Returned i (.acceptImage settings req) (.accepted response)) :
    Accounted c response.jobId := by
  have hs := sound_of_reachable hr.reachable
  obtain ⟨hlink, -, -⟩ := (hs.post_of_returned (valid D False) ha).accepted rfl rfl
  obtain ⟨j, hj, he⟩ := List.mem_map.mp hlink
  exact job_accounted hr ⟨j, hj, congrArg (·.1) he⟩

/-- What thread `i`, a call of `accept_image`, has answered. -/
def accepted? (c : (service D).Config) (i : Nat) : Option IngestResponse :=
  match c.threads i with
  | some ⟨.acceptImage _ _, some (.ret (.accepted response))⟩ => some response
  | _ => none

theorem returned_of_accepted? {c : (service D).Config} {i : Nat} {response : IngestResponse}
    (h : accepted? c i = some response) :
    ∃ settings req, c.Returned i (.acceptImage settings req) (.accepted response) := by
  simp only [accepted?] at h
  split at h
  · rename_i settings req response' hret
    cases h
    exact ⟨settings, req, hret⟩
  · cases h

/-- A check that a step delivers: it does not fail, and no thread dies. -/
def delivers? (c : (service D).Config) : (service D).Action → Bool
  | .step i p => decide ((p : Pick).fault = .none) && (sending? c i).all fun x =>
      decide (x.1 ≠ .pubsub "") && c.world.takes (.json x.2.2.1) x.2.2.2
  | .crash _ => false
  | _ => true

theorem delivers_of_check (c : (service D).Config) (a : (service D).Action) (h : delivers? c a = true) :
    Delivers c a where
  step {i p e q k} ha hat := by
    rw [ha] at h
    simp only [delivers?, Bool.and_eq_true, decide_eq_true_eq, Option.all_eq_true] at h
    cases q with
    | enqueue provider job body attributes =>
      obtain ⟨hp, ht⟩ := h.2 _ (sending?_eq.mpr ⟨e, k, hat⟩)
      exact ⟨hp, ht, fun text hf => by rw [h.1] at hf; cases hf⟩
    | commit => exact fun _ _ _ text hf => by rw [h.1] at hf; cases hf
    | _ => trivial
  crash {i e provider job body attributes k} ha _ := by
    rw [ha] at h
    cases h

theorem accepted_accounted_sample : ∃ h c i settings req response,
    Pool.Run Delivers (boot (sample .atomic) 0) h c ∧
    c.Returned i (.acceptImage settings req) (.accepted response) ∧ Accounted c response.jobId := by
  have hrun : (Pool.replayIf delivers? (ingestSample (sample .atomic) 0 1 2 ++ [.step 0 {}])
      (boot (sample .atomic) 0)).any (fun c => (accepted? c 0).isSome) = true := by
    decide +kernel
  obtain ⟨h, c, hr, hc⟩ := Pool.exists_replayIf delivers_of_check hrun
  obtain ⟨response, hx⟩ := Option.isSome_iff_exists.mp hc
  obtain ⟨settings, req, hret⟩ := returned_of_accepted? hx
  exact ⟨h, c, 0, settings, req, response, hr, hret, accepted_accounted hr hret⟩

/-- Sending the message fails, the job is marked as failed, and the client tries
again: the answer is that of a job that nothing will ever process. -/
theorem not_accounted_after_failure : ¬ ∀ c, Pool.Reachable (boot (sample .atomic) 0) c →
    ∀ i settings req response, c.Returned i (.acceptImage settings req) (.accepted response) →
      Accounted c response.jobId := by
  intro h
  have hrun : (Pool.replay (ingestSample (sample .atomic) 0 1 2 ++ [.step 0 { fault := .before "timed out" },
        .step 0 {}, .step 0 {}, .start 1 (.acceptImage {} sampleRequest), .step 1 {}, .step 1 {}])
      (boot (sample .atomic) 0)).any (fun c => (accepted? c 1).isSome && c.world.db.decisions.isEmpty &&
        c.world.messages.isEmpty && c.world.log.isEmpty && (sending? c 0).isNone && (sending? c 1).isNone) =
            true := by
    decide +kernel
  obtain ⟨c, hc, hf⟩ := (Option.any_eq_true _ _).mp hrun
  simp only [Bool.and_eq_true, Option.isNone_iff_eq_none, List.isEmpty_iff] at hf
  obtain ⟨⟨⟨⟨⟨hacc, hdec⟩, hmsg⟩, hlog⟩, h0⟩, h1⟩ := hf
  obtain ⟨response, hx⟩ := Option.isSome_iff_exists.mp hacc
  obtain ⟨settings, req, hret⟩ := returned_of_accepted? hx
  rcases h c (Pool.Reachable.replay ⟨[], .nil⟩ hc) 1 settings req response hret with
    ⟨d, hd, -⟩ | ⟨m, hm, -⟩ | ⟨⟨err, he⟩, -⟩ | ⟨i, e, provider, body, attributes, k, hat⟩
  · rw [hdec] at hd
    cases hd
  · rw [hmsg] at hm
    cases hm
  · rw [hlog] at he
    cases he
  · have hs := sending?_eq.mpr ⟨e, k, hat⟩
    by_cases hi0 : i = 0
    · rw [hi0, h0] at hs
      cases hs
    by_cases hi1 : i = 1
    · rw [hi1, h1] at hs
      cases hs
    have hi : i ∉ [0, 1] := by simp [hi0, hi1]
    have hnone : c.threads i = none := Pool.threads_replay hc hi rfl
    rw [show c.threads i = _ from hat] at hnone
    cases hnone

/-! ## Agreement -/

/-- Thread `i`, a call of `accept_image` for content with this digest, has
answered `response`. -/
def Accepts (c : (service D).Config) (i : Nat) (digest : String) (response : IngestResponse) : Prop :=
  ∃ settings req, contentHash D.sha256 req.body (strip req.caption) settings.policyVersion = digest ∧
    c.Returned i (.acceptImage settings req) (.accepted response)

/-- `enqueue_job` is invoked for the job. -/
def Cmd.enqueues (job : Uuid) : Cmd → Bool
  | .enqueue _ job' _ _ => decide (job' = job)
  | _ => false

/-- The calls of a run with the history `h` agree on what they ingest. -/
structure Agreement (h : List (service D).Step) (c : (service D).Config) : Prop where
  jobs (digest : String) : (c.world.db.jobs.filter fun j => decide (j.contentHash = digest)).length ≤ 1
  contents (digest : String) : (c.world.db.contents.filter fun x => decide (x.contentHash = digest)).length ≤ 1
  points : ∀ j ∈ c.world.db.jobs, ∃ x ∈ c.world.db.contents, x.id = j.contentId ∧ x.contentHash = j.contentHash
  same {i i' digest r r'} : Accepts c i digest r → Accepts c i' digest r' →
    r.jobId = r'.jobId ∧ r.contentId = r'.contentId
  first {i i' digest r r'} : Accepts c i digest r → Accepts c i' digest r' →
    r.deduplicated = false → r'.deduplicated = false → i = i'
  enqueued (job : Uuid) : (Pool.requests h).countP (fun x => Cmd.enqueues job x.2) ≤ 1

theorem Accepts.accepted {c : (service D).Config} {now : Time} {i : Nat} {digest : String} {r : IngestResponse}
    (hr : Pool.Reachable (boot D now) c) (h : Accepts c i digest r) : Accepted digest i r c.world := by
  obtain ⟨settings, req, rfl, hret⟩ := h
  exact ((sound_of_reachable hr).post_of_returned (valid D False) hret).accepted rfl rfl

/-- Answers about one digest name the same job. -/
theorem Accepted.same {s : World} (hi : Inv s) {digest : String} {i i' : Nat} {r r' : IngestResponse}
    (h : Accepted digest i r s) (h' : Accepted digest i' r' s) :
    r.jobId = r'.jobId ∧ r.contentId = r'.contentId := by
  obtain ⟨j, hj, he⟩ := List.mem_map.mp h.link
  obtain ⟨j', hj', he'⟩ := List.mem_map.mp h'.link
  have hhash : j.contentHash = j'.contentHash := by
    rw [show j.contentHash = r.contentHash from congrArg (·.2.2) he,
      show j'.contentHash = r'.contentHash from congrArg (·.2.2) he', h.digest, h'.digest]
  obtain rfl := List.inj_on_of_nodup_map hi.unique.jobHashes hj hj' hhash
  have hlink := he.symm.trans he'
  exact ⟨congrArg (·.1) hlink, congrArg (·.2.1) hlink⟩

/-- The thread that enqueues a job has drawn its identifier. -/
theorem drawn_of_enqueue {now : Time} {h : List (service D).Step} {c : (service D).Config}
    (hr : Pool.Run Pool.anything (boot D now) h c) {i : Nat} {q : Cmd} {job : Uuid}
    (hm : (i, q) ∈ Pool.requests h) (hq : q.enqueues job = true) : (job, i) ∈ c.world.drawn := by
  obtain ⟨st, hst, hreq⟩ := List.mem_filterMap.mp hm
  obtain ⟨⟨h', hr'⟩, -, hn⟩ := hr.mem hst
  have hdrawn : (job, i) ∈ st.before.world.drawn := by
    simp only [Pool.Step.request] at hreq
    split at hreq
    · split at hreq
      · rename_i e q' k hat
        cases hreq
        have hp := ((sound_of_reachable hr'.reachable).pre_of_at (valid D False) hat).1
        cases q with
        | enqueue provider job' body attributes => exact of_decide_eq_true hq ▸ hp.1
        | _ => cases hq
      · cases hreq
    · cases hreq
  exact hr.keeps (K := fun c => (job, i) ∈ c.world.drawn)
    (fun hr hd hn => (grows_of_next hr hn).drawn hd) hst ((grows_of_next hr'.reachable hn).drawn hdrawn)

/-- `enqueue_job` is invoked at most once for a job: only by the thread that has
drawn its identifier, and at most once in a call. -/
theorem enqueued_le_one {now : Time} {h : List (service D).Step} {c : (service D).Config}
    (hr : Pool.Run Pool.anything (boot D now) h c) (job : Uuid) :
    (Pool.requests h).countP (fun x => Cmd.enqueues job x.2) ≤ 1 := by
  by_cases hex : ∃ x ∈ Pool.requests h, Cmd.enqueues job x.2 = true
  · obtain ⟨⟨i, q⟩, hm, hq⟩ := hex
    have hi := drawn_of_enqueue hr hm hq
    have hcode : ∀ e, ((service D).code e).AtMost Cmd.IsEnqueue 1 := code_atMost D
    have hle : Pool.asked Cmd.IsEnqueue i h ≤ 1 := hr.requests_le _ (fun _ => rfl) hcode i
    refine Nat.le_trans (List.countP_mono_left fun x hx hxq => ?_) hle
    refine decide_eq_true ⟨drawn_unique (inv_of_reachable hr.reachable).drawn (drawn_of_enqueue hr hx hxq) hi, ?_⟩
    obtain ⟨j, q'⟩ := x
    cases q' with
    | enqueue => trivial
    | _ => cases hxq
  · have hzero : (Pool.requests h).countP (fun x => Cmd.enqueues job x.2) = 0 :=
      List.countP_eq_zero.mpr fun x hx hxq => hex ⟨x, hx, hxq⟩
    omega

/-- In every run, the calls of `accept_image` agree. -/
theorem ingest_agrees {now : Time} {h : List (service D).Step} {c : (service D).Config}
    (hr : Pool.Run Pool.anything (boot D now) h c) : Agreement h c where
  jobs digest := by
    rw [length_filter_eq]
    exact List.nodup_iff_count_le_one.mp (inv_of_reachable hr.reachable).unique.jobHashes digest
  contents digest := by
    rw [length_filter_eq]
    exact List.nodup_iff_count_le_one.mp (inv_of_reachable hr.reachable).unique.contentHashes digest
  points j hj := ((inv_of_reachable hr.reachable).owned j.link (List.mem_map_of_mem hj)).2
  same h h' := (h.accepted hr.reachable).same (inv_of_reachable hr.reachable) (h'.accepted hr.reachable)
  first h h' hd hd' := by
    have ha := h.accepted hr.reachable
    have ha' := h'.accepted hr.reachable
    have hi := inv_of_reachable hr.reachable
    refine drawn_unique hi.drawn (ha.drawn hd) ?_
    rw [(ha.same hi ha').1]
    exact ha'.drawn hd'
  enqueued := enqueued_le_one hr

theorem ingest_agrees_sample : ∃ h c r r', Pool.Run Pool.anything (boot (sample .atomic) 0) h c ∧
    accepted? c 0 = some r ∧ accepted? c 1 = some r' ∧ r'.deduplicated = true ∧ Agreement h c := by
  have hrun : (Pool.replayIf (fun _ _ => true) (ingestSample (sample .atomic) 0 1 2 ++ [.step 0 {},
        .start 1 (.acceptImage {} sampleRequest), .step 1 {}, .step 1 {}]) (boot (sample .atomic) 0)).any
      (fun c => (accepted? c 0).isSome && (accepted? c 1).any (·.deduplicated)) = true := by
    decide +kernel
  have hany : ∀ (c : (service (sample .atomic)).Config) a, true = true → Pool.anything c a := fun _ _ _ => trivial
  obtain ⟨h, c, hr, hc⟩ := Pool.exists_replayIf hany hrun
  obtain ⟨h0, h1⟩ := Bool.and_eq_true_iff.mp hc
  obtain ⟨r, hr0⟩ := Option.isSome_iff_exists.mp h0
  obtain ⟨r', hr1, hdup⟩ := (Option.any_eq_true _ _).mp h1
  exact ⟨h, c, r, r', hr, hr0, hr1, hdup, ingest_agrees hr⟩

end CM
