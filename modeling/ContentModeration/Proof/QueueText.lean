import ContentModeration.Framework.JsonDump
import ContentModeration.Proof.Duties
import ContentModeration.Proof.Ingest

/-!
# What is written on a job message

A message is put in a queue by the upload of its job, or by the redrive, which has received it from a
queue before. So however often it is moved, every message of a run is word for word that of an upload
(`uploaded_of_run`). Its text, as `json.dumps` writes it, is ASCII, and what `json.loads` and
`handle_message` read from it are the identifiers, the digest and the key of the job and the caption of
the upload, whatever characters the caption holds (`text_of_upload`).
-/

namespace CM

open JsonText (Ascii dumps decode strings)

variable {D : Deployment} {i : Nat} {ok : (service D).Config → (service D).Action → Prop} {now : Time}
  {h : List (service D).Step} {c c' : (service D).Config}

/-! ## Where messages come from -/

/-- The body is that of a job of an upload. -/
def Uploaded (c : (service D).Config) (b : RawBody) : Prop :=
  ∃ i settings req job contentId key, (∃ t, c.threads i = some ⟨.acceptImage settings req, t⟩) ∧
    b = .json (jobBody settings job contentId (digestOf D settings req) key (strip req.caption))

theorem Uploaded.next {a : (service D).Action} (hn : Pool.next c a = some c') {b : RawBody} (hb : Uploaded c b) :
    Uploaded c' b := by
  obtain ⟨i, settings, req, job, contentId, key, ht, hb⟩ := hb
  exact ⟨i, settings, req, job, contentId, key, entry_of_next hn ht, hb⟩

/-- A step adds only messages of uploads, if those that were there before are. -/
theorem uploaded_of_next (hr : Pool.Run ok (boot D now) h c)
    (hold : ∀ st ∈ h, ∀ m ∈ World.messages st.before.world, Uploaded c m.body) {a : (service D).Action}
    (hn : Pool.next c a = some c') {m : Message} (hm : m ∈ c'.world.messages) :
    m ∈ c.world.messages ∨ Uploaded c m.body := by
  cases a with
  | start j e =>
    obtain ⟨-, rfl⟩ := Pool.next_start hn
    exact .inl hm
  | step j p =>
    obtain ⟨e, q, k, r, s, hat, hx, rfl⟩ := Pool.next_step hn
    refine (messages_of_exec hx hm).imp_right fun hsent => ?_
    obtain ⟨record, hby, hall⟩ := hr.justified (fun _ => rfl) (code_by D) hat
    rcases hsent with ⟨provider, job, body, rfl, hb⟩ | rfl
    · obtain ⟨settings, req, contentId, key, rfl, rfl⟩ := hby
      exact ⟨j, settings, req, job, contentId, key, ⟨_, hat⟩, hb⟩
    · obtain ⟨queue, max, ms, hreceive, m', hm', hb⟩ := hby
      obtain ⟨st, hst, p', e', k', w, -, -, hx'⟩ := hall _ hreceive
      have hexec : World.exec j (.receive queue max) p' st.before.world = some (.ok ms, w) := hx'
      exact hb ▸ hold st hst m' (mem_of_receive hexec hm')
  | crash j =>
    obtain ⟨e, q, k, -, rfl⟩ := Pool.next_crash hn
    exact .inl hm
  | env v =>
    obtain ⟨w, hx, rfl⟩ := Pool.next_env hn
    exact .inl (messages_of_event hx hm)

/-- Every message of a run is that of an upload. -/
theorem uploaded_of_run (hr : Pool.Run ok (boot D now) h c) :
    (∀ m ∈ c.world.messages, Uploaded c m.body) ∧
    ∀ st ∈ h, ∀ m ∈ World.messages st.before.world, Uploaded c m.body := by
  induction hr with
  | nil => exact ⟨fun _ hm => (nomatch hm), fun _ hst => (nomatch hst)⟩
  | @cons h c a c' hr _ hn ih =>
    refine ⟨fun m hm => ?_, fun st hst m hm => ?_⟩
    · exact ((uploaded_of_next hr ih.2 hn hm).elim (ih.1 m) id).next hn
    · rcases List.mem_cons.mp hst with rfl | hst
      · exact (ih.1 m hm).next hn
      · exact (ih.2 st hst m hm).next hn

/-! ## What is read from them -/

/-- The fields of `_job_body`. -/
def jobFields (settings : ApiSettings) (jobId contentId : Uuid) (contentHash objectKey caption : String) :
    List (String × String) :=
  [("job_id", jobId.str), ("content_id", contentId.str), ("content_hash", contentHash), ("object_key", objectKey),
    ("caption", caption), ("policy_version", settings.policyVersion), ("pipeline_version", settings.pipelineVersion)]

/-- The dict of the strings. -/
def Json.ofFields (fields : List (String × String)) : Json := .obj (fields.map fun kv => (kv.1, .str kv.2))

theorem jobBody_eq (settings : ApiSettings) (jobId contentId : Uuid) (contentHash objectKey caption : String) :
    jobBody settings jobId contentId contentHash objectKey caption =
      .ofFields (jobFields settings jobId contentId contentHash objectKey caption) := rfl

theorem whole_strings (fields : List (String × String)) : JsonText.Whole (strings fields) := by
  refine .obj fun kv hkv => ?_
  obtain ⟨kv', -, rfl⟩ := List.mem_map.mp hkv
  exact .str _

/-- The text of every message, however often it has been moved, is ASCII, and is read back as the fields of the
job and the caption of the upload that it comes from. -/
theorem text_of_upload (hr : Pool.Run ok (boot D now) h c) {m : Message} (hm : m ∈ c.world.messages) :
    ∃ i settings req jobId contentId key fields, (∃ t, c.threads i = some ⟨.acceptImage settings req, t⟩) ∧
      fields = jobFields settings jobId contentId (digestOf D settings req) key (strip req.caption) ∧
      m.body = .json (.ofFields fields) ∧ Ascii (dumps (strings fields)).toList ∧
      decode (dumps (strings fields)) = some (strings fields) ∧
      readJobMessage (.ofFields fields) =
        .ok ⟨jobId, contentId, digestOf D settings req, key, strip req.caption⟩ := by
  obtain ⟨i, settings, req, jobId, contentId, key, ht, hb⟩ := (uploaded_of_run hr).1 m hm
  rw [jobBody_eq] at hb
  exact ⟨i, settings, req, jobId, contentId, key, _, ht, rfl, hb, (whole_strings _).ascii,
    JsonText.decode_dumps (whole_strings _), readJobMessage_jobBody ..⟩

/-- A caption that is not ASCII is uploaded, and its message becomes a dead letter that a redrive puts back. -/
def movedSample : List (service (sample .atomic)).Action :=
  .start 1 (.acceptImage {} { sampleRequest with caption := " naïve" }) :: List.replicate 3 (.step 1 {}) ++
    [.step 1 { fresh := ⟨1⟩ }, .step 1 { fresh := ⟨2⟩ }] ++ List.replicate 8 (.step 1 {}) ++
    .env (.toDlq 0) :: .start 2 (.redrive { limit := 1, dryRun := false, jobIdFilter := none, skipDb := false }) ::
    List.replicate 7 (.step 2 { ids := [0] })

/-- A check of the caption in a body. -/
def RawBody.hasCaption (caption : String) : RawBody → Bool
  | .json v =>
    match v.get? "caption" with
    | some (.str s) => decide (s = caption)
    | _ => false
  | _ => false

theorem text_of_upload_sample : ∃ h c, Pool.Run Pool.anything (boot (sample .atomic) 0) h c ∧
    ∃ m ∈ World.main c.world, m.id = 1 ∧ ∃ i settings req jobId contentId key fields,
      strip req.caption = "naïve" ∧ (∃ t, c.threads i = some ⟨.acceptImage settings req, t⟩) ∧
      fields = jobFields settings jobId contentId (digestOf (sample .atomic) settings req) key (strip req.caption) ∧
      m.body = .json (.ofFields fields) ∧ Ascii (dumps (strings fields)).toList ∧
      decode (dumps (strings fields)) = some (strings fields) ∧
      readJobMessage (.ofFields fields) =
        .ok ⟨jobId, contentId, digestOf (sample .atomic) settings req, key, strip req.caption⟩ := by
  have hrun : (Pool.recordIf (fun _ _ => true) movedSample [] (boot (sample .atomic) 0)).any (fun x =>
      (World.main x.2.world).any fun m => decide (m.id = 1) && m.body.hasCaption "naïve") = true := by
    decide +kernel
  obtain ⟨⟨h, c⟩, hx, hrun⟩ := (Option.any_eq_true _ _).mp hrun
  have hr : Pool.Run Pool.anything (boot (sample .atomic) 0) h c :=
    Pool.Run.nil.recordIf (fun _ _ _ => trivial) hx
  obtain ⟨m, hm, hmoved⟩ := List.any_eq_true.mp hrun
  obtain ⟨hid, hcaption⟩ := Bool.and_eq_true_iff.mp hmoved
  have hmessage : m ∈ World.messages c.world := List.mem_append_left _ hm
  obtain ⟨i, settings, req, jobId, contentId, key, fields, ht, hfields, hbody, htext⟩ := text_of_upload hr hmessage
  have hsame : strip req.caption = "naïve" := by
    rw [hbody, hfields] at hcaption
    exact of_decide_eq_true hcaption
  exact ⟨h, c, hr, m, hm, of_decide_eq_true hid, i, settings, req, jobId, contentId, key, fields, hsame, ht, hfields,
    hbody, htext⟩

end CM
