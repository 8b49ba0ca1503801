import ContentModeration.Proof.Provenance

/-!
# The trace context of a job

A job message leaves the API with the trace context of its request among its
attributes, and may be moved to the dead-letter queue and sent again any number
of times before it is consumed (`Travels`). SQS keeps the attributes of a
message that it moves. The redrive builds them anew, without the context, so
that the context reaches the worker if and only if the message was never
redriven, or there was none (`trace_kept_iff`).
-/

namespace CM

/-! ## What is asked and what it sends -/

/-- The program may come to make the request. -/
def CanAsk {α : Type} (p : M α) (q : Cmd) : Prop := p.MayAsk (fun _ _ => True) q

theorem CanAsk.of_only {α : Type} {p : M α} {q : Cmd} {P : Cmd → Prop} (h : CanAsk p q) (hp : p.Only P) : P q :=
  (Prog.OnlyIf.of_only hp).holds h

/-- The request may put the message in a queue. -/
def Puts (q : Cmd) (m : Message) : Prop :=
  ∃ i p s r s', World.exec i q p s = some (r, s') ∧ m ∈ World.messages s' ∧ m ∉ World.messages s

theorem Puts.sends {q : Cmd} {m : Message} (h : Puts q m) :
    (∃ provider job body, q = .enqueue provider job body m.attributes ∧ m.body = .json body) ∨
      q = .sendMessage m.body m.attributes := by
  obtain ⟨i, p, s, r, s', hx, hm, hnew⟩ := h
  exact (messages_of_exec hx hm).resolve_left hnew

/-- The message carries a job that was sent with the context, and has been sent again `n` times since. -/
inductive Travels (carrier : List (String × String)) : Nat → Message → Prop where
  | enqueued {settings jobId contentId contentHash objectKey caption q m} (sqs : settings.provider = .sqs)
      (asked : CanAsk (enqueueJob settings carrier jobId contentId contentHash objectKey caption) q)
      (put : Puts q m) : Travels carrier 0 m
  | dead {n id m m' s s'} (sent : Travels carrier n m) (found : s.main.find? (·.id = id) = some m)
      (moved : World.event (.toDlq id) s = some s') (there : m' ∈ s'.dlq) (new : m' ∉ s.dlq) : Travels carrier n m'
  | redriven {args counts n q m m'} (sent : Travels carrier n m) (asked : CanAsk (redriveMessage args counts m) q)
      (put : Puts q m') : Travels carrier (n + 1) m'

variable {carrier : List (String × String)} {n : Nat} {m : Message}

theorem enqueueJob_only (settings : ApiSettings) (carrier : List (String × String)) (jobId contentId : Uuid)
    (contentHash objectKey caption : String) :
    (enqueueJob settings carrier jobId contentId contentHash objectKey caption).Only fun q : Cmd =>
      q = .enqueue settings.provider jobId (jobBody settings jobId contentId contentHash objectKey caption)
        (jobAttributes carrier jobId contentHash) := .ask rfl

theorem Cmd.OfRedrive.sent {raw : Message} {body : RawBody} {attributes : List (String × String)}
    (h : Cmd.OfRedrive raw (.sendMessage body attributes)) :
    body = raw.body ∧ attributes = redriveAttributes (dlqMessage raw) := by
  cases h
  exact ⟨rfl, rfl⟩

/-- The attributes of a message on its way: those it was sent with, or those that the last redrive gave it. -/
theorem Travels.attributes (h : Travels carrier n m) :
    (n = 0 ∧ ∃ jobId contentHash, m.attributes = jobAttributes carrier jobId contentHash) ∨
      (n ≠ 0 ∧ ∃ raw, m.attributes = redriveAttributes (dlqMessage raw)) := by
  induction h with
  | @enqueued settings jobId contentId contentHash objectKey caption q m _ asked put =>
    have hq := asked.of_only (enqueueJob_only ..)
    rcases put.sends with ⟨provider, job, body, h, -⟩ | h
    · obtain ⟨-, -, -, ha⟩ := Cmd.enqueue.inj (h.symm.trans hq)
      exact .inl ⟨rfl, jobId, contentHash, ha⟩
    · cases h.symm.trans hq
  | @dead n id m m' s s' _ found moved there new ih =>
    rw [World.event, found] at moved
    cases moved
    rcases List.mem_append.mp there with hm | hm
    · exact absurd hm new
    · rw [List.mem_singleton.mp hm]
      exact ih
  | @redriven args counts n q m m' _ asked put _ =>
    have hq := asked.of_only (redriveMessage_asks ..)
    rcases put.sends with ⟨provider, job, body, h, -⟩ | h
    · rw [h] at hq
      cases hq
    · rw [h] at hq
      exact .inr ⟨Nat.succ_ne_zero n, m, hq.sent.2⟩

/-! ## What the worker reads -/

theorem stringValue_attribute (value : String) :
    stringValue (.obj [("DataType", .str "String"), ("StringValue", .str value)]) =
      if value = "" then none else some value := rfl

theorem carrierFromSqsAttributes_eq (m : Message) :
    carrierFromSqsAttributes (some m.messageAttributes) = m.attributes.filter (·.2 ≠ "") := by
  simp only [carrierFromSqsAttributes, Message.messageAttributes, Option.getD_some, List.filterMap_map,
    Function.comp_def, stringValue_attribute]
  rw [← List.filterMap_eq_filter]
  refine List.filterMap_congr fun kv _ => ?_
  by_cases hv : kv.2 = ""
  · simp [hv, Option.guard]
  · simp [hv, Option.guard]

/-- The keys and the values of a trace context. -/
structure IsCarrier (carrier : List (String × String)) : Prop where
  keys : ∀ kv ∈ carrier, kv.1 ≠ "job_id" ∧ kv.1 ≠ "content_hash"
  values : ∀ kv ∈ carrier, kv.2 ≠ ""

/-- Restricted to the keys of the context, what the worker extracts is the context. -/
def TraceKept (carrier : List (String × String)) (m : Message) : Prop :=
  ∀ key ∈ carrier.map Prod.fst,
    (carrierFromSqsAttributes (some m.messageAttributes)).lookup key = carrier.lookup key

theorem traceKept_of_sent (hc : IsCarrier carrier) {jobId : Uuid} {contentHash : String}
    (hm : m.attributes = jobAttributes carrier jobId contentHash) : TraceKept carrier m := by
  intro key hkey
  have hall : carrier.filter (fun kv => decide (kv.2 ≠ "")) = carrier :=
    List.filter_eq_self.mpr fun kv hkv => by simpa using hc.values kv hkv
  rw [carrierFromSqsAttributes_eq, hm, jobAttributes, List.filter_append, hall, List.lookup_append]
  refine Option.or_of_isSome (List.lookup_isSome_iff.mpr ?_)
  obtain ⟨kv, hkv, rfl⟩ := List.mem_map.mp hkey
  exact ⟨kv, hkv, by simp⟩

/-- The redrive keeps none of the keys of a context. -/
theorem lookup_redriveAttributes {key : String} (h : key ≠ "job_id" ∧ key ≠ "content_hash") (msg : DlqMessage) :
    ((redriveAttributes msg).filter (·.2 ≠ "")).lookup key = none := by
  refine List.lookup_eq_none_iff.mpr fun kv hkv => ?_
  have hmem := (List.mem_filter.mp hkv).1
  simp only [redriveAttributes, List.mem_append, List.mem_map] at hmem
  rcases hmem with ⟨value, -, rfl⟩ | ⟨value, -, rfl⟩
  · exact bne_iff_ne.mpr h.2
  · exact bne_iff_ne.mpr h.1

theorem traceKept_of_redriven (hc : IsCarrier carrier) {msg : DlqMessage}
    (hm : m.attributes = redriveAttributes msg) : TraceKept carrier m ↔ carrier = [] := by
  constructor
  · intro hkept
    cases carrier with
    | nil => rfl
    | cons kv rest =>
      obtain ⟨key, value⟩ := kv
      have hkey := hkept key (by simp)
      rw [carrierFromSqsAttributes_eq, hm, lookup_redriveAttributes (hc.keys _ List.mem_cons_self),
        List.lookup_cons_self] at hkey
      cases hkey
  · rintro rfl key hkey
    exact absurd hkey List.not_mem_nil

/-- The context of a job reaches the worker that consumes its message if and only if the
message was never redriven, or there was no context; moves to the dead-letter queue alone
do not lose it. -/
theorem trace_kept_iff (carrier : List (String × String)) (context : IsCarrier carrier) (n : Nat) (m : Message)
    (travels : Travels carrier n m) : TraceKept carrier m ↔ n = 0 ∨ carrier = [] := by
  rcases travels.attributes with ⟨rfl, jobId, contentHash, hm⟩ | ⟨hn, raw, hm⟩
  · exact iff_of_true (traceKept_of_sent context hm) (.inl rfl)
  · rw [traceKept_of_redriven context hm]
    exact (or_iff_right hn).symm

/-! ## A job on its way -/

theorem canAsk_call {α : Type} (q : Cmd) (k : Except Exn q.Ans → M α) : CanAsk (.call q k : M α) q := .inl rfl

theorem puts_enqueue (jobId : Uuid) (body : Json) (attributes : List (String × String)) :
    Puts (.enqueue .sqs jobId body attributes) ⟨0, .json body, attributes⟩ :=
  ⟨0, {}, { now := 0 }, _, _, rfl, List.mem_singleton_self _, List.not_mem_nil⟩

theorem puts_sendMessage (body : RawBody) (attributes : List (String × String)) :
    Puts (.sendMessage body attributes) ⟨0, body, attributes⟩ :=
  ⟨0, {}, { now := 0 }, _, _, rfl, List.mem_singleton_self _, List.not_mem_nil⟩

/-- The body of a job's message. -/
def sampleBody : Json := jobBody {} ⟨1⟩ ⟨2⟩ "c0ffee" "content/c0/c0ffee/2.jpg" "hello"

/-- A redrive without a database. -/
def queueOnly : RedriveArgs where
  limit := 1
  dryRun := false
  jobIdFilter := none
  skipDb := true

theorem redrive_asks (hb : m.body = .json sampleBody) :
    CanAsk (redriveMessage queueOnly {} m) (.sendMessage m.body (redriveAttributes (dlqMessage m))) := by
  have field : ∀ {key str : String}, sampleBody.get? key = some (.str str) → (Json.str str).falsy = false →
      dlqField m key = some { str } := fun hget htrue => by
    simp only [dlqField, hb, hget, Option.getD_some, htrue, Bool.false_eq_true, if_false, Json.pyStr, Json.isLone]
  have hid : (dlqMessage m).jobId = some { str := Uuid.str ⟨1⟩ } := field rfl (by decide +kernel)
  have hhash : (dlqMessage m).contentHash = some { str := "c0ffee" } := field rfl (by decide +kernel)
  have hparse : parseDlqMessage m = .ok (dlqMessage m) := by rw [parseDlqMessage, hb]
  have hplan : planRedrive (dlqMessage m) none none = { resetJob := true } := by
    have hbody : (dlqMessage m).bodyRaw.isEmpty = false := by
      rw [dlqMessage, hb]
      rfl
    simp only [planRedrive, hbody, hid, PyStr.uuid, Bool.false_eq_true, if_false, Uuid.parse_str, Option.isNone_some,
      Option.filter_none, Option.any_none]
  -- neither the identifier nor the hash has a lone surrogate
  have hprinted : encoded ((dlqMessage m).contentHash.map (PyStr.take 12)) = .ok () := by rw [hhash]; rfl
  have hsent : encoded (dlqMessage m).contentHash = .ok () := by rw [hhash]; rfl
  unfold redriveMessage
  rw [hparse, Prog.ofExcept_ok_bind]
  simp only [lookupStatus, queueOnly, Prog.pure_bind, hplan, hprinted, Prog.ofExcept_ok_bind, resetIfPlanned, hsent]
  exact canAsk_call _ _

/-- A job may be redriven any number of times. -/
theorem exists_travels (carrier : List (String × String)) (n : Nat) :
    ∃ m, Travels carrier n m ∧ m.body = .json sampleBody := by
  induction n with
  | zero =>
    have hsqs : ({} : ApiSettings).provider = .sqs := rfl
    exact ⟨_, .enqueued hsqs (canAsk_call _ _) (puts_enqueue ..), rfl⟩
  | succ n ih =>
    obtain ⟨m, hm, hb⟩ := ih
    exact ⟨_, .redriven hm (redrive_asks hb) (puts_sendMessage ..), hb⟩

/-- A trace context. -/
def sampleTrace : List (String × String) :=
  [("traceparent", "00-4bf92f3577b34da6a3ce929d0e0e4736-00f067aa0ba902b7-01")]

theorem isCarrier_sampleTrace : IsCarrier sampleTrace :=
  ⟨by simp [sampleTrace], by simp [sampleTrace]⟩

theorem trace_kept_sample : ∃ m, Travels sampleTrace 0 m ∧ TraceKept sampleTrace m := by
  obtain ⟨m, hm, -⟩ := exists_travels sampleTrace 0
  exact ⟨m, hm, (trace_kept_iff sampleTrace isCarrier_sampleTrace 0 m hm).mpr (.inl rfl)⟩

/-- One redrive loses the context. -/
theorem trace_lost : ¬ ∀ (carrier : List (String × String)) (n : Nat) (m : Message), IsCarrier carrier →
    Travels carrier n m → TraceKept carrier m := by
  intro h
  obtain ⟨m, hm, -⟩ := exists_travels sampleTrace 1
  rcases hm.attributes with ⟨hn, -⟩ | ⟨-, raw, ha⟩
  · cases hn
  · have hkept := h sampleTrace 1 m isCarrier_sampleTrace hm
    rw [traceKept_of_redriven isCarrier_sampleTrace ha] at hkept
    cases hkept

end CM
