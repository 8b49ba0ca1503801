import ContentModeration.Proof.Retry
import ContentModeration.Proof.Verdicts

/-!
# What is accepted is not refused

The API checks an image when it is uploaded, and the worker checks it again when it has fetched it. The types that
the API allows are a setting, those of the worker are fixed, and each has a size limit of its own. Where the
settings agree (`Agree`) and the object store gives out what was stored with the type under which it was stored
(`Faithful`), no image that a worker fetches fails its validation (`validated_of_run`).
-/

namespace CM

variable {D : Deployment} {j : Nat} {ok : (service D).Config → (service D).Action → Prop} {now : Time}
  {h : List (service D).Step} {c : (service D).Config} {e : Entry}

/-! ## What is stored -/

/-- Of the requests of a call: what it stores is the image of an upload that has passed the checks of the API. -/
def Cmd.Vetted (e : Entry) : Cmd → Prop
  | .putObject _ body contentType => ∃ settings req, e = .acceptImage settings req ∧ body = req.body ∧
      contentType = req.contentType ∧ Admissible settings req
  | _ => True

theorem vetted_of_not_puts {q : Cmd} (h : ¬ q.Puts) : q.Vetted e := by
  cases q with
  | putObject => exact absurd rfl h
  | _ => trivial

theorem ingestNew_vetted {settings : ApiSettings} {req : IngestRequest} (hok : Admissible settings req)
    (caption digest : String) : (ingestNew settings req caption digest).Only
    (Cmd.Vetted (.acceptImage settings req)) := by
  refine .bind (.ask trivial) fun contentId => .bind (.ask trivial) fun jobId => ?_
  refine .bind (Prog.Only.attempt (.ask ⟨settings, req, rfl, rfl, rfl, hok⟩)) fun stored => ?_
  cases stored with
  | error err => trivial
  | ok u =>
    refine .bind (.ask trivial) fun _ =>
      .bind ((persistJob_no_put _ _ _).mono fun q => vetted_of_not_puts) fun found => ?_
    cases found with
    | some response => trivial
    | none => exact (sendJob_no_put _ _ _ _).mono fun q => vetted_of_not_puts

theorem acceptImage_vetted (sha256 : Digest) (settings : ApiSettings) (req : IngestRequest) :
    (acceptImage sha256 settings req).Only (Cmd.Vetted (.acceptImage settings req)) := by
  simp only [acceptImage]
  split
  · trivial
  rename_i htype
  split
  · trivial
  rename_i hempty
  split
  · trivial
  rename_i hsize
  have hok : Admissible settings req := ⟨by simpa using htype, hempty, Nat.not_lt.mp hsize⟩
  refine .bind (.ask trivial) fun _ => .bind (.stmt trivial) fun found => ?_
  cases found with
  | some j => trivial
  | none =>
    refine .bind (.ask trivial) fun acquired => ?_
    split
    · exact ingestNew_vetted hok _ _
    · exact .bind (.ask trivial) fun _ => (awaitIngest_no_put _ 20).mono fun q => vetted_of_not_puts

theorem code_vetted (D : Deployment) (e : Entry) : (e.code D).Only (Cmd.Vetted e) := by
  cases e with
  | acceptImage settings req => exact .bind (acceptImage_vetted D.sha256 settings req) fun _ => trivial
  | _ => exact (code_no_put D (by simp)).mono fun q => vetted_of_not_puts

/-! ## What is fetched -/

/-- The store has been asked to store the image as the object `key` with the type. -/
def StoredAs (h : List (service D).Step) (key : String) (body : List UInt8) (contentType : String) : Prop :=
  ∃ st ∈ h, ∃ i p e k, st.action = .step i p ∧ st.before.At i e (.putObject key body contentType) k

/-- The object store gives out what was stored under the key, with its type. -/
def Faithful : List (service D).Step → Prop
  | [] => True
  | st :: h => Faithful h ∧ ∀ i p e key k, st.action = .step i p → st.before.At i e (.fetchObject key) k →
      Pick.fault p = .none → StoredAs h key (Pick.image p) (Pick.contentType p)

theorem Faithful.fetched (hf : Faithful h) {key : String} {image : List UInt8} {contentType : String}
    (hx : Pool.Happened h j ⟨.fetchObject key, .ok (image, contentType)⟩) : StoredAs h key image contentType := by
  obtain ⟨st, hm, p, e, k, w, hact, hat, hexec⟩ := hx
  have hexec : some (World.answer st.before.world p (Pick.image p, Pick.contentType p) st.before.world) =
      some (.ok (image, contentType), w) := hexec
  have hfault := World.fault_of_ok (Option.some.inj hexec)
  obtain ⟨hans, -⟩ := World.answer_ok (Option.some.inj hexec)
  obtain ⟨rfl, rfl⟩ := Prod.mk.inj hans
  clear hexec hans
  induction h with
  | nil => cases hm
  | cons st' h ih =>
    rcases List.mem_cons.mp hm with rfl | hm
    · obtain ⟨st'', hm', hput⟩ := hf.2 j p e key k hact hat hfault
      exact ⟨st'', List.mem_cons_of_mem _ hm', hput⟩
    · obtain ⟨st'', hm', hput⟩ := ih hf.1 hm
      exact ⟨st'', List.mem_cons_of_mem _ hm', hput⟩

/-- What the API of a run allows, its workers allow. -/
def Agree (h : List (service D).Step) : Prop :=
  ∀ st ∈ h, ∀ i api req, st.action = .start i (.acceptImage api req) →
    ∀ st' ∈ h, ∀ j e settings, st'.action = .start j e → e.workerSettings? = some settings →
      commaList api.allowedContentTypes ⊆ allowedTypes ∧ api.maxUploadBytes ≤ settings.maxUploadBytes

/-- The settings that the two have where nothing is set agree. -/
example : commaList ({} : ApiSettings).allowedContentTypes ⊆ allowedTypes ∧
    ({} : ApiSettings).maxUploadBytes ≤ ({} : WorkerSettings).maxUploadBytes := by decide

/-- No image that a worker fetches fails its validation. -/
theorem validated_of_run (hr : Pool.Run ok (boot D now) h c) (hf : Faithful h) (ha : Agree h)
    {settings : WorkerSettings} (hcall : ∃ t, c.threads j = some ⟨e, t⟩) (he : e.workerSettings? = some settings)
    {key : String} {image : List UInt8} {contentType : String}
    (hx : Pool.Happened h j ⟨.fetchObject key, .ok (image, contentType)⟩) :
    validate image contentType settings = .ok ["validation_ok"] := by
  obtain ⟨t, ht⟩ := hcall
  obtain ⟨st, hm, i, p, e', k, hact, hat⟩ := hf.fetched hx
  obtain ⟨⟨h', hr'⟩, -, hn⟩ := hr.mem hm
  have hcode : ∀ e, ((service D).code e).Justified (fun _ => Cmd.Vetted e) [] := fun e =>
    Prog.Justified.of_only ((code_vetted D e).mono fun q hq _ => hq)
  obtain ⟨-, ⟨api, req, rfl, rfl, rfl, htype, hempty, hsize⟩, -⟩ := hr'.justified (fun _ => rfl) hcode hat
  obtain ⟨t', ht'⟩ := hr.keeps (K := fun c => ∃ t, c.threads i = some ⟨.acceptImage api req, t⟩)
    (fun _ hi hn => entry_of_next hn hi) hm (entry_of_next hn ⟨_, hat⟩)
  obtain ⟨st₁, hm₁, hstart₁⟩ := hr.start_mem (fun _ => rfl) ht'
  obtain ⟨st₂, hm₂, hstart₂⟩ := hr.start_mem (fun _ => rfl) ht
  obtain ⟨htypes, hlimit⟩ := ha st₁ hm₁ i api req hstart₁ st₂ hm₂ j e settings hstart₂ he
  have hallowed : req.contentType ∈ allowedTypes := htypes htype
  have hfits : req.body.length ≤ settings.maxUploadBytes := Nat.le_trans hsize hlimit
  rw [validate, if_neg (not_not.mpr hallowed), if_neg hempty, if_neg (Nat.not_lt.mpr hfits)]

/-! ## A run -/

/-- The step has asked to store the image under the key, with the type. -/
def storesAs? (key : String) (image : List UInt8) (contentType : String) (st : (service D).Step) : Bool :=
  match st.action, st.request with
  | .step _ _, some (_, .putObject key' body type) => decide (key' = key ∧ body = image ∧ type = contentType)
  | _, _ => false

/-- What every fetch is answered was stored before, with its type. -/
def faithful? : List (service D).Step → Bool
  | [] => true
  | st :: h => faithful? h && match st.action, st.request with
    | .step _ p, some (_, .fetchObject key) =>
      decide (Pick.fault p ≠ .none) || h.any (storesAs? key (Pick.image p) (Pick.contentType p))
    | _, _ => true

theorem storedAs_of_check {key : String} {image : List UInt8} {contentType : String}
    (hs : h.any (storesAs? key image contentType) = true) : StoredAs h key image contentType := by
  obtain ⟨st, hm, hs⟩ := List.any_eq_true.mp hs
  simp only [storesAs?] at hs
  split at hs
  · rename_i i p i' key' body type hact hreq
    obtain ⟨rfl, rfl, rfl⟩ := of_decide_eq_true hs
    obtain ⟨p', e, k, hact', hat⟩ := Pool.at_of_request hreq
    exact ⟨st, hm, _, p', e, k, hact', hat⟩
  · cases hs

theorem faithful_of_check (hc : faithful? h = true) : Faithful h := by
  induction h with
  | nil => trivial
  | cons st h ih =>
    obtain ⟨hrest, hst⟩ := Bool.and_eq_true_iff.mp hc
    refine ⟨ih hrest, fun i p e key k hact hat hfault => ?_⟩
    have hreq : st.request = some (i, .fetchObject key) := by
      obtain ⟨before, action, after⟩ := st
      obtain rfl : action = .step i p := hact
      exact Pool.request_of_at hat
    rw [hact, hreq] at hst
    rcases Bool.or_eq_true_iff.mp hst with hst | hst
    · exact absurd hfault (of_decide_eq_true hst)
    · exact storedAs_of_check hst

/-- The two steps start no upload and no worker whose settings disagree. -/
def agrees? (st st' : (service D).Step) : Bool :=
  match st.action, st'.action with
  | .start _ (.acceptImage api _), .start _ e => (Entry.workerSettings? e).all fun settings =>
      decide (commaList api.allowedContentTypes ⊆ allowedTypes ∧ api.maxUploadBytes ≤ settings.maxUploadBytes)
  | _, _ => true

theorem agree_of_check (hc : h.all (fun st => h.all (agrees? st)) = true) : Agree h := by
  intro st hm i api req hact st' hm' j e settings hact' he
  have hs := List.all_eq_true.mp (List.all_eq_true.mp hc st hm) st' hm'
  rw [agrees?, hact, hact'] at hs
  have hs : (Entry.workerSettings? e).all (fun settings =>
      decide (commaList api.allowedContentTypes ⊆ allowedTypes ∧
        api.maxUploadBytes ≤ settings.maxUploadBytes)) = true := hs
  rw [he, Option.all_some] at hs
  exact of_decide_eq_true hs

/-- Thread 1 has been answered a fetch. -/
def fetches? (st : (service D).Step) : Bool :=
  match st.action, st.request with
  | .step i p, some (_, .fetchObject _) => decide (i = 1 ∧ Pick.fault p = .none)
  | _, _ => false

theorem answer_of_none {α : Type} {s s' : World} {p : Pick} {a : α} (h : p.fault = .none) :
    s.answer p a s' = (.ok a, s') := by
  rw [World.answer, h]

theorem happened_of_fetches {st : (service D).Step} (hm : st ∈ h) (hc : fetches? st = true) :
    ∃ key image contentType, Pool.Happened h 1 ⟨.fetchObject key, .ok (image, contentType)⟩ := by
  simp only [fetches?] at hc
  split at hc
  · rename_i i p i' key hact hreq
    obtain ⟨rfl, hfault⟩ := of_decide_eq_true hc
    obtain ⟨p', e, k, hact', hat⟩ := Pool.at_of_request hreq
    obtain ⟨rfl, rfl⟩ : 1 = i' ∧ p = p' := by cases hact.symm.trans hact'; exact ⟨rfl, rfl⟩
    refine ⟨key, Pick.image p, Pick.contentType p, st, hm, p, e, k, st.before.world, hact, hat, ?_⟩
    exact congrArg some (answer_of_none hfault)
  · cases hc

theorem validated_of_run_sample : ∃ h c, Pool.Run (fun _ _ => True) (boot (sample .atomic) 0) h c ∧
    ∃ key image contentType settings, Pool.Happened h 1 ⟨.fetchObject key, .ok (image, contentType)⟩ ∧
      validate image contentType settings = .ok ["validation_ok"] := by
  have hrun : (Pool.recordIf (fun _ _ => true) (flaggedSample (sample .atomic)) [] (boot (sample .atomic) 0)).any
      (fun x => faithful? x.1 && x.1.all (fun st => x.1.all (agrees? st)) && x.1.any fetches? &&
        (x.2.threads 1).any fun t => (Entry.workerSettings? t.entry).isSome) = true := by
    decide +kernel
  obtain ⟨⟨h, c⟩, hx, hrun⟩ := (Option.any_eq_true _ _).mp hrun
  obtain ⟨hrun, hthread⟩ := Bool.and_eq_true_iff.mp hrun
  obtain ⟨hrun, hfetch⟩ := Bool.and_eq_true_iff.mp hrun
  obtain ⟨hfaithful, hagree⟩ := Bool.and_eq_true_iff.mp hrun
  obtain ⟨st, hm, hfetch⟩ := List.any_eq_true.mp hfetch
  obtain ⟨key, image, contentType, hfetched⟩ := happened_of_fetches hm hfetch
  obtain ⟨⟨e, t⟩, ht, he⟩ := (Option.any_eq_true _ _).mp hthread
  obtain ⟨settings, he⟩ := Option.isSome_iff_exists.mp he
  have hr : Pool.Run (fun _ _ => True) (boot (sample .atomic) 0) h c :=
    Pool.Run.nil.recordIf (fun _ _ _ => trivial) hx
  exact ⟨h, c, hr, key, image, contentType, settings, hfetched,
    validated_of_run hr (faithful_of_check hfaithful) (agree_of_check hagree) ⟨t, ht⟩ he hfetched⟩

end CM
