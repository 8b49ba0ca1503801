import ContentModeration.Impl.OpenAi
import ContentModeration.Proof.Classification

/-!
# What a reply of the OpenAI endpoint does to a job

A reply that cannot be read leaves the job to the rules, whose score is a
confidence. One that can be read is trusted with its confidence:
`reply_survives_iff` says that the job survives exactly if that is a number
between 0 and 1 (`HarmlessConfidence`), and what is kept of the reply can be stored.
`overconfident_reply` is a reply that fails the job.
-/

namespace CM

variable {P : Python} {openai : OpenAiSettings} {reply : Except Exn String} {fields : List (String × PyJson)}

/-! ## Reading a confidence -/

/-- A number between 0 and 1. -/
def PyFloat.InUnit : PyFloat → Prop
  | .finite q => 0 ≤ q ∧ q ≤ 1
  | _ => False

/-- A confidence that does no harm: it is between 0 and 1, or `float` rejects it. -/
def HarmlessConfidence (P : Python) : PyJson → Prop
  | .int n => n = 0 ∨ n = 1 ∨ Python.tooLarge ≤ n.natAbs
  | .float x => x.InUnit
  | .str s => ∀ x, P.float s = .ok x → x.InUnit
  | _ => True

theorem inUnit_intCast {n : Int} : (PyFloat.finite n).InUnit ↔ n = 0 ∨ n = 1 := by
  have h₀ : (0 : Rat) ≤ n ↔ 0 ≤ n := by exact_mod_cast Iff.rfl
  have h₁ : (n : Rat) ≤ 1 ↔ n ≤ 1 := by exact_mod_cast Iff.rfl
  rw [PyFloat.InUnit, h₀, h₁]
  omega

/-- Only a value that `float` reads as a number out of bounds does harm. -/
theorem harmlessConfidence_iff {v : PyJson} :
    HarmlessConfidence P v ↔ ∀ x, P.floatValue v = .ok x → x.InUnit := by
  cases v with
  | null => simp [HarmlessConfidence, Python.floatValue]
  | bool b => cases b <;> simp [HarmlessConfidence, Python.floatValue, PyFloat.InUnit]
  | int n =>
    simp only [HarmlessConfidence, Python.floatValue]
    split
    · rename_i h
      simp [h]
    · rename_i h
      simp only [h, or_false, Except.ok.injEq, forall_eq', inUnit_intCast]
  | float x => simp [HarmlessConfidence, Python.floatValue]
  | str s => rfl
  | arr xs => simp [HarmlessConfidence, Python.floatValue]
  | obj fields => simp [HarmlessConfidence, Python.floatValue]

/-! ## Reading a reply -/

theorem decisionValue_ok_iff {v : PyJson} {decision : Decision} :
    P.decisionValue v = .ok decision ↔ ∃ s, v = .str s ∧ P.upper s = decision.value := by
  cases v with
  | str s =>
    simp only [Python.decisionValue, PyJson.str.injEq, exists_eq_left']
    split_ifs <;> cases decision <;> simp_all [Decision.value]
  | _ => simp [Python.decisionValue]

theorem bind_ok_iff {α β : Type} {x : Except Exn α} {f : α → Except Exn β} {b : β} :
    (x >>= f) = .ok b ↔ ∃ a, x = .ok a ∧ f a = .ok b := by
  cases x with
  | error e => simp [bind, Except.bind]
  | ok a => simp [bind, Except.bind]

/-- The reply holds an object with a decision and a rationale. -/
structure Verdict (P : Python) (reply : Except Exn String) (fields : List (String × PyJson)) : Prop where
  parsed : openaiParsed P reply = .ok (.obj fields)
  decision : ∃ s decision, fields.lookup "decision" = some (.str s) ∧ P.upper s = Decision.value decision
  rationale : ∃ r, P.strValue (rationaleField fields) = .ok r

theorem item_ok_iff {v w : PyJson} {key : String} :
    v.item key = .ok w ↔ ∃ fields, v = .obj fields ∧ fields.lookup key = some w := by
  cases v with
  | obj fields =>
    simp only [PyJson.item, PyJson.obj.injEq, exists_eq_left']
    cases fields.lookup key <;> simp
  | _ => simp [PyJson.item]

/-- The classifier answers from the reply exactly if that holds a verdict and its
confidence can be read. -/
theorem tryOpenai_ok_iff {decision : Decision} {llm : RawLlmSignals} :
    tryOpenai P openai reply = .ok (decision, llm) ↔
      ∃ fields s score r, openaiParsed P reply = .ok (.obj fields) ∧
        (fields.lookup "decision" = some (.str s) ∧ P.upper s = decision.value) ∧
        P.floatValue (confidenceField fields) = .ok score ∧ P.strValue (rationaleField fields) = .ok r ∧
        llm = ⟨decision.value, score, r, "openai", openai.openaiModel, fields⟩ := by
  simp only [tryOpenai, readParsed, bind_ok_iff, item_ok_iff, decisionValue_ok_iff]
  constructor
  · rintro ⟨parsed, hp, v, ⟨fields, rfl, hf⟩, d, ⟨s, rfl, hs⟩, entries, he, score, hscore, r, hr, ha⟩
    obtain rfl : fields = entries := Except.ok.inj he
    obtain ⟨rfl, rfl⟩ := Prod.mk.inj (Except.ok.inj ha)
    exact ⟨fields, s, score, r, hp, ⟨hf, hs⟩, hscore, hr, rfl⟩
  · rintro ⟨fields, s, score, r, hp, ⟨hf, hs⟩, hscore, hr, rfl⟩
    exact ⟨.obj fields, hp, .str s, ⟨fields, rfl, hf⟩, decision, ⟨s, rfl, hs⟩, fields, rfl, score, hscore,
      r, hr, rfl⟩

theorem Verdict.of_ok {decision : Decision} {llm : RawLlmSignals}
    (h : tryOpenai P openai reply = .ok (decision, llm)) :
    Verdict P reply llm.raw ∧ P.floatValue (confidenceField llm.raw) = .ok llm.score := by
  obtain ⟨fields, s, score, r, hp, hd, hscore, hr, rfl⟩ := tryOpenai_ok_iff.mp h
  exact ⟨⟨hp, ⟨s, decision, hd⟩, ⟨r, hr⟩⟩, hscore⟩

/-- A verdict with a confidence that can be read is answered with. -/
theorem Verdict.answered (h : Verdict P reply fields) {score : PyFloat}
    (hs : P.floatValue (confidenceField fields) = .ok score) (openai : OpenAiSettings) :
    ∃ decision llm, tryOpenai P openai reply = .ok (decision, llm) ∧ llm.score = score ∧ llm.raw = fields := by
  obtain ⟨s, decision, hd⟩ := h.decision
  obtain ⟨r, hr⟩ := h.rationale
  exact ⟨decision, _, tryOpenai_ok_iff.mpr ⟨fields, s, score, r, h.parsed, hd, hs, hr, rfl⟩, rfl, rfl⟩

/-! ## The envelope -/

theorem buildEnvelope_ok_iff {settings : WorkerSettings} {job : JobMessage} {vision : VisionSignals}
    {suggested : Decision} {llm : LlmSignals} {latencyMs : Nat} :
    (∃ e, buildEnvelope settings job vision suggested llm latencyMs = .ok e) ↔
      0 ≤ round4 llm.score ∧ round4 llm.score ≤ 1 := by
  by_cases h : 0 ≤ round4 llm.score ∧ round4 llm.score ≤ 1
  · simp only [buildEnvelope, dif_pos h]
    exact ⟨fun _ => h, fun _ => ⟨_, rfl⟩⟩
  · simp only [buildEnvelope, dif_neg h]
    constructor
    · rintro ⟨e, he⟩
      cases he
    · exact fun hm => absurd hm h

/-- The envelope can be built of a number that is a confidence once rounded. -/
theorem buildRawEnvelope_ok_iff {settings : WorkerSettings} {job : JobMessage} {vision : VisionSignals}
    {suggested : Decision} {llm : RawLlmSignals} {latencyMs : Nat} :
    (∃ e, buildRawEnvelope settings job vision suggested llm latencyMs = .ok e) ↔
      ∃ q, llm.score = .finite q ∧ -1 / 20000 ≤ q ∧ q ≤ 20001 / 20000 := by
  cases hq : llm.score with
  | finite q =>
    simp only [buildRawEnvelope, hq, PyFloat.finite.injEq, exists_eq_left']
    exact buildEnvelope_ok_iff.trans round4_mem_iff
  | _ => simp [buildRawEnvelope, hq]

/-! ## The job -/

/-- A reply that does no harm: the confidence of a verdict is `HarmlessConfidence`,
and what is kept of the reply can be stored, the verdict or the text of the
exception that it raises. -/
structure HarmlessReply (P : Python) (dump : List (String × PyJson) → Except Exn Unit) (openai : OpenAiSettings)
    (reply : Except Exn String) : Prop where
  confidence : ∀ fields, Verdict P reply fields → HarmlessConfidence P (confidenceField fields)
  verdict : ∀ fields score, Verdict P reply fields → P.floatValue (confidenceField fields) = .ok score →
    dump fields = .ok ()
  exception : ∀ exc, tryOpenai P openai reply = .error exc →
    dump [("openai_fallback_error", .str exc.str)] = .ok ()

/-- The answer's score is a confidence, and the job goes on with it to its end. -/
def Survives (dump : List (String × PyJson) → Except Exn Unit) (settings : WorkerSettings) (job : JobMessage)
    (vision : VisionSignals) (latencyMs : Nat) (answer : Decision × RawLlmSignals) : Prop :=
  answer.2.score.InUnit ∧ ∃ e, finishJob dump settings job vision answer latencyMs = .ok e

section

variable {U : Unicode} {dump : List (String × PyJson) → Except Exn Unit} {settings : WorkerSettings}
  {job : JobMessage} {vision : VisionSignals} {latencyMs : Nat}

theorem survives_iff {answer : Decision × RawLlmSignals} :
    Survives dump settings job vision latencyMs answer ↔ answer.2.score.InUnit ∧ dump answer.2.raw = .ok () := by
  have hf : (∃ e, finishJob dump settings job vision answer latencyMs = .ok e) ↔
      (∃ e, buildRawEnvelope settings job vision answer.1 answer.2 latencyMs = .ok e) ∧
        dump answer.2.raw = .ok () := by
    simp only [finishJob, bind_ok_iff]
    constructor
    · rintro ⟨_, e, he, _, hd, _⟩
      exact ⟨⟨e, he⟩, hd⟩
    · rintro ⟨⟨e, he⟩, hd⟩
      exact ⟨e, e, he, (), hd, rfl⟩
  rw [Survives, hf, buildRawEnvelope_ok_iff]
  constructor
  · exact fun ⟨hu, _, hd⟩ => ⟨hu, hd⟩
  · intro ⟨hu, hd⟩
    refine ⟨hu, ?_, hd⟩
    cases hq : answer.2.score with
    | finite q =>
      rw [hq] at hu
      obtain ⟨h₀, h₁⟩ : 0 ≤ q ∧ q ≤ 1 := hu
      exact ⟨q, rfl, by linarith, by linarith⟩
    | _ => rw [hq] at hu; exact hu.elim

/-- The rules' score is a confidence, so that only the storage can fail. -/
theorem survives_rules {caption : String} {raw : List (String × PyJson)} :
    Survives dump settings job vision latencyMs
      ((rulesClassify U caption vision).1, { (rulesClassify U caption vision).2 with raw := raw }) ↔
    dump raw = .ok () := by
  have hu : (PyFloat.finite (classify U caption vision).2.score).InUnit := classify_score U caption vision
  rw [survives_iff]
  exact ⟨And.right, fun h => ⟨hu, h⟩⟩

/-- The job survives exactly if the reply does no harm, when it is asked for. -/
theorem reply_survives_iff (P : Python) (U : Unicode) (endpoint : Endpoint)
    (dump : List (String × PyJson) → Except Exn Unit) (dump_nil : dump [] = .ok ()) (openai : OpenAiSettings)
    (settings : WorkerSettings) (job : JobMessage) (vision : VisionSignals) (latencyMs : Nat) :
    Survives dump settings job vision latencyMs (openaiClassify P U endpoint openai job.caption vision) ↔
      (openai.openaiApiKey ≠ "" → HarmlessReply P dump openai
        (endpoint openai.openaiApiKey (openaiBody openai job.caption vision))) := by
  generalize hr : endpoint openai.openaiApiKey (openaiBody openai job.caption vision) = reply
  by_cases hk : openai.openaiApiKey = ""
  · simp only [openaiClassify, hk, ne_eq, if_true, not_true_eq_false, false_implies, iff_true]
    exact survives_rules.mpr dump_nil
  simp only [openaiClassify, hk, hr, if_false, ne_eq, not_false_eq_true, forall_const]
  cases ht : tryOpenai P openai reply with
  | error exc =>
    have hread : ∀ fields score, Verdict P reply fields →
        P.floatValue (confidenceField fields) ≠ .ok score := by
      intro fields score hv hs
      obtain ⟨decision, llm, ha, -⟩ := hv.answered hs openai
      rw [ht] at ha
      cases ha
    refine survives_rules.trans ⟨fun hd => ⟨?_, ?_, ?_⟩, fun h => h.exception exc ht⟩
    · exact fun fields hv => harmlessConfidence_iff.mpr fun x hx => absurd hx (hread fields x hv)
    · exact fun fields score hv hs => absurd hs (hread fields score hv)
    · intro exc' he
      cases ht.symm.trans he
      exact hd
  | ok answer =>
    obtain ⟨hv, hs⟩ := Verdict.of_ok ht
    have same {fields : List (String × PyJson)} (h : Verdict P reply fields) : fields = answer.2.raw :=
      PyJson.obj.inj (Except.ok.inj (h.parsed.symm.trans hv.parsed))
    refine survives_iff.trans ⟨fun ⟨hu, hd⟩ => ⟨?_, ?_, ?_⟩, fun h => ⟨?_, ?_⟩⟩
    · intro fields hf
      rw [same hf, harmlessConfidence_iff]
      exact fun x hx => Except.ok.inj (hs.symm.trans hx) ▸ hu
    · exact fun fields score hf _ => same hf ▸ hd
    · intro exc he
      rw [ht] at he
      cases he
    · exact harmlessConfidence_iff.mp (h.confidence _ hv) _ hs
    · exact h.verdict _ _ hv hs

end

/-! ## Two replies -/

/-- A verdict, its text, and the text of a reply that holds it. -/
def sampleVerdict (confidence : PyJson) : PyJson := .obj [("decision", .str "ALLOW"), ("confidence", confidence)]

def sampleContent (confidence : String) : String :=
  "\x7b\"decision\": \"ALLOW\", \"confidence\": " ++ confidence ++ "\x7d"

def sampleReply (confidence : String) : String :=
  "\x7b\"choices\": [\x7b\"message\": \x7b\"content\": \"\x7b\\\"decision\\\": \\\"ALLOW\\\", \\\"confidence\\\": " ++
    confidence ++ "\x7d\"\x7d\x7d]\x7d"

/-- What `json.loads` makes of the reply. -/
def samplePayload (content : String) : PyJson :=
  .obj [("choices", .arr [.obj [("message", .obj [("content", .str content)])]])]

/-- Python on these replies. -/
def samplePython : Python where
  loads s :=
    if s = sampleReply "95" then .ok (samplePayload (sampleContent "95"))
    else if s = sampleContent "95" then .ok (sampleVerdict (.int 95))
    else if s = sampleReply "0.9" then .ok (samplePayload (sampleContent "0.9"))
    else if s = sampleContent "0.9" then .ok (sampleVerdict (.float (.finite (9 / 10))))
    else .error (.error "Expecting value: line 1 column 1 (char 0)")
  upper s := String.ofList (s.toList.map Char.toUpper)
  repr s := "'" ++ s ++ "'"
  float s := .error (.error ("could not convert string to float: '" ++ s ++ "'"))
  str v := .ok v.typeName

def sampleJob : JobMessage := ⟨⟨1⟩, ⟨2⟩, "c0ffee", "uploads/1", "a photo"⟩

/-- The classifier's answer to `sampleJob` after a reply. -/
def sampleAnswer (endpoint : Endpoint) (vision : VisionSignals) : Decision × RawLlmSignals :=
  openaiClassify samplePython .ascii endpoint ⟨"sk-1", "gpt-4o-mini"⟩ sampleJob.caption vision

theorem reply_survives_iff_sample :
    Survives (fun _ => .ok ()) {} sampleJob {} 0 (sampleAnswer (fun _ _ => .ok (sampleReply "0.9")) {}) := by
  have hp : openaiParsed samplePython (.ok (sampleReply "0.9")) =
      .ok (sampleVerdict (.float (.finite (9 / 10)))) := rfl
  refine (reply_survives_iff samplePython .ascii _ (fun _ => .ok ()) rfl ⟨"sk-1", "gpt-4o-mini"⟩ {}
    sampleJob {} 0).mpr fun _ => ⟨fun fields hv => ?_, fun _ _ _ _ => rfl, fun _ _ => rfl⟩
  obtain rfl := PyJson.obj.inj (Except.ok.inj (hp.symm.trans hv.parsed))
  show (0 : Rat) ≤ 9 / 10 ∧ (9 / 10 : Rat) ≤ 1
  norm_num

/-- A reply whose confidence is a percentage fails the job. -/
theorem overconfident_reply : ¬ ∀ (endpoint : Endpoint) (vision : VisionSignals),
    (0 ≤ vision.nsfwScore ∧ vision.nsfwScore ≤ 1) ∧
      (0 ≤ vision.violenceScore ∧ vision.violenceScore ≤ 1) →
      Survives (fun _ => .ok ()) {} sampleJob vision 0 (sampleAnswer endpoint vision) := by
  intro h
  obtain ⟨-, e, he⟩ := h (fun _ _ => .ok (sampleReply "95")) {} (by decide +kernel)
  have hfail : (finishJob (fun _ => .ok ()) {} sampleJob {}
      (sampleAnswer (fun _ _ => .ok (sampleReply "95")) {}) 0).isOk = false := by decide +kernel
  rw [he] at hfail
  cases hfail

end CM
