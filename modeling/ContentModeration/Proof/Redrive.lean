import ContentModeration.Impl.Redrive
import ContentModeration.Proof.Worker

/-!
# The redrive follows the rules

A message is deleted from the dead-letter queue only after its copy has been
sent, with the same body and a later number (`redriveMessage_spec`).
-/

namespace CM

open Database World

variable {D : Deployment} {A : Prop} {i : Nat} {e : Entry}

theorem lookupStatus_spec (args : RedriveArgs) (msg : DlqMessage) :
    Spec D A i e (fun _ => True) (lookupStatus args msg) fun _ _ => True := by
  simp only [lookupStatus]
  split
  · refine Spec.bind (P := fun _ _ => True) (Spec.ofExcept (steady_const _) fun _ _ _ => trivial)
      (fun _ _ h => h) fun jobId => ?_
    exact Spec.mono (request_spec (q := .sql _) trivial (steady_const True)
      fun s _ ht _ => contract_sql ht trivial) (fun _ _ => trivial) fun _ _ _ => trivial
  · exact Spec.ret (steady_const _) fun _ _ _ => trivial

theorem resetIfPlanned_spec (args : RedriveArgs) (action : RedriveAction) (msg : DlqMessage) :
    Spec D A i e (fun _ => True) (resetIfPlanned args action msg) fun _ _ => True := by
  have done : ∀ (b : Bool), Spec D A i e (fun _ => True) (pure b) fun _ _ => True :=
    fun _ => Spec.ret (steady_const _) fun _ _ _ => trivial
  simp only [resetIfPlanned]
  split
  · simp only [resetJobForRedrive]
    refine Spec.skip (q := .sql _) trivial (steady_const True) (fun s ht => contract_sql ht trivial)
      (fun _ _ _ _ => trivial) fun found => ?_
    cases found with
    | none => exact done false
    | some id =>
      exact Spec.skip (q := .sql _) trivial (steady_const True) (fun s ht => contract_sql ht trivial)
        (fun _ _ _ _ => trivial) fun _ => done true
  · exact done false

/-- The message `m` can be deleted once its copy has been sent. -/
theorem Answered.resent {m : Message} {attributes : List (String × String)} {a : Unit} {s : World}
    (hs : Seen m s) (h : Answered i (Seen m) (.sendMessage m.body attributes) a s) :
    Finished m.id s := by
  obtain ⟨s₀, p, s₁, -, hm, hx, -, -, h₁⟩ := h
  simp only [World.exec, Option.some.injEq] at hx
  obtain ⟨-, -, rfl⟩ := runSend_ok hx
  have hc : (s₀.send m.body attributes).Covered (m.id + 1) m.body :=
    .inl ⟨_, mem_messages_send.mpr (.inr rfl), hm.below, rfl⟩
  exact ⟨hs.below, m.body, hs.body, h₁.grows.covered _ _ hc⟩

theorem redriveMessage_spec (args : RedriveArgs) (counts : RedriveCounts) (raw : Message) :
    Spec D A i e (Seen raw) (redriveMessage args counts raw) fun _ _ => True := by
  have hs := lasting_seen raw
  have keep : ∀ {α : Type} {p : M α}, Spec D A i e (fun _ => True) p (fun _ _ => True) →
      Spec D A i e (Seen raw) p fun _ s => Seen raw s := fun h =>
    Spec.mono (Spec.frame hs h) (fun _ h => ⟨trivial, h⟩) fun _ _ h => h.2
  have done : ∀ (c : RedriveCounts), Spec D A i e (Seen raw) (pure c) fun _ _ => True :=
    fun _ => Spec.ret hs.steady fun _ _ _ => trivial
  have checked : ∀ {α β : Type} (x : Except Exn α) {f : α → M β},
      (∀ a, x = .ok a → Spec D A i e (Seen raw) (f a) fun _ _ => True) →
      Spec D A i e (Seen raw) (Prog.ofExcept x >>= f) fun _ _ => True := fun x _ h =>
    Spec.bind (P := fun r s => r = x ∧ Seen raw s) (Spec.ofExcept hs.steady fun _ _ h => ⟨rfl, h⟩)
      (fun _ _ _ => trivial) fun a => Spec.assume (fun _ h => h.1.symm) fun ha =>
        Spec.mono (h a ha) (fun _ h => h.2) fun _ _ h => h
  refine checked _ fun msg hmsg => ?_
  obtain rfl := dlqMessage_of_parse hmsg
  refine Spec.bind (keep (lookupStatus_spec args (dlqMessage raw))) (fun _ _ _ => trivial) fun status => ?_
  dsimp only
  split
  case h_6 =>
    refine checked _ fun _ _ => ?_
    split
    · exact done _
    refine Spec.bind (keep (resetIfPlanned_spec args _ (dlqMessage raw))) (fun _ _ _ => trivial)
      fun reset => ?_
    refine checked _ fun _ _ => ?_
    refine Spec.request trivial hs.steady (fun s _ _ h => h.ok) (fun _ _ _ _ => trivial) fun _ => ?_
    refine Spec.mono (K := Finished raw.id) ?_ (fun s h => ?_) fun _ _ h => h
    · exact Spec.request trivial (lasting_finished raw.id).steady (fun s _ _ h => h.released)
        (fun _ _ _ _ => trivial) fun _ => Spec.ret ((lasting_finished raw.id).steady.and
          (steady_answered _ _)) fun _ _ _ => trivial
    · exact Answered.resent h.1 h.2
  all_goals exact checked _ fun _ _ => done _

theorem redriveMessages_spec (args : RedriveArgs) (counts : RedriveCounts) (ms : List Message) :
    Spec D A i e (fun s => ∀ m ∈ ms, Seen m s) (redriveMessages args counts ms) fun _ _ => True := by
  induction ms generalizing counts with
  | nil => exact Spec.ret (lasting_seen_all []).steady fun _ _ _ => trivial
  | cons raw ms ih =>
    have hd := Spec.frame (lasting_seen_all ms)
      (redriveMessage_spec (D := D) (A := A) (i := i) (e := e) args counts raw)
    refine Spec.bind (Spec.mono hd (fun s h => ?_) fun _ _ h => h) (fun _ _ _ => trivial) fun counts =>
      Spec.mono (ih counts) (fun _ h => h.2) fun _ _ h => h
    exact ⟨h raw List.mem_cons_self, fun m hm => h m (List.mem_cons_of_mem _ hm)⟩

theorem redriveLoop_spec (args : RedriveArgs) (rounds remaining : Nat) (counts : RedriveCounts) :
    Spec D A i e (fun _ => True) (redriveLoop args rounds remaining counts) fun _ _ => True := by
  have done : ∀ {K : World → Prop} (c : RedriveCounts), Spec D A i e K (pure c) fun _ _ => True := fun c =>
    Spec.mono (K := fun _ => True) (Spec.ret (steady_const _) fun _ _ _ => trivial) (fun _ _ => trivial)
      fun _ _ h => h
  induction rounds generalizing remaining counts with
  | zero => exact done counts
  | succ rounds ih =>
    simp only [redriveLoop]
    split
    · exact done counts
    · refine Spec.bind (receive_spec .dlq _) (fun _ _ h => h) fun ms => ?_
      by_cases hm : ms.isEmpty = true
      · rw [if_pos hm]
        exact done counts
      · rw [if_neg hm]
        exact Spec.bind (redriveMessages_spec args counts ms) (fun _ _ h => h) fun counts => ih _ counts

theorem redrive_spec (args : RedriveArgs) :
    Spec D A i e (fun _ => True) (redrive args) fun _ _ => True := by
  have done : ∀ (r : RedriveReport), Spec D A i e (fun _ => True) (pure r) fun _ _ => True := fun _ =>
    Spec.ret (steady_const _) fun _ _ _ => trivial
  simp only [redrive]
  split
  · exact done _
  · refine Spec.skip trivial (steady_const _) (fun _ _ => trivial) (fun _ _ _ _ => trivial) fun _ => ?_
    refine Spec.skip trivial (steady_const _) (fun _ _ => trivial) (fun _ _ _ _ => trivial) fun _ => ?_
    have run : Spec D A i e (fun _ => True) (do
        let counts ← redriveLoop args args.limit args.limit {}
        return ({ exitCode := 0, counts } : RedriveReport)) fun _ _ => True :=
      Spec.bind (redriveLoop_spec args _ _ _) (fun _ _ h => h) fun counts => done _
    split
    · exact run
    · refine Spec.attempt_bind (P := fun _ _ => True) (Spec.mono (request_spec trivial (steady_const True)
        fun _ _ _ _ => trivial) (fun _ _ => trivial) fun _ _ _ => trivial) fun connected => ?_
      cases connected with
      | error x => exact done _
      | ok u => exact run

end CM
