import ContentModeration.Framework.Alone

/-!
# What exceptions are owed to

A program that runs alone returns or raises, and `Turns.Gives` says of both how the program ends: with
which value, and with which exception and which answer to blame for it. The answers that were seen before
are handed from one part of the program to the next (`Gives.bind`), so an exception may be owed to an
answer that came long before it was raised. A handler learns of the exception what is owed (`Gives.attempt`).
-/

namespace CM.Turns

variable {I : Iface} {ε α β : Type} {sys : Pool I ε} {T : Turns sys}

/-- After the answers `seen`, and however the program runs alone, it returns with `Q`, or it raises an
exception with `F` for which `B` blames an answer. -/
def Gives (i : Nat) (B : ε → T.Served → Prop) (seen : List T.Served) (p : Prog I ε α)
    (Q : List T.Served → α → sys.World → Prop) (F : ε → sys.World → Prop) (s : sys.World) : Prop :=
  T.wlp i p (fun tr r s' => (∃ a, r = .ok a ∧ Q (seen ++ tr) a s') ∨
    ∃ x, r = .error x ∧ (∃ y ∈ seen ++ tr, B x y) ∧ F x s') s

theorem wlp_only {i : Nat} {p : Prog I ε α} {P : I.Req → Prop} (hp : p.Only P)
    {L : List T.Served → Except ε α → sys.World → Prop} {s : sys.World} (h : T.wlp i p L s) :
    T.wlp i p (fun tr r s' => L tr r s' ∧ ∀ y ∈ tr, P y.req) s := by
  induction p generalizing s L with
  | ret a => exact ⟨h, List.forall_mem_nil _⟩
  | throw x => exact ⟨h, List.forall_mem_nil _⟩
  | call q k ih =>
    intro t s' r s'' hs' hx
    exact wlp_mono (ih r (hp.2 r) (h t s' r s'' hs' hx)) fun tr r s' hr =>
      ⟨hr.1, List.forall_mem_cons.mpr ⟨hp.1, hr.2⟩⟩

namespace Gives

variable {i : Nat} {B B' : ε → T.Served → Prop} {seen : List T.Served} {s : sys.World}
  {Q Q' : List T.Served → α → sys.World → Prop} {F F' : ε → sys.World → Prop}

theorem ret {a : α} (h : Q seen a s) : Gives i B seen (.ret a) Q F s := by
  refine .inl ⟨a, rfl, ?_⟩
  rw [List.append_nil]
  exact h

theorem throw {x : ε} (hB : ∃ y ∈ seen, B x y) (h : F x s) : Gives i B seen (.throw x) Q F s := by
  refine .inr ⟨x, rfl, ?_, h⟩
  rw [List.append_nil]
  exact hB

theorem mono {p : Prog I ε α} (h : Gives i B seen p Q F s)
    (hQ : ∀ seen' a s', seen ⊆ seen' → Q seen' a s' → Q' seen' a s') (hF : ∀ x s', F x s' → F' x s') :
    Gives i B seen p Q' F' s := by
  refine wlp_mono h fun tr r s' h => ?_
  rcases h with ⟨a, rfl, h⟩ | ⟨x, rfl, hB, h⟩
  · exact .inl ⟨a, rfl, hQ _ a s' (List.subset_append_left ..) h⟩
  · exact .inr ⟨x, rfl, hB, hF x s' h⟩

/-- The second part goes on with what was seen and done by the first. -/
theorem bind {p : Prog I ε α} {f : α → Prog I ε β} {Q' : List T.Served → β → sys.World → Prop}
    (h : Gives i B seen p Q F s)
    (ok : ∀ seen' a s', seen ⊆ seen' → Q seen' a s' → Gives i B seen' (f a) Q' F' s')
    (raise : ∀ x s', F x s' → F' x s') : Gives i B seen (p >>= f) Q' F' s := by
  refine wlp_bind (wlp_mono h fun tr r s' h => ?_)
  rcases h with ⟨a, rfl, h⟩ | ⟨x, rfl, hB, h⟩
  · refine wlp_mono (ok _ a s' (List.subset_append_left ..) h) fun tr' r s'' h => ?_
    rwa [List.append_assoc] at h
  · exact .inr ⟨x, rfl, hB, raise x s' h⟩

/-- What a handler is told. -/
theorem attempt {p : Prog I ε α} (h : Gives i B seen p Q F s) :
    Gives i B' seen p.attempt (fun seen' r s' => (∃ a, r = .ok a ∧ Q seen' a s') ∨
      ∃ x, r = .error x ∧ (∃ y ∈ seen', B x y) ∧ F x s') F' s :=
  wlp_attempt (wlp_mono h fun _ r _ h => .inl ⟨r, rfl, h⟩)

/-- What was seen besides are answers to requests that the program can make. -/
theorem only {p : Prog I ε α} {P : I.Req → Prop} (h : Gives i B seen p Q F s) (hp : p.Only P) :
    Gives i B seen p (fun seen' a s' => Q seen' a s' ∧ ∃ tr, seen' = seen ++ tr ∧ ∀ y ∈ tr, P y.req) F s :=
  wlp_mono (wlp_only hp h) fun tr _ _ ⟨hr, htr⟩ =>
    hr.imp_left fun ⟨a, ha, hq⟩ => ⟨a, ha, hq, tr, rfl, htr⟩

/-- How an evaluation has ended. -/
theorem of_alone {p : Prog I ε α} (h : Gives i B [] p Q F s) {ts : List T.Turn} {o : T.Outcome α}
    (ho : T.alone i p ts s = some o) : (∃ a, o.result = .ok a ∧ Q o.served a o.world) ∨
      ∃ x, o.result = .error x ∧ (∃ y ∈ o.served, B x y) ∧ F x o.world := Turns.of_alone h ho

end Gives

end CM.Turns
