import ContentModeration.Framework.Pool

/-!
# Threads that hold something

In some worlds a thread holds what others may have to wait for (`held`). If
whoever holds something is served as long as it does (`Served`), nobody waits
for a thread that waits, and every wait can be ended by steps of the holders
alone: each of them can be run until it holds nothing (`Served.release`), and
so can all of them, one after the other (`Served.release_all`).
-/

namespace CM.Pool

variable {I : Iface} {ε : Type} {sys : Pool I ε}

/-- Where `ready j` holds and thread `j` holds something, its request is served
with the pick `p`. That keeps `ready j`, and gives nobody else anything to hold;
once `j` holds nothing, every thread is ready. -/
structure Served (c₀ : sys.Config) (p : sys.Pick) (held : sys.World → Nat → Prop)
    (ready : Nat → sys.Config → Prop) : Prop where
  served {c : sys.Config} {j : Nat} : Reachable c₀ c → ready j c → held c.world j →
    ∃ c', next c (.step j p) = some c'
  keeps {c c' : sys.Config} {j : Nat} : Reachable c₀ c → ready j c → next c (.step j p) = some c' → ready j c'
  frame {c c' : sys.Config} {j k : Nat} : Reachable c₀ c → next c (.step j p) = some c' → k ≠ j →
    held c'.world k → held c.world k
  pass {c : sys.Config} {j k : Nat} : Reachable c₀ c → ready j c → ¬ held c.world j → ready k c

/-- Steps of the threads `js` with the pick `p`. -/
def steps (p : sys.Pick) (js : List Nat) : List sys.Action := js.map fun j => .step j p

theorem replay_append {as bs : List sys.Action} {c c₁ c₂ : sys.Config} (h₁ : replay as c = some c₁)
    (h₂ : replay bs c₁ = some c₂) : replay (as ++ bs) c = some c₂ := by
  induction as generalizing c with
  | nil => rwa [show c = c₁ from Option.some.inj h₁]
  | cons a as ih =>
    obtain ⟨c', hn, h₁⟩ := Option.bind_eq_some_iff.mp h₁
    simp only [List.cons_append, replay, hn, Option.bind_some]
    exact ih h₁

/-- Steps leave the threads that do not make them. -/
theorem threads_steps {p : sys.Pick} {js : List Nat} {c c' : sys.Config} (h : replay (steps p js) c = some c')
    {i : Nat} (hi : i ∉ js) : c'.threads i = c.threads i := by
  induction js generalizing c with
  | nil => rw [show c = c' from Option.some.inj h]
  | cons j js ih =>
    obtain ⟨c₁, hn, h⟩ := Option.bind_eq_some_iff.mp h
    rw [ih h (fun hm => hi (List.mem_cons_of_mem _ hm)), threads_next hn]
    exact fun hj => hi (by rw [Option.some.inj hj]; exact List.mem_cons_self)

variable {c₀ c : sys.Config} {p : sys.Pick} {held : sys.World → Nat → Prop}
  {ready : Nat → sys.Config → Prop}

/-- A thread can be run until it holds nothing: its program has only so many requests left. -/
theorem Served.release (hs : Served c₀ p held ready) {j : Nat} (hr : Reachable c₀ c) (hJ : ready j c) :
    ∃ n c', replay (steps p (List.replicate n j)) c = some c' ∧ (n ≠ 0 → held c.world j) ∧ ¬ held c'.world j ∧
      Reachable c₀ c' ∧ ready j c' ∧ ∀ k, held c'.world k → held c.world k := by
  by_cases hh : held c.world j
  swap
  · exact ⟨0, c, rfl, fun h => absurd rfl h, hh, hr, hJ, fun _ h => h⟩
  obtain ⟨c₁, hn⟩ := hs.served hr hJ hh
  obtain ⟨e, q, k, r, w, hat, hx, rfl⟩ := next_step hn
  -- the induction is on what is left of the program after its next request
  suffices h : ∀ (prog : Prog I ε sys.Out) (c' : sys.Config), c'.threads j = some ⟨e, some prog⟩ →
      Reachable c₀ c' → ready j c' → ∃ n c'', replay (steps p (List.replicate n j)) c' = some c'' ∧
        ¬ held c''.world j ∧ Reachable c₀ c'' ∧ ready j c'' ∧ ∀ k, k ≠ j → held c''.world k → held c'.world k by
    obtain ⟨n, c'', hc, hfree, hr', hJ', hkeep⟩ :=
      h (k r) _ (Config.threads_set_self ..) (hr.next hn) (hs.keeps hr hJ hn)
    refine ⟨n + 1, c'', ?_, fun _ => hh, hfree, hr', hJ', fun i hi => ?_⟩
    · simpa only [List.replicate_succ, steps, List.map_cons, replay, hn, Option.bind_some] using hc
    · by_cases hij : i = j
      · exact hij ▸ hh
      · exact hs.frame hr hn hij (hkeep i hij hi)
  intro prog
  induction prog with
  | ret a | throw a =>
    intro c' ht hr' hJ'
    by_cases hh' : held c'.world j
    · obtain ⟨c₂, hn'⟩ := hs.served hr' hJ' hh'
      obtain ⟨e', q', k', -, -, hat', -, -⟩ := next_step hn'
      cases show some _ = some _ from ht.symm.trans hat'
    · exact ⟨0, c', rfl, hh', hr', hJ', fun _ _ h => h⟩
  | call q k ih =>
    intro c' ht hr' hJ'
    by_cases hh' : held c'.world j
    · obtain ⟨c₂, hn'⟩ := hs.served hr' hJ' hh'
      have hJ₂ := hs.keeps hr' hJ' hn'
      have hr₂ := hr'.next hn'
      obtain ⟨e', q', k', r', w', hat', -, rfl⟩ := next_step hn'
      cases show some _ = some _ from ht.symm.trans hat'
      obtain ⟨n, c'', hc, hfree, hr'', hJ'', hkeep⟩ := ih r' _ (Config.threads_set_self ..) hr₂ hJ₂
      refine ⟨n + 1, c'', ?_, hfree, hr'', hJ'', fun i hij hi => hs.frame hr' hn' hij (hkeep i hij hi)⟩
      simpa only [List.replicate_succ, steps, List.map_cons, replay, hn', Option.bind_some] using hc
    · exact ⟨0, c', rfl, hh', hr', hJ', fun _ _ h => h⟩

/-- The threads `js` can be run until none of them holds anything. -/
theorem Served.release_all (hs : Served c₀ p held ready) (js : List Nat) (hr : Reachable c₀ c)
    (hJ : ∀ j, ready j c) :
    ∃ ks c', replay (steps p ks) c = some c' ∧ (∀ k ∈ ks, k ∈ js ∧ held c.world k) ∧
      (∀ j ∈ js, ¬ held c'.world j) ∧ Reachable c₀ c' ∧ ∀ k, held c'.world k → held c.world k := by
  induction js generalizing c with
  | nil => exact ⟨[], c, rfl, fun _ hk => (by cases hk), fun _ hj => (by cases hj), hr, fun _ h => h⟩
  | cons j js ih =>
    obtain ⟨n, c₁, h₁, hn, hfree, hr₁, hJ₁, hkeep₁⟩ := hs.release hr (hJ j)
    obtain ⟨ks, c₂, h₂, hks, hall, hr₂, hkeep₂⟩ := ih hr₁ fun _ => hs.pass hr₁ hJ₁ hfree
    refine ⟨List.replicate n j ++ ks, c₂, ?_, fun k hk => ?_, fun k hk => ?_, hr₂, fun k hk => hkeep₁ k (hkeep₂ k hk)⟩
    · rw [steps, List.map_append]
      exact replay_append h₁ h₂
    · rcases List.mem_append.mp hk with hk | hk
      · obtain ⟨hne, rfl⟩ := List.mem_replicate.mp hk
        exact ⟨List.mem_cons_self, hn hne⟩
      · exact ⟨List.mem_cons_of_mem _ (hks k hk).1, hkeep₁ k (hks k hk).2⟩
    · rcases List.mem_cons.mp hk with rfl | hk
      · exact fun h => hfree (hkeep₂ k h)
      · exact hall k hk

end CM.Pool
