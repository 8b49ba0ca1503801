import Mathlib.Tactic.Common

/-!
# Regular expressions with word boundaries

`Regex.Matches` says what a regular expression matches between the parts of a
text before and after it, which the word boundary looks at; `Regex.Occurs` is
that it matches somewhere. `search` decides it: `rests` lists the positions where
a match that begins at a position can end (`mem_rests`), and `search` tries every
position (`search_iff`). A position is the text before it, the last character
first, and the text after it.

Which characters belong to words, and which of them a character of a pattern
stands for, is a parameter (`Alphabet`).
-/

namespace CM

/-- How patterns read the characters of a text. -/
structure Alphabet (α : Type) where
  /-- The character of a pattern stands for the character of the text. -/
  same : α → α → Bool
  /-- The character belongs to a word. -/
  isWord : α → Bool

inductive Regex (α : Type) where
  | empty
  | char (c : α)
  | seq (p q : Regex α)
  | alt (p q : Regex α)
  | opt (p : Regex α)
  | wordBoundary

namespace Regex

variable {α : Type} (A : Alphabet α)

/-- The characters one after the other. -/
def literal : List α → Regex α
  | [] => .empty
  | c :: cs => .seq (.char c) (literal cs)

/-- One of the characters on the two sides of a position, the one before it and
the one after it, belongs to a word, and the other does not. -/
def boundary (last next : Option α) : Bool := last.any A.isWord != next.any A.isWord

/-- Between `pre` and `post`, the expression matches `w`. -/
inductive Matches : Regex α → List α → List α → List α → Prop where
  | empty {pre post} : Matches .empty pre [] post
  | char {c x pre post} (same : A.same c x = true) : Matches (.char c) pre [x] post
  | seq {p q pre w w' post} : Matches p pre w (w' ++ post) → Matches q (pre ++ w) w' post →
      Matches (.seq p q) pre (w ++ w') post
  | left {p q pre w post} : Matches p pre w post → Matches (.alt p q) pre w post
  | right {p q pre w post} : Matches q pre w post → Matches (.alt p q) pre w post
  | absent {p pre post} : Matches (.opt p) pre [] post
  | present {p pre w post} : Matches p pre w post → Matches (.opt p) pre w post
  | wordBoundary {pre post} (boundary : boundary A pre.getLast? post.head? = true) :
      Matches .wordBoundary pre [] post

/-- The expression matches somewhere in the text. -/
def Occurs (p : Regex α) (text : List α) : Prop :=
  ∃ pre w post, text = pre ++ w ++ post ∧ p.Matches A pre w post

/-! ## The search -/

/-- Where a match can end that begins after `before`. -/
def rests : Regex α → List α → List α → List (List α × List α)
  | .empty, before, after => [(before, after)]
  | .char _, _, [] => []
  | .char c, before, x :: after => if A.same c x then [(x :: before, after)] else []
  | .seq p q, before, after => (p.rests before after).flatMap fun r => q.rests r.1 r.2
  | .alt p q, before, after => p.rests before after ++ q.rests before after
  | .opt p, before, after => (before, after) :: p.rests before after
  | .wordBoundary, before, after => if boundary A before.head? after.head? then [(before, after)] else []

def searchFrom (p : Regex α) (before : List α) : List α → Bool
  | [] => !(p.rests A before []).isEmpty
  | x :: after => !(p.rests A before (x :: after)).isEmpty || p.searchFrom (x :: before) after

def search (p : Regex α) (text : List α) : Bool := p.searchFrom A [] text

variable {A}

theorem Matches.of_rests {p : Regex α} {before after : List α} {r : List α × List α}
    (h : r ∈ p.rests A before after) :
    ∃ w, after = w ++ r.2 ∧ r.1 = w.reverse ++ before ∧ p.Matches A before.reverse w r.2 := by
  induction p generalizing before after r with
  | empty =>
    rw [rests, List.mem_singleton] at h
    subst h
    exact ⟨[], rfl, rfl, .empty⟩
  | char c =>
    cases after with
    | nil => cases h
    | cons x after =>
      rw [rests] at h
      split at h
      · rename_i hs
        rw [List.mem_singleton] at h
        subst h
        exact ⟨[x], rfl, rfl, .char hs⟩
      · cases h
  | seq p q ihp ihq =>
    obtain ⟨r₁, h₁, h₂⟩ := List.mem_flatMap.mp h
    obtain ⟨w, ha, hb, hw⟩ := ihp h₁
    obtain ⟨w', ha', hb', hw'⟩ := ihq h₂
    refine ⟨w ++ w', ?_, ?_, .seq (ha' ▸ hw) ?_⟩
    · rw [ha, ha', List.append_assoc]
    · rw [hb', hb, List.reverse_append, List.append_assoc]
    · simpa [hb] using hw'
  | alt p q ihp ihq =>
    rcases List.mem_append.mp h with h | h
    · obtain ⟨w, ha, hb, hw⟩ := ihp h
      exact ⟨w, ha, hb, .left hw⟩
    · obtain ⟨w, ha, hb, hw⟩ := ihq h
      exact ⟨w, ha, hb, .right hw⟩
  | opt p ih =>
    rcases List.mem_cons.mp h with rfl | h
    · exact ⟨[], rfl, rfl, .absent⟩
    · obtain ⟨w, ha, hb, hw⟩ := ih h
      exact ⟨w, ha, hb, .present hw⟩
  | wordBoundary =>
    rw [rests] at h
    split at h
    · rename_i hb
      rw [List.mem_singleton] at h
      subst h
      refine ⟨[], rfl, rfl, .wordBoundary ?_⟩
      rwa [List.getLast?_reverse]
    · cases h

theorem Matches.rests {p : Regex α} {pre w post : List α} (h : p.Matches A pre w post) :
    ((pre ++ w).reverse, post) ∈ p.rests A pre.reverse (w ++ post) := by
  induction h with
  | empty => simp [Regex.rests]
  | char hs => simp [Regex.rests, hs]
  | @seq p q pre w w' post _ _ ihp ihq =>
    rw [List.append_assoc w]
    refine List.mem_flatMap.mpr ⟨_, ihp, ?_⟩
    rwa [List.append_assoc] at ihq
  | left _ ih => exact List.mem_append_left _ ih
  | right _ ih => exact List.mem_append_right _ ih
  | absent => simp [Regex.rests]
  | present _ ih => exact List.mem_cons_of_mem _ ih
  | wordBoundary hb => simp [Regex.rests, hb]

theorem searchFrom_iff {p : Regex α} (before after : List α) : p.searchFrom A before after = true ↔
    ∃ u w post, after = u ++ (w ++ post) ∧ p.Matches A (before.reverse ++ u) w post := by
  have here : ∀ {before after : List α}, (!(p.rests A before after).isEmpty) = true ↔
      ∃ w post, after = w ++ post ∧ p.Matches A before.reverse w post := by
    intro before after
    constructor
    · intro h
      obtain ⟨r, hr⟩ := List.exists_mem_of_ne_nil _ (by simpa using h)
      obtain ⟨w, ha, -, hw⟩ := Matches.of_rests hr
      exact ⟨w, r.2, ha, hw⟩
    · rintro ⟨w, post, rfl, hw⟩
      have hm := hw.rests
      rw [List.reverse_reverse] at hm
      simpa using List.ne_nil_of_mem hm
  induction after generalizing before with
  | nil =>
    rw [searchFrom, here]
    constructor
    · rintro ⟨w, post, ha, hw⟩
      exact ⟨[], w, post, ha, by simpa using hw⟩
    · rintro ⟨u, w, post, ha, hw⟩
      obtain ⟨rfl, hnil⟩ := List.append_eq_nil_iff.mp ha.symm
      exact ⟨w, post, hnil.symm, by simpa using hw⟩
  | cons x after ih =>
    rw [searchFrom, Bool.or_eq_true, here]
    refine (or_congr_right (ih (x :: before))).trans ?_
    constructor
    · rintro (⟨w, post, ha, hw⟩ | ⟨u, w, post, rfl, hw⟩)
      · exact ⟨[], w, post, ha, by simpa using hw⟩
      · exact ⟨x :: u, w, post, rfl, by simpa using hw⟩
    · rintro ⟨u, w, post, ha, hw⟩
      cases u with
      | nil => exact .inl ⟨w, post, ha, by simpa using hw⟩
      | cons y u =>
        obtain ⟨rfl, rfl⟩ := List.cons.inj ha
        exact .inr ⟨u, w, post, rfl, by simpa using hw⟩

/-- The search finds whatever occurs. -/
theorem search_iff {p : Regex α} {text : List α} : p.search A text = true ↔ p.Occurs A text := by
  simp only [search, searchFrom_iff, Occurs, List.reverse_nil, List.nil_append, List.append_assoc]

instance (p : Regex α) (text : List α) : Decidable (p.Occurs A text) := decidable_of_iff _ search_iff

end Regex

end CM
