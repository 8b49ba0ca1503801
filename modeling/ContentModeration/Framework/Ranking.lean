import Mathlib.Data.List.Sort

/-!
# The first rows of a table

`Leads le n l rs` says that `rs` answers a query with `ORDER BY` and `LIMIT n` on the rows `l`: it is in
order, it has no row twice, it has `n` rows unless the table has fewer, and nothing that is left out
comes before anything that is not. Sorting and then cutting off does this (`Leads.of_insertionSort`).
-/

namespace CM

variable {α : Type} {le : α → α → Prop} {n : Nat} {l rs : List α}

structure Leads (le : α → α → Prop) (n : Nat) (l rs : List α) : Prop where
  rows : rs.Subperm l
  sorted : rs.Pairwise le
  length : rs.length = min n l.length
  left {a b : α} : a ∈ l → a ∉ rs → b ∈ rs → le b a

namespace Leads

theorem of_insertionSort [DecidableRel le] [Std.Total le] [IsTrans α le] (n : Nat) (l : List α) :
    Leads le n l ((l.insertionSort le).take n) := by
  have hperm : (l.insertionSort le).Perm l := List.perm_insertionSort le l
  have hsorted : (l.insertionSort le).Pairwise le := List.pairwise_insertionSort le l
  refine ⟨(List.take_sublist n _).subperm.trans hperm.subperm, hsorted.sublist (List.take_sublist n _), ?_, ?_⟩
  · rw [List.length_take, hperm.length_eq]
  · intro a b ha hleft hb
    rw [← hperm.mem_iff, ← List.take_append_drop n (l.insertionSort le), List.mem_append] at ha
    rw [← List.take_append_drop n (l.insertionSort le), List.pairwise_append] at hsorted
    exact hsorted.2.2 b hb a (ha.resolve_left hleft)

theorem mem (h : Leads le n l rs) {a : α} (ha : a ∈ rs) : a ∈ l := h.rows.subset ha

/-- A query that is answered with fewer rows than it may be leaves out none. -/
theorem perm (h : Leads le n l rs) (hn : rs.length < n) : rs.Perm l := by
  refine h.rows.perm_of_length_le ?_
  have := h.length
  omega

end Leads

end CM
