import Mathlib.Tactic.Common

/-!
# The characters of a string

`chars s` is `s.toList` (`chars_eq`). It takes the characters of an ASCII string
straight from its bytes, of which none is decoded, so that definitions that scan
texts are quick to evaluate.
-/

namespace CM

/-- The characters of `s`. -/
def chars (s : String) : List Char :=
  let bytes := s.toByteArray.data.toList
  if bytes.all (· < 128) then bytes.map fun b => Char.ofNat b.toNat else s.toList

/-- Only a character of one byte has no byte from 128 on. -/
theorem map_utf8EncodeChar {c : Char} (h : ∀ b ∈ String.utf8EncodeChar c, b < 128) :
    (String.utf8EncodeChar c).map (fun b => Char.ofNat b.toNat) = [c] := by
  by_cases hc : c.val.toNat ≤ 0x7f
  · have hv : c.val.toNat % 2 ^ 8 = c.toNat := Nat.mod_eq_of_lt (by omega)
    simp only [String.utf8EncodeChar, if_pos hc, List.map_cons, List.map_nil, UInt8.toNat_ofNat', hv,
      Char.ofNat_toNat]
  · exfalso
    have lead : ∀ n, 128 ≤ n → n < 256 → ¬ UInt8.ofNat n < 128 := by
      intro n hn hlt
      rw [UInt8.lt_iff_toNat_lt, UInt8.toNat_ofNat_of_lt' hlt]
      exact Nat.not_lt.mpr hn
    simp only [String.utf8EncodeChar, if_neg hc] at h
    split at h
    · exact lead _ (by omega) (by omega) (h _ List.mem_cons_self)
    · split at h
      · exact lead _ (by omega) (by omega) (h _ List.mem_cons_self)
      · exact lead _ (by omega) (by omega) (h _ List.mem_cons_self)

theorem map_flatMap_utf8EncodeChar {cs : List Char} (h : ∀ b ∈ cs.flatMap String.utf8EncodeChar, b < 128) :
    (cs.flatMap String.utf8EncodeChar).map (fun b => Char.ofNat b.toNat) = cs := by
  induction cs with
  | nil => rfl
  | cons c cs ih =>
    rw [List.flatMap_cons] at h ⊢
    rw [List.map_append, map_utf8EncodeChar fun b hb => h b (List.mem_append_left _ hb),
      ih fun b hb => h b (List.mem_append_right _ hb)]
    rfl

@[simp] theorem chars_eq (s : String) : chars s = s.toList := by
  have hbytes : s.toByteArray.data.toList = s.toList.flatMap String.utf8EncodeChar := by
    rw [← String.ofList_toList (s := s), String.toByteArray_ofList, String.toList_ofList]
    exact List.toList_data_toByteArray
  simp only [chars, hbytes]
  split
  · rename_i h
    exact map_flatMap_utf8EncodeChar fun b hb => of_decide_eq_true (List.all_eq_true.mp h b hb)
  · rfl

end CM
