import ContentModeration.Impl.Ingest
import Mathlib.Data.List.Basic

/-!
# The idempotency key

What `content_hash` feeds to SHA-256 (`hashInput`) is the image, the caption and
the policy version with a NUL between them. The image may hold NULs anywhere, so
it is told from the caption only by where the caption begins. `hashInput_separates_iff`
says between which captions and policy versions this never goes wrong, and
`separated_of_no_nul` that it does not for texts without NUL.
-/

namespace CM

/-! ## UTF-8 -/

theorem toList_loop (bs : ByteArray) (i : Nat) (r : List UInt8) :
    ByteArray.toList.loop bs i r = r.reverse ++ bs.data.toList.drop i := by
  fun_induction ByteArray.toList.loop bs i r with
  | case1 i r hi ih =>
    have hget : bs.get! i = bs.data.toList[i] := by
      rw [ByteArray.get!, Array.getElem_toList, getElem!_pos]
    rw [ih, List.reverse_cons, List.append_assoc, List.singleton_append, hget, ← List.drop_eq_getElem_cons]
  | case2 i r hi => rw [List.drop_eq_nil_of_le (by simpa using hi), List.append_nil]

theorem toList_data (bs : ByteArray) : bs.toList = bs.data.toList := by
  rw [ByteArray.toList, toList_loop, List.reverse_nil, List.nil_append, List.drop_zero]

/-- The UTF-8 encoding of characters. -/
def encode (cs : List Char) : List UInt8 := cs.flatMap String.utf8EncodeChar

theorem encode_append (cs ds : List Char) : encode (cs ++ ds) = encode cs ++ encode ds := List.flatMap_append

theorem encode_nul (cs : List Char) : encode ('\x00' :: cs) = 0 :: encode cs := rfl

theorem utf8_eq (s : String) : utf8 s = encode s.toList := by
  rw [utf8, toList_data, show s.toUTF8 = s.toByteArray from rfl, ← String.utf8Encode_toList, List.utf8Encode, encode]
  simp

theorem encode_injective {cs ds : List Char} (h : encode cs = encode ds) : cs = ds := by
  have hb : (String.ofList cs).toByteArray = (String.ofList ds).toByteArray := by
    simp only [String.toByteArray_ofList, List.utf8Encode]
    exact congrArg List.toByteArray h
  have hs := congrArg String.toList (String.toByteArray_inj.mp hb)
  simpa using hs

/-- Only NUL has a zero byte. -/
theorem zero_mem_encodeChar {c : Char} (h : 0 ∈ String.utf8EncodeChar c) : c = '\x00' := by
  have high : ∀ n : Nat, 0 < n → n < 256 → (0 : UInt8) ≠ UInt8.ofNat n := by
    intro n hn hn' he
    have := congrArg UInt8.toNat he
    rw [UInt8.toNat_ofNat_of_lt' hn'] at this
    simp at this
    omega
  simp only [String.utf8EncodeChar] at h
  split at h
  · rename_i hv
    have hz : c.val.toNat = 0 := by
      by_contra hn
      exact high _ (by omega) (by omega) (List.mem_singleton.mp h)
    exact Char.ext (UInt32.toNat_inj.mp hz)
  · split at h
    · simp only [List.mem_cons, List.not_mem_nil, or_false] at h
      rcases h with h | h
      · exact absurd h (high _ (by omega) (by omega))
      · exact absurd h (high _ (by omega) (by omega))
    · split at h
      · simp only [List.mem_cons, List.not_mem_nil, or_false] at h
        rcases h with h | h | h
        · exact absurd h (high _ (by omega) (by omega))
        · exact absurd h (high _ (by omega) (by omega))
        · exact absurd h (high _ (by omega) (by omega))
      · simp only [List.mem_cons, List.not_mem_nil, or_false] at h
        rcases h with h | h | h | h
        · exact absurd h (high _ (by omega) (by omega))
        · exact absurd h (high _ (by omega) (by omega))
        · exact absurd h (high _ (by omega) (by omega))
        · exact absurd h (high _ (by omega) (by omega))

/-- A zero byte of an encoding separates encodings. -/
theorem encode_split {cs : List Char} {u v : List UInt8} (h : encode cs = u ++ 0 :: v) :
    ∃ ds es, cs = ds ++ '\x00' :: es ∧ encode ds = u ∧ encode es = v := by
  induction cs generalizing u with
  | nil => simp [encode] at h
  | cons c cs ih =>
    have hcons : encode (c :: cs) = String.utf8EncodeChar c ++ encode cs := List.flatMap_cons
    rw [hcons] at h
    rcases List.append_eq_append_iff.mp h with ⟨w, hu, hw⟩ | ⟨w, hc, hv⟩
    · obtain ⟨ds, es, rfl, hd, he⟩ := ih hw
      exact ⟨c :: ds, es, rfl, by rw [hu, ← hd]; exact List.flatMap_cons, he⟩
    · cases w with
      | nil =>
        obtain ⟨ds, es, rfl, hd, he⟩ := ih (u := []) hv.symm
        refine ⟨c :: ds, es, rfl, ?_, he⟩
        rw [show encode (c :: ds) = _ from List.flatMap_cons, show ds.flatMap _ = [] from hd, hc,
          List.append_nil, List.append_nil]
      | cons x w =>
        obtain ⟨rfl, rfl⟩ := List.cons.inj hv
        obtain rfl := zero_mem_encodeChar (c := c) (by simp [hc])
        obtain ⟨rfl, rfl⟩ : u = [] ∧ w = [] := by
          have hl := congrArg List.length hc
          rw [show String.utf8EncodeChar '\x00' = [0] from rfl] at hl
          simp only [List.length_append, List.length_cons, List.length_nil] at hl
          exact ⟨List.eq_nil_of_length_eq_zero (by omega), List.eq_nil_of_length_eq_zero (by omega)⟩
        exact ⟨[], cs, rfl, rfl, rfl⟩

/-! ## What is hashed -/

/-- The bytes that `content_hash` feeds to SHA-256. -/
def hashInput (imageBytes : List UInt8) (caption policyVersion : String) : List UInt8 :=
  imageBytes ++ 0 :: utf8 (strip caption) ++ 0 :: utf8 policyVersion

theorem contentHash_eq (sha256 : Digest) (imageBytes : List UInt8) (caption policyVersion : String) :
    contentHash sha256 imageBytes caption policyVersion = sha256 (hashInput imageBytes caption policyVersion) := rfl

/-- What follows the image and its NUL: the caption, a NUL and the policy version. -/
def label (caption policyVersion : String) : List Char := (strip caption).toList ++ '\x00' :: policyVersion.toList

theorem hashInput_eq (imageBytes : List UInt8) (caption policyVersion : String) :
    hashInput imageBytes caption policyVersion = imageBytes ++ 0 :: encode (label caption policyVersion) := by
  rw [hashInput, label, encode_append, encode_nul, utf8_eq, utf8_eq, List.append_assoc, List.cons_append]

/-- Neither label ends in a NUL and the other one, and equal labels have equal parts. -/
structure Separated (caption policyVersion caption' policyVersion' : String) : Prop where
  left : ¬ ('\x00' :: label caption policyVersion) <:+ label caption' policyVersion'
  right : ¬ ('\x00' :: label caption' policyVersion') <:+ label caption policyVersion
  parts : label caption policyVersion = label caption' policyVersion' →
    strip caption = strip caption' ∧ policyVersion = policyVersion'

/-- An image can take over what precedes a NUL of the label. -/
theorem hashInput_slides {c p c' p' : String} (h : ('\x00' :: label c p) <:+ label c' p') :
    ∃ b, b ≠ [] ∧ hashInput b c p = hashInput [] c' p' := by
  obtain ⟨cs, hcs⟩ := h
  refine ⟨0 :: encode cs, by simp, ?_⟩
  rw [hashInput_eq, hashInput_eq, ← hcs, encode_append, encode_nul]
  rfl

theorem label_of_hashInput {c p c' p' : String} {b b' : List UInt8} (hne : ¬ ('\x00' :: label c' p') <:+ label c p)
    {bs : List UInt8} (hb : b' = b ++ bs) (h : 0 :: encode (label c p) = bs ++ 0 :: encode (label c' p')) :
    b = b' ∧ label c p = label c' p' := by
  cases bs with
  | nil => exact ⟨by simpa using hb.symm, encode_injective (List.cons.inj h).2⟩
  | cons x bs =>
    obtain ⟨rfl, ht⟩ := List.cons.inj h
    obtain ⟨ds, es, hd, -, he⟩ := encode_split ht
    exact absurd ⟨ds, by rw [hd, encode_injective he]⟩ hne

/-- Contents with these captions and policy versions are hashed apart, whatever
their images, exactly if the labels are separated. -/
theorem hashInput_separates_iff (c p c' p' : String) :
    (∀ b b', hashInput b c p = hashInput b' c' p' → b = b' ∧ strip c = strip c' ∧ p = p') ↔
      Separated c p c' p' := by
  constructor
  · intro h
    refine ⟨fun hs => ?_, fun hs => ?_, fun he => (h [] [] ?_).2⟩
    · obtain ⟨b, hb, hh⟩ := hashInput_slides hs
      exact hb (h b [] hh).1
    · obtain ⟨b, hb, hh⟩ := hashInput_slides hs
      exact hb (h [] b hh.symm).1.symm
    · rw [hashInput_eq, hashInput_eq, he]
  · intro h b b' he
    rw [hashInput_eq, hashInput_eq] at he
    rcases List.append_eq_append_iff.mp he with ⟨bs, hb, ht⟩ | ⟨bs, hb, ht⟩
    · obtain ⟨hbb, hl⟩ := label_of_hashInput h.right hb ht
      exact ⟨hbb, h.parts hl⟩
    · obtain ⟨hbb, hl⟩ := label_of_hashInput h.left hb ht
      exact ⟨hbb.symm, h.parts hl.symm⟩

/-- Texts without NUL are hashed apart. -/
theorem separated_of_no_nul {c p c' p' : String} (hc : '\x00' ∉ (strip c).toList) (hp : '\x00' ∉ p.toList)
    (hc' : '\x00' ∉ (strip c').toList) (hp' : '\x00' ∉ p'.toList) : Separated c p c' p' := by
  have one : ∀ {c p : String}, '\x00' ∉ (strip c).toList → '\x00' ∉ p.toList → (label c p).count '\x00' = 1 := by
    intro c p hc hp
    rw [label, List.count_append, List.count_cons_self, List.count_eq_zero_of_not_mem hc,
      List.count_eq_zero_of_not_mem hp]
  refine ⟨fun hs => ?_, fun hs => ?_, fun he => ?_⟩
  · have := hs.sublist.count_le '\x00'
    rw [List.count_cons_self, one hc hp, one hc' hp'] at this
    omega
  · have := hs.sublist.count_le '\x00'
    rw [List.count_cons_self, one hc hp, one hc' hp'] at this
    omega
  · rw [label, label, List.append_cons_inj_of_notMem hc hp] at he
    exact ⟨String.toList_inj.mp he.1, String.toList_inj.mp he.2.2⟩

/-- The NUL of a caption can be taken for the one after the image. -/
theorem hashInput_collides : ¬ ∀ b b' c c' p p', hashInput b c p = hashInput b' c' p' →
    b = b' ∧ strip c = strip c' ∧ p = p' := by
  intro h
  have hsame : hashInput [1] "a\x00b" "policy-v1" = hashInput [1, 0, 97] "b" "policy-v1" := by
    rw [hashInput_eq, hashInput_eq]
    decide +kernel
  have himage : ([1] : List UInt8) = [1, 0, 97] := (h _ _ _ _ _ _ hsame).1
  simp at himage

end CM
