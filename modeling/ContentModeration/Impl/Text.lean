import ContentModeration.Framework.Chars
import Mathlib.Algebra.Group.Nat.Defs
import Mathlib.Data.List.Infix
import Mathlib.Tactic.Common

/-!
# Python's strings and UUIDs

The string operations that the source applies to captions, notes, provider
names and exception texts, and the textual form of a UUID: `Uuid.str` is
`str(u)` and `Uuid.parse` is `UUID(s)`, which reads it back (`parse_str`).
`asyncpgUuid` is what the database driver accepts for a `$1::uuid` parameter.
-/

namespace CM

/-! ## Strings -/

/-- PostgreSQL takes a string into a TEXT or jsonb column unless it has U+0000. -/
def storable (s : String) : Bool := !(chars s).contains '\x00'

/-- What `str.strip()` removes. -/
def isSpace (c : Char) : Bool :=
  c.toNat ∈ [9, 10, 11, 12, 13, 28, 29, 30, 31, 32, 0x85, 0xa0, 0x1680, 0x2028, 0x2029, 0x202f, 0x205f,
    0x3000] || (0x2000 ≤ c.toNat && c.toNat ≤ 0x200a)

def stripChars (cs : List Char) : List Char :=
  ((cs.dropWhile isSpace).reverse.dropWhile isSpace).reverse

/-- `s.strip()`. -/
def strip (s : String) : String := String.ofList (stripChars (chars s))

/-- `s.lower()`, on the letters of ASCII. -/
def lower (s : String) : String := String.ofList ((chars s).map Char.toLower)

/-- `needle in s`. -/
def contains (needle s : String) : Bool := decide (chars needle <:+: chars s)

/-- `s[:n]`. -/
def takeStr (n : Nat) (s : String) : String := String.ofList ((chars s).take n)

/-- `[c.strip() for c in s.split(",") if c.strip()]`. -/
def commaList (s : String) : List String :=
  (((chars s).splitOn ',').map fun c => String.ofList (stripChars c)).filter (· ≠ "")

theorem head_dropWhile {p : Char → Bool} {c : Char} {cs ds : List Char} (h : cs.dropWhile p = c :: ds) :
    p c = false := by
  induction cs with
  | nil => cases h
  | cons a cs ih =>
    rw [List.dropWhile_cons] at h
    split at h
    · exact ih h
    · rename_i ha
      cases h
      simpa using ha

theorem dropWhile_of_head {p : Char → Bool} {cs : List Char} (h : ∀ c ds, cs = c :: ds → p c = false) :
    cs.dropWhile p = cs := by
  cases cs with
  | nil => rfl
  | cons c cs => rw [List.dropWhile_cons_of_neg (by simp [h c cs rfl])]

theorem stripChars_stripChars (cs : List Char) : stripChars (stripChars cs) = stripChars cs := by
  have last : (stripChars cs).reverse.dropWhile isSpace = (stripChars cs).reverse :=
    dropWhile_of_head fun c ds h => head_dropWhile (by simpa [stripChars] using h)
  have first : (stripChars cs).dropWhile isSpace = stripChars cs := by
    refine dropWhile_of_head fun c ds h => ?_
    have hp : stripChars cs <+: cs.dropWhile isSpace := by
      simpa [stripChars] using
        List.reverse_prefix.mpr (List.dropWhile_suffix (l := (cs.dropWhile isSpace).reverse) isSpace)
    rw [h] at hp
    obtain ⟨es, he⟩ := hp
    exact head_dropWhile he.symm
  rw [stripChars, first, last, List.reverse_reverse]

theorem storable_append (s t : String) : storable (s ++ t) = (storable s && storable t) := by
  simp only [storable, chars_eq, String.toList_append, List.contains_eq_any_beq, List.any_append, Bool.not_or]

/-- A part of a text that can be stored. -/
theorem storable_takeStr {s : String} (h : storable s = true) (n : Nat) : storable (takeStr n s) = true := by
  simp only [storable, takeStr, chars_eq, String.toList_ofList, Bool.not_eq_true', ← Bool.not_eq_true,
    List.contains_iff_mem] at h ⊢
  exact fun hm => h (List.mem_of_mem_take hm)

/-- Stripping removes no U+0000. -/
theorem storable_strip (s : String) : storable (strip s) = storable s := by
  have keep : ∀ cs : List Char, '\x00' ∈ cs.dropWhile isSpace ↔ '\x00' ∈ cs := by
    intro cs
    induction cs with
    | nil => rfl
    | cons c cs ih =>
      rw [List.dropWhile_cons]
      split
      · rename_i hc
        have hne : '\x00' ≠ c := by
          rintro rfl
          exact absurd hc (by decide)
        rw [ih, List.mem_cons, or_iff_right hne]
      · rfl
  have hmem : '\x00' ∈ stripChars s.toList ↔ '\x00' ∈ s.toList := by
    rw [stripChars, List.mem_reverse, keep, List.mem_reverse, keep]
  rw [Bool.eq_iff_iff]
  simp only [storable, strip, chars_eq, String.toList_ofList, Bool.not_eq_true', ← Bool.not_eq_true,
    List.contains_iff_mem, hmem]

/-- Stripping twice is stripping once. -/
theorem strip_strip (s : String) : strip (strip s) = strip s := by
  simp only [strip, chars_eq, String.toList_ofList, stripChars_stripChars]

/-- What follows the last `c` of a list tells the two parts. -/
theorem append_cons_inj {α : Type} {xs xs' ys ys' : List α} {c : α} (h : c ∉ ys) (h' : c ∉ ys')
    (he : xs ++ c :: ys = xs' ++ c :: ys') : xs = xs' ∧ ys = ys' := by
  rcases List.append_eq_append_iff.mp he with ⟨as, hx, hy⟩ | ⟨as, hx, hy⟩
  · cases as with
    | nil => exact ⟨by rw [hx, List.append_nil], (List.cons.inj hy).2⟩
    | cons a as => exact absurd (by rw [(List.cons.inj hy).2]; simp) h
  · cases as with
    | nil => exact ⟨by rw [hx, List.append_nil], (List.cons.inj hy).2.symm⟩
    | cons a as => exact absurd (by rw [(List.cons.inj hy).2]; simp) h'

/-! ## UUIDs -/

/-- A `uuid.UUID`: its 128 bits. -/
structure Uuid where
  int : BitVec 128
  deriving DecidableEq

def hexDigit (n : Nat) : Char := if n < 10 then Char.ofNat (48 + n) else Char.ofNat (87 + n)

def hexValue (c : Char) : Option Nat :=
  if '0' ≤ c ∧ c ≤ '9' then some (c.toNat - 48)
  else if 'a' ≤ c ∧ c ≤ 'f' then some (c.toNat - 87)
  else if 'A' ≤ c ∧ c ≤ 'F' then some (c.toNat - 55)
  else none

/-- The `k` last hexadecimal digits of `n`. -/
def hexDigits : Nat → Nat → List Char
  | 0, _ => []
  | k + 1, n => hexDigits k (n / 16) ++ [hexDigit (n % 16)]

def hexNumber (cs : List Char) : Option Nat :=
  cs.foldlM (fun n c => (hexValue c).map (16 * n + ·)) 0

/-- The zeros of the decimal digits of Unicode that are not ASCII. -/
def decimalZeros : List Nat :=
  [0x660, 0x6f0, 0x7c0, 0x966, 0x9e6, 0xa66, 0xae6, 0xb66, 0xbe6, 0xc66, 0xce6, 0xd66, 0xde6, 0xe50, 0xed0,
    0xf20, 0x1040, 0x1090, 0x17e0, 0x1810, 0x1946, 0x19d0, 0x1a80, 0x1a90, 0x1b50, 0x1bb0, 0x1c40, 0x1c50,
    0xa620, 0xa8d0, 0xa900, 0xa9d0, 0xa9f0, 0xaa50, 0xabf0, 0xff10, 0x104a0, 0x10d30, 0x11066, 0x110f0,
    0x11136, 0x111d0, 0x112f0, 0x11450, 0x114d0, 0x11650, 0x116c0, 0x11730, 0x118e0, 0x11950, 0x11c50,
    0x11d50, 0x11da0, 0x11f50, 0x16a60, 0x16ac0, 0x16b50, 0x1d7ce, 0x1d7d8, 0x1d7e2, 0x1d7ec, 0x1d7f6,
    0x1e140, 0x1e2f0, 0x1e4f0, 0x1e950, 0x1fbf0]

/-- The character that `int` reads: white space beyond ASCII is a blank, and a decimal digit
of any script its value. -/
def transformDecimal (c : Char) : Char :=
  if c.toNat < 127 then c
  else if isSpace c then ' '
  else match decimalZeros.find? fun first => decide (first ≤ c.toNat ∧ c.toNat < first + 10) with
    | some first => hexDigit (c.toNat - first)
    | none => '?'

/-- The white space of C. -/
def isCSpace (c : Char) : Bool := c.toNat = 32 || (9 ≤ c.toNat && c.toNat ≤ 13)

/-- Digits with single underscores between them. -/
def underscoredHex (cs : List Char) : Option Nat :=
  if (cs.splitOn '_').any List.isEmpty then none else hexNumber (cs.filter (· ≠ '_'))

def dropPlus : List Char → List Char
  | '+' :: cs => cs
  | cs => cs

/-- One underscore may follow the `0x`. -/
def dropHexPrefix : List Char → List Char
  | '0' :: 'x' :: '_' :: cs | '0' :: 'X' :: '_' :: cs | '0' :: 'x' :: cs | '0' :: 'X' :: cs => cs
  | cs => cs

/-- `int(s, 16)`, without a minus sign. -/
def intBase16 (cs : List Char) : Option Nat :=
  let cs := (((cs.map transformDecimal).dropWhile isCSpace).reverse.dropWhile isCSpace).reverse
  underscoredHex (dropHexPrefix (dropPlus cs))

namespace Uuid

def strChars (u : Uuid) : List Char :=
  let h := hexDigits 32 u.int.toNat
  h.take 8 ++ '-' :: (h.drop 8).take 4 ++ '-' :: (h.drop 12).take 4 ++ '-' :: (h.drop 16).take 4 ++
    '-' :: h.drop 20

/-- `str(u)`. -/
def str (u : Uuid) : String := String.ofList u.strChars

/-- `s.replace(pat, "")`; `skip` is what is left of an occurrence of `pat`. -/
def removeAll (pat : List Char) : Nat → List Char → List Char
  | _, [] => []
  | skip + 1, _ :: cs => removeAll pat skip cs
  | 0, c :: cs =>
    if pat.isPrefixOf (c :: cs) then removeAll pat (pat.length - 1) cs else c :: removeAll pat 0 cs

def isBrace (c : Char) : Bool := c = '\x7b' || c = '\x7d'

/-- 32 hexadecimal digits. -/
def ofDigits (cs : List Char) : Option Uuid :=
  if cs.length = 32 then (hexNumber cs).map fun n => ⟨BitVec.ofNat 128 n⟩ else none

/-- `UUID(s)`: braces, hyphens and a URN prefix are optional, and `int(s, 16)` reads the
32 characters that are left; without hyphens their value is in range. -/
def parse (s : String) : Option Uuid :=
  let cs := removeAll "uuid:".toList 0 (removeAll "urn:".toList 0 (chars s))
  let cs := ((cs.dropWhile isBrace).reverse.dropWhile isBrace).reverse
  let cs := cs.filter (· ≠ '-')
  if cs.length = 32 then (intBase16 cs).map fun n => ⟨BitVec.ofNat 128 n⟩ else none

/-- What the driver accepts for a `$1::uuid` parameter given as a string: 32
hexadecimal digits, with up to four hyphens anywhere. -/
def asyncpgUuid (s : String) : Option Uuid :=
  let cs := chars s
  if cs.length ≤ 36 then ofDigits (cs.filter (· ≠ '-')) else none

theorem hexDigit_cases : ∀ n < 16, hexValue (hexDigit n) = some n ∧ hexDigit n ≠ '-' ∧
    hexDigit n ≠ 'u' ∧ isBrace (hexDigit n) = false := by decide

theorem length_hexDigits (k n : Nat) : (hexDigits k n).length = k := by
  induction k generalizing n with
  | zero => rfl
  | succ k ih => simp [hexDigits, ih]

theorem exists_of_mem_hexDigits {k n : Nat} {c : Char} (h : c ∈ hexDigits k n) : ∃ d < 16, c = hexDigit d := by
  induction k generalizing n with
  | zero => cases h
  | succ k ih =>
    rcases List.mem_append.mp h with h | h
    · exact ih h
    · exact ⟨n % 16, Nat.mod_lt _ (by decide), List.mem_singleton.mp h⟩

theorem mem_hexDigits {k n : Nat} {c : Char} (h : c ∈ hexDigits k n) :
    c ≠ '-' ∧ c ≠ 'u' ∧ isBrace c = false := by
  obtain ⟨d, hd, rfl⟩ := exists_of_mem_hexDigits h
  exact (hexDigit_cases d hd).2

theorem hexNumber_hexDigits {k n : Nat} (h : n < 16 ^ k) : hexNumber (hexDigits k n) = some n := by
  induction k generalizing n with
  | zero => simp only [Nat.pow_zero, Nat.lt_one_iff] at h; subst h; rfl
  | succ k ih =>
    have hd := (hexDigit_cases (n % 16) (Nat.mod_lt _ (by decide))).1
    have hq : n / 16 < 16 ^ k := by rw [Nat.pow_succ] at h; omega
    have := ih hq
    simp only [hexNumber, hexDigits, List.foldlM_append] at this ⊢
    rw [this]
    simp only [Option.bind_eq_bind, Option.bind_some, List.foldlM_cons, List.foldlM_nil, hd, Option.map_some,
      Option.pure_def]
    congr 1; omega

theorem hexValue_plain {c : Char} (h : (hexValue c).isSome = true) :
    transformDecimal c = c ∧ isCSpace c = false ∧ c ≠ '+' ∧ c ≠ 'x' ∧ c ≠ 'X' ∧ c ≠ '_' := by
  have hc : (48 ≤ c.toNat ∧ c.toNat ≤ 57) ∨ (97 ≤ c.toNat ∧ c.toNat ≤ 102) ∨ (65 ≤ c.toNat ∧ c.toNat ≤ 70) := by
    simp only [hexValue] at h
    split at h
    · rename_i hd
      exact .inl hd
    · split at h
      · rename_i hd
        exact .inr (.inl hd)
      · split at h
        · rename_i hd
          exact .inr (.inr hd)
        · cases h
  have ne : ∀ d : Char, d.toNat ∈ [43, 120, 88, 95] → c ≠ d := by
    rintro d hd rfl
    simp only [List.mem_cons, List.not_mem_nil, or_false] at hd
    omega
  refine ⟨if_pos (by omega), ?_, ne _ (by decide), ne _ (by decide), ne _ (by decide), ne _ (by decide)⟩
  simp only [isCSpace, Bool.or_eq_false_iff, Bool.and_eq_false_iff, decide_eq_false_iff_not]
  omega

/-- Of hexadecimal digits alone, `int(s, 16)` is the number. -/
theorem intBase16_of_digits {cs : List Char} (h : ∀ c ∈ cs, (hexValue c).isSome = true) (hne : cs ≠ []) :
    intBase16 cs = hexNumber cs := by
  have hmap : cs.map transformDecimal = cs :=
    (List.map_congr_left fun c hc => (hexValue_plain (h c hc)).1).trans (List.map_id cs)
  have htrim : ∀ ds : List Char, (∀ c ∈ ds, c ∈ cs) → ds.dropWhile isCSpace = ds := fun ds hds =>
    dropWhile_of_head fun c es hc => (hexValue_plain (h c (hds c (hc ▸ List.mem_cons_self)))).2.1
  have hplus : dropPlus cs = cs := by
    unfold dropPlus
    split
    · exact absurd rfl (hexValue_plain (h '+' (by simp))).2.2.1
    · rfl
  have hprefix : dropHexPrefix cs = cs := by
    unfold dropHexPrefix
    split
    · exact absurd rfl (hexValue_plain (h 'x' (by simp))).2.2.2.1
    · exact absurd rfl (hexValue_plain (h 'X' (by simp))).2.2.2.2.1
    · exact absurd rfl (hexValue_plain (h 'x' (by simp))).2.2.2.1
    · exact absurd rfl (hexValue_plain (h 'X' (by simp))).2.2.2.2.1
    · rfl
  have hno : ∀ c ∈ cs, c ≠ '_' := fun c hc => (hexValue_plain (h c hc)).2.2.2.2.2
  have hsplit : cs.splitOn '_' = [cs] := List.splitOnP_eq_singleton fun c hc => by simpa using hno c hc
  simp only [intBase16, hmap, htrim cs fun _ hc => hc, htrim cs.reverse fun _ hc => List.mem_reverse.mp hc,
    List.reverse_reverse, hplus, hprefix, underscoredHex, hsplit]
  rw [if_neg (by simpa using hne), List.filter_eq_self.mpr fun c hc => decide_eq_true (hno c hc)]

theorem intBase16_hexDigits {k n : Nat} (hk : k ≠ 0) (h : n < 16 ^ k) : intBase16 (hexDigits k n) = some n := by
  rw [intBase16_of_digits, hexNumber_hexDigits h]
  · intro c hc
    obtain ⟨d, hd, rfl⟩ := exists_of_mem_hexDigits hc
    rw [(hexDigit_cases d hd).1]
    rfl
  · exact fun hnil => hk (by simpa [hnil] using (length_hexDigits k n).symm)

theorem ofDigits_hexDigits (u : Uuid) : ofDigits (hexDigits 32 u.int.toNat) = some u := by
  have hn : hexNumber (hexDigits 32 u.int.toNat) = some u.int.toNat := hexNumber_hexDigits u.int.isLt
  simp only [ofDigits, length_hexDigits, if_true, hn, Option.map_some, BitVec.ofNat_toNat,
    BitVec.setWidth_eq]

theorem mem_strChars {u : Uuid} {c : Char} (h : c ∈ u.strChars) : c ≠ 'u' ∧ isBrace c = false := by
  have hd : ∀ c ∈ hexDigits 32 u.int.toNat, c ≠ 'u' ∧ isBrace c = false :=
    fun c hc => (mem_hexDigits hc).2
  simp only [strChars, List.mem_append, List.mem_cons] at h
  have hy : '-' ≠ 'u' ∧ isBrace '-' = false := by decide
  rcases h with ((((h | rfl | h) | rfl | h) | rfl | h) | rfl | h)
  · exact hd c (List.mem_of_mem_take h)
  · exact hy
  · exact hd c (List.mem_of_mem_drop (List.mem_of_mem_take h))
  · exact hy
  · exact hd c (List.mem_of_mem_drop (List.mem_of_mem_take h))
  · exact hy
  · exact hd c (List.mem_of_mem_drop (List.mem_of_mem_take h))
  · exact hy
  · exact hd c (List.mem_of_mem_drop h)

/-- Without the hyphens, `str(u)` is 32 digits. -/
theorem filter_strChars (u : Uuid) :
    u.strChars.filter (· ≠ '-') = hexDigits 32 u.int.toNat := by
  have hf : ∀ cs : List Char, (∀ c ∈ cs, c ∈ hexDigits 32 u.int.toNat) → cs.filter (· ≠ '-') = cs :=
    fun cs h => List.filter_eq_self.mpr fun c hc => by simpa using (mem_hexDigits (h c hc)).1
  have hy : ∀ cs : List Char, ('-' :: cs).filter (· ≠ '-') = cs.filter (· ≠ '-') :=
    fun cs => List.filter_cons_of_neg (by decide)
  simp only [strChars, List.filter_append, hy]
  rw [hf _ fun c h => List.mem_of_mem_take h, hf _ fun c h => List.mem_of_mem_drop (List.mem_of_mem_take h),
    hf _ fun c h => List.mem_of_mem_drop (List.mem_of_mem_take h),
    hf _ fun c h => List.mem_of_mem_drop (List.mem_of_mem_take h), hf _ fun c h => List.mem_of_mem_drop h]
  generalize hexDigits 32 u.int.toNat = h
  simp only [List.append_assoc]
  conv_rhs => rw [← List.take_append_drop 8 h, ← List.take_append_drop 4 (h.drop 8), List.drop_drop,
    ← List.take_append_drop 4 (h.drop (8 + 4)), List.drop_drop, ← List.take_append_drop 4 (h.drop (8 + 4 + 4)),
    List.drop_drop]

theorem removeAll_of_notMem {p : Char} {ps cs : List Char} (h : p ∉ cs) :
    removeAll (p :: ps) 0 cs = cs := by
  induction cs with
  | nil => rfl
  | cons c cs ih =>
    simp only [List.mem_cons, not_or] at h
    simp only [removeAll, List.isPrefixOf, beq_eq_false_iff_ne.mpr h.1, Bool.false_and, Bool.false_eq_true,
      if_false, ih h.2]

/-- `UUID(str(u))` is `u`. -/
@[simp] theorem parse_str (u : Uuid) : parse u.str = some u := by
  have hu : 'u' ∉ u.strChars := fun h => (mem_strChars h).1 rfl
  have hb : ∀ cs : List Char, (∀ c ∈ cs, c ∈ u.strChars) → cs.dropWhile isBrace = cs := fun cs h =>
    dropWhile_of_head fun c ds hc => (mem_strChars (h c (hc ▸ List.mem_cons_self))).2
  have h₁ : removeAll "urn:".toList 0 u.strChars = u.strChars := removeAll_of_notMem hu
  have h₂ : removeAll "uuid:".toList 0 u.strChars = u.strChars := removeAll_of_notMem hu
  simp only [parse, str, chars_eq, String.toList_ofList, h₁, h₂]
  rw [hb _ fun c h => h, hb _ fun c h => List.mem_reverse.mp h, List.reverse_reverse, filter_strChars,
    length_hexDigits, if_pos rfl, intBase16_hexDigits (by decide) u.int.isLt]
  simp only [Option.map_some, BitVec.ofNat_toNat, BitVec.setWidth_eq]

theorem length_strChars (u : Uuid) : u.strChars.length = 36 := by
  simp [strChars, length_hexDigits]

@[simp] theorem asyncpgUuid_str (u : Uuid) : asyncpgUuid u.str = some u := by
  simp only [asyncpgUuid, str, chars_eq, String.toList_ofList, length_strChars, filter_strChars,
    ofDigits_hexDigits, Nat.le_refl, if_true]

theorem str_injective : Function.Injective str := fun u v h => by
  have := congrArg parse h
  simpa using this

end Uuid

end CM
