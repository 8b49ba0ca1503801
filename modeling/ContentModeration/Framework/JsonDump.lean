import ContentModeration.Framework.JsonText

/-!
# Writing JSON

`JsonText.dumps` writes a value as `json.dumps` does: the items of an array and the members of an
object are separated by ", ", a name is followed by ": ", and everything that is not printable ASCII is
escaped, as a pair of surrogates where one unit is not enough. Reading gives back what was written
(`decode_dumps`), whatever the strings hold, and what is written is ASCII (`Whole.ascii`), so that it
passes unchanged through anything that keeps ASCII. Numbers are whole here.
-/

namespace CM.JsonText

/-! ## Strings -/

def hexDigitChar (n : Nat) : Char := if n < 10 then Char.ofNat (48 + n) else Char.ofNat (87 + n)

/-- The escape of a unit. -/
def dumpUnit (n : Nat) : List Char :=
  ['\\', 'u', hexDigitChar (n / 4096 % 16), hexDigitChar (n / 256 % 16), hexDigitChar (n / 16 % 16),
    hexDigitChar (n % 16)]

/-- A character between quotes. -/
def dumpChar (c : Char) : List Char :=
  if c = '"' then ['\\', '"']
  else if c = '\\' then ['\\', '\\']
  else if c = '\n' then ['\\', 'n']
  else if c = '\r' then ['\\', 'r']
  else if c = '\t' then ['\\', 't']
  else if c = '\x08' then ['\\', 'b']
  else if c = '\x0c' then ['\\', 'f']
  else if 32 ≤ c.toNat ∧ c.toNat < 127 then [c]
  else if c.toNat < 0x10000 then dumpUnit c.toNat
  else dumpUnit (0xd800 + (c.toNat - 0x10000) / 0x400) ++ dumpUnit (0xdc00 + (c.toNat - 0x10000) % 0x400)

def dumpString (s : String) : List Char := '"' :: s.toList.flatMap dumpChar ++ ['"']

theorem hexDigitValue_hexDigitChar {n : Nat} (h : n < 16) : hexDigitValue (hexDigitChar n) = some n := by
  have all : ∀ n < 16, hexDigitValue (hexDigitChar n) = some n := by decide
  exact all n h

theorem scanUnit_dumpUnit {n : Nat} (h : n < 0x10000) (cs : List Char) :
    ∃ ds, dumpUnit n ++ cs = '\\' :: 'u' :: ds ∧ scanUnit ds = some (n, cs) := by
  refine ⟨hexDigitChar _ :: hexDigitChar _ :: hexDigitChar _ :: hexDigitChar _ :: cs, rfl, ?_⟩
  have h₃ := hexDigitValue_hexDigitChar (Nat.mod_lt (n / 4096) (show 16 > 0 by decide))
  have h₂ := hexDigitValue_hexDigitChar (Nat.mod_lt (n / 256) (show 16 > 0 by decide))
  have h₁ := hexDigitValue_hexDigitChar (Nat.mod_lt (n / 16) (show 16 > 0 by decide))
  have h₀ := hexDigitValue_hexDigitChar (Nat.mod_lt n (show 16 > 0 by decide))
  have hn : 16 * (16 * (16 * (16 * 0 + n / 4096 % 16) + n / 256 % 16) + n / 16 % 16) + n % 16 = n := by omega
  simp only [scanUnit, List.foldlM_cons, List.foldlM_nil, h₀, h₁, h₂, h₃, Option.map_some,
    Option.bind_eq_bind, Option.bind_some,
    Option.pure_def, hn]

/-- A backslash and what it escapes. -/
theorem scanString_escape {c : Char} {cs ds : List Char} (h : scanEscape cs = some (c, ds)) (n : Nat) :
    scanString (n + 1) ('\\' :: cs) = (scanString n ds).map fun (es, cs) => (c :: es, cs) := by
  rw [scanString, if_neg (by decide), if_pos rfl, h]
  simp only [Option.bind_eq_bind, Option.bind_some]
  cases scanString n ds <;> rfl

theorem scanEscape_dumpUnit {c : Char} (h : c.toNat < 0x10000) (cs : List Char) :
    ∃ ds, dumpUnit c.toNat ++ cs = '\\' :: ds ∧ scanEscape ds = some (c, cs) := by
  obtain ⟨ds, heq, hunit⟩ := scanUnit_dumpUnit h cs
  refine ⟨'u' :: ds, heq, ?_⟩
  have hvalid : c.toNat < 0xd800 ∨ 0xdfff < c.toNat ∧ c.toNat < 0x110000 := c.valid
  rw [scanEscape, hunit]
  simp only [Option.bind_eq_bind, Option.bind_some]
  rw [if_neg (by omega), if_neg (by omega), Char.ofNat_toNat]
  rfl

/-- A character that takes two units. -/
theorem scanEscape_dumpPair {c : Char} {high low : Nat} (hhigh : 0xd800 ≤ high ∧ high < 0xdc00)
    (hlow : 0xdc00 ≤ low ∧ low < 0xe000) (hc : 0x10000 + (high - 0xd800) * 0x400 + (low - 0xdc00) = c.toNat)
    (cs : List Char) :
    ∃ ds, dumpUnit high ++ dumpUnit low ++ cs = '\\' :: ds ∧ scanEscape ds = some (c, cs) := by
  obtain ⟨es, heqlow, hscanlow⟩ := scanUnit_dumpUnit (show low < 0x10000 by omega) cs
  obtain ⟨ds, heq, hunit⟩ := scanUnit_dumpUnit (show high < 0x10000 by omega) ('\\' :: 'u' :: es)
  refine ⟨'u' :: ds, by rw [List.append_assoc, heqlow, heq], ?_⟩
  rw [scanEscape, hunit]
  simp only [Option.bind_eq_bind, Option.bind_some]
  rw [if_pos hhigh, scanLow, hscanlow]
  simp only [Option.bind_eq_bind, Option.bind_some]
  rw [if_pos hlow, hc, Char.ofNat_toNat]
  rfl

/-- A character is read back as it was written. -/
theorem scanString_dumpChar (c : Char) (n : Nat) (cs : List Char) :
    scanString (n + 1) (dumpChar c ++ cs) = (scanString n cs).map fun (ds, cs) => (c :: ds, cs) := by
  rw [dumpChar]
  split
  · subst c
    exact scanString_escape rfl n
  split
  · subst c
    exact scanString_escape rfl n
  split
  · subst c
    exact scanString_escape rfl n
  split
  · subst c
    exact scanString_escape rfl n
  split
  · subst c
    exact scanString_escape rfl n
  split
  · subst c
    exact scanString_escape rfl n
  split
  · subst c
    exact scanString_escape rfl n
  rename_i hquote hbackslash _ _ _ _ _
  split
  · rename_i hprint
    rw [List.singleton_append, scanString, if_neg hquote, if_neg hbackslash, if_neg (by omega)]
    cases scanString n cs <;> rfl
  split
  · rename_i hunit
    obtain ⟨ds, heq, hscan⟩ := scanEscape_dumpUnit hunit cs
    rw [heq]
    exact scanString_escape hscan n
  · rename_i hpair
    have hvalid : c.toNat < 0xd800 ∨ 0xdfff < c.toNat ∧ c.toNat < 0x110000 := c.valid
    obtain ⟨ds, heq, hscan⟩ := @scanEscape_dumpPair c (0xd800 + (c.toNat - 0x10000) / 0x400)
      (0xdc00 + (c.toNat - 0x10000) % 0x400) (by omega) (by omega) (by omega) cs
    rw [heq]
    exact scanString_escape hscan n

theorem dumpChar_ne_nil (c : Char) : dumpChar c ≠ [] := by
  rw [dumpChar]
  repeat' split
  all_goals simp [dumpUnit]

theorem scanString_flatMap (ds : List Char) {n : Nat} (hn : ds.length < n) (cs : List Char) :
    scanString n (ds.flatMap dumpChar ++ '"' :: cs) = some (ds, cs) := by
  induction ds generalizing n with
  | nil =>
    obtain ⟨m, rfl⟩ := Nat.exists_eq_add_of_lt hn
    rfl
  | cons d ds ih =>
    obtain ⟨m, rfl⟩ : ∃ m, n = m + 1 := ⟨n - 1, by omega⟩
    rw [List.flatMap_cons, List.append_assoc, scanString_dumpChar, ih (by rw [List.length_cons] at hn; omega)]
    rfl

theorem length_le_flatMap (ds : List Char) : ds.length ≤ (ds.flatMap dumpChar).length := by
  induction ds with
  | nil => exact Nat.le_refl 0
  | cons d ds ih =>
    have := List.length_pos_iff.mpr (dumpChar_ne_nil d)
    rw [List.flatMap_cons, List.length_append, List.length_cons]
    omega

/-- A string after its opening quote is read back. -/
theorem scanString_dumpString (s : String) (cs : List Char) :
    scanString (s.toList.flatMap dumpChar ++ '"' :: cs).length (s.toList.flatMap dumpChar ++ '"' :: cs) =
      some (s.toList, cs) := by
  refine scanString_flatMap s.toList ?_ cs
  have := length_le_flatMap s.toList
  rw [List.length_append, List.length_cons]
  omega

/-! ## Whole numbers -/

/-- The decimal digits of a number. -/
def decimal (n : Nat) : List Char :=
  if n < 10 then [hexDigitChar n] else decimal (n / 10) ++ [hexDigitChar (n % 10)]

def dumpInt : Int → List Char
  | .ofNat n => decimal n
  | .negSucc n => '-' :: decimal (n + 1)

theorem hexDigitChar_digit {n : Nat} (h : n < 10) :
    (hexDigitChar n).isDigit = true ∧ (hexDigitChar n).toNat - 48 = n ∧ (hexDigitChar n = '0' → n = 0) := by
  have all : ∀ n < 10, (hexDigitChar n).isDigit = true ∧ (hexDigitChar n).toNat - 48 = n ∧
      (hexDigitChar n = '0' → n = 0) := by decide
  exact all n h

theorem isDigit_decimal (n : Nat) : ∀ c ∈ decimal n, c.isDigit = true := by
  induction n using decimal.induct with
  | case1 n h =>
    rw [decimal, if_pos h]
    exact fun c hc => List.mem_singleton.mp hc ▸ (hexDigitChar_digit h).1
  | case2 n h ih =>
    rw [decimal, if_neg h]
    intro c hc
    rcases List.mem_append.mp hc with hc | hc
    · exact ih c hc
    · exact List.mem_singleton.mp hc ▸ (hexDigitChar_digit (Nat.mod_lt n (by decide))).1

theorem digitsValue_decimal (n : Nat) : digitsValue (decimal n) = n := by
  induction n using decimal.induct with
  | case1 n h =>
    rw [decimal, if_pos h]
    exact (Nat.zero_add _).trans (hexDigitChar_digit h).2.1
  | case2 n h ih =>
    rw [decimal, if_neg h]
    simp only [digitsValue, List.foldl_append, List.foldl_cons, List.foldl_nil] at ih ⊢
    rw [ih, (hexDigitChar_digit (Nat.mod_lt n (by decide))).2.1]
    omega

/-- Only zero begins with a zero. -/
theorem decimal_eq_cons (n : Nat) : ∃ d ds, decimal n = d :: ds ∧ (d = '0' → n = 0) := by
  induction n using decimal.induct with
  | case1 n h =>
    rw [decimal, if_pos h]
    exact ⟨_, [], rfl, (hexDigitChar_digit h).2.2⟩
  | case2 n h ih =>
    obtain ⟨d, ds, heq, hd⟩ := ih
    rw [decimal, if_neg h, heq]
    exact ⟨d, _, rfl, fun h₀ => by have := hd h₀; omega⟩

/-- What may follow a value. -/
def Ended (cs : List Char) : Prop := ∀ c ds, cs = c :: ds → c = ',' ∨ c = ']' ∨ c = '\x7d'

theorem Ended.nil : Ended [] := fun _ _ h => nomatch h

theorem Ended.cons {c : Char} (h : c = ',' ∨ c = ']' ∨ c = '\x7d') (cs : List Char) : Ended (c :: cs) :=
  fun _ _ he => (List.cons.inj he).1 ▸ h

variable {cs : List Char}

theorem scanDigits_decimal (n : Nat) (h : Ended cs) : scanDigits (decimal n ++ cs) = some (decimal n, cs) := by
  have hend : cs.takeWhile Char.isDigit = [] ∧ cs.dropWhile Char.isDigit = cs := by
    cases cs with
    | nil => exact ⟨rfl, rfl⟩
    | cons c ds => rcases h c ds rfl with rfl | rfl | rfl <;> exact ⟨rfl, rfl⟩
  obtain ⟨d, ds, heq, -⟩ := decimal_eq_cons n
  rw [scanDigits, List.takeWhile_append_of_pos (isDigit_decimal n), List.dropWhile_append_of_pos (isDigit_decimal n),
    hend.1, hend.2, List.append_nil, heq]

theorem scanWhole_decimal (n : Nat) (h : Ended cs) : scanWhole (decimal n ++ cs) = some (decimal n, cs) := by
  obtain ⟨d, ds, heq, hzero⟩ := decimal_eq_cons n
  by_cases hd : d = '0'
  · obtain rfl := hzero hd
    rw [show decimal 0 = ['0'] by rw [decimal, if_pos (by decide)]; rfl]
    rfl
  · have hscan := scanDigits_decimal n h
    rw [heq, List.cons_append] at hscan ⊢
    unfold scanWhole
    split
    · rename_i hcons
      exact absurd (List.cons.inj hcons).1 hd
    · exact hscan

theorem scanUnsigned_decimal (sign : Int) (n : Nat) (h : Ended cs) :
    scanUnsigned sign (decimal n ++ cs) = some (.num (sign * n) 0, cs) := by
  have hfraction : scanFraction cs = some ([], cs) := by
    cases cs with
    | nil => rfl
    | cons c ds => rcases h c ds rfl with rfl | rfl | rfl <;> rfl
  have hexponent : scanExponent cs = some (0, cs) := by
    cases cs with
    | nil => rfl
    | cons c ds => rcases h c ds rfl with rfl | rfl | rfl <;> rfl
  rw [scanUnsigned, scanWhole_decimal n h]
  simp only [Option.bind_eq_bind, Option.bind_some, hfraction, hexponent, List.append_nil, digitsValue_decimal]
  rfl

theorem ne_of_isDigit {c d : Char} (hc : c.isDigit = true) (hd : d.isDigit = false) : c ≠ d :=
  fun h => by simp [h, hd] at hc

/-- A number is read back as it was written. -/
theorem scanNumber_dumpInt (m : Int) (h : Ended cs) : scanNumber (dumpInt m ++ cs) = some (.num m 0, cs) := by
  cases m with
  | ofNat n =>
    obtain ⟨d, ds, heq, -⟩ := decimal_eq_cons n
    have hdigit := isDigit_decimal n d (heq ▸ List.mem_cons_self)
    have hscan := scanUnsigned_decimal 1 n h
    rw [Int.one_mul] at hscan
    show scanNumber (decimal n ++ cs) = _
    rw [heq, List.cons_append] at hscan ⊢
    unfold scanNumber
    split
    · rename_i hcons
      exact absurd (List.cons.inj hcons).1 (ne_of_isDigit hdigit (by decide))
    · exact hscan
  | negSucc n =>
    show scanUnsigned (-1) (decimal (n + 1) ++ cs) = _
    rw [scanUnsigned_decimal (-1) (n + 1) h, Int.negSucc_eq, Int.neg_one_mul]
    rfl

/-! ## Values -/

/-- All its numbers are whole. -/
inductive Whole : Value → Prop where
  | null : Whole .null
  | bool (b : Bool) : Whole (.bool b)
  | num (m : Int) : Whole (.num m 0)
  | str (s : String) : Whole (.str s)
  | arr {xs : List Value} (items : ∀ x ∈ xs, Whole x) : Whole (.arr xs)
  | obj {fields : List (String × Value)} (items : ∀ kv ∈ fields, Whole kv.2) : Whole (.obj fields)

mutual

/-- `json.dumps(v)`. -/
def dump : Value → List Char
  | .null => ['n', 'u', 'l', 'l']
  | .bool true => ['t', 'r', 'u', 'e']
  | .bool false => ['f', 'a', 'l', 's', 'e']
  | .num m _ => dumpInt m
  | .str s => dumpString s
  | .arr xs => '[' :: dumpElements xs ++ [']']
  | .obj fields => '\x7b' :: dumpMembers fields ++ ['\x7d']

def dumpElements : List Value → List Char
  | [] => []
  | [x] => dump x
  | x :: y :: xs => dump x ++ ',' :: ' ' :: dumpElements (y :: xs)

def dumpMembers : List (String × Value) → List Char
  | [] => []
  | [(name, x)] => dumpString name ++ ':' :: ' ' :: dump x
  | (name, x) :: kv :: fields => dumpString name ++ ':' :: ' ' :: dump x ++ ',' :: ' ' :: dumpMembers (kv :: fields)

end

theorem dumpInt_eq_cons (m : Int) : ∃ c ds, dumpInt m = c :: ds ∧ (c = '-' ∨ c.isDigit = true) := by
  cases m with
  | ofNat n =>
    obtain ⟨d, ds, heq, -⟩ := decimal_eq_cons n
    exact ⟨d, ds, heq, .inr (isDigit_decimal n d (heq ▸ List.mem_cons_self))⟩
  | negSucc n => exact ⟨_, _, rfl, .inl rfl⟩

/-- A value begins with neither a blank nor the end of an array. -/
theorem dump_eq_cons (v : Value) : ∃ c ds, dump v = c :: ds ∧ isWs c = false ∧ c ≠ ']' := by
  cases v with
  | num m e =>
    obtain ⟨c, ds, heq, hc⟩ := dumpInt_eq_cons m
    refine ⟨c, ds, by rw [dump, heq], ?_⟩
    rcases hc with rfl | hc
    · decide
    · refine ⟨?_, ne_of_isDigit hc (by decide)⟩
      simp only [isWs, ne_of_isDigit hc (show ' '.isDigit = false by decide),
        ne_of_isDigit hc (show '\t'.isDigit = false by decide),
          ne_of_isDigit hc (show '\n'.isDigit = false by decide),
        ne_of_isDigit hc (show '\r'.isDigit = false by decide), decide_false, Bool.or_self]
  | null => exact ⟨_, _, by rw [dump], by decide⟩
  | bool b => cases b <;> exact ⟨_, _, by rw [dump], by decide⟩
  | str s => exact ⟨_, _, by rw [dump]; rfl, by decide⟩
  | arr xs => exact ⟨_, _, by rw [dump]; rfl, by decide⟩
  | obj fields => exact ⟨_, _, by rw [dump]; rfl, by decide⟩

/-- The rule for a value that is read back, whatever follows it. -/
def ReadsBack (v : Value) : Prop :=
  ∀ n cs, (dump v).length ≤ n → Ended cs → scanValue (n + 1) (dump v ++ cs) = some (v, cs)

theorem readsBack_num (m : Int) : ReadsBack (.num m 0) := by
  intro n cs _ hcs
  obtain ⟨c, ds, heq, hc⟩ := dumpInt_eq_cons m
  have hscan := scanNumber_dumpInt m hcs
  have hne {d : Char} (hd : d.isDigit = false) (hminus : '-' ≠ d) : c ≠ d :=
    hc.elim (fun h => h ▸ hminus) fun h => ne_of_isDigit h hd
  rw [dump]
  rw [heq, List.cons_append] at hscan ⊢
  unfold scanValue
  split
  · rename_i h
    exact absurd (List.cons.inj h).1 (hne (by decide) (by decide))
  · rename_i h
    exact absurd (List.cons.inj h).1 (hne (by decide) (by decide))
  · rename_i h
    exact absurd (List.cons.inj h).1 (hne (by decide) (by decide))
  · have hword {d : Char} (hd : d.isDigit = false) (hminus : '-' ≠ d) (word : List Char) (v : Value) :
        scanWord (d :: word) v (c :: (ds ++ cs)) = none := by
      rw [scanWord, if_neg]
      simp [List.isPrefixOf, (hne hd hminus).symm]
    rw [hword (by decide) (by decide), hword (by decide) (by decide), hword (by decide) (by decide), hscan]
    rfl

theorem readsBack_str (s : String) : ReadsBack (.str s) := by
  intro n cs _ _
  rw [dump, dumpString, List.cons_append, List.cons_append, List.append_assoc, List.singleton_append, scanValue]
  simp only [scanString_dumpString, Option.map_some, String.ofList_toList]

theorem readsBack_word (n : Nat) (cs : List Char) :
    scanValue (n + 1) ('n' :: 'u' :: 'l' :: 'l' :: cs) = some (.null, cs) ∧
    scanValue (n + 1) ('t' :: 'r' :: 'u' :: 'e' :: cs) = some (.bool true, cs) ∧
    scanValue (n + 1) ('f' :: 'a' :: 'l' :: 's' :: 'e' :: cs) = some (.bool false, cs) := by
  refine ⟨?_, ?_, ?_⟩ <;> simp [scanValue, scanWord, List.isPrefixOf]

theorem skipWs_dump (v : Value) (cs : List Char) : skipWs (dump v ++ cs) = dump v ++ cs := by
  obtain ⟨c, ds, heq, hws, -⟩ := dump_eq_cons v
  rw [heq]
  exact skipWs_cons hws _

theorem dumpElements_eq_append (x : Value) (xs : List Value) : ∃ ds, dumpElements (x :: xs) = dump x ++ ds := by
  cases xs with
  | nil => exact ⟨[], by rw [dumpElements, List.append_nil]⟩
  | cons y xs => exact ⟨_, by rw [dumpElements]⟩

theorem scanElements_dump {xs : List Value} (hne : xs ≠ []) (h : ∀ x ∈ xs, ReadsBack x) {n : Nat}
    (hn : (dumpElements xs).length + 2 ≤ n) (cs : List Char) :
    scanElements n (dumpElements xs ++ ']' :: cs) = some (xs, cs) := by
  induction xs generalizing n with
  | nil => exact absurd rfl hne
  | cons x xs ih =>
    obtain ⟨m, rfl⟩ : ∃ m, n = m + 2 := ⟨n - 2, by omega⟩
    have hx := h x List.mem_cons_self
    cases xs with
    | nil =>
      rw [dumpElements] at hn ⊢
      rw [scanElements, hx m _ (by omega) (.cons (.inr (.inl rfl)) cs)]
      rfl
    | cons y xs =>
      rw [dumpElements, List.length_append, List.length_cons, List.length_cons] at hn
      have hrest := ih (List.cons_ne_nil _ _) (fun z hz => h z (List.mem_cons_of_mem _ hz)) (n := m + 1) (by omega)
      have hskip : skipWs (' ' :: (dumpElements (y :: xs) ++ ']' :: cs)) = dumpElements (y :: xs) ++ ']' :: cs := by
        obtain ⟨ds, heq⟩ := dumpElements_eq_append y xs
        rw [heq, List.append_assoc]
        exact skipWs_dump y _
      rw [dumpElements, List.append_assoc, List.cons_append, List.cons_append, scanElements,
        hx m _ (by omega) (.cons (.inl rfl) _)]
      show (scanElements (m + 1) (skipWs (' ' :: (dumpElements (y :: xs) ++ ']' :: cs)))).map _ = _
      rw [hskip, hrest]
      rfl

theorem dumpMembers_eq_cons (kv : String × Value) (fields : List (String × Value)) :
    ∃ ds, dumpMembers (kv :: fields) = '"' :: ds := by
  cases fields with
  | nil => exact ⟨_, by rw [dumpMembers]; rfl⟩
  | cons kv' fields => exact ⟨_, by rw [dumpMembers]; rfl⟩

/-- A member is read up to what follows it: another member, or the end of the object. -/
theorem scanMembers_dump (name : String) {x : Value} (hx : ReadsBack x) {n : Nat} (hn : (dump x).length ≤ n)
    (cs : List Char) :
    scanMembers (n + 2) (dumpString name ++ ':' :: ' ' :: dump x ++ ',' :: cs) =
      (scanMembers (n + 1) (skipWs cs)).map (fun r => ((name, x) :: r.1, r.2)) ∧
    scanMembers (n + 2) (dumpString name ++ ':' :: ' ' :: dump x ++ '\x7d' :: cs) = some ([(name, x)], cs) := by
  have hsplit (ds : List Char) : dumpString name ++ ':' :: ' ' :: dump x ++ ds =
      '"' :: (name.toList.flatMap dumpChar ++ '"' :: (':' :: ' ' :: (dump x ++ ds))) := by
    simp [dumpString]
  have hblank (ds : List Char) : skipWs (' ' :: (dump x ++ ds)) = dump x ++ ds := skipWs_dump x ds
  constructor
  · rw [hsplit, scanMembers]
    simp only [scanString_dumpString, skipWs_cons (show isWs ':' = false by decide), hblank,
      hx n _ hn (.cons (.inl rfl) cs), skipWs_cons (show isWs ',' = false by decide), String.ofList_toList,
      Option.bind_eq_bind, Option.bind_some]
  · rw [hsplit, scanMembers]
    simp only [scanString_dumpString, skipWs_cons (show isWs ':' = false by decide), hblank,
      hx n _ hn (.cons (.inr (.inr rfl)) cs), skipWs_cons (show isWs '\x7d' = false by decide), String.ofList_toList,
      Option.bind_eq_bind, Option.bind_some]

theorem scanMembers_dumpMembers {fields : List (String × Value)} (hne : fields ≠ [])
    (h : ∀ kv ∈ fields, ReadsBack kv.2)
    {n : Nat} (hn : (dumpMembers fields).length + 2 ≤ n) (cs : List Char) :
    scanMembers n (dumpMembers fields ++ '\x7d' :: cs) = some (fields, cs) := by
  induction fields generalizing n with
  | nil => exact absurd rfl hne
  | cons kv fields ih =>
    obtain ⟨m, rfl⟩ : ∃ m, n = m + 2 := ⟨n - 2, by omega⟩
    have hx := h kv List.mem_cons_self
    cases fields with
    | nil =>
      rw [dumpMembers] at hn ⊢
      exact (scanMembers_dump kv.1 hx (by simp at hn; omega) cs).2
    | cons kv' fields =>
      rw [dumpMembers] at hn
      simp only [List.length_append, List.length_cons] at hn
      have hrest := ih (List.cons_ne_nil _ _) (fun z hz => h z (List.mem_cons_of_mem _ hz)) (n := m + 1) (by omega)
      have hskip : skipWs (' ' :: (dumpMembers (kv' :: fields) ++ '\x7d' :: cs)) =
          dumpMembers (kv' :: fields) ++ '\x7d' :: cs := by
        obtain ⟨ds, heq⟩ := dumpMembers_eq_cons kv' fields
        rw [heq]
        rfl
      rw [dumpMembers, List.append_assoc, List.cons_append, List.cons_append,
        (scanMembers_dump kv.1 hx (by omega) _).1, hskip, hrest]
      rfl

/-- Every value is read back as it was written. -/
theorem Whole.readsBack {v : Value} (h : Whole v) : ReadsBack v := by
  induction h with
  | null => exact fun n cs _ _ => by rw [dump]; exact (readsBack_word n cs).1
  | bool b =>
    cases b with
    | true => exact fun n cs _ _ => by rw [dump]; exact (readsBack_word n cs).2.1
    | false => exact fun n cs _ _ => by rw [dump]; exact (readsBack_word n cs).2.2
  | num m => exact readsBack_num m
  | str s => exact readsBack_str s
  | @arr xs _ ih =>
    intro n cs hn _
    rw [dump, List.cons_append, List.cons_append, List.append_assoc, List.singleton_append]
    rw [dump] at hn
    simp only [List.cons_append, List.length_cons, List.length_append, List.length_nil] at hn
    cases xs with
    | nil => rfl
    | cons x xs =>
      obtain ⟨ds, hds⟩ := dumpElements_eq_append x xs
      obtain ⟨c, es, hes, hws, hc⟩ := dump_eq_cons x
      have hscan := scanElements_dump (List.cons_ne_nil x xs) ih (n := n) (by omega) cs
      rw [hds, hes, List.cons_append, List.cons_append] at hscan ⊢
      rw [scanValue, skipWs_cons hws]
      split
      · rename_i h
        exact absurd (List.cons.inj h).1 hc
      · rw [hscan]
        rfl
  | @obj fields _ ih =>
    intro n cs hn _
    rw [dump, List.cons_append, List.cons_append, List.append_assoc, List.singleton_append]
    rw [dump] at hn
    simp only [List.cons_append, List.length_cons, List.length_append, List.length_nil] at hn
    cases fields with
    | nil => rfl
    | cons kv fields =>
      obtain ⟨ds, hds⟩ := dumpMembers_eq_cons kv fields
      have hscan := scanMembers_dumpMembers (List.cons_ne_nil kv fields) ih (n := n) (by omega) cs
      rw [hds, List.cons_append] at hscan ⊢
      exact scanValue_object hscan

/-! ## Texts -/

def dumps (v : Value) : String := String.ofList (dump v)

/-- What was written is read back. -/
theorem decode_dumps {v : Value} (h : Whole v) : decode (dumps v) = some v := by
  have hscan := h.readsBack (dump v).length [] (Nat.le_refl _) .nil
  have hskip := skipWs_dump v []
  rw [List.append_nil] at hscan hskip
  rw [decode, dumps, chars_eq, String.toList_ofList, hskip, hscan]
  rfl

/-! ## ASCII -/

/-- The text is ASCII. -/
def Ascii (cs : List Char) : Prop := ∀ c ∈ cs, c.toNat < 128

theorem Ascii.append {cs ds : List Char} (h : Ascii cs) (h' : Ascii ds) : Ascii (cs ++ ds) :=
  fun c hc => (List.mem_append.mp hc).elim (h c) (h' c)

theorem Ascii.cons {c : Char} {cs : List Char} (hc : c.toNat < 128) (h : Ascii cs) : Ascii (c :: cs) :=
  List.forall_mem_cons.mpr ⟨hc, h⟩

theorem Ascii.ite {p : Prop} [Decidable p] {cs ds : List Char} (h : p → Ascii cs) (h' : Ascii ds) :
    Ascii (if p then cs else ds) := by
  by_cases hp : p
  · rw [if_pos hp]
    exact h hp
  · rw [if_neg hp]
    exact h'

theorem dumpUnit_ascii (n : Nat) : Ascii (dumpUnit n) := by
  have hdigit (n : Nat) : (hexDigitChar (n % 16)).toNat < 128 := by
    have all : ∀ n < 16, (hexDigitChar n).toNat < 128 := by decide
    exact all _ (Nat.mod_lt n (by decide))
  exact .cons (by decide) <| .cons (by decide) <| .cons (hdigit _) <| .cons (hdigit _) <| .cons (hdigit _) <|
    .cons (hdigit _) fun _ h => nomatch h

/-- A backslash and a letter. -/
theorem Ascii.letter {c : Char} (h : c.toNat < 128) : Ascii ['\\', c] :=
    .cons (by decide) (.cons h fun _ h => nomatch h)

theorem dumpChar_ascii (c : Char) : Ascii (dumpChar c) := by
  have hunits : Ascii (if c.toNat < 0x10000 then dumpUnit c.toNat
      else dumpUnit (0xd800 + (c.toNat - 0x10000) / 0x400) ++ dumpUnit (0xdc00 + (c.toNat - 0x10000) % 0x400)) :=
    .ite (fun _ => dumpUnit_ascii _) ((dumpUnit_ascii _).append (dumpUnit_ascii _))
  have hprint (h : 32 ≤ c.toNat ∧ c.toNat < 127) : Ascii [c] := .cons (by omega) fun _ h => nomatch h
  rw [dumpChar]
  exact .ite (fun _ => .letter (by decide)) <| .ite (fun _ => .letter (by decide)) <|
    .ite (fun _ => .letter (by decide)) <| .ite (fun _ => .letter (by decide)) <|
      .ite (fun _ => .letter (by decide)) <| .ite (fun _ => .letter (by decide)) <|
        .ite (fun _ => .letter (by decide)) (.ite hprint hunits)

theorem dumpString_ascii (s : String) : Ascii (dumpString s) := by
  refine .cons (by decide) (.append (fun c hc => ?_) (.cons (by decide) (by simp [Ascii])))
  obtain ⟨d, -, hd⟩ := List.mem_flatMap.mp hc
  exact dumpChar_ascii d c hd

theorem dumpInt_ascii (m : Int) : Ascii (dumpInt m) := by
  have hdecimal (n : Nat) : Ascii (decimal n) := by
    intro c hc
    have hdigit := isDigit_decimal n c hc
    simp only [Char.isDigit, Bool.and_eq_true, decide_eq_true_eq] at hdigit
    exact Nat.lt_of_le_of_lt hdigit.2 (by decide)
  cases m with
  | ofNat n => exact hdecimal n
  | negSucc n => exact .cons (by decide) (hdecimal _)

theorem dumpElements_ascii {xs : List Value} (h : ∀ x ∈ xs, Ascii (dump x)) : Ascii (dumpElements xs) := by
  induction xs with
  | nil => exact fun c hc => nomatch hc
  | cons x xs ih =>
    have hx := h x List.mem_cons_self
    cases xs with
    | nil =>
      rw [dumpElements]
      exact hx
    | cons y xs =>
      rw [dumpElements]
      exact hx.append (.cons (by decide) (.cons (by decide) (ih fun z hz => h z (List.mem_cons_of_mem _ hz))))

theorem dumpMembers_ascii {fields : List (String × Value)} (h : ∀ kv ∈ fields, Ascii (dump kv.2)) :
    Ascii (dumpMembers fields) := by
  induction fields with
  | nil => exact fun c hc => nomatch hc
  | cons kv fields ih =>
    have hx : Ascii (dumpString kv.1 ++ ':' :: ' ' :: dump kv.2) :=
      (dumpString_ascii kv.1).append (.cons (by decide) (.cons (by decide) (h kv List.mem_cons_self)))
    cases fields with
    | nil =>
      rw [dumpMembers]
      exact hx
    | cons kv' fields =>
      rw [dumpMembers]
      exact hx.append (.cons (by decide) (.cons (by decide) (ih fun z hz => h z (List.mem_cons_of_mem _ hz))))

/-- What is written is ASCII. -/
theorem Whole.ascii {v : Value} (h : Whole v) : Ascii (dumps v).toList := by
  rw [dumps, String.toList_ofList]
  induction h with
  | null => rw [dump]; simp [Ascii]
  | bool b => cases b <;> rw [dump] <;> simp [Ascii]
  | num m => rw [dump]; exact dumpInt_ascii m
  | str s => rw [dump]; exact dumpString_ascii s
  | arr items ih =>
    rw [dump]
    exact .append (.cons (by decide) (dumpElements_ascii ih)) (.cons (by decide) fun c hc => nomatch hc)
  | obj items ih =>
    rw [dump]
    exact .append (.cons (by decide) (dumpMembers_ascii ih)) (.cons (by decide) fun c hc => nomatch hc)

example : dump (.obj [("a", .arr [.num (-10) 0, .bool true]), ("é😀\n", .str "\"")]) =
    "\x7b\"a\": [-10, true], \"\\u00e9\\ud83d\\ude00\\n\": \"\\\"\"\x7d".toList := by
  decide +kernel

end CM.JsonText
