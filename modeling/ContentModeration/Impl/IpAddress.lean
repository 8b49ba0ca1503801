import ContentModeration.Impl.Text

/-!
# Python's `ipaddress`

The addresses of version 4 and 6, the networks that `is_private` and its siblings
go by, and `ipAddress`, which reads an address.
-/

namespace CM

/-- An `ipaddress.IPv4Address` or `ipaddress.IPv6Address`. -/
inductive Address where
  | v4 (ip : BitVec 32)
  | v6 (ip : BitVec 128)
  deriving DecidableEq

/-- An address and the length of its prefix, as in `10.0.0.0/8`. -/
abbrev Network (w : Nat) := BitVec w × Nat

def inNetwork {w : Nat} (ip : BitVec w) (net : Network w) : Bool :=
  ip >>> (w - net.2) == net.1 >>> (w - net.2)

def inAny {w : Nat} (nets : List (Network w)) (ip : BitVec w) : Bool := nets.any (inNetwork ip)

/-- `a.b.c.d`. -/
def ipv4 (a b c d : BitVec 8) : BitVec 32 := a ++ b ++ c ++ d

namespace IPv4

def privateNetworks : List (Network 32) :=
  [(ipv4 0 0 0 0, 8), (ipv4 10 0 0 0, 8), (ipv4 127 0 0 0, 8), (ipv4 169 254 0 0, 16), (ipv4 172 16 0 0, 12),
    (ipv4 192 0 0 0, 24), (ipv4 192 0 0 170, 31), (ipv4 192 0 2 0, 24), (ipv4 192 168 0 0, 16),
    (ipv4 198 18 0 0, 15), (ipv4 198 51 100 0, 24), (ipv4 203 0 113 0, 24), (ipv4 240 0 0 0, 4),
    (ipv4 255 255 255 255, 32)]

def privateNetworksExceptions : List (Network 32) := [(ipv4 192 0 0 9, 32), (ipv4 192 0 0 10, 32)]

def isPrivate (ip : BitVec 32) : Bool := inAny privateNetworks ip && !inAny privateNetworksExceptions ip

def isLoopback (ip : BitVec 32) : Bool := inNetwork ip (ipv4 127 0 0 0, 8)

def isLinkLocal (ip : BitVec 32) : Bool := inNetwork ip (ipv4 169 254 0 0, 16)

def isMulticast (ip : BitVec 32) : Bool := inNetwork ip (ipv4 224 0 0 0, 4)

def isReserved (ip : BitVec 32) : Bool := inNetwork ip (ipv4 240 0 0 0, 4)

def isUnspecified (ip : BitVec 32) : Bool := ip == 0

end IPv4

namespace IPv6

/-- The network whose first hextets are given. -/
def net (hextets : List (BitVec 16)) (len : Nat) : Network 128 :=
  (BitVec.ofNat 128 ((hextets.foldl (fun n h => n * 65536 + h.toNat) 0) * 65536 ^ (8 - hextets.length)), len)

def privateNetworks : List (Network 128) :=
  [(1, 128), (0, 128), net [0, 0, 0, 0, 0, 0xffff] 96, net [0x64, 0xff9b, 1] 48, net [0x100] 64, net [0x2001] 23,
    net [0x2001, 0xdb8] 32, net [0x2002] 16, net [0xfc00] 7, net [0xfe80] 10]

def privateNetworksExceptions : List (Network 128) :=
  [net [0x2001, 1, 0, 0, 0, 0, 0, 1] 128, net [0x2001, 1, 0, 0, 0, 0, 0, 2] 128, net [0x2001, 3] 32,
    net [0x2001, 4, 0x112] 48, net [0x2001, 0x20] 28, net [0x2001, 0x30] 28]

def reservedNetworks : List (Network 128) :=
  [net [] 8, net [0x100] 8, net [0x200] 7, net [0x400] 6, net [0x800] 5, net [0x1000] 4, net [0x4000] 3,
    net [0x6000] 3, net [0x8000] 3, net [0xa000] 3, net [0xc000] 3, net [0xe000] 4, net [0xf000] 5,
    net [0xf800] 6, net [0xfe00] 9]

/-- The IPv4 address in `::ffff:a.b.c.d`. -/
def ipv4Mapped (ip : BitVec 128) : Option (BitVec 32) :=
  if ip >>> 32 = 0xffff then some (ip.setWidth 32) else none

def isPrivate (ip : BitVec 128) : Bool :=
  match ipv4Mapped ip with
  | some ip4 => IPv4.isPrivate ip4
  | none => inAny privateNetworks ip && !inAny privateNetworksExceptions ip

def isLoopback (ip : BitVec 128) : Bool := ip == 1

def isLinkLocal (ip : BitVec 128) : Bool := inNetwork ip (net [0xfe80] 10)

def isMulticast (ip : BitVec 128) : Bool := inNetwork ip (net [0xff00] 8)

def isReserved (ip : BitVec 128) : Bool := inAny reservedNetworks ip

def isUnspecified (ip : BitVec 128) : Bool := ip == 0

end IPv6

/-! ## Reading an address -/

/-- The digits of a number in base 10, which are ASCII. -/
def decimal (cs : List Char) : Option Nat :=
  if cs ≠ [] ∧ cs.all Char.isDigit then some (cs.foldl (fun n c => 10 * n + (c.toNat - 48)) 0) else none

def parseOctet (cs : List Char) : Option Nat :=
  if 3 < cs.length ∨ (cs ≠ ['0'] ∧ cs.head? = some '0') then none
  else (decimal cs).filter (· ≤ 255)

def parseIpv4 (cs : List Char) : Option Nat :=
  match (cs.splitOn '.').mapM parseOctet with
  | some [a, b, c, d] => some (((a * 256 + b) * 256 + c) * 256 + d)
  | _ => none

def parseHextet (cs : List Char) : Option Nat :=
  if cs = [] ∨ 4 < cs.length then none else hexNumber cs

/-- The last part of an IPv6 address may be an IPv4 address, which is two parts. -/
def ipv6Parts (cs : List Char) : Option (List (List Char)) :=
  let parts := cs.splitOn ':'
  let last := parts.getLastD []
  if parts.length < 3 then none
  else if '.' ∈ last then
    (parseIpv4 last).map fun n => parts.dropLast ++ [hexDigits 4 (n / 65536), hexDigits 4 (n % 65536)]
  else some parts

def hextets (parts : List (List Char)) : Option Nat :=
  (parts.mapM parseHextet).map fun hs => hs.foldl (fun n h => 65536 * n + h) 0

/-- The parts before and after a `::`, whose own end may be the end of the address. -/
def aroundSkip (parts : List (List Char)) (skip : Nat) : Option (List (List Char) × List (List Char)) :=
  let hi := parts.take skip
  let lo := parts.drop (skip + 1)
  if (hi.head? = some [] ∧ hi.length ≠ 1) ∨ (lo.getLast? = some [] ∧ lo.length ≠ 1) then none
  else some (if hi.head? = some [] then [] else hi, if lo.getLast? = some [] then [] else lo)

def parseIpv6 (cs : List Char) : Option Nat := do
  let parts ← ipv6Parts cs
  if 9 < parts.length then none
  else
    let inner := (parts.drop 1).dropLast
    match inner.findIdx? (· = []) with
    | some i =>
      if 1 < inner.count [] then none
      else
        let (hi, lo) ← aroundSkip parts (i + 1)
        if 7 < hi.length + lo.length then none
        else
          let h ← hextets hi
          let l ← hextets lo
          some (h * 65536 ^ (8 - hi.length) + l)
    | none => if parts.length = 8 then hextets parts else none

/-- The address before a `%` and a scope. -/
def splitScope (cs : List Char) : Option (List Char) :=
  let scope := (cs.dropWhile (· ≠ '%')).drop 1
  if '%' ∉ cs then some cs
  else if scope = [] ∨ '%' ∈ scope then none
  else some (cs.takeWhile (· ≠ '%'))

/-- `ipaddress.ip_address(s)`. -/
def ipAddress (s : String) : Option Address :=
  let cs := s.toList
  if '/' ∈ cs then none
  else match parseIpv4 cs with
    | some n => some (.v4 (BitVec.ofNat 32 n))
    | none => ((splitScope cs).bind parseIpv6).map fun n => .v6 (BitVec.ofNat 128 n)

end CM
