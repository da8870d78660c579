import Psrp.Lib.Radix

/-!
# Host Names in Canonical Form

The name a host is looked up under in `known_hosts`: a numeric address the way
the resolver reads it, any other host in lower case.

A host can be numeric in two ways. `std` reads the strict dotted form of an
IPv4 address and the forms of an IPv6 address; `parse_inet_aton` reads what
`inet_aton(3)` takes besides, one to four numbers in three radices whose last
fills every byte the others leave. The IPv6 half of `std` is a parameter here.

## Main definitions

* `octet`, `parseIpv4`, `Ipv4Addr.toText`: IPv4 addresses as `std` has them.
* `IpPlatform`, `IpPlatform.Lawful`: IPv6 addresses as `std` has them.
* `IpPlatform.basic`: A concrete platform.
* `splitRadix`, `inetPart`, `inetParts`, `parseInetAton`: The forms of `inet_aton(3)`.
* `canonicalHost`, `knownHostsLookupName`: The name to look up.
-/

namespace Psrp

/-- `Ipv4Addr`, as its `to_bits`. -/
abbrev Ipv4Addr := UInt32

/-- `Ipv6Addr`, as its `segments`. -/
abbrev Ipv6Addr := Vector UInt16 8

/-- `Ipv4Addr::octets`. -/
def Ipv4Addr.octets (ip : Ipv4Addr) : List Nat :=
  [ip.toNat / 2 ^ 24 % 256, ip.toNat / 2 ^ 16 % 256, ip.toNat / 2 ^ 8 % 256, ip.toNat % 256]

/-- The `Display` text of an `Ipv4Addr`. -/
def Ipv4Addr.toText (ip : Ipv4Addr) : Text :=
  List.intercalate ['.'] (ip.octets.map (Nat.toDigits 10))

/-- A number of a dotted address the way `std` reads it: up to three decimal
    digits with no leading zero, for a value of one byte. -/
def octet (part : Text) : Option Nat :=
  if part = [] ∨ 3 < part.length ∨ part.head? = some '0' ∧ 1 < part.length then none
  else Radix.accumulate 10 256 0 part

/-- `str::parse::<Ipv4Addr>`. -/
def parseIpv4 (s : Text) : Option Ipv4Addr :=
  match (List.splitOn '.' s).mapM octet with
  | some [a, b, c, d] => some (UInt32.ofNat (((a * 256 + b) * 256 + c) * 256 + d))
  | _ => none

/-- `IpAddr`. -/
inductive IpAddr where
  | v4 (ip : Ipv4Addr)
  | v6 (ip : Ipv6Addr)
  deriving DecidableEq

/-- IPv6 addresses the way `std` reads and prints them. -/
structure IpPlatform where
  /-- `str::parse::<Ipv6Addr>`. -/
  parseIpv6 : Text → Option Ipv6Addr
  /-- The `Display` text of an `Ipv6Addr`. -/
  printIpv6 : Ipv6Addr → Text

namespace IpPlatform

/-- What `std` documents of these: an address is read from its own text, hex
    digits in either case, and from no text without a colon or with a bracket. -/
structure Lawful (p : IpPlatform) : Prop where
  parse_print : ∀ ip, p.parseIpv6 (p.printIpv6 ip) = some ip
  parse_lower : ∀ s : Text, p.parseIpv6 (s.map Char.toLower) = p.parseIpv6 s
  parse_chars : ∀ s ip, p.parseIpv6 s = some ip → ':' ∈ s ∧ '[' ∉ s

/-- `str::parse::<IpAddr>`. -/
def parseIp (p : IpPlatform) (s : Text) : Option IpAddr :=
  match parseIpv4 s with
  | some ip => some (.v4 ip)
  | none => (p.parseIpv6 s).map .v6

/-- The `Display` text of an `IpAddr`. -/
def printIp (p : IpPlatform) : IpAddr → Text
  | .v4 ip => ip.toText
  | .v6 ip => p.printIpv6 ip

/-- A group of an IPv6 address: up to four hexadecimal digits. -/
def readGroup (part : Text) : Option UInt16 :=
  if part = [] ∨ 4 < part.length then none
  else (Radix.accumulate 16 (2 ^ 16) 0 part).map UInt16.ofNat

/-- A concrete platform, whose addresses are written with all eight groups. -/
def basic : IpPlatform where
  parseIpv6 s :=
    match (List.splitOn ':' s).mapM readGroup with
    | some groups => if h : groups.length = 8 then some ⟨groups.toArray, h⟩ else none
    | none => none
  printIpv6 ip := List.intercalate [':'] (ip.toList.map fun group => Nat.toDigits 16 group.toNat)

end IpPlatform

/-- `u32::from_str_radix`. -/
def u32FromStrRadix (src : Text) (radix : Nat) : Option UInt32 :=
  match src with
  | [] => none
  | ['+'] => none
  | '+' :: digits => (Radix.accumulate radix (2 ^ 32) 0 digits).map UInt32.ofNat
  | digits => (Radix.accumulate radix (2 ^ 32) 0 digits).map UInt32.ofNat

/-- `u32::checked_shr`. -/
def checkedShr (n shift : UInt32) : Option UInt32 := if shift < 32 then some (n >>> shift) else none

/-- The digits of a number and its radix. -/
def splitRadix (part : Text) : Text × Nat :=
  match part with
  | '0' :: 'x' :: hex => (hex, 16)
  | '0' :: 'X' :: hex => (hex, 16)
  | '0' :: octal => if 1 < Text.utf8Len part then (octal, 8) else (part, 10)
  | _ => (part, 10)

/-- One number of `parse_inet_aton`. -/
def inetPart (part : Text) : Option UInt32 :=
  let (digits, radix) := splitRadix part
  -- `from_str_radix` would also take a sign.
  if digits.isEmpty || !digits.all (fun c => (Radix.digit radix c).isSome) then none
  else u32FromStrRadix digits radix

/-- The loop of `parse_inet_aton`. -/
def inetParts : List Text → List UInt32 → Option (List UInt32)
  | [], parts => some parts
  | part :: rest, parts =>
    match inetPart part with
    | none => none
    | some n => if 4 < (parts ++ [n]).length then none else inetParts rest (parts ++ [n])

/-- Bits left for the last number. -/
def freeBits (leading : List UInt32) : Option UInt32 :=
  match leading.length with
  | 0 => some 32
  | 1 => some 24
  | 2 => some 16
  | 3 => some 8
  | _ => none

/-- The leading numbers at their places. -/
def highBits (leading : List UInt32) : UInt32 :=
  (leading.zip [24, 16, 8]).foldl (fun acc (p, shift) => acc ||| (p <<< shift)) 0

/-- `parse_inet_aton`: the IPv4 forms `inet_aton(3)` accepts. -/
def parseInetAton (s : Text) : Option Ipv4Addr := do
  let parts ← inetParts (List.splitOn '.' s) []
  let last ← parts.getLast?
  let leading := parts.dropLast
  if leading.any (0xff < ·) then none
  let free ← freeBits leading
  if free < 32 then
    let rest ← checkedShr last free
    if rest ≠ 0 then none
  some (highBits leading ||| last)

/-- A host without the brackets around it. -/
def unbracketed (host : Text) : Text :=
  match host with
  | '[' :: h => if h.getLast? = some ']' then h.dropLast else host
  | _ => host

/-- `canonical_host`: a numeric address in its canonical form, any other host
    in lower case. -/
def canonicalHost (p : IpPlatform) (host : Text) : Text :=
  match p.parseIp (unbracketed host) with
  | some ip => p.printIp ip
  | none =>
    match parseInetAton host with
    | some ip => ip.toText
    | none => host.map Char.toLower

/-- `known_hosts_lookup_name`: the host for port 22, `[host]:port` for any
    other port. -/
def knownHostsLookupName (p : IpPlatform) (host : Text) (port : UInt16) : Text :=
  if port = 22 then canonicalHost p host
  else '[' :: canonicalHost p host ++ "]:".toList ++ Nat.toDigits 10 port.toNat

end Psrp
