import Mathlib.Algebra.Group.Nat.Defs
import Ferm.Lib.IntLiteral

/-!
# Addresses and networks

`ip_address` and `ip_network(…, strict=False)` as the standard library documents them, on text: four decimal octets without
leading zeros, eight hextets with at most one `::`, a dotted tail, a scope, and a prefix that is a length, a netmask or (for the
older version) a hostmask. An address is its version and its number; a network is masked to its prefix.
-/

namespace Ferm

/-- The version of an address. -/
inductive IpVersion where
  | v4
  | v6
  deriving DecidableEq, Repr

namespace IpVersion

/-- The number the standard library gives the version. -/
def number : IpVersion → Nat
  | v4 => 4
  | v6 => 6

/-- `max_prefixlen`: the number of bits of an address. -/
def maxPrefixlen : IpVersion → Nat
  | v4 => 32
  | v6 => 128

end IpVersion

/-- A host address. -/
structure IpAddress where
  version : IpVersion
  ip : Nat
  deriving DecidableEq, Repr

/-- A network: its first address has no bit set behind the prefix. -/
structure IpNetwork where
  version : IpVersion
  networkAddress : Nat
  prefixlen : Nat
  prefixlen_le : prefixlen ≤ version.maxPrefixlen
  aligned : 2 ^ (version.maxPrefixlen - prefixlen) ∣ networkAddress
  deriving DecidableEq

namespace IpNetwork

/-- The number of addresses of a network. -/
def numAddresses (n : IpNetwork) : Nat := 2 ^ (n.version.maxPrefixlen - n.prefixlen)

/-- The network of a prefix length around a host: the bits behind the prefix are masked off. -/
def ofHost (version : IpVersion) (ip prefixlen : Nat) : Option IpNetwork :=
  if h : prefixlen ≤ version.maxPrefixlen then
    some
      { version, prefixlen
        networkAddress := ip / 2 ^ (version.maxPrefixlen - prefixlen) * 2 ^ (version.maxPrefixlen - prefixlen)
        prefixlen_le := h
        aligned := Nat.dvd_mul_left _ _ }
  else none

end IpNetwork

/-! ## Addresses -/

/-- `_parse_octet`: at most three digits, no leading zero, at most 255. -/
def parseOctet (octet : List Char) : Option Nat :=
  if !isAsciiUint octet || 3 < octet.length || (octet ≠ ['0'] && octet.head? = some '0') || 255 < uintValue 10 octet then none
  else some (uintValue 10 octet)

/-- The number of a dotted quad. -/
def ipv4FromString (text : List Char) : Option Nat := do
  let octets := text.splitOn '.'
  if octets.length ≠ 4 then none
  let values ← octets.mapM parseOctet
  pure (values.foldl (fun n o => 256 * n + o) 0)

/-- `_parse_hextet`: one to four hexadecimal digits. -/
def parseHextet (hextet : List Char) : Option Nat :=
  if hextet.isEmpty || !hextet.all isHexDigit || 4 < hextet.length then none else some (uintValue 16 hextet)

/-- The hextets of a list of parts, as one number. -/
def hextetsValue (parts : List (List Char)) : Option Nat := do
  let values ← parts.mapM parseHextet
  pure (values.foldl (fun n h => 65536 * n + h) 0)

/-- The parts of an address between its colons, and the value of a dotted tail: the tail is put back as two zero hextets. -/
def ipv6Parts (text : List Char) : Option (List (List Char) × Nat) :=
  let parts := text.splitOn ':'
  if parts.length < 3 then none
  else
    match parts.getLast? with
    | none => none
    | some last =>
      if '.' ∈ last then (ipv4FromString last).map fun tail => (parts.dropLast ++ [['0'], ['0']], tail)
      else some (parts, 0)

/-- The positions of the empty parts that are neither first nor last. -/
def skipIndices (parts : List (List Char)) : List Nat :=
  (List.range parts.length).filter fun i => 0 < i && i + 1 < parts.length && parts[i]? = some []

/-- The number of an IPv6 address without scope. -/
def ipv6FromString (text : List Char) : Option Nat := do
  let (parts, tail) ← ipv6Parts text
  if 9 < parts.length then none
  match skipIndices parts with
  | [] =>
    if parts.length ≠ 8 then none
    let value ← hextetsValue parts
    pure (value + tail)
  | [skip] =>
    let hi := parts.take skip
    let lo := parts.drop (skip + 1)
    -- an empty first or last part is only allowed as the edge of the `::`
    let leading := hi = [] ∨ hi.head? = some []
    let trailing := lo = [] ∨ lo.getLast? = some []
    if (leading ∧ 1 < hi.length) ∨ (trailing ∧ 1 < lo.length) then none
    let hi := if leading then [] else hi
    let lo := if trailing then [] else lo
    if 8 < hi.length + lo.length + 1 then none
    let high ← hextetsValue hi
    let low ← hextetsValue lo
    pure (high * 65536 ^ (8 - hi.length) + low + tail)
  | _ => none

/-- `_split_scope_id`: the address before an optional, non-empty scope. -/
def splitScopeId (text : List Char) : Option (List Char) :=
  match partitionAt '%' text with
  | none => some text
  | some (addr, scope) => if scope.isEmpty || '%' ∈ scope then none else some addr

/-- `IPv4Address(text)`. -/
def ipv4Address (text : List Char) : Option IpAddress :=
  (ipv4FromString text).map (⟨.v4, ·⟩)

/-- `IPv6Address(text)`. -/
def ipv6Address (text : List Char) : Option IpAddress := do
  let addr ← splitScopeId text
  let ip ← ipv6FromString addr
  pure ⟨.v6, ip⟩

/-- `ip_address(text)`: the older version is tried first; neither reads a prefix. -/
def ipAddress (text : List Char) : Option IpAddress :=
  if '/' ∈ text then none else ipv4Address text <|> ipv6Address text

/-! ## Networks -/

/-- `_prefix_from_prefix_string`: a number that is too long to be read is not a prefix. -/
def prefixFromPrefixString (version : IpVersion) (text : List Char) : Option Nat :=
  if isAsciiUint text && text.length ≤ INT_MAX_STR_DIGITS && uintValue 10 text ≤ version.maxPrefixlen then
    some (uintValue 10 text)
  else none

/-- `_prefix_from_ip_int`: the length of a mask that is a run of ones before a run of zeros. -/
def prefixFromIpInt (mask : Nat) : Option Nat :=
  (List.range 33).find? fun p => mask == 2 ^ 32 - 2 ^ (32 - p)

/-- `_prefix_from_ip_string`: a netmask, or a hostmask. -/
def prefixFromIpString (text : List Char) : Option Nat := do
  let mask ← ipv4FromString text
  prefixFromIpInt mask <|> prefixFromIpInt (2 ^ 32 - 1 - mask)

/-- `_make_netmask`: the prefix length of the text behind the slash, the whole address without one. -/
def makeNetmask (version : IpVersion) : Option (List Char) → Option Nat
  | none => some version.maxPrefixlen
  | some text =>
    match version with
    | .v4 => prefixFromPrefixString .v4 text <|> prefixFromIpString text
    | .v6 => prefixFromPrefixString .v6 text

/-- `_split_optional_netmask`: at most one slash. -/
def splitOptionalNetmask (text : List Char) : Option (List Char × Option (List Char)) :=
  match text.splitOn '/' with
  | [addr] => some (addr, none)
  | [addr, mask] => some (addr, some mask)
  | _ => none

/-- `IPv4Network(text, strict=False)` or `IPv6Network(text, strict=False)`. -/
def ipNetworkOf (version : IpVersion) (text : List Char) : Option IpNetwork := do
  let (addr, mask) ← splitOptionalNetmask text
  let address ← match version with
    | .v4 => ipv4Address addr
    | .v6 => ipv6Address addr
  let prefixlen ← makeNetmask version mask
  IpNetwork.ofHost version address.ip prefixlen

/-- `ip_network(text, strict=False)`. -/
def ipNetwork (text : List Char) : Option IpNetwork :=
  ipNetworkOf .v4 text <|> ipNetworkOf .v6 text

example : (ipAddress "::ffff:10.0.0.1".toList).map IpAddress.ip = some 281470849515521 := by decide

example : (ipNetwork "10.1.2.3/255.0.0.0".toList).map IpNetwork.prefixlen = some 8 := by decide

end Ferm
