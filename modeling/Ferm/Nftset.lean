import Ferm.Ipaddress
import Mathlib.Data.List.Sort

/-!
# Set elements

The one ranking of set elements and the canonical order it gives: the emitter of anonymous sets and verdict maps and both sides
of the plan sort by it. The order is that of numbers of any length; the sort itself raises where one is too long to be read.
-/

namespace Ferm

/-- nft's L4 protocol keywords with their numbers. -/
def NFT_L4PROTO_NUMBER : List (String × Nat) :=
  [("ip", 0), ("icmp", 1), ("igmp", 2), ("ipencap", 4), ("tcp", 6), ("egp", 8), ("udp", 17), ("dccp", 33), ("ipv6", 41),
    ("ipv6-route", 43), ("ipv6-frag", 44), ("rsvp", 46), ("gre", 47), ("esp", 50), ("ah", 51), ("ipv6-icmp", 58),
    ("ipv6-nonxt", 59), ("ipv6-opts", 60), ("ospf", 89), ("mtp", 92), ("ipip", 94), ("pim", 103), ("ipcomp", 108),
    ("carp", 112), ("l2tp", 115), ("sctp", 132), ("mobility-header", 135), ("udplite", 136), ("mpls-in-ip", 137)]

/-- What an element is, with its natural key. -/
inductive ElementClass where
  | number (n : Nat)
  | interval (low high : Nat)
  | addressInterval (version : IpVersion) (low high : Nat)
  | address (net : IpNetwork)
  | protoname (n : Nat)
  | quoted
  | unparsable
  deriving DecidableEq

/-- A matching pair of quotes around a text. -/
def isQuotedString (element : List Char) : Bool :=
  match element with
  | q :: rest => (q = '"' || q = '\'') && rest.getLast? = some q
  | [] => false

/-- `_classify_address_range`: both ends are hosts of one version. -/
def classifyAddressRange (low high : List Char) : Option ElementClass := do
  let lo ← ipAddress low
  let hi ← ipAddress high
  if lo.version = hi.version then some (.addressInterval lo.version lo.ip hi.ip) else none

/-- The interval that a dashed token is. -/
def rangeClass (element : List Char) : Option ElementClass := do
  let (low, high) ← partitionAt '-' element
  if isAsciiUint low && isAsciiUint high then some (.interval (uintValue 10 low) (uintValue 10 high))
  else classifyAddressRange low high

/-- The class of an element, with numbers of any length. -/
def elementClass (element : String) : ElementClass :=
  let text := element.toList
  if isAsciiUint text then .number (uintValue 10 text)
  else
    match rangeClass text with
    | some range => range
    | none =>
      match ipNetwork text with
      | some net => .address net
      | none =>
        match NFT_L4PROTO_NUMBER.lookup element with
        | some n => .protoname n
        | none => if isQuotedString text then .quoted else .unparsable

namespace ElementClass

/-- `RANK_NUMBER` … `RANK_UNPARSABLE`. -/
def rank : ElementClass → Nat
  | number _ => 0
  | interval _ _ => 1
  | addressInterval _ _ _ => 1
  | address _ => 2
  | protoname _ => 3
  | quoted => 4
  | unparsable => 5

/-- The numbers of the natural key; a quoted string is ordered by its text alone. -/
def natural : ElementClass → List Nat
  | number n => [n]
  | interval low high => [low, high]
  | addressInterval version low high => [version.number, low, high]
  | address net => [net.version.number, net.networkAddress, net.prefixlen]
  | protoname n => [n]
  | quoted => []
  | unparsable => []

end ElementClass

/-- The key elements are sorted by, compared field by field. -/
structure SortKey where
  rank : Nat
  natural : List Nat
  text : String
  deriving DecidableEq

namespace SortKey

/-- Python's order on the key tuples. -/
def le (a b : SortKey) : Prop :=
  a.rank < b.rank ∨ a.rank = b.rank ∧ (a.natural < b.natural ∨ a.natural = b.natural ∧ a.text ≤ b.text)

instance : DecidableRel le := fun a b => by unfold le; infer_instance

end SortKey

/-- The key of an element: an unparsable one is ordered by its place in the input. -/
def elementKey (index : Nat) (element : String) : SortKey :=
  match elementClass element with
  | .unparsable => ⟨5, [index], ""⟩
  | c => ⟨c.rank, c.natural, element⟩

/-- The items in the order of their elements' keys. -/
def orderByElement {α : Type} (element : α → String) (items : List α) : List α :=
  (items.zipIdx.insertionSort fun a b => (elementKey a.2 (element a.1)).le (elementKey b.2 (element b.1))).map Prod.fst

/-- Elements in the order that `sort_set_elements` gives them. -/
def orderElements (elements : List String) : List String := orderByElement id elements

/-- Pairs in the order that `sort_vmap_pairs` gives them. -/
def orderVmapPairs (pairs : List (String × String)) : List (String × String) := orderByElement Prod.fst pairs

/-- `set_body`: the elements between braces. -/
def setBody (elements : List String) : String := "\x7b " ++ String.intercalate ", " elements ++ " \x7d"

/-! ## The order keeps the elements -/

theorem orderByElement_perm {α : Type} (element : α → String) (items : List α) :
    (orderByElement element items).Perm items := by
  have h := List.perm_insertionSort (fun a b => (elementKey a.2 (element a.1)).le (elementKey b.2 (element b.1))) items.zipIdx
  have h' := h.map Prod.fst
  rwa [List.zipIdx_map_fst] at h'

theorem orderElements_perm (elements : List String) : (orderElements elements).Perm elements :=
  orderByElement_perm id elements

theorem orderVmapPairs_perm (pairs : List (String × String)) : (orderVmapPairs pairs).Perm pairs :=
  orderByElement_perm Prod.fst pairs

@[simp] theorem mem_orderElements {e : String} {elements : List String} : e ∈ orderElements elements ↔ e ∈ elements :=
  (orderElements_perm elements).mem_iff

@[simp] theorem mem_orderVmapPairs {p : String × String} {pairs : List (String × String)} :
    p ∈ orderVmapPairs pairs ↔ p ∈ pairs :=
  (orderVmapPairs_perm pairs).mem_iff

example : orderElements ["udp", "10.0.0.1-10.0.0.9", "22", "10.0.0.0/8", "x", "8"] =
    ["8", "22", "10.0.0.1-10.0.0.9", "10.0.0.0/8", "udp", "x"] := by decide +kernel

end Ferm
