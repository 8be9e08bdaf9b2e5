import Ferm.Networks
import Ferm.Nftset

/-!
# Canonical set elements

`canonicalize_element`: an element is spelled as nft stores it. What the element denotes stays, and the new spelling is a fixed
point, but for a range of one IPv4-mapped address and for texts in which a scope meets a dash.
-/

namespace Ferm

/-- `_nft_network_text`. -/
def nftNetworkText (dotted : Bool) (n : ScopedNetwork) : List Char :=
  if n.net.prefixlen ≠ n.net.version.maxPrefixlen then prefixText dotted n.address n.scope n.net.prefixlen
  else
    match n.net.version, ipv4Mapped n.net.networkAddress with
    | .v6, some ipv4 => mappedText ipv4
    | _, _ => hostText dotted n.address n.scope

/-- True if the addresses between two are a block of the size of a prefix. -/
def isAlignedBlock (lo hi : Nat) : Bool := ((hi - lo + 1) &&& (hi - lo)) = 0 && lo % (hi - lo + 1) = 0

/-- `_collapse_address_range`. -/
def collapseAddressRange (dotted : Bool) (low high : List Char) : Option (List Char) := do
  let lo ← ipAddress low
  let hi ← ipAddress high
  if lo.version ≠ hi.version ∨ hi.ip < lo.ip then none
  else if !isAlignedBlock lo.ip hi.ip then
    some (hostText dotted lo (scopeText low) ++ '-' :: hostText dotted hi (scopeText high))
  else
    let prefixlen := lo.version.maxPrefixlen - (hi.ip - lo.ip + 1).log2
    if prefixlen = lo.version.maxPrefixlen then some (hostText dotted lo (scopeText low))
    else some (prefixText dotted lo (scopeText low) prefixlen)

/-- `canonicalize_element`. -/
def canonicalizeElement (dotted : Bool) (element : String) : String :=
  match elementClass element with
  | .addressInterval _ _ _ =>
    match (partitionAt '-' element.toList).bind fun ends => collapseAddressRange dotted ends.1 ends.2 with
    | some text => String.ofList text
    | none => element
  | .address _ =>
    match scopedNetwork element.toList with
    | some n => String.ofList (nftNetworkText dotted n)
    | none => element
  | _ => element

example : canonicalizeElement false "10.0.0.0-10.0.0.255" = "10.0.0.0/24" := by decide +kernel

/-! ## What elements denote -/

/-- A member of a set: an address, a port, or another word. -/
inductive Member where
  | address (version : IpVersion) (ip : Nat)
  | port (n : Nat)
  | word (text : String)
  deriving DecidableEq

/-- The members an element stands for. -/
def Denotes (element : String) (m : Member) : Prop :=
  match elementClass element with
  | .number n => m = .port n
  | .interval low high => ∃ n, low ≤ n ∧ n ≤ high ∧ m = .port n
  | .addressInterval version low high => ∃ ip, low ≤ ip ∧ ip ≤ high ∧ m = .address version ip
  | .address net => ∃ ip, net.networkAddress ≤ ip ∧ ip < net.networkAddress + net.numAddresses ∧ m = .address net.version ip
  | .protoname _ => m = .word element
  | .quoted => m = .word element
  | .unparsable => m = .word element

/-! ## Classes -/

/-- A text is a range between two addresses of one version. -/
structure ReadsRange (text low high : List Char) (a b : IpAddress) : Prop where
  parts : partitionAt '-' text = some (low, high)
  lowEnd : ipAddress low = some a
  highEnd : ipAddress high = some b
  sameVersion : a.version = b.version

theorem not_isAsciiUint_of_ipAddress {text : List Char} {a : IpAddress} (h : ipAddress text = some a) : isAsciiUint text = false := by
  rcases ipAddress_cases h with ⟨-, h4⟩ | ⟨-, -, h6⟩
  · obtain ⟨ip, hip, -⟩ := Option.map_eq_some_iff.1 h4
    by_contra huint
    have hdot : '.' ∉ text := fun hmem => huint (not_isAsciiUint_of_mem hmem (by decide))
    unfold ipv4FromString at hip
    rw [List.splitOn_eq_singleton hdot] at hip
    cases hip
  · exact not_isAsciiUint_of_mem (colon_mem_of_ipv6Address h6) (by decide)

theorem dash_mem_of_partitionAt {text low high : List Char} (h : partitionAt '-' text = some (low, high)) : '-' ∈ text := by
  rw [(partitionAt_eq_some h).1]
  exact List.mem_append_right _ List.mem_cons_self

theorem rangeClass_of_reads {text low high : List Char} {a b : IpAddress} (h : ReadsRange text low high a b) :
    rangeClass text = some (.addressInterval a.version a.ip b.ip) := by
  simp [rangeClass, classifyAddressRange, h.parts, not_isAsciiUint_of_ipAddress h.lowEnd, h.lowEnd, h.highEnd, h.sameVersion]

theorem reads_of_rangeClass {text : List Char} {version : IpVersion} {lo hi : Nat}
    (h : rangeClass text = some (.addressInterval version lo hi)) :
    ∃ low high a b, ReadsRange text low high a b ∧ a.version = version ∧ a.ip = lo ∧ b.ip = hi := by
  obtain ⟨⟨low, high⟩, hparts, h⟩ := Option.bind_eq_some_iff.1 h
  simp only at h
  split at h
  · cases h
  · obtain ⟨a, ha, h⟩ := Option.bind_eq_some_iff.1 h
    obtain ⟨b, hb, h⟩ := Option.bind_eq_some_iff.1 h
    split at h
    · cases h
      exact ⟨low, high, a, b, ⟨hparts, ha, hb, ‹_›⟩, rfl, rfl, rfl⟩
    · cases h

/-- A range's class is that of numbers or of addresses. -/
theorem rangeClass_cases {text : List Char} {c : ElementClass} (h : rangeClass text = some c) :
    (∃ low high, partitionAt '-' text = some (low, high) ∧ isAsciiUint low = true ∧ isAsciiUint high = true ∧
      c = .interval (uintValue 10 low) (uintValue 10 high)) ∨ ∃ version lo hi, c = .addressInterval version lo hi := by
  obtain ⟨⟨low, high⟩, hparts, h⟩ := Option.bind_eq_some_iff.1 h
  simp only at h
  split at h
  · rename_i huint
    obtain rfl := Option.some.inj h
    rw [Bool.and_eq_true] at huint
    exact .inl ⟨low, high, hparts, huint.1, huint.2, rfl⟩
  · obtain ⟨a, ha, h⟩ := Option.bind_eq_some_iff.1 h
    obtain ⟨b, hb, h⟩ := Option.bind_eq_some_iff.1 h
    split at h
    · exact .inr ⟨_, _, _, (Option.some.inj h).symm⟩
    · cases h

theorem elementClass_of_rangeClass {e : String} {c : ElementClass} (h : rangeClass e.toList = some c) : elementClass e = c := by
  obtain ⟨⟨low, high⟩, hparts, -⟩ := Option.bind_eq_some_iff.1 h
  have huint := not_isAsciiUint_of_mem (dash_mem_of_partitionAt hparts) (by decide)
  simp [elementClass, huint, h]

theorem elementClass_of_reads {e : String} {low high : List Char} {a b : IpAddress} (h : ReadsRange e.toList low high a b) :
    elementClass e = .addressInterval a.version a.ip b.ip := elementClass_of_rangeClass (rangeClass_of_reads h)

theorem elementClass_of_ipNetwork {e : String} {net : IpNetwork} (huint : isAsciiUint e.toList = false)
    (hrange : rangeClass e.toList = none) (hnet : ipNetwork e.toList = some net) : elementClass e = .address net := by
  simp [elementClass, huint, hrange, hnet]

/-- What is not a number nor a range is classified as a network first. -/
theorem elementClass_cases (e : String) :
    (isAsciiUint e.toList = true ∧ ∃ n, elementClass e = .number n) ∨
      (∃ c, rangeClass e.toList = some c ∧ elementClass e = c) ∨
      (∃ net, ipNetwork e.toList = some net ∧ rangeClass e.toList = none ∧ isAsciiUint e.toList = false ∧
        elementClass e = .address net) ∨
      (ipNetwork e.toList = none ∧ rangeClass e.toList = none ∧
        ((∃ n, elementClass e = .protoname n) ∨ elementClass e = .quoted ∨ elementClass e = .unparsable)) := by
  cases huint : isAsciiUint e.toList with
  | true => exact .inl ⟨rfl, uintValue 10 e.toList, by simp [elementClass, huint]⟩
  | false =>
    cases hrange : rangeClass e.toList with
    | some c => exact .inr (.inl ⟨c, rfl, elementClass_of_rangeClass hrange⟩)
    | none =>
      cases hnet : ipNetwork e.toList with
      | some net => exact .inr (.inr (.inl ⟨net, rfl, rfl, rfl, elementClass_of_ipNetwork huint hrange hnet⟩))
      | none =>
        refine .inr (.inr (.inr ⟨rfl, rfl, ?_⟩))
        simp only [elementClass, huint, hrange, hnet]
        cases NFT_L4PROTO_NUMBER.lookup e with
        | some n => exact .inl ⟨n, rfl⟩
        | none =>
          cases hquoted : isQuotedString e.toList with
          | true => exact .inr (.inl (by simp))
          | false => exact .inr (.inr (by simp))

/-- A text with a dash that is no scope's is not an address. -/
theorem ipAddress_eq_none_of_dash {text low high : List Char} (hparts : partitionAt '-' text = some (low, high))
    (hscope : '%' ∉ low) : ipAddress text = none := by
  cases h : ipAddress text with
  | none => rfl
  | some a =>
    exfalso
    obtain ⟨addr, htext, hchars⟩ := isAddressChar_of_ipAddress h
    have hdash : '-' ∉ addr := fun hmem => by
      have := hchars _ hmem
      cases this
    obtain ⟨hsplit, -⟩ := partitionAt_eq_some hparts
    have hlong : addr.length ≤ low.length := by
      by_contra hlt
      refine hdash (List.mem_of_getElem? (i := low.length) ?_)
      have hget : text[low.length]? = some '-' := by
        rw [hsplit, List.getElem?_append_right (Nat.le_refl _), Nat.sub_self]
        rfl
      rwa [htext, List.getElem?_append_left (by omega)] at hget
    cases hzone : partitionAt '%' text with
    | none =>
      rw [scopeText, hzone, List.append_nil] at htext
      exact hdash (htext ▸ dash_mem_of_partitionAt hparts)
    | some p =>
      rw [scopeText, hzone] at htext
      have hpercent : addr = low := by
        have hle : low.length ≤ addr.length := by
          by_contra hlt
          refine hscope (List.mem_of_getElem? (i := addr.length) ?_)
          have hget : text[addr.length]? = some '%' := by
            rw [htext, List.getElem?_append_right (Nat.le_refl _), Nat.sub_self]
            rfl
          rwa [hsplit, List.getElem?_append_left (by omega)] at hget
        exact (List.append_inj (htext.symm.trans hsplit) (Nat.le_antisymm hlong hle)).1
      rw [hpercent] at htext
      have := List.append_cancel_left (htext.symm.trans hsplit)
      simp at this

/-- Only an address or a network has a network's text, and a range whose low end has a scope. -/
theorem ipNetwork_eq_none_of_reads {text low high : List Char} {a b : IpAddress} (h : ReadsRange text low high a b)
    (hscope : scopeText low = []) : ipNetwork text = none := by
  have hslash : '/' ∉ text := by
    rw [(partitionAt_eq_some h.parts).1, List.mem_append, List.mem_cons, not_or, not_or]
    exact ⟨slash_not_mem_of_ipAddress h.lowEnd, by decide, slash_not_mem_of_ipAddress h.highEnd⟩
  have hpercent : '%' ∉ low := by
    obtain ⟨addr, htext, hchars⟩ := isAddressChar_of_ipAddress h.lowEnd
    rw [hscope, List.append_nil] at htext
    intro hmem
    have := hchars _ (htext ▸ hmem)
    cases this
  rw [← Option.not_isSome_iff_eq_none, Option.isSome_iff_exists]
  rintro ⟨net, hnet⟩
  obtain ⟨a, prefixlen, ha, -⟩ := ipNetwork_cases hnet
  rw [hostPart_eq_self hslash, ipAddress_eq_none_of_dash h.parts hpercent] at ha
  cases ha

theorem ipNetwork_eq_none_of_isAsciiUint {text : List Char} (h : isAsciiUint text = true) : ipNetwork text = none := by
  have hslash : '/' ∉ text := fun hmem => by
    rw [not_isAsciiUint_of_mem hmem (by decide)] at h
    cases h
  rw [← Option.not_isSome_iff_eq_none, Option.isSome_iff_exists]
  rintro ⟨net, hnet⟩
  obtain ⟨a, prefixlen, ha, -⟩ := ipNetwork_cases hnet
  rw [hostPart_eq_self hslash] at ha
  rw [not_isAsciiUint_of_ipAddress ha] at h
  cases h

theorem ipNetwork_eq_none_of_interval {text low high : List Char} (hparts : partitionAt '-' text = some (low, high))
    (hlow : isAsciiUint low = true) (hhigh : isAsciiUint high = true) : ipNetwork text = none := by
  have hdigits : ∀ c, c.isDigit = false → c ≠ '-' → c ∉ text := by
    intro c hc hne hmem
    rw [(partitionAt_eq_some hparts).1, List.mem_append, List.mem_cons] at hmem
    rcases hmem with hmem | rfl | hmem
    · rw [not_isAsciiUint_of_mem hmem hc] at hlow
      cases hlow
    · exact hne rfl
    · rw [not_isAsciiUint_of_mem hmem hc] at hhigh
      cases hhigh
  have hpercent : '%' ∉ low := fun hmem => hdigits '%' (by decide) (by decide) (by
    rw [(partitionAt_eq_some hparts).1]
    exact List.mem_append_left _ hmem)
  rw [← Option.not_isSome_iff_eq_none, Option.isSome_iff_exists]
  rintro ⟨net, hnet⟩
  obtain ⟨a, prefixlen, ha, -⟩ := ipNetwork_cases hnet
  rw [hostPart_eq_self (hdigits '/' (by decide) (by decide)), ipAddress_eq_none_of_dash hparts hpercent] at ha
  cases ha

/-! ## Texts of networks -/

/-- The text of a network: with the length of its prefix, or its address alone where no other class comes first. -/
def IsNetworkText (dotted : Bool) (n : ScopedNetwork) (text : List Char) : Prop :=
  (n.net.prefixlen ≠ n.net.version.maxPrefixlen ∧ text = prefixText dotted n.address n.scope n.net.prefixlen) ∨
    (n.net.prefixlen = n.net.version.maxPrefixlen ∧ rangeClass text = none ∧
      ∃ form, text = hostText form n.address n.scope)

theorem partitionAt_append_of_not_mem {sep : Char} {a : List Char} (h : sep ∉ a) (b : List Char) :
    partitionAt sep (a ++ b) = (partitionAt sep b).map fun p => (a ++ p.1, p.2) := by
  cases hb : partitionAt sep b with
  | none =>
    refine partitionAt_eq_none ?_
    rw [List.mem_append, not_or]
    refine ⟨h, fun hmem => ?_⟩
    obtain ⟨c, d, rfl, hc⟩ := List.eq_append_cons_of_mem hmem
    rw [partitionAt_append hc] at hb
    cases hb
  | some p =>
    obtain ⟨rfl, hp⟩ := partitionAt_eq_some hb
    rw [← List.append_assoc, partitionAt_append]
    · rfl
    · rw [List.mem_append, not_or]
      exact ⟨h, hp⟩

/-- A prefix stands behind every dash of a text. -/
theorem rangeClass_append_block {addr digits : List Char} (hslash : '/' ∉ addr) (hdash : '-' ∉ digits) :
    rangeClass (addr ++ '/' :: digits) = none := by
  cases hparts : partitionAt '-' (addr ++ '/' :: digits) with
  | none => simp [rangeClass, hparts]
  | some p =>
    obtain ⟨low, high⟩ := p
    have hmem : '/' ∈ high := by
      cases haddr : partitionAt '-' addr with
      | none =>
        have hnot : '-' ∉ addr := fun hmem => by
          obtain ⟨c, d, rfl, hc⟩ := List.eq_append_cons_of_mem hmem
          rw [partitionAt_append hc] at haddr
          cases haddr
        rw [partitionAt_append_of_not_mem hnot, partitionAt_eq_none] at hparts
        · cases hparts
        · rw [List.mem_cons, not_or]
          exact ⟨by decide, hdash⟩
      | some q =>
        obtain ⟨rfl, hq⟩ := partitionAt_eq_some haddr
        rw [List.append_assoc, List.cons_append, partitionAt_append hq] at hparts
        obtain ⟨-, rfl⟩ := Prod.mk.inj (Option.some.inj hparts)
        exact List.mem_append_right _ List.mem_cons_self
    have huint := not_isAsciiUint_of_mem hmem (by decide)
    have hnone : ipAddress high = none := by rw [ipAddress, if_pos hmem]
    simp [rangeClass, hparts, huint, classifyAddressRange, hnone]

section NetworkTexts

variable {dotted : Bool} {n : ScopedNetwork} {text : List Char}

theorem IsNetworkText.scopedNetwork (h : IsNetworkText dotted n text) (hvalid : n.IsValid) : scopedNetwork text = some n := by
  rcases h with ⟨-, rfl⟩ | ⟨hwhole, -, form, rfl⟩
  · exact scopedNetwork_prefixText dotted hvalid
  · exact scopedNetwork_hostText form hvalid hwhole

theorem IsNetworkText.isAsciiUint (h : IsNetworkText dotted n text) (hvalid : n.IsValid) : isAsciiUint text = false := by
  rcases h with ⟨-, rfl⟩ | ⟨-, -, form, rfl⟩
  · exact not_isAsciiUint_of_mem (List.mem_append_right _ List.mem_cons_self) (by decide)
  · exact not_isAsciiUint_of_ipAddress (ipAddress_hostText form hvalid)

theorem IsNetworkText.rangeClass (h : IsNetworkText dotted n text) (hvalid : n.IsValid) : rangeClass text = none := by
  rcases h with ⟨-, rfl⟩ | ⟨-, hrange, -⟩
  · exact rangeClass_append_block (slash_not_mem_hostText dotted hvalid)
      (not_mem_toDigits (by decide) (by decide) (by decide) _)
  · exact hrange

theorem IsNetworkText.elementClass (h : IsNetworkText dotted n text) (hvalid : n.IsValid) :
    elementClass (String.ofList text) = .address n.net := by
  obtain ⟨net, hnet, heq⟩ := Option.map_eq_some_iff.1 (h.scopedNetwork hvalid)
  refine elementClass_of_ipNetwork ?_ ?_ ?_ <;> rw [String.toList_ofList]
  · exact h.isAsciiUint hvalid
  · exact h.rangeClass hvalid
  · rw [hnet, ← heq]

theorem IsNetworkText.canonicalizeElement (h : IsNetworkText dotted n text) (hvalid : n.IsValid) :
    canonicalizeElement dotted (String.ofList text) = String.ofList (nftNetworkText dotted n) := by
  simp only [Ferm.canonicalizeElement, h.elementClass hvalid, String.toList_ofList, h.scopedNetwork hvalid]

theorem IsNetworkText.denotes (h : IsNetworkText dotted n text) (hvalid : n.IsValid) (m : Member) :
    Denotes (String.ofList text) m ↔ ∃ ip, n.Holds ip ∧ m = .address n.net.version ip := by
  simp only [Denotes, h.elementClass hvalid, ScopedNetwork.Holds, and_assoc]

end NetworkTexts

/-! ## Ranges -/

/-- The text of a range that is no block of the size of a prefix. -/
def rangeText (dotted : Bool) (a b : IpAddress) (scope scope' : List Char) : List Char :=
  hostText dotted a scope ++ '-' :: hostText dotted b scope'

theorem reads_rangeText (dotted : Bool) {a b : IpAddress} {scope scope' : List Char} (ha : IsHost a scope) (hb : IsHost b scope')
    (hdash : '-' ∉ scope) (hversion : a.version = b.version) :
    ReadsRange (rangeText dotted a b scope scope') (hostText dotted a scope) (hostText dotted b scope') a b := by
  refine ⟨partitionAt_append ?_ _, ipAddress_hostText dotted ha, ipAddress_hostText dotted hb, hversion⟩
  rw [hostText, List.mem_append, not_or]
  exact ⟨not_mem_addressText (by decide) dotted _ _, hdash⟩

theorem isAlignedBlock_self (ip : Nat) : isAlignedBlock ip ip = true := by
  rw [isAlignedBlock, Nat.sub_self, Nat.zero_add, Nat.and_zero, Nat.mod_one]
  rfl

/-- A block that starts at a multiple of its size is a network. -/
theorem exists_of_isAlignedBlock {lo hi : Nat} (h : isAlignedBlock lo hi = true) :
    ∃ k, hi - lo + 1 = 2 ^ k ∧ 2 ^ k ∣ lo ∧ (hi - lo + 1).log2 = k := by
  simp only [isAlignedBlock, Bool.and_eq_true, decide_eq_true_eq] at h
  obtain ⟨hpower, hmod⟩ := h
  obtain ⟨k, hk⟩ := (Nat.and_sub_one_eq_zero_iff_isPowerOfTwo (Nat.succ_ne_zero (hi - lo))).1 hpower
  rw [Nat.succ_eq_add_one] at hk
  refine ⟨k, hk, ?_, ?_⟩
  · rw [← hk]
    exact Nat.dvd_of_mod_eq_zero hmod
  · rw [hk, Nat.log2_two_pow]

theorem collapseAddressRange_of_reads (dotted : Bool) {text low high : List Char} {a b : IpAddress} (h : ReadsRange text low high a b) :
    collapseAddressRange dotted low high =
      if b.ip < a.ip then none
      else if isAlignedBlock a.ip b.ip = false then some (rangeText dotted a b (scopeText low) (scopeText high))
      else if a.version.maxPrefixlen - (b.ip - a.ip + 1).log2 = a.version.maxPrefixlen then
        some (hostText dotted a (scopeText low))
      else some (prefixText dotted a (scopeText low) (a.version.maxPrefixlen - (b.ip - a.ip + 1).log2)) := by
  simp only [collapseAddressRange, h.lowEnd, h.highEnd, Option.bind_eq_bind, Option.bind_some, h.sameVersion, ne_eq,
    not_true_eq_false, false_or, Bool.not_eq_true', rangeText]

theorem canonicalizeElement_of_reads (dotted : Bool) {e : String} {low high : List Char} {a b : IpAddress}
    (h : ReadsRange e.toList low high a b) :
    canonicalizeElement dotted e = ((collapseAddressRange dotted low high).map String.ofList).getD e := by
  simp only [canonicalizeElement, elementClass_of_reads h, h.parts, Option.bind_some]
  cases collapseAddressRange dotted low high <;> rfl

/-! ## What nft stores -/

namespace ScopedNetwork

/-- A host whose last bits are an address of the older version. -/
def IsMappedHost (n : ScopedNetwork) : Prop :=
  n.net.version = .v6 ∧ n.net.prefixlen = n.net.version.maxPrefixlen ∧ (ipv4Mapped n.net.networkAddress).isSome

instance (n : ScopedNetwork) : Decidable n.IsMappedHost := by
  unfold IsMappedHost
  infer_instance

/-- The network whose text is stored: a mapped host loses its scope. -/
def stored (n : ScopedNetwork) : ScopedNetwork := if n.IsMappedHost then { n with scope := [] } else n

theorem IsValid.stored {n : ScopedNetwork} (h : n.IsValid) : n.stored.IsValid := by
  unfold ScopedNetwork.stored
  split
  · exact h.unscoped
  · exact h

theorem stored_net (n : ScopedNetwork) : n.stored.net = n.net := by
  unfold stored
  split <;> rfl

end ScopedNetwork

section Stored

variable {dotted : Bool} {n : ScopedNetwork}

theorem nftNetworkText_mapped (h : n.IsMappedHost) : nftNetworkText dotted n = hostText true n.address [] := by
  obtain ⟨hversion, hwhole, hmapped⟩ := h
  obtain ⟨ipv4, hipv4⟩ := Option.isSome_iff_exists.1 hmapped
  rw [nftNetworkText, if_neg (not_not.2 hwhole), hipv4]
  simp only [hversion, hostText, ScopedNetwork.address, addressText, hipv4, List.append_nil, if_true]

theorem nftNetworkText_host (h : ¬n.IsMappedHost) (hwhole : n.net.prefixlen = n.net.version.maxPrefixlen) :
    nftNetworkText dotted n = hostText dotted n.address n.scope := by
  rw [nftNetworkText, if_neg (not_not.2 hwhole)]
  cases hversion : n.net.version with
  | v4 => rfl
  | v6 =>
    cases hmapped : ipv4Mapped n.net.networkAddress with
    | none => rfl
    | some ipv4 => exact absurd ⟨hversion, hwhole, by rw [hmapped]; rfl⟩ h

theorem nftNetworkText_block (h : n.net.prefixlen ≠ n.net.version.maxPrefixlen) :
    nftNetworkText dotted n = prefixText dotted n.address n.scope n.net.prefixlen := if_pos h

/-- The stored text is that of the stored network, where it does not read as a range. -/
theorem isNetworkText_nftNetworkText (hrange : rangeClass (nftNetworkText dotted n) = none) :
    IsNetworkText dotted n.stored (nftNetworkText dotted n) := by
  by_cases hmapped : n.IsMappedHost
  · rw [ScopedNetwork.stored, if_pos hmapped]
    exact .inr ⟨hmapped.2.1, hrange, true, nftNetworkText_mapped hmapped⟩
  · rw [ScopedNetwork.stored, if_neg hmapped]
    by_cases hwhole : n.net.prefixlen = n.net.version.maxPrefixlen
    · exact .inr ⟨hwhole, hrange, dotted, nftNetworkText_host hmapped hwhole⟩
    · exact .inl ⟨hwhole, nftNetworkText_block hwhole⟩

theorem nftNetworkText_stored (dotted : Bool) (n : ScopedNetwork) : nftNetworkText dotted n.stored = nftNetworkText dotted n := by
  unfold ScopedNetwork.stored
  split
  · rename_i hmapped
    have hmapped' : ScopedNetwork.IsMappedHost { n with scope := [] } := hmapped
    rw [nftNetworkText_mapped hmapped, nftNetworkText_mapped hmapped']
    rfl
  · rfl

/-- A mapped host is stored as it is written only in its dotted form and without a scope. -/
theorem hostText_eq_stored_iff (h : n.IsMappedHost) (hvalid : n.IsValid) :
    hostText dotted n.address n.scope = nftNetworkText dotted n ↔ dotted = true ∧ n.scope = [] := by
  rw [nftNetworkText_mapped h]
  constructor
  · intro heq
    have hscope : n.scope = [] := by
      rw [← scopeText_hostText dotted hvalid, heq, scopeText_hostText true hvalid.unscoped]
    refine ⟨?_, hscope⟩
    obtain ⟨hversion, -, hmapped⟩ := h
    obtain ⟨ipv4, hipv4⟩ := Option.isSome_iff_exists.1 hmapped
    cases dotted with
    | true => rfl
    | false =>
      have hdot : '.' ∈ mappedText ipv4 := List.mem_append_right _ (dot_mem_ipv4Text ipv4)
      simp only [hostText, hscope, List.append_nil, ScopedNetwork.address, hversion, addressText, hipv4, if_true,
        Bool.false_eq_true, if_false] at heq
      rw [← heq] at hdot
      exact absurd hdot (dot_not_mem_ipv6Hextets _)
  · rintro ⟨rfl, hscope⟩
    rw [hscope]

end Stored

/-! ## What becomes of an element -/

/-- The classes whose elements are addresses. -/
def ElementClass.isAddress : ElementClass → Bool
  | number _ => false
  | interval _ _ => false
  | addressInterval _ _ _ => true
  | address _ => true
  | protoname _ => false
  | quoted => false
  | unparsable => false

/-- An element of addresses in which no dash stands behind a percent sign: a scope neither has one nor is that of the low end of a
range. -/
def IsPlain (e : String) : Prop :=
  (elementClass e).isAddress = true → ∀ addr zone, partitionAt '%' e.toList = some (addr, zone) → '-' ∉ zone

/-- A range of one IPv4-mapped address, which is not spelled as such an address is stored. -/
def IsMappedRange (dotted : Bool) (e : String) (a : IpAddress) : Prop :=
  dotted = false ∧ (∃ low high, ReadsRange e.toList low high a a) ∧ a.version = .v6 ∧ (ipv4Mapped a.ip).isSome = true

/-- The network of one address. -/
def hostNetwork (a : IpAddress) : ScopedNetwork where
  net :=
    { version := a.version, networkAddress := a.ip, prefixlen := a.version.maxPrefixlen
      prefixlen_le := Nat.le_refl _, aligned := by rw [Nat.sub_self, pow_zero]; exact Nat.one_dvd _ }
  scope := []

theorem holds_hostNetwork {a : IpAddress} {ip : Nat} : (hostNetwork a).Holds ip ↔ ip = a.ip := ScopedNetwork.holds_of_whole rfl

/-- What an element is spelled as: a word stays, a network is spelled as it is stored, a range by its ends, and a range of one mapped
address by the address. -/
inductive CanonOf (dotted : Bool) (e : String) : String → Prop
  | same (h : scopedNetwork e.toList = none) (hfix : canonicalizeElement dotted e = e)
    (hword : ∀ version ip, ¬Denotes e (.address version ip)) : CanonOf dotted e e
  | network {n : ScopedNetwork} (hvalid : n.IsValid) (hdash : '-' ∉ n.scope)
    (hdenotes : ∀ m, Denotes e m ↔ ∃ ip, n.Holds ip ∧ m = .address n.net.version ip) :
    CanonOf dotted e (String.ofList (nftNetworkText dotted n))
  | range {a b : IpAddress} {scope : List Char} (ha : IsHost a []) (hb : IsHost b scope) (hversion : a.version = b.version)
    (hle : a.ip ≤ b.ip) (hblock : isAlignedBlock a.ip b.ip = false)
    (hdenotes : ∀ m, Denotes e m ↔ ∃ ip, a.ip ≤ ip ∧ ip ≤ b.ip ∧ m = .address a.version ip) :
    CanonOf dotted e (String.ofList (rangeText dotted a b [] scope))
  | mapped {a : IpAddress} (ha : IsHost a []) (hmapped : (hostNetwork a).IsMappedHost) (hrange : IsMappedRange dotted e a)
    (hdenotes : ∀ m, Denotes e m ↔ m = .address a.version a.ip) : CanonOf dotted e (String.ofList (hostText dotted a []))

theorem dash_not_mem_scope {e : String} (hplain : ∀ addr zone, partitionAt '%' e.toList = some (addr, zone) → '-' ∉ zone)
    {n : ScopedNetwork} (h : scopedNetwork e.toList = some n) : '-' ∉ n.scope := by
  obtain ⟨net, -, rfl⟩ := Option.map_eq_some_iff.1 h
  dsimp only
  split
  · unfold scopeText
    cases hzone : partitionAt '%' (hostPart e.toList) with
    | none => exact List.not_mem_nil
    | some p =>
      obtain ⟨addr, zone⟩ := p
      obtain ⟨hpart, hpercent⟩ := partitionAt_eq_some hzone
      rw [List.mem_cons, not_or]
      refine ⟨by decide, ?_⟩
      rcases hostPart_split e.toList with hwhole | ⟨rest, hrest⟩
      · exact hplain addr zone (by rw [hwhole, hzone])
      · have hdash := hplain addr (zone ++ '/' :: rest) (by
          rw [hrest, hpart, List.append_assoc, List.cons_append, partitionAt_append hpercent])
        exact fun hmem => hdash (List.mem_append_left _ hmem)
  · exact List.not_mem_nil

theorem dash_not_mem_nftNetworkText (dotted : Bool) {n : ScopedNetwork} (h : '-' ∉ n.scope) : '-' ∉ nftNetworkText dotted n := by
  have haddr : ∀ form, '-' ∉ addressText form n.address.version n.address.ip := fun form =>
    not_mem_addressText (by decide) form _ _
  by_cases hmapped : n.IsMappedHost
  · rw [nftNetworkText_mapped hmapped, hostText, List.append_nil]
    exact haddr true
  · by_cases hwhole : n.net.prefixlen = n.net.version.maxPrefixlen
    · rw [nftNetworkText_host hmapped hwhole, hostText, List.mem_append, not_or]
      exact ⟨haddr dotted, h⟩
    · rw [nftNetworkText_block hwhole, prefixText, hostText, List.mem_append, List.mem_append, List.mem_cons, not_or, not_or, not_or]
      exact ⟨⟨haddr dotted, h⟩, by decide, not_mem_toDigits (by decide) (by decide) (by decide) _⟩

theorem rangeClass_of_not_mem {text : List Char} (h : '-' ∉ text) : rangeClass text = none := by
  rw [rangeClass, partitionAt_eq_none h]
  rfl

/-- What is stored for a network is a text of it. -/
theorem isNetworkText_stored (dotted : Bool) {n : ScopedNetwork} (h : '-' ∉ n.scope) :
    IsNetworkText dotted n.stored (nftNetworkText dotted n) :=
  isNetworkText_nftNetworkText (rangeClass_of_not_mem (dash_not_mem_nftNetworkText dotted h))

theorem canonOf_network (dotted : Bool) {e : String} {net : IpNetwork} (hplain : IsPlain e) (hclass : elementClass e = .address net)
    (hnet : ipNetwork e.toList = some net) : CanonOf dotted e (canonicalizeElement dotted e) := by
  obtain ⟨n, hn⟩ : ∃ n, scopedNetwork e.toList = some n := by rw [scopedNetwork, hnet]; exact ⟨_, rfl⟩
  have hnetEq : n.net = net := by
    obtain ⟨net', hnet', rfl⟩ := Option.map_eq_some_iff.1 hn
    exact Option.some.inj (hnet'.symm.trans hnet)
  have htext : canonicalizeElement dotted e = String.ofList (nftNetworkText dotted n) := by
    simp only [canonicalizeElement, hclass, hn]
  rw [htext]
  refine .network (isValid_of_scopedNetwork hn) (dash_not_mem_scope (hplain (by rw [hclass]; rfl)) hn) fun m => ?_
  rw [Denotes, hclass, ← hnetEq]
  simp only [ScopedNetwork.Holds, and_assoc]

theorem scopeText_low_eq_nil {e : String} (hplain : ∀ addr zone, partitionAt '%' e.toList = some (addr, zone) → '-' ∉ zone)
    {low high : List Char} (hparts : partitionAt '-' e.toList = some (low, high)) : scopeText low = [] := by
  refine scopeText_eq_nil fun hmem => ?_
  obtain ⟨addr, zone, rfl, hpercent⟩ := List.eq_append_cons_of_mem hmem
  have hsplit : partitionAt '%' e.toList = some (addr, zone ++ '-' :: high) := by
    rw [(partitionAt_eq_some hparts).1, List.append_assoc, List.cons_append, partitionAt_append hpercent]
  exact hplain _ _ hsplit (List.mem_append_right _ List.mem_cons_self)

/-- The network of an aligned block that starts at an address. -/
def blockNetwork (a : IpAddress) (k : Nat) (hk : k ≤ a.version.maxPrefixlen) (hdvd : 2 ^ k ∣ a.ip) : ScopedNetwork where
  net :=
    { version := a.version, networkAddress := a.ip, prefixlen := a.version.maxPrefixlen - k
      prefixlen_le := Nat.sub_le _ _, aligned := by rwa [Nat.sub_sub_self hk] }
  scope := []

theorem numAddresses_blockNetwork {a : IpAddress} {k : Nat} (hk : k ≤ a.version.maxPrefixlen) (hdvd : 2 ^ k ∣ a.ip) :
    (blockNetwork a k hk hdvd).net.numAddresses = 2 ^ k := by
  change 2 ^ (a.version.maxPrefixlen - (a.version.maxPrefixlen - k)) = 2 ^ k
  rw [Nat.sub_sub_self hk]

/-- The text of one address is what is stored for it, unless it is a mapped address in its other form. -/
theorem canonOf_host (dotted : Bool) {e : String} {low high : List Char} {a : IpAddress} (h : ReadsRange e.toList low high a a)
    (ha : IsHost a []) (hdenotes : ∀ m, Denotes e m ↔ m = .address a.version a.ip) : CanonOf dotted e (String.ofList (hostText dotted a [])) := by
  have hnetwork : ∀ m, Denotes e m ↔ ∃ ip, (hostNetwork a).Holds ip ∧ m = .address (hostNetwork a).net.version ip := by
    intro m
    simp only [hdenotes, holds_hostNetwork, exists_eq_left]
    rfl
  by_cases hmapped : (hostNetwork a).IsMappedHost
  · cases dotted with
    | false => exact .mapped ha hmapped ⟨rfl, ⟨low, high, h⟩, hmapped.1, hmapped.2.2⟩ hdenotes
    | true =>
      have htext : hostText true a [] = nftNetworkText true (hostNetwork a) := (nftNetworkText_mapped hmapped).symm
      rw [htext]
      exact .network ha List.not_mem_nil hnetwork
  · have htext : hostText dotted a [] = nftNetworkText dotted (hostNetwork a) := (nftNetworkText_host hmapped rfl).symm
    rw [htext]
    exact .network ha List.not_mem_nil hnetwork

theorem canonOf_range (dotted : Bool) {e : String} {low high : List Char} {a b : IpAddress} (hplain : IsPlain e)
    (h : ReadsRange e.toList low high a b) : CanonOf dotted e (canonicalizeElement dotted e) := by
  have hclass := elementClass_of_reads h
  have hscope := scopeText_low_eq_nil (hplain (by rw [hclass]; rfl)) h.parts
  have hlow : IsHost a [] := hscope ▸ isHost_of_ipAddress h.lowEnd
  have hhigh := isHost_of_ipAddress h.highEnd
  have hdenotes : ∀ m, Denotes e m ↔ ∃ ip, a.ip ≤ ip ∧ ip ≤ b.ip ∧ m = .address a.version ip := fun m => by rw [Denotes, hclass]
  rw [canonicalizeElement_of_reads dotted h, collapseAddressRange_of_reads dotted h, hscope]
  by_cases hreversed : b.ip < a.ip
  · have hfix : canonicalizeElement dotted e = e := by
      rw [canonicalizeElement_of_reads dotted h, collapseAddressRange_of_reads dotted h, if_pos hreversed]
      rfl
    rw [if_pos hreversed]
    refine .same (by rw [scopedNetwork, ipNetwork_eq_none_of_reads h hscope]; rfl) hfix fun version ip hm => ?_
    obtain ⟨ip, hlo, hhi, -⟩ := (hdenotes _).1 hm
    omega
  have hle : a.ip ≤ b.ip := Nat.le_of_not_lt hreversed
  rw [if_neg hreversed]
  cases hblock : isAlignedBlock a.ip b.ip with
  | false => exact .range hlow hhigh h.sameVersion hle hblock hdenotes
  | true =>
    obtain ⟨k, hsize, hdvd, hlog⟩ := exists_of_isAlignedBlock hblock
    have hk : k ≤ a.version.maxPrefixlen := by
      have hbound : b.ip < 2 ^ a.version.maxPrefixlen := h.sameVersion ▸ hhigh.bound
      rw [← Nat.pow_le_pow_iff_right (Nat.le_refl 2), ← hsize]
      omega
    have hpos : 0 < a.version.maxPrefixlen := by cases a.version <;> decide
    rw [if_neg (by decide), hlog]
    by_cases hhost : a.version.maxPrefixlen - k = a.version.maxPrefixlen
    · obtain rfl : k = 0 := by omega
      rw [if_pos hhost]
      have heq : b.ip = a.ip := by omega
      have hsame : b = a := by
        obtain ⟨version, ip⟩ := a
        obtain ⟨version', ip'⟩ := b
        exact congrArg₂ IpAddress.mk h.sameVersion.symm heq
      refine canonOf_host dotted (hsame ▸ h) hlow fun m => (hdenotes m).trans ?_
      rw [heq]
      constructor
      · rintro ⟨ip, hlo, hhi, rfl⟩
        exact congrArg _ (Nat.le_antisymm hhi hlo)
      · rintro rfl
        exact ⟨a.ip, Nat.le_refl _, Nat.le_refl _, rfl⟩
    · have hprefix : (blockNetwork a k hk hdvd).net.prefixlen ≠ (blockNetwork a k hk hdvd).net.version.maxPrefixlen := hhost
      have htext : prefixText dotted a [] (a.version.maxPrefixlen - k) = nftNetworkText dotted (blockNetwork a k hk hdvd) :=
        (nftNetworkText_block hprefix).symm
      rw [if_neg hhost, htext]
      refine .network hlow List.not_mem_nil fun m => (hdenotes m).trans ?_
      simp only [ScopedNetwork.Holds, numAddresses_blockNetwork]
      constructor
      · rintro ⟨ip, hlo, hhi, rfl⟩
        exact ⟨ip, ⟨hlo, by change ip < a.ip + 2 ^ k; omega⟩, rfl⟩
      · rintro ⟨ip, ⟨hlo, hhi⟩, rfl⟩
        have hhi : ip < a.ip + 2 ^ k := hhi
        exact ⟨ip, hlo, by omega, rfl⟩

/-- A plain element is spelled in one of the four ways. -/
theorem canonOf (dotted : Bool) {e : String} (hplain : IsPlain e) : CanonOf dotted e (canonicalizeElement dotted e) := by
  have hsame : scopedNetwork e.toList = none → canonicalizeElement dotted e = e →
      (∀ version ip, ¬Denotes e (.address version ip)) → CanonOf dotted e (canonicalizeElement dotted e) :=
    fun hnet hfix hword => by rw [hfix]; exact .same hnet hfix hword
  rcases elementClass_cases e with ⟨huint, n, hclass⟩ | ⟨c, hrange, hclass⟩ | ⟨net, hnet, -, -, hclass⟩ | ⟨hnet, -, hclass⟩
  · refine hsame ?_ (by simp only [canonicalizeElement, hclass]) (by simp [Denotes, hclass])
    rw [scopedNetwork, ipNetwork_eq_none_of_isAsciiUint huint]
    rfl
  · rcases rangeClass_cases hrange with ⟨low, high, hparts, hlow, hhigh, rfl⟩ | ⟨version, lo, hi, rfl⟩
    · refine hsame ?_ (by simp only [canonicalizeElement, hclass]) (by simp [Denotes, hclass])
      rw [scopedNetwork, ipNetwork_eq_none_of_interval hparts hlow hhigh]
      rfl
    · obtain ⟨low, high, a, b, hreads, -⟩ := reads_of_rangeClass hrange
      exact canonOf_range dotted hplain hreads
  · exact canonOf_network dotted hplain hclass hnet
  · have hword : scopedNetwork e.toList = none := by rw [scopedNetwork, hnet]; rfl
    rcases hclass with ⟨n, hclass⟩ | hclass | hclass <;>
      exact hsame hword (by simp only [canonicalizeElement, hclass]) (by simp [Denotes, hclass])

end Ferm
