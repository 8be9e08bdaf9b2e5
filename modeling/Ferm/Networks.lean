import Ferm.IpText
import Mathlib.Data.List.TakeWhile

/-!
# Networks and their texts

A network with the scope of its address, the texts it is written as, and that these are read back: a host is its address, a shorter
prefix stands behind a slash.
-/

namespace Ferm

/-- The scope of an address's text, with its percent sign. -/
def scopeText (addr : List Char) : List Char :=
  match partitionAt '%' addr with
  | some (_, zone) => '%' :: zone
  | none => []

/-- The text of an address in front of a prefix. -/
def hostPart (text : List Char) : List Char := text.takeWhile fun c => c ≠ '/'

/-- A network with the scope of its address. -/
structure ScopedNetwork where
  net : IpNetwork
  scope : List Char
  deriving DecidableEq

/-- `ip_network(text, strict=False)` with the scope, which is lost when bits behind the prefix are masked off. -/
def scopedNetwork (text : List Char) : Option ScopedNetwork :=
  (ipNetwork text).map fun net =>
    ⟨net, if (ipAddress (hostPart text)).map IpAddress.ip = some net.networkAddress then scopeText (hostPart text) else []⟩

/-- `str` of an address with its scope. -/
def hostText (dotted : Bool) (address : IpAddress) (scope : List Char) : List Char :=
  addressText dotted address.version address.ip ++ scope

/-- `str` of a network, as a prefix. -/
def prefixText (dotted : Bool) (address : IpAddress) (scope : List Char) (prefixlen : Nat) : List Char :=
  hostText dotted address scope ++ '/' :: Nat.toDigits 10 prefixlen

/-! ## Addresses with scopes -/

/-- An address with a scope that it may have: none but the newer version's has one. -/
structure IsHost (a : IpAddress) (scope : List Char) : Prop where
  bound : a.ip < 2 ^ a.version.maxPrefixlen
  isScope : IsScope scope
  noScope : a.version = .v4 → scope = []

theorem scopeText_eq_nil {text : List Char} (h : '%' ∉ text) : scopeText text = [] := by
  rw [scopeText, partitionAt_eq_none h]

theorem isScope_scopeText {text addr : List Char} (h : splitScopeId text = some addr) (hslash : '/' ∉ text) :
    IsScope (scopeText text) := by
  unfold splitScopeId at h
  cases hpercent : partitionAt '%' text with
  | none =>
    rw [scopeText, hpercent]
    exact .inl rfl
  | some p =>
    rw [hpercent] at h
    simp only at h
    split at h
    · cases h
    · rename_i hzone
      rw [Bool.or_eq_true, not_or, List.isEmpty_iff, decide_eq_true_eq] at hzone
      rw [scopeText, hpercent]
      refine .inr ⟨p.2, rfl, hzone.1, hzone.2, fun hmem => hslash ?_⟩
      rw [(partitionAt_eq_some hpercent).1]
      exact List.mem_append_right _ (List.mem_cons_of_mem _ hmem)

theorem slash_not_mem_of_ipAddress {text : List Char} {a : IpAddress} (h : ipAddress text = some a) : '/' ∉ text := by
  intro hslash
  rw [ipAddress, if_pos hslash] at h
  cases h

theorem isHost_of_ipv4Address {text : List Char} {a : IpAddress} (h : ipv4Address text = some a) : IsHost a (scopeText text) := by
  obtain ⟨ip, hip, rfl⟩ := Option.map_eq_some_iff.1 h
  have hpercent : '%' ∉ text := fun hmem => by
    rcases digit_or_dot_of_ipv4FromString hip _ hmem with h | h <;> cases h
  have hscope := scopeText_eq_nil hpercent
  exact ⟨ipv4FromString_lt hip, .inl hscope, fun _ => hscope⟩

theorem isHost_of_ipv6Address {text : List Char} {a : IpAddress} (h : ipv6Address text = some a) (hslash : '/' ∉ text) :
    IsHost a (scopeText text) := by
  obtain ⟨addr, haddr, h⟩ := Option.bind_eq_some_iff.1 h
  obtain ⟨ip, hip, h⟩ := Option.bind_eq_some_iff.1 h
  obtain rfl := Option.some.inj h
  exact ⟨ipv6FromString_lt hip, isScope_scopeText haddr hslash, fun h => by cases h⟩

theorem isHost_of_ipAddress {text : List Char} {a : IpAddress} (h : ipAddress text = some a) : IsHost a (scopeText text) := by
  have hslash := slash_not_mem_of_ipAddress h
  rw [ipAddress, if_neg hslash] at h
  cases h4 : ipv4Address text with
  | some a4 =>
    rw [h4] at h
    obtain rfl := Option.some.inj h
    exact isHost_of_ipv4Address h4
  | none =>
    rw [h4] at h
    exact isHost_of_ipv6Address h hslash

/-- An address without its scope. -/
theorem IsHost.unscoped {a : IpAddress} {scope : List Char} (h : IsHost a scope) : IsHost a [] :=
  ⟨h.bound, .inl rfl, fun _ => rfl⟩

section HostTexts

variable (dotted : Bool) {a : IpAddress} {scope : List Char}

theorem ipAddress_hostText (h : IsHost a scope) : ipAddress (hostText dotted a scope) = some a :=
  ipAddress_addressText h.bound dotted h.isScope h.noScope

theorem scopeText_hostText (h : IsHost a scope) : scopeText (hostText dotted a scope) = scope := by
  have hpercent : '%' ∉ addressText dotted a.version a.ip := not_mem_addressText (by decide) dotted a.version a.ip
  rcases h.isScope with rfl | ⟨zone, rfl, -⟩
  · rw [hostText, List.append_nil, scopeText_eq_nil hpercent]
  · rw [hostText, scopeText, partitionAt_append hpercent]

theorem slash_not_mem_hostText (h : IsHost a scope) : '/' ∉ hostText dotted a scope :=
  slash_not_mem_of_ipAddress (ipAddress_hostText dotted h)

end HostTexts

/-! ## Networks -/

theorem slash_not_mem_hostPart (text : List Char) : '/' ∉ hostPart text := fun hmem => by
  have hne := List.mem_takeWhile_imp hmem
  simp at hne

theorem hostPart_eq_self {text : List Char} (h : '/' ∉ text) : hostPart text = text :=
  List.takeWhile_eq_self_iff.2 fun c hc => by
    rw [decide_eq_true_eq]
    rintro rfl
    exact h hc

/-- The text in front of the first slash, and what is behind it. -/
theorem hostPart_split (text : List Char) :
    text = hostPart text ∨ ∃ rest : List Char, text = hostPart text ++ '/' :: rest := by
  have hsplit : hostPart text ++ text.dropWhile (fun c => c ≠ '/') = text := List.takeWhile_append_dropWhile
  cases hrest : text.dropWhile (fun c => c ≠ '/') with
  | nil =>
    rw [hrest, List.append_nil] at hsplit
    exact .inl hsplit.symm
  | cons c rest =>
    have hhead := List.head?_dropWhile_not (fun c => decide (c ≠ '/')) text
    rw [hrest] at hhead hsplit
    obtain rfl : c = '/' := by simpa using hhead
    exact .inr ⟨rest, hsplit.symm⟩

theorem splitOptionalNetmask_of_not_mem {text : List Char} (h : '/' ∉ text) : splitOptionalNetmask text = some (text, none) := by
  rw [splitOptionalNetmask, List.splitOn_eq_singleton h]

theorem splitOptionalNetmask_append {addr mask : List Char} (haddr : '/' ∉ addr) (hmask : '/' ∉ mask) :
    splitOptionalNetmask (addr ++ '/' :: mask) = some (addr, some mask) := by
  rw [splitOptionalNetmask, List.splitOn_append_cons_self_of_not_mem haddr, List.splitOn_eq_singleton hmask]

theorem hostPart_of_splitOptionalNetmask {text addr : List Char} {mask : Option (List Char)}
    (h : splitOptionalNetmask text = some (addr, mask)) : addr = hostPart text := by
  rcases hostPart_split text with hwhole | ⟨rest, hrest⟩
  · have hnot : '/' ∉ text := hwhole ▸ slash_not_mem_hostPart text
    rw [splitOptionalNetmask_of_not_mem hnot] at h
    rw [← hwhole]
    exact ((Prod.mk.inj (Option.some.inj h)).1).symm
  · unfold splitOptionalNetmask at h
    rw [hrest, List.splitOn_append_cons_self_of_not_mem (slash_not_mem_hostPart text)] at h
    cases hparts : rest.splitOn '/' with
    | nil => exact absurd hparts (List.splitOn_ne_nil _ _)
    | cons p ps =>
      rw [hparts] at h
      cases ps with
      | nil => exact ((Prod.mk.inj (Option.some.inj h)).1).symm
      | cons q qs => cases h

theorem colon_mem_of_ipv6FromString {text : List Char} {ip : Nat} (h : ipv6FromString text = some ip) : ':' ∈ text := by
  by_contra hcolon
  have hparts : ipv6Parts text = none := by
    unfold ipv6Parts
    rw [List.splitOn_eq_singleton hcolon]
    rfl
  unfold ipv6FromString at h
  rw [hparts] at h
  cases h

theorem addr_append_scopeText {text addr : List Char} (h : splitScopeId text = some addr) : addr ++ scopeText text = text := by
  unfold splitScopeId at h
  cases hpercent : partitionAt '%' text with
  | none =>
    rw [hpercent] at h
    obtain rfl := Option.some.inj h
    rw [scopeText, hpercent, List.append_nil]
  | some p =>
    rw [hpercent] at h
    simp only at h
    split at h
    · cases h
    · obtain rfl := Option.some.inj h
      rw [scopeText, hpercent]
      exact ((partitionAt_eq_some hpercent).1).symm

theorem colon_mem_of_ipv6Address {text : List Char} {a : IpAddress} (h : ipv6Address text = some a) : ':' ∈ text := by
  obtain ⟨addr, haddr, h⟩ := Option.bind_eq_some_iff.1 h
  obtain ⟨ip, hip, -⟩ := Option.bind_eq_some_iff.1 h
  rw [← addr_append_scopeText haddr]
  exact List.mem_append_left _ (colon_mem_of_ipv6FromString hip)

/-- The one version a text is an address of. -/
theorem ipAddress_cases {text : List Char} {a : IpAddress} (h : ipAddress text = some a) :
    (a.version = .v4 ∧ ipv4Address text = some a) ∨ (a.version = .v6 ∧ ipv4Address text = none ∧ ipv6Address text = some a) := by
  rw [ipAddress, if_neg (slash_not_mem_of_ipAddress h)] at h
  cases h4 : ipv4Address text with
  | some a4 =>
    rw [h4] at h
    obtain rfl := Option.some.inj h
    obtain ⟨ip, -, rfl⟩ := Option.map_eq_some_iff.1 h4
    exact .inl ⟨rfl, rfl⟩
  | none =>
    rw [h4] at h
    have h6 : ipv6Address text = some a := h
    obtain ⟨addr, -, h⟩ := Option.bind_eq_some_iff.1 h6
    obtain ⟨ip, -, h⟩ := Option.bind_eq_some_iff.1 h
    obtain rfl := Option.some.inj h
    exact .inr ⟨rfl, rfl, h6⟩

theorem ipNetwork_eq_some {text addr : List Char} {mask : Option (List Char)} {a : IpAddress} {prefixlen : Nat}
    (hsplit : splitOptionalNetmask text = some (addr, mask)) (ha : ipAddress addr = some a)
    (hmask : makeNetmask a.version mask = some prefixlen) :
    (IpNetwork.ofHost a.version a.ip prefixlen).isSome → ipNetwork text = IpNetwork.ofHost a.version a.ip prefixlen := by
  intro hsome
  obtain ⟨net, hnet⟩ := Option.isSome_iff_exists.1 hsome
  rcases ipAddress_cases ha with ⟨hv, h4⟩ | ⟨hv, h4, h6⟩ <;> rw [hv] at hmask hnet ⊢
  · simp [ipNetwork, ipNetworkOf, hsplit, h4, hmask, hnet]
  · simp [ipNetwork, ipNetworkOf, hsplit, h4, h6, hmask]

/-- A network's text is that of an address, with the length of a prefix. -/
theorem ipNetwork_cases {text : List Char} {net : IpNetwork} (h : ipNetwork text = some net) :
    ∃ a prefixlen, ipAddress (hostPart text) = some a ∧ IpNetwork.ofHost a.version a.ip prefixlen = some net := by
  have hpart := slash_not_mem_hostPart text
  cases h4 : ipNetworkOf .v4 text with
  | some net4 =>
    rw [ipNetwork, h4] at h
    obtain rfl := Option.some.inj h
    obtain ⟨⟨addr, mask⟩, hsplit, h⟩ := Option.bind_eq_some_iff.1 h4
    obtain ⟨a, ha, h⟩ := Option.bind_eq_some_iff.1 h
    obtain ⟨prefixlen, -, h⟩ := Option.bind_eq_some_iff.1 h
    have haddr : ipv4Address (hostPart text) = some a := hostPart_of_splitOptionalNetmask hsplit ▸ ha
    obtain ⟨ip, -, rfl⟩ := Option.map_eq_some_iff.1 haddr
    refine ⟨⟨.v4, ip⟩, prefixlen, ?_, h⟩
    rw [ipAddress, if_neg hpart, haddr]
    rfl
  | none =>
    rw [ipNetwork, h4] at h
    obtain ⟨⟨addr, mask⟩, hsplit, h⟩ := Option.bind_eq_some_iff.1 (h : ipNetworkOf .v6 text = some net)
    obtain ⟨a, ha, h⟩ := Option.bind_eq_some_iff.1 h
    obtain ⟨prefixlen, -, h⟩ := Option.bind_eq_some_iff.1 h
    have haddr : ipv6Address (hostPart text) = some a := hostPart_of_splitOptionalNetmask hsplit ▸ ha
    have hnone := ipv4Address_eq_none (colon_mem_of_ipv6Address haddr) (by decide) (by decide)
    have hread : ipAddress (hostPart text) = some a := by
      rw [ipAddress, if_neg hpart, hnone]
      exact haddr
    obtain ⟨hv, -⟩ := (ipAddress_cases hread).resolve_left fun h => by
      rw [hnone] at h
      cases h.2
    exact ⟨a, prefixlen, hread, hv ▸ h⟩

namespace ScopedNetwork

/-- The first address of a network. -/
def address (n : ScopedNetwork) : IpAddress := ⟨n.net.version, n.net.networkAddress⟩

/-- A network whose first address may have the network's scope. -/
def IsValid (n : ScopedNetwork) : Prop := IsHost n.address n.scope

end ScopedNetwork

theorem isValid_of_scopedNetwork {text : List Char} {n : ScopedNetwork} (h : scopedNetwork text = some n) : n.IsValid := by
  obtain ⟨net, hnet, rfl⟩ := Option.map_eq_some_iff.1 h
  obtain ⟨a, prefixlen, ha, hof⟩ := ipNetwork_cases hnet
  have hhost := isHost_of_ipAddress ha
  unfold IpNetwork.ofHost at hof
  split at hof
  · obtain rfl := Option.some.inj hof
    have hle : a.ip / 2 ^ (a.version.maxPrefixlen - prefixlen) * 2 ^ (a.version.maxPrefixlen - prefixlen) ≤ a.ip :=
      Nat.div_mul_le_self _ _
    refine ⟨Nat.lt_of_le_of_lt hle hhost.bound, ?_, fun hv => ?_⟩
    · dsimp only
      split
      · exact hhost.isScope
      · exact .inl rfl
    · dsimp only
      split
      · exact hhost.noScope hv
      · rfl
  · cases hof

theorem ofHost_networkAddress (net : IpNetwork) : IpNetwork.ofHost net.version net.networkAddress net.prefixlen = some net := by
  rw [IpNetwork.ofHost, dif_pos net.prefixlen_le]
  have hmul := Nat.div_mul_cancel net.aligned
  cases net
  congr 2

theorem makeNetmask_toDigits {version : IpVersion} {prefixlen : Nat} (h : prefixlen ≤ version.maxPrefixlen) :
    makeNetmask version (some (Nat.toDigits 10 prefixlen)) = some prefixlen := by
  have huint := isAsciiUint_toDigits prefixlen
  have hlength : (Nat.toDigits 10 prefixlen).length ≤ INT_MAX_STR_DIGITS := by
    have hmax : version.maxPrefixlen < 10 ^ 3 := by cases version <;> decide
    have hshort : (Nat.toDigits 10 prefixlen).length ≤ 3 :=
      (Nat.length_toDigits_le_iff (by decide) (by decide)).2 (Nat.lt_of_le_of_lt h hmax)
    exact hshort.trans (by decide)
  have hread : prefixFromPrefixString version (Nat.toDigits 10 prefixlen) = some prefixlen := by
    rw [prefixFromPrefixString, huint, uintValue_toDigits (by decide) (by decide), decide_eq_true hlength, Bool.true_and,
      Bool.true_and, if_pos (decide_eq_true h)]
  cases version with
  | v4 =>
    rw [makeNetmask, hread]
    rfl
  | v6 => exact hread

section NetworkTexts

variable (dotted : Bool) {n : ScopedNetwork}

/-- A network that is read back, from a text whose address is the network's first. -/
theorem scopedNetwork_eq_some (h : n.IsValid) {text : List Char} {mask : Option (List Char)}
    (hsplit : splitOptionalNetmask text = some (hostText dotted n.address n.scope, mask))
    (hmask : makeNetmask n.net.version mask = some n.net.prefixlen) : scopedNetwork text = some n := by
  have ha := ipAddress_hostText dotted h
  have hnet := ofHost_networkAddress n.net
  have hread : ipNetwork text = some n.net := by
    have heq := ipNetwork_eq_some hsplit ha hmask
    exact (heq (Option.isSome_iff_exists.2 ⟨n.net, hnet⟩)).trans hnet
  have hpart : hostPart text = hostText dotted n.address n.scope := (hostPart_of_splitOptionalNetmask hsplit).symm
  rw [scopedNetwork, hread, hpart, ha, scopeText_hostText dotted h]
  simp [ScopedNetwork.address]

theorem scopedNetwork_prefixText (h : n.IsValid) : scopedNetwork (prefixText dotted n.address n.scope n.net.prefixlen) = some n := by
  have hslash : '/' ∉ Nat.toDigits 10 n.net.prefixlen := not_mem_toDigits (by decide) (by decide) (by decide) _
  exact scopedNetwork_eq_some dotted h (splitOptionalNetmask_append (slash_not_mem_hostText dotted h) hslash)
    (makeNetmask_toDigits n.net.prefixlen_le)

theorem scopedNetwork_hostText (h : n.IsValid) (hwhole : n.net.prefixlen = n.net.version.maxPrefixlen) :
    scopedNetwork (hostText dotted n.address n.scope) = some n :=
  scopedNetwork_eq_some dotted h (splitOptionalNetmask_of_not_mem (slash_not_mem_hostText dotted h)) (congrArg some hwhole.symm)

end NetworkTexts

/-! ## Characters -/

theorem isHexDigit_of_hextetsValue {parts : List (List Char)} {value : Nat} (h : hextetsValue parts = some value) :
    ∀ p ∈ parts, ∀ c ∈ p, isHexDigit c = true := by
  intro p hp c hc
  obtain ⟨values, hvalues, -⟩ := Option.bind_eq_some_iff.1 h
  have hsome := mapM_isSome_iff.1 (Option.isSome_iff_exists.2 ⟨values, hvalues⟩) p hp
  unfold parseHextet at hsome
  split at hsome
  · cases hsome
  · rename_i hcheck
    simp only [Bool.or_eq_true, not_or, Bool.not_eq_true, Bool.not_eq_false'] at hcheck
    exact List.all_eq_true.1 hcheck.1.2 c hc

/-- An edge of the parts left out: what is read of it has hexadecimal digits, and otherwise it is empty. -/
theorem isHexDigit_of_edge {side : List (List Char)} {edge : Option (List Char)} {value : Nat}
    (hedge : ∀ p, side = [p] → edge = some p) (hshort : ¬((side = [] ∨ edge = some []) ∧ 1 < side.length))
    (hvalue : hextetsValue (if side = [] ∨ edge = some [] then [] else side) = some value) :
    ∀ p ∈ side, ∀ c ∈ p, isHexDigit c = true := by
  by_cases hempty : side = [] ∨ edge = some []
  · intro p hp c hc
    obtain rfl : side = [p] := by
      match side, hp with
      | [q], hp => rw [List.mem_singleton.1 hp]
      | q :: r :: rest, _ => exact absurd ⟨hempty, by simp⟩ hshort
    rw [hedge p rfl] at hempty
    rcases hempty with h | h
    · cases h
    · rw [Option.some.inj h] at hc
      cases hc
  · rw [if_neg hempty] at hvalue
    exact isHexDigit_of_hextetsValue hvalue

theorem isHexDigit_of_ipv6Parts {text : List Char} {parts : List (List Char)} {tail ip : Nat}
    (hparts : ipv6Parts text = some (parts, tail)) (h : ipv6FromString text = some ip) :
    ∀ p ∈ parts, ∀ c ∈ p, isHexDigit c = true := by
  unfold ipv6FromString at h
  simp only [hparts, Option.bind_eq_bind, Option.bind_some] at h
  by_cases hlong : 9 < parts.length
  · rw [if_pos hlong] at h
    cases h
  · rw [if_neg hlong] at h
    split at h
    · split at h
      · cases h
      · obtain ⟨value, hvalue, -⟩ := Option.bind_eq_some_iff.1 h
        exact isHexDigit_of_hextetsValue hvalue
    · rename_i skip hskip
      have hempty : parts[skip]? = some [] := by
        have hmem : skip ∈ skipIndices parts := by
          rw [hskip]
          exact List.mem_singleton_self skip
        simp only [skipIndices, List.mem_filter, Bool.and_eq_true, decide_eq_true_eq] at hmem
        exact hmem.2.2
      split at h
      · cases h
      · rename_i hshort
        generalize hhi : (if List.take skip parts = [] ∨ (List.take skip parts).head? = some [] then []
          else List.take skip parts) = hi at h
        generalize hlo : (if List.drop (skip + 1) parts = [] ∨ (List.drop (skip + 1) parts).getLast? = some [] then []
          else List.drop (skip + 1) parts) = lo at h
        split at h
        · cases h
        · obtain ⟨high, hhigh, h⟩ := Option.bind_eq_some_iff.1 h
          obtain ⟨low, hlow, -⟩ := Option.bind_eq_some_iff.1 h
          subst hhi hlo
          have hleft := isHexDigit_of_edge (fun p hp => by rw [hp]; rfl) (fun h => hshort (.inl h)) hhigh
          have hright := isHexDigit_of_edge (fun p hp => by rw [hp]; rfl) (fun h => hshort (.inr h)) hlow
          intro p hp
          rw [← List.take_append_drop skip parts, List.mem_append] at hp
          rcases hp with hp | hp
          · exact hleft p hp
          · obtain ⟨hlt, hget⟩ := List.getElem?_eq_some_iff.1 hempty
            rw [List.drop_eq_getElem_cons hlt, hget, List.mem_cons] at hp
            rcases hp with rfl | hp
            · intro c hc
              cases hc
            · exact hright p hp
    · cases h

theorem isAddressChar_of_ipv6FromString {text : List Char} {ip : Nat} (h : ipv6FromString text = some ip) :
    ∀ c ∈ text, isAddressChar c = true := by
  obtain ⟨⟨parts, tail⟩, hparts, -⟩ := Option.bind_eq_some_iff.1 h
  have hhex := isHexDigit_of_ipv6Parts hparts h
  rw [← @List.intercalate_splitOn _ text _ _ ':']
  refine forall_mem_intercalate (by decide) fun p hp c hc => ?_
  unfold ipv6Parts at hparts
  simp only at hparts
  split at hparts
  · cases hparts
  · split at hparts
    · cases hparts
    · rename_i last hlast
      split at hparts
      · obtain ⟨ipv4, hipv4, heq⟩ := Option.map_eq_some_iff.1 hparts
        obtain ⟨rfl, -⟩ := Prod.mk.inj heq
        rw [← List.dropLast_append_getLast? last hlast, List.mem_append] at hp
        rcases hp with hp | hp
        · exact isAddressChar_of_hexDigit (hhex p (List.mem_append_left _ hp) c hc)
        · obtain rfl := List.mem_singleton.1 hp
          rcases digit_or_dot_of_ipv4FromString hipv4 c hc with hdigit | rfl
          · exact isAddressChar_of_hexDigit (by simp [isHexDigit, hdigit])
          · decide
      · obtain ⟨rfl, -⟩ := Prod.mk.inj (Option.some.inj hparts)
        exact isAddressChar_of_hexDigit (hhex p hp c hc)

/-- The text of an address in front of its scope has hexadecimal digits, colons and dots only. -/
theorem isAddressChar_of_ipAddress {text : List Char} {a : IpAddress} (h : ipAddress text = some a) :
    ∃ addr, text = addr ++ scopeText text ∧ ∀ c ∈ addr, isAddressChar c = true := by
  rcases ipAddress_cases h with ⟨-, h4⟩ | ⟨-, -, h6⟩
  · obtain ⟨ip, hip, rfl⟩ := Option.map_eq_some_iff.1 h4
    have hchars := digit_or_dot_of_ipv4FromString hip
    have hpercent : '%' ∉ text := fun hmem => by
      rcases hchars _ hmem with h | h <;> cases h
    refine ⟨text, by rw [scopeText_eq_nil hpercent, List.append_nil], fun c hc => ?_⟩
    rcases hchars c hc with hdigit | rfl
    · exact isAddressChar_of_hexDigit (by simp [isHexDigit, hdigit])
    · decide
  · obtain ⟨addr, haddr, h⟩ := Option.bind_eq_some_iff.1 h6
    obtain ⟨ip, hip, -⟩ := Option.bind_eq_some_iff.1 h
    exact ⟨addr, (addr_append_scopeText haddr).symm, isAddressChar_of_ipv6FromString hip⟩

/-! ## Subnets -/

namespace ScopedNetwork

/-- The last address of a network. -/
def broadcast (n : ScopedNetwork) : Nat := n.net.networkAddress + n.net.numAddresses - 1

/-- `subnet_of`: a network's first address is not above another's, which needs the same scope where the numbers are equal, and its
last one is not below. -/
def subnetOf (a b : ScopedNetwork) : Bool :=
  (b.net.networkAddress < a.net.networkAddress || (b.net.networkAddress = a.net.networkAddress && b.scope = a.scope)) &&
    a.broadcast ≤ b.broadcast

/-- An address is in a network. -/
def Holds (n : ScopedNetwork) (ip : Nat) : Prop := n.net.networkAddress ≤ ip ∧ ip < n.net.networkAddress + n.net.numAddresses

theorem numAddresses_pos (n : ScopedNetwork) : 0 < n.net.numAddresses := Nat.two_pow_pos _

theorem holds_networkAddress (n : ScopedNetwork) : n.Holds n.net.networkAddress :=
  ⟨Nat.le_refl _, Nat.lt_add_of_pos_right n.numAddresses_pos⟩

/-- A network with a whole prefix is one address. -/
theorem holds_of_whole {n : ScopedNetwork} (h : n.net.prefixlen = n.net.version.maxPrefixlen) {ip : Nat} :
    n.Holds ip ↔ ip = n.net.networkAddress := by
  have hone : n.net.numAddresses = 1 := by rw [IpNetwork.numAddresses, h, Nat.sub_self, pow_zero]
  rw [Holds, hone]
  omega

variable {a b c : ScopedNetwork}

theorem subnetOf_iff :
    a.subnetOf b = true ↔
      (b.net.networkAddress < a.net.networkAddress ∨ b.net.networkAddress = a.net.networkAddress ∧ b.scope = a.scope) ∧
        a.net.networkAddress + a.net.numAddresses ≤ b.net.networkAddress + b.net.numAddresses := by
  have ha := a.numAddresses_pos
  have hb := b.numAddresses_pos
  have hlast : a.broadcast ≤ b.broadcast ↔
      a.net.networkAddress + a.net.numAddresses ≤ b.net.networkAddress + b.net.numAddresses := by
    unfold broadcast
    omega
  rw [← hlast]
  simp only [subnetOf, Bool.and_eq_true, Bool.or_eq_true, decide_eq_true_eq]

theorem subnetOf_refl (a : ScopedNetwork) : a.subnetOf a = true := subnetOf_iff.2 ⟨.inr ⟨rfl, rfl⟩, Nat.le_refl _⟩

theorem subnetOf_trans (hab : a.subnetOf b = true) (hbc : b.subnetOf c = true) : a.subnetOf c = true := by
  obtain ⟨hlow, hhigh⟩ := subnetOf_iff.1 hab
  obtain ⟨hlow', hhigh'⟩ := subnetOf_iff.1 hbc
  refine subnetOf_iff.2 ⟨?_, Nat.le_trans hhigh hhigh'⟩
  rcases hlow with hlt | ⟨heq, hscope⟩ <;> rcases hlow' with hlt' | ⟨heq', hscope'⟩
  · exact .inl (Nat.lt_trans hlt' hlt)
  · exact .inl (heq' ▸ hlt)
  · exact .inl (heq ▸ hlt')
  · exact .inr ⟨heq'.trans heq, hscope'.trans hscope⟩

theorem Holds.of_subnetOf {ip : Nat} (h : a.Holds ip) (hsub : a.subnetOf b = true) : b.Holds ip := by
  obtain ⟨hlow, hhigh⟩ := subnetOf_iff.1 hsub
  obtain ⟨hle, hlt⟩ := h
  refine ⟨?_, by omega⟩
  rcases hlow with hlow | ⟨heq, -⟩ <;> omega

theorem numAddresses_le_of_subnetOf (hsub : a.subnetOf b = true) : a.net.numAddresses ≤ b.net.numAddresses := by
  obtain ⟨hlow, hhigh⟩ := subnetOf_iff.1 hsub
  rcases hlow with hlow | ⟨heq, -⟩ <;> omega

/-- A subnet of the same size is the network itself. -/
theorem eq_of_subnetOf (hversion : a.net.version = b.net.version) (hsub : a.subnetOf b = true)
    (hsize : b.net.numAddresses ≤ a.net.numAddresses) : a = b := by
  obtain ⟨hlow, hhigh⟩ := subnetOf_iff.1 hsub
  obtain ⟨heq, hscope⟩ : b.net.networkAddress = a.net.networkAddress ∧ b.scope = a.scope :=
    hlow.resolve_left fun hlt => by omega
  have hnum : a.net.numAddresses = b.net.numAddresses := Nat.le_antisymm (numAddresses_le_of_subnetOf hsub) hsize
  obtain ⟨⟨version, first, p, hp, haligned⟩, scope⟩ := a
  obtain ⟨⟨version', first', p', hp', haligned'⟩, scope'⟩ := b
  obtain rfl : version = version' := hversion
  obtain rfl : first' = first := heq
  obtain rfl : scope' = scope := hscope
  have hexp : version.maxPrefixlen - p = version.maxPrefixlen - p' := Nat.pow_right_injective (Nat.le_refl 2) hnum
  have hpeq : p = p' := by omega
  subst hpeq
  rfl

/-- What properly contains a network has a shorter prefix. -/
theorem prefixlen_lt_of_subnetOf (hversion : b.net.version = a.net.version) (hsub : a.subnetOf b = true) (hne : a ≠ b) :
    b.net.prefixlen < a.net.prefixlen := by
  by_contra hle
  refine hne (eq_of_subnetOf hversion.symm hsub ?_)
  refine Nat.pow_le_pow_right (by decide) ?_
  rw [hversion]
  omega

end ScopedNetwork

end Ferm
