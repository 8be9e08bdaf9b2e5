import Ferm.SetCanon
import Ferm.SetOrder

/-!
# The members of canonical sets

`canonicalize_set_elements`: the elements are spelled as nft stores them, doubles and networks inside others are dropped, and the
rest is sorted. What the elements denote together stays, but where two spellings of one IPv4-mapped address drop each other.
-/

namespace Ferm

/-! ## Lists of elements -/

/-- An element is a network that is contained in another one of the list. -/
def isContained (canonical : List String) (e : String) : Bool :=
  match scopedNetwork e.toList with
  | none => false
  | some n => canonical.any fun other => other ≠ e &&
      (scopedNetwork other.toList).any fun m => m.net.version = n.net.version && n.subnetOf m

/-- `_drop_contained_networks`. -/
def dropContainedNetworks (canonical : List String) : List String := canonical.filter fun e => !isContained canonical e

namespace SetOrder

/-- `canonicalize_element`, which classifies the element first. -/
def canonicalizeElement (dotted : Bool) (element : String) : Except Raised String := do
  let _ ← classify element
  return Ferm.canonicalizeElement dotted element

/-- `canonicalize_set_elements`. -/
def canonicalizeSetElements (dotted absorbContained : Bool) (elements : List String) : Except Raised (List String) := do
  let canonical ← elements.mapM (canonicalizeElement dotted)
  sortSetElements (if absorbContained then dropContainedNetworks canonical.eraseDups else canonical.eraseDups)

end SetOrder

example : SetOrder.canonicalizeSetElements true true ["10.0.0.5", "udp", "10.0.0.0-10.0.0.255"] = .ok ["10.0.0.0/24", "udp"] := by
  decide +kernel

/-! ## Spelled elements -/

/-- An element as it is spelled: a word that is no network, the stored text of a network, or the other text of a mapped address. -/
inductive IsSpelled (dotted : Bool) (t : String) : Prop
  | other (hnet : scopedNetwork t.toList = none) (hfix : canonicalizeElement dotted t = t)
  | network {n : ScopedNetwork} (hnet : scopedNetwork t.toList = some n) (htext : t = String.ofList (nftNetworkText dotted n))
    (hdenotes : ∀ m, Denotes t m ↔ ∃ ip, n.Holds ip ∧ m = .address n.net.version ip) (hfix : canonicalizeElement dotted t = t)
  | mapped {a : IpAddress} (hnet : scopedNetwork t.toList = some (hostNetwork a)) (htext : t = String.ofList (hostText dotted a []))
    (hmapped : (hostNetwork a).IsMappedHost) (hdenotes : ∀ m, Denotes t m ↔ m = .address a.version a.ip)
    (hfix : canonicalizeElement dotted t ≠ t)

section Spelled

variable {dotted : Bool} {e t : String}

theorem reads_canon_range {a b : IpAddress} {scope : List Char} (ha : IsHost a []) (hb : IsHost b scope) (hversion : a.version = b.version) :
    ReadsRange (String.ofList (rangeText dotted a b [] scope)).toList (hostText dotted a []) (hostText dotted b scope) a b := by
  rw [String.toList_ofList]
  exact reads_rangeText dotted ha hb List.not_mem_nil hversion

/-- The text of a range is no network, and stays. -/
theorem canon_range {a b : IpAddress} {scope : List Char} (ha : IsHost a []) (hb : IsHost b scope) (hversion : a.version = b.version)
    (hle : a.ip ≤ b.ip) (hblock : isAlignedBlock a.ip b.ip = false) :
    scopedNetwork (String.ofList (rangeText dotted a b [] scope)).toList = none ∧
      canonicalizeElement dotted (String.ofList (rangeText dotted a b [] scope)) = String.ofList (rangeText dotted a b [] scope) := by
  have hreads : ReadsRange (String.ofList (rangeText dotted a b [] scope)).toList _ _ a b := reads_canon_range ha hb hversion
  have hlow := scopeText_hostText dotted ha
  refine ⟨by rw [scopedNetwork, ipNetwork_eq_none_of_reads hreads hlow]; rfl, ?_⟩
  rw [canonicalizeElement_of_reads dotted hreads, collapseAddressRange_of_reads dotted hreads, if_neg (Nat.not_lt.2 hle), if_pos hblock,
    hlow, scopeText_hostText dotted hb]
  rfl

theorem canon_network {n : ScopedNetwork} (hvalid : n.IsValid) (hdash : '-' ∉ n.scope) :
    scopedNetwork (nftNetworkText dotted n) = some n.stored ∧
      canonicalizeElement dotted (String.ofList (nftNetworkText dotted n)) = String.ofList (nftNetworkText dotted n) := by
  have htext := isNetworkText_stored dotted hdash
  refine ⟨htext.scopedNetwork hvalid.stored, ?_⟩
  rw [htext.canonicalizeElement hvalid.stored, nftNetworkText_stored]

/-- The other text of a mapped address. -/
theorem isNetworkText_hostText {a : IpAddress} : IsNetworkText dotted (hostNetwork a) (hostText dotted a []) := by
  refine .inr ⟨rfl, rangeClass_of_not_mem ?_, dotted, rfl⟩
  rw [hostText, List.append_nil]
  exact not_mem_addressText (by decide) dotted _ _

theorem scopedNetwork_host {a : IpAddress} (ha : IsHost a []) :
    scopedNetwork (String.ofList (hostText dotted a [])).toList = some (hostNetwork a) := by
  have htext : IsNetworkText dotted (hostNetwork a) (hostText dotted a []) := isNetworkText_hostText
  rw [String.toList_ofList, htext.scopedNetwork ha]

/-- What an element is spelled as denotes the same. -/
theorem CanonOf.denotes (h : CanonOf dotted e t) (m : Member) : Denotes t m ↔ Denotes e m := by
  cases h with
  | same => rfl
  | @network n hvalid hdash hdenotes =>
    rw [(isNetworkText_stored dotted hdash).denotes hvalid.stored, hdenotes]
    simp only [ScopedNetwork.Holds, ScopedNetwork.stored_net]
  | range ha hb hversion hle hblock hdenotes =>
    rw [hdenotes, Denotes, elementClass_of_reads (reads_canon_range ha hb hversion)]
  | @mapped a ha hmapped hrange hdenotes =>
    rw [isNetworkText_hostText.denotes ha, hdenotes]
    simp only [holds_hostNetwork, exists_eq_left]
    rfl

/-- The other text of a mapped address does not stay. -/
theorem canon_host_ne {a : IpAddress} (ha : IsHost a []) (hmapped : (hostNetwork a).IsMappedHost) (hdotted : dotted = false) :
    canonicalizeElement dotted (String.ofList (hostText dotted a [])) ≠ String.ofList (hostText dotted a []) := by
  have htext : IsNetworkText dotted (hostNetwork a) (hostText dotted a []) := isNetworkText_hostText
  rw [htext.canonicalizeElement ha]
  intro heq
  have hstored := (hostText_eq_stored_iff hmapped ha).1 (String.ofList_injective heq).symm
  rw [hdotted] at hstored
  cases hstored.1

theorem CanonOf.isSpelled (h : CanonOf dotted e t) : IsSpelled dotted t := by
  have hsame := h.denotes
  cases h with
  | same hnet hfix => exact .other hnet hfix
  | @network n hvalid hdash hdenotes =>
    obtain ⟨hnet, hfix⟩ : scopedNetwork (nftNetworkText dotted n) = some n.stored ∧ _ := canon_network hvalid hdash
    refine .network (n := n.stored) ?_ (by rw [nftNetworkText_stored]) (fun m => ?_) hfix
    · rw [String.toList_ofList, hnet]
    · rw [hsame, hdenotes]
      simp only [ScopedNetwork.Holds, ScopedNetwork.stored_net]
  | range ha hb hversion hle hblock =>
    obtain ⟨hnet, hfix⟩ := canon_range ha hb hversion hle hblock
    exact .other hnet hfix
  | @mapped a ha hmapped hrange hdenotes =>
    exact .mapped (scopedNetwork_host ha) rfl hmapped (fun m => (hsame m).trans (hdenotes m)) (canon_host_ne ha hmapped hrange.1)

/-- Spelling an element twice gives what spelling it once gives. -/
theorem IsSpelled.canon_canon (h : IsSpelled dotted t) :
    canonicalizeElement dotted (canonicalizeElement dotted t) = canonicalizeElement dotted t := by
  cases h with
  | other hnet hfix => rw [hfix, hfix]
  | network hnet htext hdenotes hfix => rw [hfix, hfix]
  | @mapped a hnet htext hmapped hdenotes hfix =>
    have hvalid := isValid_of_scopedNetwork hnet
    have htext' : IsNetworkText dotted (hostNetwork a) (hostText dotted a []) := isNetworkText_hostText
    rw [htext, htext'.canonicalizeElement hvalid]
    exact (canon_network hvalid List.not_mem_nil).2

/-- Two spellings of one network are the same when both stay or neither does. -/
theorem IsSpelled.eq_of_scopedNetwork {t' : String} {n : ScopedNetwork} (h : IsSpelled dotted t) (h' : IsSpelled dotted t')
    (hn : scopedNetwork t.toList = some n) (hn' : scopedNetwork t'.toList = some n)
    (hsame : canonicalizeElement dotted t = t ↔ canonicalizeElement dotted t' = t') : t = t' := by
  cases h with
  | other hnet => rw [hnet] at hn; cases hn
  | network hnet htext hdenotes hfix =>
    cases h' with
    | other hnet' => rw [hnet'] at hn'; cases hn'
    | network hnet' htext' =>
      rw [hnet] at hn
      rw [hnet'] at hn'
      rw [htext, htext', Option.some.inj hn, Option.some.inj hn']
    | mapped hnet' htext' hmapped' hdenotes' hfix' => exact absurd (hsame.1 hfix) hfix'
  | @mapped a hnet htext hmapped hdenotes hfix =>
    cases h' with
    | other hnet' => rw [hnet'] at hn'; cases hn'
    | network hnet' htext' hdenotes' hfix' => exact absurd (hsame.2 hfix') hfix
    | @mapped a' hnet' htext' =>
      have heq : hostNetwork a = hostNetwork a' := Option.some.inj ((hnet.symm.trans hn).trans (hn'.symm.trans hnet'))
      have haddr : a = a' := congrArg ScopedNetwork.address heq
      rw [htext, htext', haddr]

/-- A wider network than an address is spelled in one way. -/
theorem IsSpelled.canon_eq_of_wide {n : ScopedNetwork} (h : IsSpelled dotted t) (hn : scopedNetwork t.toList = some n)
    (hwide : n.net.prefixlen ≠ n.net.version.maxPrefixlen) : canonicalizeElement dotted t = t := by
  cases h with
  | other hnet hfix => exact hfix
  | network hnet htext hdenotes hfix => exact hfix
  | mapped hnet =>
    obtain rfl := Option.some.inj (hnet.symm.trans hn)
    exact absurd rfl hwide

/-- The network of a mapped address has no scope. -/
theorem IsSpelled.eq_hostNetwork {n : ScopedNetwork} (h : IsSpelled dotted t) (hn : scopedNetwork t.toList = some n)
    (hmapped : n.IsMappedHost) : n = hostNetwork n.address := by
  cases h with
  | other hnet => rw [hnet] at hn; cases hn
  | network hnet htext =>
    obtain rfl := Option.some.inj (hnet.symm.trans hn)
    have hvalid : IsHost _ [] := (isValid_of_scopedNetwork hn).unscoped
    rw [htext, nftNetworkText_mapped hmapped, scopedNetwork_host hvalid] at hn
    exact (Option.some.inj hn).symm
  | mapped hnet =>
    obtain rfl := Option.some.inj (hnet.symm.trans hn)
    rfl

/-- What does not stay is the other text of a mapped address. -/
theorem IsSpelled.exists_of_canon_ne (h : IsSpelled dotted t) (hne : canonicalizeElement dotted t ≠ t) :
    ∃ a, scopedNetwork t.toList = some (hostNetwork a) := by
  cases h with
  | other hnet hfix => exact absurd hfix hne
  | network hnet htext hdenotes hfix => exact absurd hfix hne
  | @mapped a hnet => exact ⟨a, hnet⟩

/-- A spelling of a network denotes its addresses. -/
theorem IsSpelled.denotes_iff {n : ScopedNetwork} (h : IsSpelled dotted t) (hn : scopedNetwork t.toList = some n) (m : Member) :
    Denotes t m ↔ ∃ ip, n.Holds ip ∧ m = .address n.net.version ip := by
  cases h with
  | other hnet => rw [hnet] at hn; cases hn
  | network hnet htext hdenotes =>
    obtain rfl := Option.some.inj (hnet.symm.trans hn)
    exact hdenotes m
  | mapped hnet htext hmapped hdenotes =>
    obtain rfl := Option.some.inj (hnet.symm.trans hn)
    rw [hdenotes]
    simp only [holds_hostNetwork, exists_eq_left]
    rfl

end Spelled

/-! ## Absorption -/

section Absorption

variable {dotted : Bool} {c : List String}

theorem isContained_iff {e : String} :
    isContained c e = true ↔ ∃ n, scopedNetwork e.toList = some n ∧ ∃ other ∈ c, other ≠ e ∧
      ∃ m, scopedNetwork other.toList = some m ∧ m.net.version = n.net.version ∧ n.subnetOf m = true := by
  unfold isContained
  cases scopedNetwork e.toList with
  | none => simp
  | some n => simp [Option.any_eq_true]

theorem isContained_eq_false_of_none {e : String} (h : scopedNetwork e.toList = none) : isContained c e = false := by
  rw [isContained, h]

/-- Whether an element is contained depends on the elements of the list only. -/
theorem isContained_congr {c' : List String} (h : ∀ e, e ∈ c ↔ e ∈ c') (e : String) : isContained c e = isContained c' e := by
  rw [Bool.eq_iff_iff, isContained_iff, isContained_iff]
  simp only [h]

/-- A wider network than an address is inside one that is kept. -/
theorem exists_kept_of_wide (hc : ∀ t ∈ c, IsSpelled dotted t) {t : String} {n : ScopedNetwork} (ht : t ∈ c)
    (hn : scopedNetwork t.toList = some n) (hwide : n.net.prefixlen ≠ n.net.version.maxPrefixlen) :
    ∃ k ∈ c, isContained c k = false ∧ ∃ m, scopedNetwork k.toList = some m ∧ m.net.version = n.net.version ∧ n.subnetOf m = true := by
  -- induction on the length of the prefix: what contains a network has a shorter one
  induction hlen : n.net.prefixlen using Nat.strong_induction_on generalizing t n with
  | _ length ih =>
    subst hlen
    cases hcontained : isContained c t with
    | false => exact ⟨t, ht, hcontained, n, hn, rfl, n.subnetOf_refl⟩
    | true =>
      obtain ⟨n', hn', other, hother, hne, m, hm, hversion, hsub⟩ := isContained_iff.1 hcontained
      obtain rfl := Option.some.inj (hn.symm.trans hn')
      have hnm : n ≠ m := by
        rintro rfl
        have hfix := (hc t ht).canon_eq_of_wide hn hwide
        have hfix' := (hc other hother).canon_eq_of_wide hm hwide
        exact hne ((hc other hother).eq_of_scopedNetwork (hc t ht) hm hn (iff_of_true hfix' hfix))
      have hshorter := ScopedNetwork.prefixlen_lt_of_subnetOf hversion hsub hnm
      have hwide' : m.net.prefixlen ≠ m.net.version.maxPrefixlen := by
        have hle := n.net.prefixlen_le
        rw [hversion]
        omega
      obtain ⟨k, hk, hkept, l, hl, hlversion, hlsub⟩ := ih m.net.prefixlen hshorter hother hm hwide' rfl
      exact ⟨k, hk, hkept, l, hl, hlversion.trans hversion, ScopedNetwork.subnetOf_trans hsub hlsub⟩

/-- The other text of a mapped address is contained in another element, and an element that denotes more than the address denotes it. -/
def IsAbsorbed (c : List String) (t : String) (a : IpAddress) : Prop :=
  isContained c t = true ∧ ∃ t' ∈ c, Denotes t' (.address a.version a.ip) ∧ ∃ m ≠ .address a.version a.ip, Denotes t' m

/-- What is kept denotes what all elements denote, when every other text of a mapped address that is contained is absorbed. -/
theorem denotes_kept_iff (hc : ∀ t ∈ c, IsSpelled dotted t)
    (habsorbed : ∀ t ∈ c, ∀ a, canonicalizeElement dotted t ≠ t → scopedNetwork t.toList = some (hostNetwork a) →
      IsAbsorbed c t a) (m : Member) :
    (∃ t ∈ dropContainedNetworks c, Denotes t m) ↔ ∃ t ∈ c, Denotes t m := by
  constructor
  · rintro ⟨t, ht, hm⟩
    exact ⟨t, List.mem_of_mem_filter ht, hm⟩
  · rintro ⟨t, ht, hm⟩
    have hkeep : ∀ k ∈ c, isContained c k = false → Denotes k m → ∃ t ∈ dropContainedNetworks c, Denotes t m := fun k hk hkept hkm =>
      ⟨k, List.mem_filter.2 ⟨hk, by rw [hkept]; rfl⟩, hkm⟩
    -- an element that denotes the member and is wider than an address is inside one that is kept
    have hwider : ∀ k ∈ c, ∀ n, scopedNetwork k.toList = some n → n.net.prefixlen ≠ n.net.version.maxPrefixlen → Denotes k m →
        ∃ t ∈ dropContainedNetworks c, Denotes t m := by
      intro k hk n hn hwide hkm
      obtain ⟨l, hl, hkept, m', hm', hversion, hsub⟩ := exists_kept_of_wide hc hk hn hwide
      refine hkeep l hl hkept (((hc l hl).denotes_iff hm' m).2 ?_)
      obtain ⟨ip, hholds, rfl⟩ := ((hc k hk).denotes_iff hn m).1 hkm
      exact ⟨ip, hholds.of_subnetOf hsub, by rw [hversion]⟩
    cases hcontained : isContained c t with
    | false => exact hkeep t ht hcontained hm
    | true =>
      obtain ⟨n, hn, other, hother, hne, n', hn', hversion, hsub⟩ := isContained_iff.1 hcontained
      by_cases hwide : n.net.prefixlen = n.net.version.maxPrefixlen
      · by_cases hsame : n = n'
        · -- two texts of one address: one of them is the other text of a mapped address
          subst hsame
          obtain ⟨u, hu, hun, a, hua⟩ : ∃ u ∈ c, canonicalizeElement dotted u ≠ u ∧ ∃ a,
              scopedNetwork u.toList = some (hostNetwork a) ∧ n = hostNetwork a := by
            have hunfixed : canonicalizeElement dotted t ≠ t ∨ canonicalizeElement dotted other ≠ other := by
              by_contra hboth
              obtain ⟨hfix, hfix'⟩ := not_or.1 hboth
              exact hne ((hc other hother).eq_of_scopedNetwork (hc t ht) hn' hn (iff_of_true (not_not.1 hfix') (not_not.1 hfix)))
            rcases hunfixed with hun | hun
            · obtain ⟨a, ha⟩ := (hc t ht).exists_of_canon_ne hun
              exact ⟨t, ht, hun, a, ha, Option.some.inj (hn.symm.trans ha)⟩
            · obtain ⟨a, ha⟩ := (hc other hother).exists_of_canon_ne hun
              exact ⟨other, hother, hun, a, ha, Option.some.inj (hn'.symm.trans ha)⟩
          obtain ⟨hua, rfl⟩ := hua
          obtain ⟨-, t', ht', hta, m', hm', htm'⟩ := habsorbed u hu a hun hua
          obtain rfl : m = .address a.version a.ip := by
            obtain ⟨ip, hip, rfl⟩ := ((hc t ht).denotes_iff hn m).1 hm
            rw [holds_hostNetwork.1 hip]
            rfl
          cases hnet : scopedNetwork t'.toList with
          | none => exact hkeep t' ht' (isContained_eq_false_of_none hnet) hta
          | some l =>
            refine hwider t' ht' l hnet (fun hwhole => hm' ?_) hta
            obtain ⟨ip, hip, hma⟩ := ((hc t' ht').denotes_iff hnet _).1 hta
            obtain ⟨ip', hip', rfl⟩ := ((hc t' ht').denotes_iff hnet _).1 htm'
            rw [hma, (ScopedNetwork.holds_of_whole hwhole).1 hip, (ScopedNetwork.holds_of_whole hwhole).1 hip']
        · have hshorter := ScopedNetwork.prefixlen_lt_of_subnetOf hversion hsub hsame
          refine hwider other hother n' hn' ?_ (((hc other hother).denotes_iff hn' m).2 ?_)
          · rw [hversion]
            omega
          · obtain ⟨ip, hip, rfl⟩ := ((hc t ht).denotes_iff hn m).1 hm
            exact ⟨ip, hip.of_subnetOf hsub, by rw [hversion]⟩
      · exact hwider t ht n hn hwide hm

end Absorption

/-! ## Elements and what they are spelled as -/

section Elements

variable {dotted absorb : Bool} {e t : String} {elements : List String}

/-- Only a range of one mapped address is spelled as something that does not stay. -/
theorem CanonOf.isMappedRange (h : CanonOf dotted e t) (hne : canonicalizeElement dotted t ≠ t) :
    ∃ a, IsMappedRange dotted e a ∧ scopedNetwork t.toList = some (hostNetwork a) := by
  cases h with
  | same hnet hfix => exact absurd hfix hne
  | network hvalid hdash => exact absurd (canon_network hvalid hdash).2 hne
  | range ha hb hversion hle hblock => exact absurd (canon_range ha hb hversion hle hblock).2 hne
  | @mapped a ha hmapped hrange => exact ⟨a, hrange, scopedNetwork_host ha⟩

/-- A range of one mapped address is spelled as the address in its other form. -/
theorem canon_of_isMappedRange {a : IpAddress} (hplain : IsPlain e) (h : IsMappedRange dotted e a) :
    IsHost a [] ∧ (hostNetwork a).IsMappedHost ∧ canonicalizeElement dotted e = String.ofList (hostText dotted a []) := by
  obtain ⟨-, ⟨low, high, hreads⟩, hversion, hmapped⟩ := h
  have hclass := elementClass_of_reads hreads
  have hscope := scopeText_low_eq_nil (hplain (by rw [hclass]; rfl)) hreads.parts
  have hlog : Nat.log2 1 = 0 := by decide
  refine ⟨hscope ▸ isHost_of_ipAddress hreads.lowEnd, ⟨hversion, rfl, hmapped⟩, ?_⟩
  rw [canonicalizeElement_of_reads dotted hreads, collapseAddressRange_of_reads dotted hreads, if_neg (Nat.lt_irrefl _), isAlignedBlock_self,
    if_neg (by decide), hscope, Nat.sub_self, Nat.zero_add, hlog, Nat.sub_zero, if_pos rfl]
  rfl

theorem convertible_of_scopedNetwork {n : ScopedNetwork} (h : scopedNetwork t.toList = some n) : SetOrder.Convertible t := by
  obtain ⟨net, hnet, -⟩ := Option.map_eq_some_iff.1 h
  refine ⟨fun huint => ?_, fun low high hparts hlow hhigh => ?_⟩
  · rw [ipNetwork_eq_none_of_isAsciiUint huint] at hnet
    cases hnet
  · rw [ipNetwork_eq_none_of_interval hparts hlow hhigh] at hnet
    cases hnet

/-- No number is too long in what an element is spelled as when none is in the element. -/
theorem CanonOf.convertible (h : CanonOf dotted e t) (hconv : SetOrder.Convertible e) : SetOrder.Convertible t := by
  cases h with
  | same => exact hconv
  | network hvalid hdash => exact convertible_of_scopedNetwork (by rw [String.toList_ofList]; exact (canon_network hvalid hdash).1)
  | range ha hb hversion =>
    have hreads : ReadsRange (String.ofList (rangeText dotted _ _ [] _)).toList _ _ _ _ := reads_canon_range ha hb hversion
    refine ⟨fun huint => ?_, fun low high hparts hlow _ => ?_⟩
    · rw [not_isAsciiUint_of_mem (dash_mem_of_partitionAt hreads.parts) (by decide)] at huint
      cases huint
    · obtain ⟨rfl, rfl⟩ := Prod.mk.inj (Option.some.inj (hparts.symm.trans hreads.parts))
      rw [not_isAsciiUint_of_ipAddress hreads.lowEnd] at hlow
      cases hlow
  | mapped ha => exact convertible_of_scopedNetwork (scopedNetwork_host ha)

theorem CanonOf.parsed (h : CanonOf dotted e t) (he : elementClass e ≠ .unparsable) : elementClass t ≠ .unparsable := by
  cases h with
  | same => exact he
  | @network n hvalid hdash =>
    rw [(isNetworkText_stored dotted hdash).elementClass hvalid.stored]
    exact nofun
  | range ha hb hversion =>
    rw [elementClass_of_reads (reads_canon_range ha hb hversion)]
    exact nofun
  | @mapped a ha =>
    have htext : IsNetworkText dotted (hostNetwork a) (hostText dotted a []) := isNetworkText_hostText
    rw [htext.elementClass ha]
    exact nofun

end Elements

/-! ## Canonical lists -/

/-- `canonicalize_set_elements` of elements without a number that is too long. -/
def canonicalizeSetElements (dotted absorbContained : Bool) (elements : List String) : List String :=
  let canonical := (elements.map (canonicalizeElement dotted)).eraseDups
  orderElements (if absorbContained then dropContainedNetworks canonical else canonical)

section Lists

variable {dotted absorb : Bool} {elements : List String}

theorem canonicalizeElement_eq_ok_iff {e t : String} :
    SetOrder.canonicalizeElement dotted e = .ok t ↔ SetOrder.Convertible e ∧ t = canonicalizeElement dotted e := by
  rw [SetOrder.canonicalizeElement, Except.bind_eq_ok_of_spec fun _ => SetOrder.classify_eq_ok_iff, Except.return_eq_ok_iff]

theorem mem_canonical {t : String} : t ∈ (elements.map (canonicalizeElement dotted)).eraseDups ↔
    ∃ e ∈ elements, canonicalizeElement dotted e = t := by
  rw [List.mem_eraseDups, List.mem_map]

theorem mem_of_mem_kept {c : List String} {t : String} (h : t ∈ if absorb then dropContainedNetworks c else c) : t ∈ c := by
  split at h
  · exact List.mem_of_mem_filter h
  · exact h

/-- The list is canonicalised when no number of it, or of what is stored for it, is too long. -/
theorem canonicalizeSetElements_eq_ok_iff {stored : List String} :
    SetOrder.canonicalizeSetElements dotted absorb elements = .ok stored ↔
      (∀ e ∈ elements, SetOrder.Convertible e) ∧ (∀ t ∈ canonicalizeSetElements dotted absorb elements, SetOrder.Convertible t) ∧
        stored = canonicalizeSetElements dotted absorb elements := by
  have hwalk : ∀ r, elements.mapM (SetOrder.canonicalizeElement dotted) = .ok r ↔
      (∀ e ∈ elements, SetOrder.Convertible e) ∧ r = elements.map (canonicalizeElement dotted) :=
    fun r => mapM_eq_ok_iff fun e _ t => canonicalizeElement_eq_ok_iff
  rw [SetOrder.canonicalizeSetElements, Except.bind_eq_ok_of_spec hwalk, SetOrder.sortSetElements_eq_ok_iff]
  simp only [canonicalizeSetElements, mem_orderElements]

end Lists

/-! ## Doubles -/

theorem nodup_eraseDups (l : List String) : l.eraseDups.Nodup := by
  induction hlength : l.length using Nat.strong_induction_on generalizing l with
  | _ length ih =>
    cases l with
    | nil => exact List.nodup_nil
    | cons a l =>
      subst hlength
      rw [List.eraseDups_cons, List.nodup_cons, List.mem_eraseDups, List.mem_filter]
      refine ⟨fun h => by simp at h, ih _ ?_ _ rfl⟩
      exact Nat.lt_succ_of_le (List.length_filter_le _ l)

theorem eraseDups_of_nodup {l : List String} (h : l.Nodup) : l.eraseDups = l := by
  induction l with
  | nil => rfl
  | cons a l ih =>
    obtain ⟨ha, hl⟩ := List.nodup_cons.1 h
    have hfilter : l.filter (fun b => !b == a) = l := List.filter_eq_self.2 fun b hb => by
      rw [Bool.not_eq_true', beq_eq_false_iff_ne]
      rintro rfl
      exact ha hb
    rw [List.eraseDups_cons, hfilter, ih hl]

/-! ## Canonical lists keep their members -/

/-- Every range of one mapped address among the elements is absorbed. -/
def MappedRangesAbsorbed (dotted absorbContained : Bool) (elements : List String) : Prop :=
  ∀ e ∈ elements, ∀ a, IsMappedRange dotted e a → absorbContained = true ∧
    IsAbsorbed (elements.map (canonicalizeElement dotted)) (canonicalizeElement dotted e) a

/-- The elements are canonicalised: the list denotes what they denote, it stays when it is canonicalised again, it is the same for
every permutation of elements that can all be parsed, and without absorption it has every element as it is spelled. -/
def CanonicalizesSet (dotted absorbContained : Bool) (elements : List String) : Prop :=
  ∃ stored, SetOrder.canonicalizeSetElements dotted absorbContained elements = .ok stored ∧
    (∀ m, (∃ t ∈ stored, Denotes t m) ↔ ∃ e ∈ elements, Denotes e m) ∧
    SetOrder.canonicalizeSetElements dotted absorbContained stored = .ok stored ∧
    ((∀ e ∈ elements, SetOrder.isUnparsable e = false) →
      ∀ elements', elements'.Perm elements → SetOrder.canonicalizeSetElements dotted absorbContained elements' = .ok stored) ∧
    (absorbContained = false → ∀ e ∈ elements, ∃ t ∈ stored, SetOrder.canonicalizeElement dotted e = .ok t)

section Lists

variable {dotted absorb : Bool} {elements : List String}

theorem mem_canonicalizeSetElements {t : String} : t ∈ canonicalizeSetElements dotted absorb elements ↔
    (∃ e ∈ elements, canonicalizeElement dotted e = t) ∧
      (absorb = true → isContained (elements.map (canonicalizeElement dotted)) t = false) := by
  have hcongr : isContained (elements.map (canonicalizeElement dotted)).eraseDups t =
      isContained (elements.map (canonicalizeElement dotted)) t := isContained_congr (fun _ => List.mem_eraseDups) t
  rw [canonicalizeSetElements, mem_orderElements]
  cases absorb with
  | false => simp only [Bool.false_eq_true, if_false, false_imp_iff, and_true, mem_canonical]
  | true =>
    rw [if_pos rfl, dropContainedNetworks, List.mem_filter, mem_canonical, hcongr, Bool.not_eq_true']
    simp only [true_imp_iff]

theorem isSpelled_of_mem (hplain : ∀ e ∈ elements, IsPlain e) : ∀ t ∈ elements.map (canonicalizeElement dotted), IsSpelled dotted t := by
  intro t ht
  obtain ⟨e, he, rfl⟩ := List.mem_map.1 ht
  exact (canonOf dotted (hplain e he)).isSpelled

/-- What the elements denote stays. -/
theorem denotes_canonicalizeSetElements (hplain : ∀ e ∈ elements, IsPlain e) (habsorbed : MappedRangesAbsorbed dotted absorb elements)
    (m : Member) : (∃ t ∈ canonicalizeSetElements dotted absorb elements, Denotes t m) ↔ ∃ e ∈ elements, Denotes e m := by
  have hall : (∃ t ∈ elements.map (canonicalizeElement dotted), Denotes t m) ↔ ∃ e ∈ elements, Denotes e m := by
    constructor
    · rintro ⟨t, ht, hm⟩
      obtain ⟨e, he, rfl⟩ := List.mem_map.1 ht
      exact ⟨e, he, ((canonOf dotted (hplain e he)).denotes m).1 hm⟩
    · rintro ⟨e, he, hm⟩
      exact ⟨_, List.mem_map_of_mem he, ((canonOf dotted (hplain e he)).denotes m).2 hm⟩
  rw [← hall]
  cases absorb with
  | false => simp only [mem_canonicalizeSetElements, Bool.false_eq_true, false_imp_iff, and_true, List.mem_map]
  | true =>
    rw [← denotes_kept_iff (isSpelled_of_mem hplain) ?_ m]
    · simp only [mem_canonicalizeSetElements, dropContainedNetworks, List.mem_filter, List.mem_map, Bool.not_eq_true', true_imp_iff]
    · intro t ht a hne hnet
      obtain ⟨e, he, rfl⟩ := List.mem_map.1 ht
      obtain ⟨a', hrange, hnet'⟩ := (canonOf dotted (hplain e he)).isMappedRange hne
      obtain rfl : a = a' := congrArg ScopedNetwork.address (Option.some.inj (hnet.symm.trans hnet'))
      exact (habsorbed e he a hrange).2

/-- What is stored is spelled as it stays. -/
theorem canon_of_mem_stored (hplain : ∀ e ∈ elements, IsPlain e) (habsorbed : MappedRangesAbsorbed dotted absorb elements) {t : String}
    (ht : t ∈ canonicalizeSetElements dotted absorb elements) : canonicalizeElement dotted t = t := by
  obtain ⟨⟨e, he, rfl⟩, hkept⟩ := mem_canonicalizeSetElements.1 ht
  by_contra hne
  obtain ⟨a, hrange, -⟩ := (canonOf dotted (hplain e he)).isMappedRange hne
  obtain ⟨habsorb, hcontained, -⟩ := habsorbed e he a hrange
  rw [hkept habsorb] at hcontained
  cases hcontained

/-- What is stored stays when it is canonicalised again. -/
theorem canonicalizeSetElements_stored (hplain : ∀ e ∈ elements, IsPlain e) (habsorbed : MappedRangesAbsorbed dotted absorb elements) :
    canonicalizeSetElements dotted absorb (canonicalizeSetElements dotted absorb elements) =
      canonicalizeSetElements dotted absorb elements := by
  have hfix : ∀ t ∈ canonicalizeSetElements dotted absorb elements, canonicalizeElement dotted t = t := fun t =>
    canon_of_mem_stored hplain habsorbed
  have hkeep : ∀ t ∈ canonicalizeSetElements dotted absorb elements, absorb = true →
      isContained (canonicalizeSetElements dotted absorb elements) t = false := by
    intro t ht habsorb
    have hnot := (mem_canonicalizeSetElements.1 ht).2 habsorb
    rw [← Bool.not_eq_true, isContained_iff] at hnot ⊢
    rintro ⟨n, hn, other, hother, hrest⟩
    exact hnot ⟨n, hn, other, List.mem_map.2 (mem_canonicalizeSetElements.1 hother).1, hrest⟩
  have hnodup : (canonicalizeSetElements dotted absorb elements).Nodup := by
    refine (orderElements_perm _).nodup_iff.2 ?_
    split
    · exact (nodup_eraseDups _).filter _
    · exact nodup_eraseDups _
  have hsorted : orderElements (canonicalizeSetElements dotted absorb elements) = canonicalizeSetElements dotted absorb elements :=
    SetOrder.orderByElement_orderByElement id _
  generalize canonicalizeSetElements dotted absorb elements = stored at hfix hkeep hnodup hsorted
  have hmap : stored.map (canonicalizeElement dotted) = stored := (List.map_congr_left hfix).trans (List.map_id stored)
  have hkept : (if absorb then dropContainedNetworks stored else stored) = stored := by
    split
    · exact List.filter_eq_self.2 fun t ht => by rw [hkeep t ht ‹_›]; rfl
    · rfl
  rw [canonicalizeSetElements, hmap, eraseDups_of_nodup hnodup, hkept, hsorted]

/-- Permutations of elements that can be parsed are stored as one list. -/
theorem canonicalizeSetElements_perm (hplain : ∀ e ∈ elements, IsPlain e) (hparsed : ∀ e ∈ elements, elementClass e ≠ .unparsable)
    {elements' : List String} (hperm : elements'.Perm elements) :
    canonicalizeSetElements dotted absorb elements' = canonicalizeSetElements dotted absorb elements := by
  have hcanonical : (elements'.map (canonicalizeElement dotted)).eraseDups.Perm (elements.map (canonicalizeElement dotted)).eraseDups := by
    refine (List.perm_ext_iff_of_nodup (nodup_eraseDups _) (nodup_eraseDups _)).2 fun t => ?_
    rw [List.mem_eraseDups, List.mem_eraseDups, (hperm.map _).mem_iff]
  refine SetOrder.orderByElement_eq_of_perm (fun t ht => ?_) (fun _ _ _ _ => id) ?_
  · obtain ⟨e, he, rfl⟩ := mem_canonical.1 (mem_of_mem_kept ht)
    exact (canonOf dotted (hplain e he)).parsed (hparsed e he)
  · split
    · rw [dropContainedNetworks, dropContainedNetworks,
        List.filter_congr fun t _ => congrArg (! ·) (isContained_congr (fun _ => hcanonical.mem_iff) t)]
      exact hcanonical.filter _
    · exact hcanonical

end Lists

/-- An element that denotes an address and is neither its network nor the other text of it denotes more. -/
theorem exists_of_denotes {dotted : Bool} {e t : String} (h : CanonOf dotted e t) {a : IpAddress}
    (ha : Denotes e (.address a.version a.ip)) (hnet : ∀ n, scopedNetwork t.toList = some n → n.net.prefixlen = n.net.version.maxPrefixlen →
      n.net.version ≠ a.version ∨ n.net.networkAddress ≠ a.ip) :
    ∃ m ≠ .address a.version a.ip, Denotes e m := by
  cases h with
  | same hnone hfix hword => exact absurd ha (hword _ _)
  | @network n hvalid hdash hdenotes =>
    obtain ⟨ip, hip, heq⟩ := (hdenotes _).1 ha
    obtain ⟨hversion, hipeq⟩ := Member.address.inj heq
    subst hipeq
    have hstored : scopedNetwork (nftNetworkText dotted n) = some n.stored := (canon_network hvalid hdash).1
    rw [← String.toList_ofList (l := nftNetworkText dotted n)] at hstored
    have hwide : n.net.prefixlen ≠ n.net.version.maxPrefixlen := fun hwhole => by
      have hno := hnet n.stored hstored (by rw [ScopedNetwork.stored_net]; exact hwhole)
      rw [ScopedNetwork.stored_net] at hno
      rcases hno with hno | hno
      · exact hno hversion.symm
      · exact hno ((ScopedNetwork.holds_of_whole hwhole).1 hip).symm
    have htwo : 2 ≤ n.net.numAddresses := by
      have hle := n.net.prefixlen_le
      have hone : 1 ≤ n.net.version.maxPrefixlen - n.net.prefixlen := by omega
      exact Nat.pow_le_pow_right Nat.two_pos hone
    -- another address: the second of the network, or the first
    by_cases hfirst : a.ip = n.net.networkAddress
    · refine ⟨.address n.net.version (n.net.networkAddress + 1), fun h => ?_, (hdenotes _).2 ⟨_, ⟨Nat.le_succ _, by omega⟩, rfl⟩⟩
      have := (Member.address.inj h).2
      omega
    · exact ⟨.address n.net.version n.net.networkAddress, fun h => hfirst (Member.address.inj h).2.symm,
        (hdenotes _).2 ⟨_, n.holds_networkAddress, rfl⟩⟩
  | @range a' b' scope ha' hb' hversion hle hblock hdenotes =>
    have hlt : a'.ip ≠ b'.ip := fun heq => by
      rw [heq, isAlignedBlock_self] at hblock
      cases hblock
    by_cases hfirst : a.ip = a'.ip
    · refine ⟨.address a'.version b'.ip, fun h => hlt ?_, (hdenotes _).2 ⟨_, hle, Nat.le_refl _, rfl⟩⟩
      rw [← hfirst, (Member.address.inj h).2]
    · exact ⟨.address a'.version a'.ip, fun h => hfirst (Member.address.inj h).2.symm,
        (hdenotes _).2 ⟨_, Nat.le_refl _, hle, rfl⟩⟩
  | @mapped a' ha' hmapped hrange hdenotes =>
    exfalso
    obtain ⟨hversion, hip⟩ := Member.address.inj ((hdenotes _).1 ha)
    rcases hnet (hostNetwork a') (scopedNetwork_host ha') rfl with hno | hno
    · exact hno hversion.symm
    · exact hno hip.symm

section Main

variable {dotted absorb : Bool} {elements : List String}

/-- A list that denotes what the elements denote, and stays, has every range of one mapped address absorbed. -/
theorem mappedRangesAbsorbed_of_canonical (hplain : ∀ e ∈ elements, IsPlain e)
    (hmembers : ∀ m, (∃ t ∈ canonicalizeSetElements dotted absorb elements, Denotes t m) ↔ ∃ e ∈ elements, Denotes e m)
    (hstays : canonicalizeSetElements dotted absorb (canonicalizeSetElements dotted absorb elements) =
      canonicalizeSetElements dotted absorb elements) : MappedRangesAbsorbed dotted absorb elements := by
  intro e he a hrange
  obtain ⟨ha, hmapped, htext⟩ := canon_of_isMappedRange (hplain e he) hrange
  have hcanon := canonOf dotted (hplain e he)
  have hnet : scopedNetwork (canonicalizeElement dotted e).toList = some (hostNetwork a) := by rw [htext, scopedNetwork_host ha]
  have hcanonNe : canonicalizeElement dotted (canonicalizeElement dotted e) ≠ canonicalizeElement dotted e := by
    rw [htext]
    exact canon_host_ne ha hmapped hrange.1
  -- the other text of the address does not stay, so it is not stored
  have hnot : canonicalizeElement dotted e ∉ canonicalizeSetElements dotted absorb elements := by
    intro hmem
    have hagain := hmem
    rw [← hstays] at hagain
    obtain ⟨⟨t, ht, heq⟩, -⟩ := mem_canonicalizeSetElements.1 hagain
    obtain ⟨⟨e', he', rfl⟩, -⟩ := mem_canonicalizeSetElements.1 ht
    have htwice := (canonOf dotted (hplain e' he')).isSpelled.canon_canon
    rw [heq] at htwice
    exact hcanonNe htwice
  have hcontained : absorb = true ∧ isContained (elements.map (canonicalizeElement dotted)) (canonicalizeElement dotted e) = true := by
    rw [mem_canonicalizeSetElements, not_and_or] at hnot
    obtain hnot := hnot.resolve_left fun h => h ⟨e, he, rfl⟩
    rw [Classical.not_imp, Bool.not_eq_false] at hnot
    exact hnot
  refine ⟨hcontained.1, hcontained.2, ?_⟩
  have hdenotes : Denotes e (.address a.version a.ip) := by
    rw [← hcanon.denotes, hcanon.isSpelled.denotes_iff hnet]
    exact ⟨a.ip, holds_hostNetwork.2 rfl, rfl⟩
  obtain ⟨t, ht, hta⟩ := (hmembers _).2 ⟨e, he, hdenotes⟩
  obtain ⟨⟨e', he', rfl⟩, hkept⟩ := mem_canonicalizeSetElements.1 ht
  have hcanon' := canonOf dotted (hplain e' he')
  have hother : ∀ n, scopedNetwork (canonicalizeElement dotted e').toList = some n → n.net.prefixlen = n.net.version.maxPrefixlen →
      n.net.version ≠ a.version ∨ n.net.networkAddress ≠ a.ip := by
    intro n hn hwhole
    by_contra hsame
    obtain ⟨hversion, hip⟩ := not_or.1 hsame
    have haddress : n.address = a := congrArg₂ IpAddress.mk (not_not.1 hversion) (not_not.1 hip)
    have hn' : scopedNetwork (canonicalizeElement dotted e').toList = some (hostNetwork a) := by
      rw [hn, hcanon'.isSpelled.eq_hostNetwork hn ⟨?_, hwhole, ?_⟩, haddress]
      · rw [not_not.1 hversion]
        exact hmapped.1
      · rw [not_not.1 hip]
        exact hmapped.2.2
    have hne : canonicalizeElement dotted e ≠ canonicalizeElement dotted e' := fun heq => hnot (heq ▸ ht)
    have htwin : isContained (elements.map (canonicalizeElement dotted)) (canonicalizeElement dotted e') = true :=
      isContained_iff.2 ⟨_, hn', _, List.mem_map_of_mem he, hne, _, hnet, rfl, ScopedNetwork.subnetOf_refl _⟩
    rw [hkept hcontained.1] at htwin
    cases htwin
  obtain ⟨m, hne, hm⟩ := exists_of_denotes hcanon' ((hcanon'.denotes _).1 hta) hother
  exact ⟨_, List.mem_map_of_mem he', hta, m, hne, (hcanon'.denotes m).2 hm⟩

theorem convertible_stored (hplain : ∀ e ∈ elements, IsPlain e) (hconv : ∀ e ∈ elements, SetOrder.Convertible e) :
    ∀ t ∈ canonicalizeSetElements dotted absorb elements, SetOrder.Convertible t := by
  intro t ht
  obtain ⟨⟨e, he, rfl⟩, -⟩ := mem_canonicalizeSetElements.1 ht
  exact (canonOf dotted (hplain e he)).convertible (hconv e he)

/-- Elements are canonicalised when no number of them is too long and every range of one mapped address is absorbed. -/
theorem canonicalizesSet_of_absorbed (hplain : ∀ e ∈ elements, IsPlain e) (hconv : ∀ e ∈ elements, SetOrder.Convertible e)
    (habsorbed : MappedRangesAbsorbed dotted absorb elements) : CanonicalizesSet dotted absorb elements := by
  have hstored : ∀ t ∈ canonicalizeSetElements dotted absorb elements, SetOrder.Convertible t := convertible_stored hplain hconv
  have hstays := canonicalizeSetElements_stored hplain habsorbed
  refine ⟨_, canonicalizeSetElements_eq_ok_iff.2 ⟨hconv, hstored, rfl⟩, denotes_canonicalizeSetElements hplain habsorbed, ?_, ?_, ?_⟩
  · refine canonicalizeSetElements_eq_ok_iff.2 ⟨hstored, ?_, hstays.symm⟩
    rwa [hstays]
  · intro hparsed elements' hperm
    have hunparsed : ∀ e ∈ elements, elementClass e ≠ .unparsable := fun e he h => by
      have := (SetOrder.isUnparsable_eq_true_iff (hconv e he)).2 h
      rw [hparsed e he] at this
      cases this
    have hsame : canonicalizeSetElements dotted absorb elements' = canonicalizeSetElements dotted absorb elements :=
      canonicalizeSetElements_perm hplain hunparsed hperm
    refine canonicalizeSetElements_eq_ok_iff.2 ⟨fun e he => hconv e (hperm.mem_iff.1 he), ?_, hsame.symm⟩
    rwa [hsame]
  · rintro rfl e he
    refine ⟨_, mem_canonicalizeSetElements.2 ⟨⟨e, he, rfl⟩, nofun⟩, canonicalizeElement_eq_ok_iff.2 ⟨hconv e he, rfl⟩⟩

/-- Elements in which no scope meets a dash are canonicalised exactly when no number of them is too long and every range of one
mapped address is absorbed. -/
theorem canonicalizesSet_iff (hplain : ∀ e ∈ elements, IsPlain e) : CanonicalizesSet dotted absorb elements ↔
    (∀ e ∈ elements, SetOrder.Convertible e) ∧ MappedRangesAbsorbed dotted absorb elements := by
  constructor
  · rintro ⟨stored, hstored, hmembers, hstays, -⟩
    obtain ⟨hconv, -, rfl⟩ := canonicalizeSetElements_eq_ok_iff.1 hstored
    exact ⟨hconv, mappedRangesAbsorbed_of_canonical hplain hmembers (canonicalizeSetElements_eq_ok_iff.1 hstays).2.2.symm⟩
  · rintro ⟨hconv, habsorbed⟩
    exact canonicalizesSet_of_absorbed hplain hconv habsorbed

end Main

theorem isPlain_of_not_mem {e : String} (h : '%' ∉ e.toList) : IsPlain e := by
  intro _ addr zone hparts
  rw [partitionAt_eq_none h] at hparts
  cases hparts

theorem canonicalizesSet_block :
    CanonicalizesSet false true ["10.0.0.0-10.0.0.255", "22", "udp"] ↔
      (∀ e ∈ ["10.0.0.0-10.0.0.255", "22", "udp"], SetOrder.Convertible e) ∧
        MappedRangesAbsorbed false true ["10.0.0.0-10.0.0.255", "22", "udp"] :=
  canonicalizesSet_iff fun e he => isPlain_of_not_mem (by
    revert e
    decide)

/-- The two texts of a mapped address drop each other, and the address is lost. -/
theorem mapped_address_lost :
    SetOrder.canonicalizeSetElements false true ["::ffff:1.2.3.4", "::ffff:1.2.3.4-::ffff:1.2.3.4"] = .ok [] ∧
      ¬CanonicalizesSet false true ["::ffff:1.2.3.4", "::ffff:1.2.3.4-::ffff:1.2.3.4"] := by
  have hempty : SetOrder.canonicalizeSetElements false true ["::ffff:1.2.3.4", "::ffff:1.2.3.4-::ffff:1.2.3.4"] = .ok [] := by
    decide +kernel
  refine ⟨hempty, ?_⟩
  rintro ⟨stored, hstored, hmembers, -⟩
  obtain rfl := Except.ok.inj (hempty.symm.trans hstored)
  have hclass : elementClass "::ffff:1.2.3.4-::ffff:1.2.3.4" = .addressInterval .v6 281470698652420 281470698652420 := by decide +kernel
  have hdenotes : Denotes "::ffff:1.2.3.4-::ffff:1.2.3.4" (.address .v6 281470698652420) := by
    rw [Denotes, hclass]
    exact ⟨281470698652420, Nat.le_refl 281470698652420, Nat.le_refl 281470698652420, rfl⟩
  have hmem : "::ffff:1.2.3.4-::ffff:1.2.3.4" ∈ ["::ffff:1.2.3.4", "::ffff:1.2.3.4-::ffff:1.2.3.4"] :=
    List.mem_cons_of_mem _ List.mem_cons_self
  obtain ⟨t, ht, -⟩ := (hmembers (.address .v6 281470698652420)).2 ⟨"::ffff:1.2.3.4-::ffff:1.2.3.4", hmem, hdenotes⟩
  cases ht

end Ferm
