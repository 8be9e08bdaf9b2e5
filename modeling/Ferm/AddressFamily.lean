import Ferm.Multiport
import Ferm.Networks

/-!
# Addresses of a family

A rule for both families is built once for each, from the same texts. Which of its addresses a family gets is decided by two patterns
on the texts: under IPv4 what looks like IPv6 is left out, under IPv6 what is a dotted quad or a prefix of one.
-/

namespace Ferm.AddressFamily

open Multiport (stringify)
open Scope (Rule)

variable (refText : Value → String)

/-! ## The split -/

/-- A digit of `_IPV6_HINT_RE`. -/
def isLowerHex (c : Char) : Bool := c.isDigit || ('a' ≤ c && c ≤ 'f')

/-- `_IPV6_HINT_RE.search`. -/
def hasIpv6Hint : List Char → Bool
  | [] => false
  | c :: cs => (c = ':' && (cs.dropWhile isLowerHex).head? = some ':') || hasIpv6Hint cs

/-- `_IPV4_NUMERIC_RE.fullmatch`. -/
def isIpv4Numeric (text : List Char) : Bool := !text.isEmpty && text.all fun c => c.isDigit || c = '.' || c = '/'

/-- `ipfilter`. -/
def ipfilter (domain : String) (value : Value) : Except Raised (List Value) := do
  let ips ← Evaluator.toArray value
  if domain = "ip" then return ips.filter fun ip => !hasIpv6Hint (stringify refText ip).toList
  else if domain = "ip6" then return ips.filter fun ip => !isIpv4Numeric (stringify refText ip).toList
  else return ips

variable (call : DeferredFunction → String → List Value → Except Raised (List Value))

/-- The family of a rule, where it is a single one. -/
def family (rule : Rule) : String :=
  match rule.domain with
  | .scalar name => name
  | _ => ""

/-- Addresses after the deferred calls, on a rule for both families those of its own. -/
def filtered (rule : Rule) (values : List Value) : Except Raised (List Value) := do
  let ips ← Unfold.realizeDeferred call (family rule) values
  if rule.domainBoth then ipfilter refText (family rule) (.array ips) else return ips

/-- `address_magic`, where `getvalues` is the value that is read. -/
def addressMagic (rule : Rule) (getvalues : Except Raised Value) : Except Raised Value := do
  match ← getvalues with
  | .negated value =>
    let ips ← filtered refText call rule [value]
    return if ips.isEmpty then .array ips else .negated (.array ips)
  | .setRef name elements =>
    let ips ← filtered refText call rule elements
    return .setRef name ips
  | value =>
    let values ← Evaluator.toArray value
    let ips ← filtered refText call rule values
    return .array ips

/-- `_getvar_family_filtered`: a named set on a rule for both families. -/
def getvarFamilyFiltered (rule : Rule) (getvar : Except Raised Value) : Except Raised Value := do
  match ← getvar with
  | .setRef name elements =>
    if rule.domainBoth then
      let ips ← filtered refText call rule elements
      return .setRef name ips
    else return .setRef name elements
  | value => return value

/-! ## Addresses as texts -/

/-- The domain of a version. -/
def domainOf : IpVersion → String
  | .v4 => "ip"
  | .v6 => "ip6"

/-- What stands behind the slash of a prefix: its length, or a mask. -/
def IsMask (version : IpVersion) (mask : List Char) : Prop :=
  isAsciiUint mask = true ∨ ∃ a, ipAddress mask = some a ∧ a.version = version

/-- The spellings of addresses of a version: an address, a prefix, or a range between two addresses. -/
inductive Spelled (version : IpVersion) : (isRange : Bool) → List Char → Prop
  | address {text : List Char} {a : IpAddress} (h : ipAddress text = some a) (hversion : a.version = version) : Spelled version false text
  | withMask {text mask : List Char} {a : IpAddress} (h : ipAddress text = some a) (hversion : a.version = version)
      (hmask : IsMask version mask) : Spelled version false (text ++ '/' :: mask)
  | range {low high : List Char} {a b : IpAddress} (hlow : ipAddress low = some a) (hhigh : ipAddress high = some b)
      (hversion : a.version = version) (hversion' : b.version = version) : Spelled version true (low ++ '-' :: high)

/-- Addresses as a config spells them. -/
structure AddressText where
  version : IpVersion
  isRange : Bool
  text : String
  spelled : Spelled version isRange text.toList

/-- Two colons with nothing but digits in lower case between them. -/
def HasLowerRun (text : List Char) : Prop := ∃ a digits b, text = a ++ ':' :: digits ++ ':' :: b ∧ ∀ c ∈ digits, isLowerHex c = true

/-! ## The two patterns -/

theorem hasIpv6Hint_iff {text : List Char} : hasIpv6Hint text = true ↔ HasLowerRun text := by
  induction text with
  | nil =>
    refine iff_of_false nofun ?_
    rintro ⟨a, digits, b, htext, -⟩
    simp at htext
  | cons c cs ih =>
    rw [hasIpv6Hint, Bool.or_eq_true, ih, Bool.and_eq_true, decide_eq_true_eq, decide_eq_true_eq]
    constructor
    · rintro (⟨rfl, hhead⟩ | ⟨a, digits, b, rfl, hdigits⟩)
      · obtain ⟨b, hb⟩ := List.head?_eq_some_iff.1 hhead
        refine ⟨[], cs.takeWhile isLowerHex, b, ?_, fun c hc => List.mem_takeWhile_imp hc⟩
        rw [List.nil_append, List.cons_append, ← hb, List.takeWhile_append_dropWhile]
      · exact ⟨c :: a, digits, b, by simp, hdigits⟩
    · rintro ⟨a, digits, b, htext, hdigits⟩
      cases a with
      | nil =>
        simp only [List.nil_append, List.cons_append, List.cons.injEq] at htext
        obtain ⟨rfl, rfl⟩ := htext
        refine .inl ⟨rfl, ?_⟩
        rw [List.dropWhile_append_of_pos hdigits, List.dropWhile_cons_of_neg (by decide)]
        rfl
      | cons d a =>
        simp only [List.cons_append, List.cons.injEq] at htext
        obtain ⟨rfl, rfl⟩ := htext
        exact .inr ⟨a, digits, b, by simp, hdigits⟩

theorem colon_mem_of_hasLowerRun {text : List Char} (h : HasLowerRun text) : ':' ∈ text := by
  obtain ⟨a, digits, b, rfl, -⟩ := h
  simp

/-- A digit, or what stands between the digits of an address of four bytes. -/
def isQuadChar (c : Char) : Bool := c.isDigit || c = '.' || c = '/'

theorem isQuadChar_of_v4 {text : List Char} {a : IpAddress} (h : ipAddress text = some a) (hversion : a.version = .v4) :
    text ≠ [] ∧ ∀ c ∈ text, isQuadChar c = true := by
  rcases ipAddress_cases h with ⟨-, h4⟩ | ⟨h6, -⟩
  · obtain ⟨ip, hip, -⟩ := Option.map_eq_some_iff.1 h4
    refine ⟨?_, fun c hc => ?_⟩
    · rintro rfl
      cases hip
    · rcases digit_or_dot_of_ipv4FromString hip c hc with hdigit | rfl
      · simp [isQuadChar, hdigit]
      · rfl
  · rw [hversion] at h6
    cases h6

theorem colon_mem_of_v6 {text : List Char} {a : IpAddress} (h : ipAddress text = some a) (hversion : a.version = .v6) : ':' ∈ text := by
  rcases ipAddress_cases h with ⟨h4, -⟩ | ⟨-, -, h6⟩
  · rw [hversion] at h4
    cases h4
  · exact colon_mem_of_ipv6Address h6

theorem isQuadChar_of_isMask {mask : List Char} (h : IsMask .v4 mask) : ∀ c ∈ mask, isQuadChar c = true := by
  rcases h with huint | ⟨a, ha, hversion⟩
  · intro c hc
    rw [isAsciiUint, Bool.and_eq_true] at huint
    rw [isQuadChar, List.all_eq_true.1 huint.2 c hc]
    rfl
  · exact (isQuadChar_of_v4 ha hversion).2

/-- Addresses and prefixes of IPv4 are what the pattern of IPv4 says. -/
theorem isIpv4Numeric_of_spelled {text : List Char} (h : Spelled .v4 false text) : isIpv4Numeric text = true := by
  have hall : ∀ {text : List Char}, text ≠ [] → (∀ c ∈ text, isQuadChar c = true) → isIpv4Numeric text = true := by
    intro text hne hchars
    rw [isIpv4Numeric, Bool.and_eq_true, List.all_eq_true]
    exact ⟨by simpa using hne, hchars⟩
  cases h with
  | address h hversion =>
    obtain ⟨hne, hchars⟩ := isQuadChar_of_v4 h hversion
    exact hall hne hchars
  | withMask h hversion hmask =>
    obtain ⟨hne, hchars⟩ := isQuadChar_of_v4 h hversion
    refine hall (by simp) fun c hc => ?_
    rw [List.mem_append, List.mem_cons] at hc
    rcases hc with hc | rfl | hc
    · exact hchars c hc
    · rfl
    · exact isQuadChar_of_isMask hmask c hc

/-- What is spelled without the pattern of IPv4 has another character. -/
theorem not_isIpv4Numeric_of_mem {text : List Char} {c : Char} (hmem : c ∈ text) (hc : isQuadChar c = false) :
    isIpv4Numeric text = false := by
  rw [isIpv4Numeric, Bool.and_eq_false_iff]
  refine .inr (List.all_eq_false.2 ⟨c, hmem, ?_⟩)
  rw [← isQuadChar, hc]
  exact Bool.false_ne_true

theorem colon_mem_of_spelled {isRange : Bool} {text : List Char} (h : Spelled .v6 isRange text) : ':' ∈ text := by
  cases h with
  | address h hversion => exact colon_mem_of_v6 h hversion
  | withMask h hversion => exact List.mem_append_left _ (colon_mem_of_v6 h hversion)
  | range hlow _ hversion _ => exact List.mem_append_left _ (colon_mem_of_v6 hlow hversion)

theorem colon_not_mem_of_spelled {isRange : Bool} {text : List Char} (h : Spelled .v4 isRange text) : ':' ∉ text := by
  have hquad : ∀ {text : List Char}, (∀ c ∈ text, isQuadChar c = true) → ':' ∉ text := fun hchars hmem => nomatch hchars ':' hmem
  cases h with
  | address h hversion => exact hquad (isQuadChar_of_v4 h hversion).2
  | withMask h hversion hmask =>
    rw [List.mem_append, List.mem_cons, not_or, not_or]
    exact ⟨hquad (isQuadChar_of_v4 h hversion).2, by decide, hquad (isQuadChar_of_isMask hmask)⟩
  | range hlow hhigh hversion hversion' =>
    rw [List.mem_append, List.mem_cons, not_or, not_or]
    exact ⟨hquad (isQuadChar_of_v4 hlow hversion).2, by decide, hquad (isQuadChar_of_v4 hhigh hversion').2⟩

theorem dash_mem_of_range {version : IpVersion} {text : List Char} (h : Spelled version true text) : '-' ∈ text := by
  cases h
  simp

/-! ### Spellings that have a run in lower case -/

theorem HasLowerRun.append {text : List Char} (h : HasLowerRun text) (rest : List Char) : HasLowerRun (text ++ rest) := by
  obtain ⟨a, digits, b, rfl, hdigits⟩ := h
  exact ⟨a, digits, b ++ rest, by simp, hdigits⟩

theorem isLowerHex_of_isHexDigit {c : Char} (h : isHexDigit c = true) (hupper : ¬('A' ≤ c ∧ c ≤ 'F')) : isLowerHex c = true := by
  rw [isHexDigit, Bool.or_eq_true, Bool.and_eq_true, decide_eq_true_eq, decide_eq_true_eq] at h
  exact h.resolve_right hupper

/-- An address of eight groups has three of them at least, so that one stands between two colons. -/
theorem hasLowerRun_of_ipv6FromString {text : List Char} {ip : Nat} (h : ipv6FromString text = some ip)
    (hupper : ∀ c ∈ text, ¬('A' ≤ c ∧ c ≤ 'F')) : HasLowerRun text := by
  obtain ⟨⟨parts, tail⟩, hparts, -⟩ := Option.bind_eq_some_iff.1 h
  have hhex := isHexDigit_of_ipv6Parts hparts h
  have htext := @List.intercalate_splitOn _ text _ _ ':'
  unfold ipv6Parts at hparts
  simp only at hparts
  match hsplit : text.splitOn ':' with
  | [] => simp [hsplit] at hparts
  | [_] => simp [hsplit] at hparts
  | [_, _] => simp [hsplit] at hparts
  | first :: middle :: third :: rest =>
    rw [hsplit] at hparts htext
    have hmiddle : middle ∈ parts := by
      split at hparts
      · cases hparts
      · split at hparts
        · cases hparts
        · split at hparts
          · obtain ⟨tail', -, heq⟩ := Option.map_eq_some_iff.1 hparts
            rw [← (Prod.mk.inj heq).1]
            simp
          · rw [← (Prod.mk.inj (Option.some.inj hparts)).1]
            simp
    have hcut : text = first ++ ':' :: middle ++ ':' :: List.intercalate [':'] (third :: rest) := by
      rw [← htext]
      simp [List.intercalate, List.intersperse]
    refine ⟨first, middle, _, hcut, fun c hc => isLowerHex_of_isHexDigit (hhex middle hmiddle c hc) (hupper c ?_)⟩
    rw [hcut]
    simp [hc]

theorem hasLowerRun_of_ipAddress {text : List Char} {a : IpAddress} (h : ipAddress text = some a) (hversion : a.version = .v6)
    (hupper : ∀ c ∈ text, ¬('A' ≤ c ∧ c ≤ 'F')) : HasLowerRun text := by
  rcases ipAddress_cases h with ⟨h4, -⟩ | ⟨-, -, h6⟩
  · rw [hversion] at h4
    cases h4
  · obtain ⟨addr, haddr, h6⟩ := Option.bind_eq_some_iff.1 h6
    obtain ⟨ip, hip, -⟩ := Option.bind_eq_some_iff.1 h6
    rw [← addr_append_scopeText haddr] at hupper ⊢
    exact (hasLowerRun_of_ipv6FromString hip fun c hc => hupper c (List.mem_append_left _ hc)).append _

/-- Written without digits in upper case, an address of IPv6 has a run in lower case. -/
theorem hasLowerRun_of_spelled {isRange : Bool} {text : List Char} (h : Spelled .v6 isRange text)
    (hupper : ∀ c ∈ text, ¬('A' ≤ c ∧ c ≤ 'F')) : HasLowerRun text := by
  cases h with
  | address h hversion => exact hasLowerRun_of_ipAddress h hversion hupper
  | withMask h hversion =>
    exact (hasLowerRun_of_ipAddress h hversion fun c hc => hupper c (List.mem_append_left _ hc)).append _
  | range hlow _ hversion _ =>
    exact (hasLowerRun_of_ipAddress hlow hversion fun c hc => hupper c (List.mem_append_left _ hc)).append _

theorem hasLowerRun_of_infix {text : List Char} (h : [':', ':'] <:+: text) : HasLowerRun text := by
  obtain ⟨a, b, rfl⟩ := h
  exact ⟨a, [], b, by simp, nofun⟩

/-! ## The split of a list -/

/-- The value of an address. -/
def AddressText.value (t : AddressText) : Value := .scalar t.text

/-- The addresses a family gets: its own, and under IPv6 the ranges of IPv4 as well. -/
def AddressText.seenBy (version : IpVersion) (t : AddressText) : Bool := t.version = version || (version = .v6 && t.isRange)

/-- The values of the addresses a family gets. -/
def seen (version : IpVersion) (addresses : List AddressText) : List Value :=
  (addresses.filter (AddressText.seenBy version)).map AddressText.value

/-- Under IPv4 a text is kept when it is of IPv4. -/
theorem not_hasIpv6Hint_eq {t : AddressText} (h : t.version = .v6 → HasLowerRun t.text.toList) :
    (!hasIpv6Hint t.text.toList) = t.seenBy .v4 := by
  have hspelled := t.spelled
  cases hversion : t.version with
  | v4 =>
    rw [hversion] at hspelled
    have hhint : hasIpv6Hint t.text.toList = false := by
      rw [← Bool.not_eq_true, hasIpv6Hint_iff]
      exact fun hrun => colon_not_mem_of_spelled hspelled (colon_mem_of_hasLowerRun hrun)
    simp [hhint, AddressText.seenBy, hversion]
  | v6 => simp [hasIpv6Hint_iff.2 (h hversion), AddressText.seenBy, hversion]

/-- Under IPv6 a text is kept when it is of IPv6, or a range. -/
theorem not_isIpv4Numeric_eq (t : AddressText) : (!isIpv4Numeric t.text.toList) = t.seenBy .v6 := by
  have hspelled := t.spelled
  cases hversion : t.version with
  | v4 =>
    rw [hversion] at hspelled
    cases hrange : t.isRange with
    | false =>
      rw [hrange] at hspelled
      simp [isIpv4Numeric_of_spelled hspelled, AddressText.seenBy, hversion, hrange]
    | true =>
      rw [hrange] at hspelled
      simp [not_isIpv4Numeric_of_mem (dash_mem_of_range hspelled) (by decide), AddressText.seenBy, hrange]
  | v6 =>
    rw [hversion] at hspelled
    simp [not_isIpv4Numeric_of_mem (colon_mem_of_spelled hspelled) (by decide), AddressText.seenBy, hversion]

section Split

variable {version : IpVersion} {addresses : List AddressText}
  (hrun : ∀ t ∈ addresses, version = .v4 → t.version = .v6 → HasLowerRun t.text.toList)
include hrun

theorem ipfilter_addresses : ipfilter refText (domainOf version) (.array (addresses.map AddressText.value)) = .ok (seen version addresses) := by
  have hfilter : ∀ keep : Value → Bool, (∀ t ∈ addresses, keep t.value = t.seenBy version) →
      (addresses.map AddressText.value).filter keep = seen version addresses := by
    intro keep hkeep
    have hseen : addresses.filter (keep ∘ AddressText.value) = addresses.filter (AddressText.seenBy version) := List.filter_congr hkeep
    rw [seen, List.filter_map, hseen]
  cases version with
  | v4 => exact congrArg Except.ok (hfilter _ fun t ht => not_hasIpv6Hint_eq (hrun t ht rfl))
  | v6 => exact congrArg Except.ok (hfilter _ fun t _ => not_isIpv4Numeric_eq t)

theorem filtered_addresses {rule : Rule} (hdomain : rule.domain = .scalar (domainOf version)) (hboth : rule.domainBoth = true)
    {values : List Value} (hrealized : Unfold.realizeDeferred call (domainOf version) values = .ok (addresses.map AddressText.value)) :
    filtered refText call rule values = .ok (seen version addresses) := by
  have hfamily : family rule = domainOf version := by rw [family, hdomain]
  rw [filtered, hfamily, hrealized]
  refine (if_pos hboth).trans ?_
  exact ipfilter_addresses refText hrun

end Split

/-! ### What is read -/

section Read

variable (rule : Rule)

theorem addressMagic_negated (value : Value) : addressMagic refText call rule (.ok (.negated value)) =
    (filtered refText call rule [value]).map fun ips => if ips.isEmpty then .array ips else .negated (.array ips) := by
  change (filtered refText call rule [value] >>= fun ips => Except.ok (if ips.isEmpty then Value.array ips else .negated (.array ips))) = _
  cases filtered refText call rule [value] <;> rfl

theorem addressMagic_setRef (name : String) (elements : List Value) : addressMagic refText call rule (.ok (.setRef name elements)) =
    (filtered refText call rule elements).map (.setRef name) := by
  change (filtered refText call rule elements >>= fun ips => Except.ok (Value.setRef name ips)) = _
  cases filtered refText call rule elements <;> rfl

/-- What is neither negated nor a named set is a list of addresses. -/
theorem addressMagic_of_toArray {value : Value} {values : List Value} (h : Evaluator.toArray value = .ok values)
    (hset : ∀ name elements, value ≠ .setRef name elements) :
    addressMagic refText call rule (.ok value) = (filtered refText call rule values).map .array := by
  have hread : addressMagic refText call rule (.ok value) = (do
      let values ← Evaluator.toArray value
      let ips ← filtered refText call rule values
      return .array ips) := by
    cases value with
    | negated => cases h
    | setRef name elements => exact absurd rfl (hset name elements)
    | _ => rfl
  rw [hread, h]
  change (filtered refText call rule values >>= fun ips => Except.ok (Value.array ips)) = _
  cases filtered refText call rule values <;> rfl

theorem getvarFamilyFiltered_setRef {rule : Rule} (hboth : rule.domainBoth = true) (name : String) (elements : List Value) :
    getvarFamilyFiltered refText call rule (.ok (.setRef name elements)) = (filtered refText call rule elements).map (.setRef name) := by
  have hread : getvarFamilyFiltered refText call rule (.ok (.setRef name elements)) = (do
      let ips ← filtered refText call rule elements
      return .setRef name ips) := if_pos hboth
  rw [hread]
  cases filtered refText call rule elements <;> rfl

/-- A named set is no address. -/
theorem setRef_not_realized {domain name : String} {elements : List Value} {addresses : List AddressText} :
    Unfold.realizeDeferred call domain [.setRef name elements] ≠ .ok (addresses.map AddressText.value) := by
  intro h
  cases addresses with
  | nil => cases h
  | cons t addresses => cases h

end Read

/-- Of the addresses on a rule for both families, each family gets its own, in their order; under IPv6 ranges of IPv4 stay as well.
Every literal, prefix and range is kept by its own family. An address of IPv6 leaves IPv4 when its text has two colons with nothing but
digits in lower case between them, as every abbreviated text has and every text without digits in upper case. -/
theorem addresses_split (rule : Rule) (version : IpVersion) (hdomain : rule.domain = .scalar (domainOf version))
    (hboth : rule.domainBoth = true) :
    (∀ t : AddressText, t.version = version → ipfilter refText (domainOf version) t.value = .ok [t.value]) ∧
    (∀ t : AddressText, t.version = .v6 → [':', ':'] <:+: t.text.toList ∨ (∀ c ∈ t.text.toList, ¬('A' ≤ c ∧ c ≤ 'F')) →
      HasLowerRun t.text.toList) ∧
    ∀ addresses : List AddressText, (∀ t ∈ addresses, version = .v4 → t.version = .v6 → HasLowerRun t.text.toList) →
      ipfilter refText (domainOf version) (.array (addresses.map AddressText.value)) = .ok (seen version addresses) ∧
      (∀ value values, Evaluator.toArray value = .ok values →
        Unfold.realizeDeferred call (domainOf version) values = .ok (addresses.map AddressText.value) →
        addressMagic refText call rule (.ok value) = .ok (.array (seen version addresses))) ∧
      (∀ value, Unfold.realizeDeferred call (domainOf version) [value] = .ok (addresses.map AddressText.value) →
        addressMagic refText call rule (.ok (.negated value)) =
          .ok (if (seen version addresses).isEmpty then .array [] else .negated (.array (seen version addresses)))) ∧
      ∀ name elements, Unfold.realizeDeferred call (domainOf version) elements = .ok (addresses.map AddressText.value) →
        addressMagic refText call rule (.ok (.setRef name elements)) = .ok (.setRef name (seen version addresses)) ∧
        getvarFamilyFiltered refText call rule (.ok (.setRef name elements)) = .ok (.setRef name (seen version addresses)) := by
  refine ⟨?_, ?_, ?_⟩
  · rintro t rfl
    cases hversion : t.version with
    | v4 =>
      have hkeep := not_hasIpv6Hint_eq fun h6 => nomatch hversion.symm.trans h6
      rw [AddressText.seenBy, hversion] at hkeep
      exact congrArg Except.ok (List.filter_cons_of_pos hkeep)
    | v6 =>
      have hkeep := not_isIpv4Numeric_eq t
      rw [AddressText.seenBy, hversion] at hkeep
      exact congrArg Except.ok (List.filter_cons_of_pos hkeep)
  · intro t h6 hspelling
    rcases hspelling with hshort | hupper
    · exact hasLowerRun_of_infix hshort
    · exact hasLowerRun_of_spelled (h6 ▸ t.spelled) hupper
  · intro addresses hrun
    have hfiltered : ∀ {values}, Unfold.realizeDeferred call (domainOf version) values = .ok (addresses.map AddressText.value) →
        filtered refText call rule values = .ok (seen version addresses) := filtered_addresses refText call hrun hdomain hboth
    refine ⟨ipfilter_addresses refText hrun, ?_, ?_, ?_⟩
    · intro value values hvalues hrealized
      have hset : ∀ name elements, value ≠ .setRef name elements := by
        rintro name elements rfl
        cases hvalues
        exact setRef_not_realized call hrealized
      rw [addressMagic_of_toArray refText call rule hvalues hset, hfiltered hrealized]
      rfl
    · intro value hrealized
      rw [addressMagic_negated, hfiltered hrealized]
      cases seen version addresses <;> rfl
    · intro name elements hrealized
      have hset := hfiltered hrealized
      constructor
      · rw [addressMagic_setRef, hset]
        rfl
      · rw [getvarFamilyFiltered_setRef refText call hboth, hset]
        rfl

/-! ### A range of IPv4 on a rule for both families -/

/-- A rule of a version, built from a rule for both families. -/
def dualRule (version : IpVersion) : Rule := { keywords := 0, keywordModule := 0, domain := .scalar (domainOf version), domainBoth := true }

theorem spelled_hostRange : Spelled .v4 true "10.0.0.1-10.0.0.9".toList := by
  have htext : "10.0.0.1-10.0.0.9".toList = "10.0.0.1".toList ++ '-' :: "10.0.0.9".toList := by decide +kernel
  have hlow : ipAddress "10.0.0.1".toList = some ⟨.v4, 167772161⟩ := by decide +kernel
  have hhigh : ipAddress "10.0.0.9".toList = some ⟨.v4, 167772169⟩ := by decide +kernel
  rw [htext]
  exact .range hlow hhigh rfl rfl

theorem spelled_shortHost : Spelled .v6 false "2001:DB8::1".toList := by
  have hread : ipAddress "2001:DB8::1".toList = some ⟨.v6, 42540766411282592856903984951653826561⟩ := by decide +kernel
  exact .address hread rfl

/-- A range of hosts. -/
def hostRange : AddressText := ⟨.v4, true, "10.0.0.1-10.0.0.9", spelled_hostRange⟩

/-- An address of IPv6, abbreviated. -/
def shortHost : AddressText := ⟨.v6, false, "2001:DB8::1", spelled_shortHost⟩

theorem addresses_split_hosts :
    addressMagic (fun _ => "") (fun _ _ _ => .ok []) (dualRule .v4) (.ok (.array [.scalar "10.0.0.1-10.0.0.9", .scalar "2001:DB8::1"])) =
      .ok (.array [.scalar "10.0.0.1-10.0.0.9"]) := by
  have hshort : [':', ':'] <:+: shortHost.text.toList := ⟨"2001:DB8".toList, ['1'], by decide +kernel⟩
  have hrun : ∀ t ∈ [hostRange, shortHost], IpVersion.v4 = .v4 → t.version = .v6 → HasLowerRun t.text.toList := by
    intro t ht _ h6
    rcases List.mem_pair.1 ht with rfl | rfl
    · cases h6
    · exact hasLowerRun_of_infix hshort
  have hseen : seen .v4 [hostRange, shortHost] = [hostRange.value] := rfl
  have hsplit := addresses_split (fun _ => "") (fun _ _ _ => .ok []) (dualRule .v4) .v4 rfl rfl
  rw [← show hostRange.value = Value.scalar "10.0.0.1-10.0.0.9" from rfl, ← hseen]
  exact (hsplit.2.2 [hostRange, shortHost] hrun).2.1 _ _ rfl rfl

/-- Under IPv6 a range of IPv4 stays among the elements of a named set. -/
theorem range_of_hosts_under_ip6 :
    addressMagic (fun _ => "") (fun _ _ _ => .ok []) (dualRule .v6)
      (.ok (.setRef "hosts" [.scalar "10.0.0.1-10.0.0.9", .scalar "2001:DB8::1"])) =
      .ok (.setRef "hosts" [.scalar "10.0.0.1-10.0.0.9", .scalar "2001:DB8::1"]) ∧
    ¬∀ (t : AddressText) (version : IpVersion), t.version ≠ version → ipfilter (fun _ => "") (domainOf version) t.value = .ok [] := by
  refine ⟨by decide +kernel, fun h => ?_⟩
  have hkept : ipfilter (fun _ => "") (domainOf .v6) hostRange.value = .ok [hostRange.value] := by decide +kernel
  have hdropped := h hostRange .v6 nofun
  rw [hkept] at hdropped
  cases hdropped

end Ferm.AddressFamily
