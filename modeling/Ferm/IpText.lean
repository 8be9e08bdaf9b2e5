import Ferm.Ipaddress
import Ferm.Lib.Digits
import Ferm.Lib.Lines
import Ferm.Lib.Monadic

/-!
# The texts of addresses

`str` of addresses as the standard library documents it: four decimal octets, or eight hextets of which the longest run of zeros is
left out. An IPv4-mapped address ends in a dotted quad since Python 3.13. What is written is read back as the same number.
-/

namespace Ferm

/-! ## The older version -/

/-- `IPv4Address.__str__`. -/
def ipv4Text (ip : Nat) : List Char := List.intercalate ['.'] ((groups 256 4 ip).map (Nat.toDigits 10))

theorem parseOctet_toDigits {o : Nat} (h : o < 256) : parseOctet (Nat.toDigits 10 o) = some o := by
  have hall : ∀ o < 256, parseOctet (Nat.toDigits 10 o) = some o := by decide +kernel
  exact hall o h

/-- The texts of the octets are what stands between the dots. -/
theorem splitOn_ipv4Text (ip : Nat) : (ipv4Text ip).splitOn '.' = (groups 256 4 ip).map (Nat.toDigits 10) := by
  refine List.splitOn_intercalate '.' ?_ fun hnil => ?_
  · intro octet hoctet
    obtain ⟨o, -, rfl⟩ := List.mem_map.1 hoctet
    exact not_mem_toDigits (by decide) (by decide) (by decide) o
  · have hlength := congrArg List.length hnil
    rw [List.length_map, length_groups] at hlength
    cases hlength

theorem ipv4FromString_ipv4Text {ip : Nat} (h : ip < 2 ^ 32) : ipv4FromString (ipv4Text ip) = some ip := by
  have hoctets : ((groups 256 4 ip).map (Nat.toDigits 10)).mapM parseOctet = some (groups 256 4 ip) :=
    mapM_map_eq_some fun o ho => parseOctet_toDigits (lt_of_mem_groups (by decide) ho)
  have hvalue : groupsValue 256 (groups 256 4 ip) = ip := groupsValue_groups (by simpa using h)
  unfold ipv4FromString
  rw [splitOn_ipv4Text]
  simp only [List.length_map, length_groups, ne_eq, not_true_eq_false, if_false, hoctets, Option.bind_eq_bind, Option.bind_some]
  exact congrArg some hvalue

/-! ## The newer version -/

/-- A run of zero hextets. -/
structure ZeroRun where
  start : Nat := 0
  length : Nat := 0
  deriving DecidableEq, Repr

/-- The loop of `_compress_hextets`: the first of the longest runs of zeros, behind `index` hextets of which the last ones are the
run `current`. -/
def longestZeros : Nat → ZeroRun → ZeroRun → List Nat → ZeroRun
  | _, _, best, [] => best
  | index, current, best, hextet :: rest =>
    if hextet = 0 then
      let current : ZeroRun := ⟨if current.length = 0 then index else current.start, current.length + 1⟩
      longestZeros (index + 1) current (if best.length < current.length then current else best) rest
    else longestZeros (index + 1) {} best rest

/-- The texts on one side of the zeros that are left out: an empty one if there are none. -/
def edgeParts (texts : List (List Char)) : List (List Char) := if texts = [] then [[]] else texts

/-- `_compress_hextets`, and the hextets as texts: a run of two zeros or more becomes an empty text, with another one at an edge. -/
def compressHextets (hextets : List Nat) : List (List Char) :=
  let run := longestZeros 0 {} {} hextets
  let high := (hextets.take run.start).map (Nat.toDigits 16)
  let low := (hextets.drop (run.start + run.length)).map (Nat.toDigits 16)
  if 1 < run.length then edgeParts high ++ [] :: edgeParts low
  else hextets.map (Nat.toDigits 16)

/-- `_string_from_ip_int`. -/
def ipv6Hextets (ip : Nat) : List Char := List.intercalate [':'] (compressHextets (groups 65536 8 ip))

/-- `ipv4_mapped`: the older address in the last bits. -/
def ipv4Mapped (ip : Nat) : Option Nat := if ip / 2 ^ 32 = 65535 then some (ip % 2 ^ 32) else none

/-- The dotted form of an IPv4-mapped address. -/
def mappedText (ipv4 : Nat) : List Char := "::ffff:".toList ++ ipv4Text ipv4

/-- `str` of an address without its scope; `dotted` since Python 3.13. -/
def addressText (dotted : Bool) : IpVersion → Nat → List Char
  | .v4, ip => ipv4Text ip
  | .v6, ip =>
    match ipv4Mapped ip with
    | some ipv4 => if dotted then mappedText ipv4 else ipv6Hextets ip
    | none => ipv6Hextets ip

example : String.ofList (addressText false .v6 0xfe800000000000000000000000000001) = "fe80::1" := by decide +kernel

example : String.ofList (addressText true .v6 0xffff01020304) = "::ffff:1.2.3.4" := by decide +kernel

example : String.ofList (addressText false .v6 0xffff01020304) = "::ffff:102:304" := by decide +kernel

example : String.ofList (addressText false .v6 (2 ^ 112)) = "1::" := by decide +kernel

/-- The loop finds zeros: what it has found of `hextets` in front of `rest`, the current run at the end of it, are zeros. -/
theorem zeros_longestZeros {hextets : List Nat} (rest done : List Nat) {current best : ZeroRun} (hsplit : hextets = done ++ rest)
    (hcurrent : ∀ j < current.length, hextets[current.start + j]? = some 0)
    (hend : current.length ≠ 0 → current.start + current.length = done.length)
    (hbest : ∀ j < best.length, hextets[best.start + j]? = some 0) :
    let run := longestZeros done.length current best rest
    ∀ j < run.length, hextets[run.start + j]? = some 0 := by
  induction rest generalizing done current best with
  | nil => exact hbest
  | cons hextet rest ih =>
    have hsplit' : hextets = (done ++ [hextet]) ++ rest := by rw [hsplit, List.append_assoc, List.singleton_append]
    have hlength : (done ++ [hextet]).length = done.length + 1 := by rw [List.length_append, List.length_singleton]
    rw [longestZeros, ← hlength]
    split
    · rename_i hzero
      have hlast : hextets[done.length]? = some 0 := by
        rw [hsplit, List.getElem?_append_right (Nat.le_refl _), Nat.sub_self, hzero]
        rfl
      generalize hrun : (⟨if current.length = 0 then done.length else current.start, current.length + 1⟩ : ZeroRun) = run
      have hzeros : ∀ j < run.length, hextets[run.start + j]? = some 0 := by
        intro j hj
        subst hrun
        by_cases hnone : current.length = 0
        · obtain rfl : j = 0 := by
            change j < current.length + 1 at hj
            omega
          simpa [hnone] using hlast
        · simp only [hnone, if_false] at hj ⊢
          rcases Nat.lt_succ_iff_lt_or_eq.1 hj with hj | rfl
          · exact hcurrent j hj
          · rw [hend hnone]
            exact hlast
      have hend' : run.length ≠ 0 → run.start + run.length = (done ++ [hextet]).length := by
        intro _
        subst hrun
        by_cases hnone : current.length = 0
        · simp [hnone]
        · have := hend hnone
          simp only [hnone, if_false, List.length_append, List.length_singleton]
          omega
      refine ih (done ++ [hextet]) hsplit' hzeros hend' ?_
      split
      · exact hzeros
      · exact hbest
    · exact ih (done ++ [hextet]) hsplit' (fun j hj => absurd hj (Nat.not_lt_zero j)) (fun h => absurd rfl h) hbest

/-- The hextets around the zeros that are left out. -/
theorem split_longestZeros (hextets : List Nat) :
    let run := longestZeros 0 {} {} hextets
    hextets = hextets.take run.start ++ List.replicate run.length 0 ++ hextets.drop (run.start + run.length) ∧
      (0 < run.length → run.start + run.length ≤ hextets.length) := by
  have hzeros := @zeros_longestZeros hextets hextets [] {} {} rfl
    (fun j hj => absurd hj (Nat.not_lt_zero j)) (fun h => absurd rfl h) (fun j hj => absurd hj (Nat.not_lt_zero j))
  simp only [List.length_nil] at hzeros
  generalize longestZeros 0 {} {} hextets = run at hzeros
  have hle : 0 < run.length → run.start + run.length ≤ hextets.length := by
    intro hpos
    have hlast := hzeros (run.length - 1) (by omega)
    have hlt := (List.getElem?_eq_some_iff.1 hlast).1
    omega
  refine ⟨?_, hle⟩
  have hslice : (hextets.drop run.start).take run.length = List.replicate run.length 0 := by
    refine List.eq_replicate_iff.2 ⟨?_, fun d hd => ?_⟩
    · rw [List.length_take, List.length_drop]
      rcases Nat.eq_zero_or_pos run.length with hzero | hpos
      · rw [hzero, Nat.zero_min]
      · have := hle hpos
        omega
    · obtain ⟨j, hj, rfl⟩ := List.mem_iff_getElem.1 hd
      have hj' : j < run.length := by
        rw [List.length_take] at hj
        omega
      have hzero := hzeros j hj'
      rw [List.getElem_take, List.getElem_drop]
      exact Option.some.inj ((List.getElem?_eq_getElem _).symm.trans hzero)
  rw [← hslice, ← List.drop_drop, List.append_assoc, List.take_append_drop, List.take_append_drop]

theorem parseHextet_toDigits {h : Nat} (hlt : h < 65536) : parseHextet (Nat.toDigits 16 h) = some h := by
  have hhex : (Nat.toDigits 16 h).all isHexDigit = true :=
    List.all_eq_true.2 fun c hc => isHexDigit_of_mem_toDigits (by decide) (by decide) hc
  have hlength : (Nat.toDigits 16 h).length ≤ 4 := (Nat.length_toDigits_le_iff (by decide) (by decide)).2 hlt
  have hempty : (Nat.toDigits 16 h).isEmpty = false := List.isEmpty_eq_false_iff.2 Nat.toDigits_ne_nil
  rw [parseHextet, hempty, hhex, uintValue_toDigits (by decide) (by decide)]
  simp only [Bool.not_true, Bool.or_self, Bool.false_or, decide_eq_true_eq]
  rw [if_neg (by omega)]

theorem hextetsValue_map {hextets : List Nat} (h : ∀ d ∈ hextets, d < 65536) :
    hextetsValue (hextets.map (Nat.toDigits 16)) = some (groupsValue 65536 hextets) := by
  rw [hextetsValue, mapM_map_eq_some fun d hd => parseHextet_toDigits (h d hd)]
  rfl

/-- The texts between colons are read back when none of them is a dotted quad. -/
theorem ipv6Parts_intercalate {parts : List (List Char)} (hcolon : ∀ p ∈ parts, ':' ∉ p) (hlength : 3 ≤ parts.length)
    (hdot : ∀ p ∈ parts, '.' ∉ p) : ipv6Parts (List.intercalate [':'] parts) = some (parts, 0) := by
  have hne : parts ≠ [] := by
    rintro rfl
    exact absurd hlength (by decide)
  have hlast : parts.getLast? = some (parts.getLast hne) := List.getLast?_eq_some_getLast hne
  unfold ipv6Parts
  rw [List.splitOn_intercalate ':' hcolon hne]
  simp only [hlast]
  rw [if_neg (by omega), if_neg (hdot _ (List.getLast_mem hne))]

/-- No part is left out of an address all of whose parts have a text. -/
theorem skipIndices_eq_nil {parts : List (List Char)} (h : ∀ p ∈ parts, p ≠ []) : skipIndices parts = [] := by
  rw [skipIndices, List.filter_eq_nil_iff]
  intro i _ hskip
  simp only [Bool.and_eq_true, decide_eq_true_eq] at hskip
  exact h [] (List.mem_of_getElem? hskip.2) rfl

/-- The one place where parts are left out. -/
theorem skipIndices_eq_singleton {a b : List (List Char)} (ha : a ≠ []) (hb : b ≠ []) (ha' : ∀ p ∈ a.tail, p ≠ [])
    (hb' : ∀ p ∈ b.dropLast, p ≠ []) : skipIndices (a ++ [] :: b) = [a.length] := by
  have hpos := List.length_pos_iff.2 ha
  have hpos' := List.length_pos_iff.2 hb
  have hlength : (a ++ [] :: b).length = a.length + (b.length + 1) := by rw [List.length_append, List.length_cons]
  have hiff : ∀ i ∈ List.range (a ++ [] :: b).length,
      (decide (0 < i) && decide (i + 1 < (a ++ [] :: b).length) && decide ((a ++ [] :: b)[i]? = some [])) = (i == a.length) := by
    intro i hi
    rw [List.mem_range, hlength] at hi
    rw [Bool.eq_iff_iff, beq_iff_eq, hlength]
    simp only [Bool.and_eq_true, decide_eq_true_eq]
    constructor
    · rintro ⟨⟨hfirst, hbefore⟩, hempty⟩
      rcases Nat.lt_trichotomy i a.length with hlt | heq | hgt
      · rw [List.getElem?_append_left hlt] at hempty
        refine absurd rfl (ha' [] (List.mem_of_getElem? (i := i - 1) ?_))
        rwa [List.getElem?_tail, Nat.sub_add_cancel hfirst]
      · exact heq
      · rw [List.getElem?_append_right (Nat.le_of_lt hgt)] at hempty
        obtain ⟨k, hk⟩ : ∃ k, i - a.length = k + 1 := ⟨i - a.length - 1, by omega⟩
        rw [hk, List.getElem?_cons_succ] at hempty
        refine absurd rfl (hb' [] (List.mem_of_getElem? (i := k) ?_))
        rwa [List.getElem?_dropLast, if_pos (by omega)]
    · rintro rfl
      refine ⟨⟨hpos, by omega⟩, ?_⟩
      rw [List.getElem?_append_right (Nat.le_refl _), Nat.sub_self]
      rfl
  rw [skipIndices, List.filter_congr hiff]
  have hcount : (List.range (a ++ [] :: b).length).count a.length = 1 := by
    rw [List.count_range, if_pos (by omega)]
  rw [List.filter_beq, hcount]
  rfl

/-- An address whose parts are all there. -/
theorem ipv6FromString_whole {text : List Char} {parts : List (List Char)} {tail value : Nat}
    (hparts : ipv6Parts text = some (parts, tail)) (hlength : parts.length = 8) (hskip : skipIndices parts = [])
    (hvalue : hextetsValue parts = some value) : ipv6FromString text = some (value + tail) := by
  simp [ipv6FromString, hparts, hlength, hskip, hvalue]

/-- An address with parts left out; a part in front or behind of them is one, or the empty one of the edge. -/
theorem ipv6FromString_skip {text : List Char} {high low a b : List (List Char)} {tail highValue lowValue : Nat}
    (hparts : ipv6Parts text = some (a ++ [] :: b, tail)) (hskip : skipIndices (a ++ [] :: b) = [a.length])
    (hlength : high.length + low.length + 1 ≤ 8)
    (ha : a = edgeParts high) (hb : b = edgeParts low)
    (hhigh : ∀ p ∈ high, p ≠ []) (hlow : ∀ p ∈ low, p ≠ [])
    (hhighValue : hextetsValue high = some highValue) (hlowValue : hextetsValue low = some lowValue) :
    ipv6FromString text = some (highValue * 65536 ^ (8 - high.length) + lowValue + tail) := by
  have htake : (a ++ [] :: b).take a.length = a := List.take_left
  have hdrop : (a ++ [] :: b).drop (a.length + 1) = b := by
    rw [← List.drop_drop, List.drop_left]
    rfl
  have hlength' : (a ++ [] :: b).length = a.length + (b.length + 1) := by rw [List.length_append, List.length_cons]
  -- an edge is empty exactly when no part stands there
  have hlead : ¬ ((a = [] ∨ a.head? = some []) ∧ 1 < a.length) ∧ (if a = [] ∨ a.head? = some [] then [] else a) = high ∧
      a.length ≤ high.length + 1 ∧ (2 ≤ high.length → a.length = high.length) := by
    cases high with
    | nil =>
      subst ha
      exact ⟨by decide, rfl, Nat.le_refl _, fun h => by cases h⟩
    | cons p high =>
      obtain rfl : a = p :: high := ha
      have hp := hhigh p List.mem_cons_self
      have hnone : ¬ (p :: high = [] ∨ (p :: high).head? = some []) := by simpa using hp
      exact ⟨fun h => hnone h.1, if_neg hnone, by simp, fun _ => rfl⟩
  have htrail : ¬ ((b = [] ∨ b.getLast? = some []) ∧ 1 < b.length) ∧ (if b = [] ∨ b.getLast? = some [] then [] else b) = low ∧
      b.length ≤ low.length + 1 ∧ (2 ≤ low.length → b.length = low.length) := by
    by_cases hnil : low = []
    · subst hb hnil
      exact ⟨by decide, rfl, Nat.le_refl _, fun h => by cases h⟩
    · rw [edgeParts, if_neg hnil] at hb
      subst hb
      have hlast := hlow _ (List.getLast_mem hnil)
      have hnone : ¬ (b = [] ∨ b.getLast? = some []) := by
        rw [List.getLast?_eq_some_getLast hnil, Option.some.injEq]
        exact not_or.2 ⟨hnil, hlast⟩
      exact ⟨fun h => hnone h.1, if_neg hnone, by simp, fun _ => rfl⟩
  have hshort : ¬ 9 < (a ++ [] :: b).length := by
    rw [hlength']
    omega
  have hedges : ¬ ((a = [] ∨ a.head? = some []) ∧ 1 < a.length ∨ (b = [] ∨ b.getLast? = some []) ∧ 1 < b.length) :=
    not_or.2 ⟨hlead.1, htrail.1⟩
  simp only [ipv6FromString, hparts, hskip, Option.bind_eq_bind, Option.bind_some, htake, hdrop, hlead.2.1, htrail.2.1, hhighValue,
    hlowValue, if_neg hshort, if_neg hedges, if_neg (Nat.not_lt.2 hlength)]
  rfl

/-- The texts of hextets have neither colons nor dots, and none is empty. -/
theorem hextetText (d : Nat) : Nat.toDigits 16 d ≠ [] ∧ ':' ∉ Nat.toDigits 16 d ∧ '.' ∉ Nat.toDigits 16 d :=
  ⟨Nat.toDigits_ne_nil, not_mem_toDigits (by decide) (by decide) (by decide) d,
    not_mem_toDigits (by decide) (by decide) (by decide) d⟩

/-- The parts at an edge: no further one is empty. -/
theorem edgeParts_map (hextets : List Nat) :
    edgeParts (hextets.map (Nat.toDigits 16)) ≠ [] ∧
      (∀ p ∈ edgeParts (hextets.map (Nat.toDigits 16)), ':' ∉ p ∧ '.' ∉ p) ∧
      (∀ p ∈ (edgeParts (hextets.map (Nat.toDigits 16))).tail, p ≠ []) ∧
      ∀ p ∈ (edgeParts (hextets.map (Nat.toDigits 16))).dropLast, p ≠ [] := by
  have htext : ∀ p ∈ hextets.map (Nat.toDigits 16), p ≠ [] ∧ ':' ∉ p ∧ '.' ∉ p := by
    intro p hp
    obtain ⟨d, -, rfl⟩ := List.mem_map.1 hp
    exact hextetText d
  unfold edgeParts
  split
  · exact ⟨List.cons_ne_nil _ _, by simp, by simp, by simp⟩
  · exact ⟨‹_›, fun p hp => (htext p hp).2, fun p hp => (htext p (List.mem_of_mem_tail hp)).1,
      fun p hp => (htext p (List.dropLast_subset _ hp)).1⟩

/-- The hextets of an address are read back, whether some are left out or not. -/
theorem ipv6FromString_ipv6Hextets {ip : Nat} (h : ip < 2 ^ 128) : ipv6FromString (ipv6Hextets ip) = some ip := by
  have hvalue : groupsValue 65536 (groups 65536 8 ip) = ip := groupsValue_groups (by simpa using h)
  have hlt : ∀ d ∈ groups 65536 8 ip, d < 65536 := fun d hd => lt_of_mem_groups (by decide) hd
  have hlength : (groups 65536 8 ip).length = 8 := length_groups 65536 8 ip
  obtain ⟨hsplit, hle⟩ := split_longestZeros (groups 65536 8 ip)
  rw [ipv6Hextets]
  unfold compressHextets
  generalize groups 65536 8 ip = hextets at *
  generalize longestZeros 0 {} {} hextets = run at *
  simp only
  split
  · rename_i hrun
    have hle := hle (by omega)
    have hhighLength : (hextets.take run.start).length = run.start := by
      rw [List.length_take]
      omega
    have hlowLength : (hextets.drop (run.start + run.length)).length = 8 - (run.start + run.length) := by
      rw [List.length_drop, hlength]
    have hhighLt : ∀ d ∈ hextets.take run.start, d < 65536 := fun d hd => hlt d (List.mem_of_mem_take hd)
    have hlowLt : ∀ d ∈ hextets.drop (run.start + run.length), d < 65536 := fun d hd => hlt d (List.mem_of_mem_drop hd)
    generalize hextets.take run.start = high at *
    generalize hextets.drop (run.start + run.length) = low at *
    obtain ⟨hne, hchars, htail, -⟩ := edgeParts_map high
    obtain ⟨hne', hchars', -, hlast⟩ := edgeParts_map low
    have hparts : ∀ p ∈ edgeParts (high.map (Nat.toDigits 16)) ++ [] :: edgeParts (low.map (Nat.toDigits 16)), ':' ∉ p ∧ '.' ∉ p := by
      intro p hp
      rw [List.mem_append, List.mem_cons] at hp
      rcases hp with hp | rfl | hp
      · exact hchars p hp
      · exact ⟨List.not_mem_nil, List.not_mem_nil⟩
      · exact hchars' p hp
    have hthree : 3 ≤ (edgeParts (high.map (Nat.toDigits 16)) ++ [] :: edgeParts (low.map (Nat.toDigits 16))).length := by
      have hpos := List.length_pos_iff.2 hne
      have hpos' := List.length_pos_iff.2 hne'
      rw [List.length_append, List.length_cons]
      omega
    have htext : ∀ (l : List Nat), ∀ p ∈ l.map (Nat.toDigits 16), p ≠ [] := by
      intro l p hp
      obtain ⟨d, -, rfl⟩ := List.mem_map.1 hp
      exact (hextetText d).1
    have hread := ipv6FromString_skip
      (ipv6Parts_intercalate (fun p hp => (hparts p hp).1) hthree fun p hp => (hparts p hp).2)
      (skipIndices_eq_singleton hne hne' htail hlast) (by rw [List.length_map, List.length_map]; omega) rfl rfl
      (htext high) (htext low) (hextetsValue_map hhighLt) (hextetsValue_map hlowLt)
    have hzeros : run.length + low.length = 8 - high.length := by omega
    rw [hread, ← hvalue, hsplit, groupsValue_append, groupsValue_append, groupsValue_replicate_zero, List.length_replicate,
      List.length_map, Nat.add_zero, Nat.add_zero, Nat.mul_assoc, ← Nat.pow_add, hzeros]
  · have htext : ∀ p ∈ hextets.map (Nat.toDigits 16), p ≠ [] ∧ ':' ∉ p ∧ '.' ∉ p := by
      intro p hp
      obtain ⟨d, -, rfl⟩ := List.mem_map.1 hp
      exact hextetText d
    have hread := ipv6FromString_whole
      (ipv6Parts_intercalate (fun p hp => (htext p hp).2.1) (by rw [List.length_map]; omega) fun p hp => (htext p hp).2.2)
      (by rw [List.length_map, hlength]) (skipIndices_eq_nil fun p hp => (htext p hp).1) (hextetsValue_map hlt)
    rw [hread, hvalue]
    rfl

/-! ## Characters -/

/-- The characters of addresses without scopes. -/
def isAddressChar (c : Char) : Bool := isHexDigit c || c = ':' || c = '.'

theorem isAddressChar_of_hexDigit {c : Char} (h : isHexDigit c = true) : isAddressChar c = true := by
  rw [isAddressChar, h]
  rfl

/-- The octets and the dots between them. -/
theorem digit_or_dot_of_mem_ipv4Text {ip : Nat} : ∀ c ∈ ipv4Text ip, isHexDigit c = true ∨ c = '.' := by
  refine forall_mem_intercalate (.inr rfl) fun octet hoctet c hc => .inl ?_
  obtain ⟨o, -, rfl⟩ := List.mem_map.1 hoctet
  exact isHexDigit_of_mem_toDigits (by decide) (by decide) hc

theorem colon_not_mem_ipv4Text (ip : Nat) : ':' ∉ ipv4Text ip := by
  intro hmem
  rcases digit_or_dot_of_mem_ipv4Text _ hmem with h | h <;> cases h

theorem dot_mem_ipv4Text (ip : Nat) : '.' ∈ ipv4Text ip := by
  by_contra hdot
  have hlength := congrArg List.length (splitOn_ipv4Text ip)
  rw [List.splitOn_eq_singleton hdot, List.length_map, length_groups] at hlength
  cases hlength

theorem isAddressChar_ipv4Text {ip : Nat} : ∀ c ∈ ipv4Text ip, isAddressChar c = true := by
  intro c hc
  rcases digit_or_dot_of_mem_ipv4Text c hc with h | rfl
  · exact isAddressChar_of_hexDigit h
  · rfl

theorem digit_or_colon_of_mem_ipv6Hextets {ip : Nat} : ∀ c ∈ ipv6Hextets ip, isHexDigit c = true ∨ c = ':' := by
  have htexts : ∀ (l : List Nat), ∀ part ∈ l.map (Nat.toDigits 16), ∀ c ∈ part, isHexDigit c = true ∨ c = ':' := by
    intro l part hpart c hc
    obtain ⟨d, -, rfl⟩ := List.mem_map.1 hpart
    exact .inl (isHexDigit_of_mem_toDigits (by decide) (by decide) hc)
  have hedge : ∀ (l : List Nat), ∀ part ∈ edgeParts (l.map (Nat.toDigits 16)), ∀ c ∈ part, isHexDigit c = true ∨ c = ':' := by
    intro l part hpart
    unfold edgeParts at hpart
    split at hpart
    · rw [List.mem_singleton] at hpart
      subst hpart
      exact fun c hc => by cases hc
    · exact htexts l part hpart
  refine forall_mem_intercalate (.inr rfl) fun part hpart => ?_
  unfold compressHextets at hpart
  simp only at hpart
  split at hpart
  · rw [List.mem_append, List.mem_cons] at hpart
    rcases hpart with hpart | rfl | hpart
    · exact hedge _ part hpart
    · exact fun c hc => by cases hc
    · exact hedge _ part hpart
  · exact htexts _ part hpart

theorem isAddressChar_ipv6Hextets {ip : Nat} : ∀ c ∈ ipv6Hextets ip, isAddressChar c = true := by
  intro c hc
  rcases digit_or_colon_of_mem_ipv6Hextets c hc with h | rfl
  · exact isAddressChar_of_hexDigit h
  · rfl

theorem dot_not_mem_ipv6Hextets (ip : Nat) : '.' ∉ ipv6Hextets ip := by
  intro hmem
  rcases digit_or_colon_of_mem_ipv6Hextets _ hmem with h | h <;> cases h

/-- The text of an address of the newer version. -/
theorem addressText_v6_cases (dotted : Bool) (ip : Nat) :
    (addressText dotted .v6 ip = ipv6Hextets ip ∧ (ipv4Mapped ip = none ∨ dotted = false)) ∨
      ∃ ipv4, ipv4Mapped ip = some ipv4 ∧ dotted = true ∧ addressText dotted .v6 ip = mappedText ipv4 := by
  rw [addressText]
  cases hmapped : ipv4Mapped ip with
  | none => exact .inl ⟨rfl, .inl rfl⟩
  | some ipv4 =>
    cases dotted with
    | false => exact .inl ⟨rfl, .inr rfl⟩
    | true => exact .inr ⟨ipv4, rfl, rfl, rfl⟩

theorem isAddressChar_mappedText {ipv4 : Nat} : ∀ c ∈ mappedText ipv4, isAddressChar c = true := by
  have hall : "::ffff:".toList.all isAddressChar = true := by decide
  intro c hc
  rcases List.mem_append.1 hc with hc | hc
  · exact List.all_eq_true.1 hall c hc
  · exact isAddressChar_ipv4Text c hc

theorem isAddressChar_addressText (dotted : Bool) (version : IpVersion) (ip : Nat) :
    ∀ c ∈ addressText dotted version ip, isAddressChar c = true := by
  cases version with
  | v4 => exact isAddressChar_ipv4Text
  | v6 =>
    rcases addressText_v6_cases dotted ip with ⟨h, -⟩ | ⟨ipv4, -, -, h⟩
    · rw [h]
      exact isAddressChar_ipv6Hextets
    · rw [h]
      exact isAddressChar_mappedText

/-- Characters that no address has. -/
theorem not_mem_addressText {c : Char} (h : isAddressChar c = false) (dotted : Bool) (version : IpVersion) (ip : Nat) :
    c ∉ addressText dotted version ip := by
  intro hmem
  rw [isAddressChar_addressText dotted version ip c hmem] at h
  cases h

/-! ## Reading addresses back -/

theorem ipv6FromString_mappedText {ipv4 : Nat} (h : ipv4 < 2 ^ 32) : ipv6FromString (mappedText ipv4) = some (65535 * 2 ^ 32 + ipv4) := by
  have hsplit : (mappedText ipv4).splitOn ':' = [[], [], "ffff".toList, ipv4Text ipv4] := by
    have htext : mappedText ipv4 = List.intercalate [':'] [[], [], "ffff".toList, ipv4Text ipv4] := by
      change "::ffff:".toList ++ ipv4Text ipv4 = _
      generalize ipv4Text ipv4 = tail
      simp [List.intercalate_cons_cons]
    rw [htext]
    refine List.splitOn_intercalate ':' (fun part hpart => ?_) (List.cons_ne_nil _ _)
    simp only [List.mem_cons, List.not_mem_nil, or_false] at hpart
    rcases hpart with rfl | rfl | rfl | rfl
    · exact List.not_mem_nil
    · exact List.not_mem_nil
    · decide
    · exact colon_not_mem_ipv4Text ipv4
  have hparts : ipv6Parts (mappedText ipv4) = some ([[]] ++ [] :: ["ffff".toList, ['0'], ['0']], ipv4) := by
    unfold ipv6Parts
    rw [hsplit]
    simp only [List.length_cons, List.length_nil, List.getLast?_cons_cons, List.getLast?_singleton, if_pos (dot_mem_ipv4Text ipv4),
      ipv4FromString_ipv4Text h]
    rfl
  have hread := @ipv6FromString_skip (mappedText ipv4) [] ["ffff".toList, ['0'], ['0']] [[]] ["ffff".toList, ['0'], ['0']] ipv4 0
    (65535 * 65536 ^ 2) hparts (by decide) (by decide) rfl rfl (by simp) (by simp) (by decide) (by decide)
  rw [hread]
  congr 1

/-- A dotted quad has digits and dots only. -/
theorem digit_or_dot_of_ipv4FromString {text : List Char} {ip : Nat} (h : ipv4FromString text = some ip) :
    ∀ c ∈ text, c.isDigit = true ∨ c = '.' := by
  unfold ipv4FromString at h
  simp only at h
  split at h
  · cases h
  · obtain ⟨values, hvalues, -⟩ := Option.bind_eq_some_iff.1 h
    rw [← @List.intercalate_splitOn _ text _ _ '.']
    refine forall_mem_intercalate (.inr rfl) fun octet hoctet c hc => .inl ?_
    have hsome := mapM_isSome_iff.1 (Option.isSome_iff_exists.2 ⟨values, hvalues⟩) octet hoctet
    unfold parseOctet at hsome
    split at hsome
    · cases hsome
    · rename_i hcheck
      simp only [Bool.or_eq_true, not_or, Bool.not_eq_true, Bool.not_eq_false'] at hcheck
      have huint := hcheck.1.1.1
      rw [isAsciiUint, Bool.and_eq_true] at huint
      exact List.all_eq_true.1 huint.2 c hc

theorem ipv4Address_eq_none {text : List Char} {c : Char} (hmem : c ∈ text) (hdigit : c.isDigit = false) (hdot : c ≠ '.') :
    ipv4Address text = none := by
  rw [ipv4Address, Option.map_eq_none_iff]
  cases h : ipv4FromString text with
  | none => rfl
  | some ip =>
    rcases digit_or_dot_of_ipv4FromString h c hmem with hc | hc
    · rw [hdigit] at hc
      cases hc
    · exact absurd hc hdot

/-- A scope behind an address: none, or a percent sign and what it stands in front of. -/
def IsScope (scope : List Char) : Prop := scope = [] ∨ ∃ zone, scope = '%' :: zone ∧ zone ≠ [] ∧ '%' ∉ zone ∧ '/' ∉ zone

theorem splitScopeId_append {addr scope : List Char} (haddr : '%' ∉ addr) (hscope : IsScope scope) :
    splitScopeId (addr ++ scope) = some addr := by
  rcases hscope with rfl | ⟨zone, rfl, hne, hpercent, -⟩
  · rw [List.append_nil, splitScopeId, partitionAt_eq_none haddr]
  · rw [splitScopeId, partitionAt_append haddr]
    simp only
    rw [if_neg]
    rw [Bool.or_eq_true, not_or, List.isEmpty_iff, decide_eq_true_eq]
    exact ⟨hne, hpercent⟩

theorem colon_mem_ipv6Hextets {ip : Nat} (h : ip < 2 ^ 128) : ':' ∈ ipv6Hextets ip := by
  by_contra hcolon
  have hread := ipv6FromString_ipv6Hextets h
  have hparts : ipv6Parts (ipv6Hextets ip) = none := by
    unfold ipv6Parts
    rw [List.splitOn_eq_singleton hcolon]
    rfl
  unfold ipv6FromString at hread
  rw [hparts] at hread
  cases hread

theorem colon_mem_addressText {ip : Nat} (h : ip < 2 ^ 128) (dotted : Bool) : ':' ∈ addressText dotted .v6 ip := by
  rcases addressText_v6_cases dotted ip with ⟨htext, -⟩ | ⟨ipv4, -, -, htext⟩
  · rw [htext]
    exact colon_mem_ipv6Hextets h
  · rw [htext]
    exact List.mem_cons_self

/-- The text of an IPv4-mapped address, in either form. -/
theorem ipv6FromString_addressText {ip : Nat} (h : ip < 2 ^ 128) (dotted : Bool) :
    ipv6FromString (addressText dotted .v6 ip) = some ip := by
  rcases addressText_v6_cases dotted ip with ⟨htext, -⟩ | ⟨ipv4, hmapped, -, htext⟩
  · rw [htext, ipv6FromString_ipv6Hextets h]
  · unfold ipv4Mapped at hmapped
    split at hmapped
    · have hipv4 := Option.some.inj hmapped
      rw [htext, ipv6FromString_mappedText (by omega)]
      congr 1
      omega
    · cases hmapped

/-- `str` of an address with its scope is read back. -/
theorem ipAddress_addressText {version : IpVersion} {ip : Nat} (h : ip < 2 ^ version.maxPrefixlen) (dotted : Bool)
    {scope : List Char} (hscope : IsScope scope) (hnone : version = .v4 → scope = []) :
    ipAddress (addressText dotted version ip ++ scope) = some ⟨version, ip⟩ := by
  have hslash : '/' ∉ addressText dotted version ip ++ scope := by
    rw [List.mem_append, not_or]
    refine ⟨not_mem_addressText (by decide) dotted version ip, ?_⟩
    rcases hscope with rfl | ⟨zone, rfl, -, -, hzone⟩
    · exact List.not_mem_nil
    · simpa using hzone
  rw [ipAddress, if_neg hslash]
  cases version with
  | v4 =>
    rw [hnone rfl, List.append_nil]
    change (ipv4Address (ipv4Text ip) <|> _) = _
    rw [ipv4Address, ipv4FromString_ipv4Text h]
    rfl
  | v6 =>
    have hcolon : ':' ∈ addressText dotted .v6 ip ++ scope := List.mem_append_left _ (colon_mem_addressText h dotted)
    have hpercent : '%' ∉ addressText dotted .v6 ip := not_mem_addressText (by decide) dotted .v6 ip
    rw [ipv4Address_eq_none hcolon (by decide) (by decide)]
    change ipv6Address _ = _
    rw [ipv6Address, splitScopeId_append hpercent hscope]
    change (ipv6FromString (addressText dotted .v6 ip)).bind _ = _
    rw [ipv6FromString_addressText h]
    rfl

/-! ## Bounds -/

theorem groupsValue_lt {base : Nat} {digits : List Nat} (h : ∀ d ∈ digits, d < base) : groupsValue base digits < base ^ digits.length := by
  induction digits with
  | nil => exact Nat.one_pos
  | cons d digits ih =>
    have hrest := ih fun e he => h e (List.mem_cons_of_mem d he)
    have hd : d + 1 ≤ base := h d List.mem_cons_self
    have hmul := Nat.mul_le_mul_right (base ^ digits.length) hd
    rw [← List.singleton_append, groupsValue_append, List.length_append, List.length_singleton, Nat.add_comm 1, Nat.pow_succ,
      Nat.mul_comm _ base]
    have hsingle : groupsValue base [d] = d := by simp [groupsValue]
    rw [hsingle]
    rw [Nat.add_mul] at hmul
    omega

/-- Values that a walk gives are all below a bound. -/
theorem forall_lt_of_mapM {α : Type} {read : α → Option Nat} {l : List α} {values : List Nat} {bound : Nat}
    (h : l.mapM read = some values) (hread : ∀ a n, read a = some n → n < bound) :
    values.length = l.length ∧ ∀ n ∈ values, n < bound := by
  induction l generalizing values with
  | nil =>
    cases h
    exact ⟨rfl, fun n hn => by cases hn⟩
  | cons a l ih =>
    rw [List.mapM_cons] at h
    obtain ⟨n, hn, h⟩ := Option.bind_eq_some_iff.1 h
    obtain ⟨ns, hns, h⟩ := Option.bind_eq_some_iff.1 h
    obtain rfl := Option.some.inj h
    obtain ⟨hlength, hall⟩ := ih hns
    exact ⟨congrArg (· + 1) hlength, List.forall_mem_cons.2 ⟨hread a n hn, hall⟩⟩

theorem parseOctet_lt {octet : List Char} {o : Nat} (h : parseOctet octet = some o) : o < 256 := by
  unfold parseOctet at h
  split at h
  · cases h
  · rename_i hcheck
    simp only [Bool.or_eq_true, not_or, decide_eq_true_eq] at hcheck
    obtain rfl := Option.some.inj h
    omega

theorem ipv4FromString_lt {text : List Char} {ip : Nat} (h : ipv4FromString text = some ip) : ip < 2 ^ 32 := by
  unfold ipv4FromString at h
  simp only at h
  split at h
  · cases h
  · rename_i hlength
    obtain ⟨values, hvalues, h⟩ := Option.bind_eq_some_iff.1 h
    obtain rfl := Option.some.inj h
    obtain ⟨hcount, hall⟩ := forall_lt_of_mapM hvalues fun a n => parseOctet_lt
    have hlt := groupsValue_lt hall
    rw [hcount, not_not.1 hlength] at hlt
    exact hlt

theorem parseHextet_lt {hextet : List Char} {h : Nat} (hparse : parseHextet hextet = some h) : h < 65536 := by
  unfold parseHextet at hparse
  split at hparse
  · cases hparse
  · rename_i hcheck
    simp only [Bool.or_eq_true, not_or, decide_eq_true_eq, Nat.not_lt] at hcheck
    obtain rfl := Option.some.inj hparse
    have hdigits : ∀ d ∈ hextet.map digitValue, d < 16 := by
      intro d hd
      obtain ⟨c, -, rfl⟩ := List.mem_map.1 hd
      exact digitValue_lt c
    have hlt := groupsValue_lt hdigits
    rw [List.length_map, groupsValue, List.foldl_map] at hlt
    exact Nat.lt_of_lt_of_le hlt (Nat.pow_le_pow_right (by decide) hcheck.2)

theorem hextetsValue_lt {parts : List (List Char)} {value : Nat} (h : hextetsValue parts = some value) :
    value < 65536 ^ parts.length := by
  obtain ⟨values, hvalues, h⟩ := Option.bind_eq_some_iff.1 h
  obtain rfl := Option.some.inj h
  obtain ⟨hcount, hall⟩ := forall_lt_of_mapM hvalues fun a n => parseHextet_lt
  have hlt := groupsValue_lt hall
  rwa [hcount] at hlt

/-- The number of a dotted tail fits in the two zero hextets that are put in its place. -/
def TailFits (parts : List (List Char)) (tail : Nat) : Prop :=
  tail = 0 ∨ tail < 65536 ^ 2 ∧ ∃ first, parts = first ++ [['0'], ['0']]

theorem ipv6Parts_tailFits {text : List Char} {parts : List (List Char)} {tail : Nat} (h : ipv6Parts text = some (parts, tail)) :
    TailFits parts tail := by
  unfold ipv6Parts at h
  simp only at h
  split at h
  · cases h
  · split at h
    · cases h
    · split at h
      · obtain ⟨ipv4, hipv4, heq⟩ := Option.map_eq_some_iff.1 h
        obtain ⟨rfl, rfl⟩ := Prod.mk.inj heq
        have hlt := ipv4FromString_lt hipv4
        exact .inr ⟨by omega, (text.splitOn ':').dropLast, rfl⟩
      · obtain ⟨-, rfl⟩ := Prod.mk.inj (Option.some.inj h)
        exact .inl rfl

theorem hextetsValue_append_zeros {first : List (List Char)} {value : Nat}
    (h : hextetsValue (first ++ [['0'], ['0']]) = some value) : ∃ high, hextetsValue first = some high ∧ value = high * 65536 ^ 2 := by
  obtain ⟨values, hvalues, h⟩ := Option.bind_eq_some_iff.1 h
  obtain rfl := Option.some.inj h
  rw [List.mapM_append] at hvalues
  obtain ⟨digits, hdigits, hvalues⟩ := Option.bind_eq_some_iff.1 hvalues
  obtain ⟨zeros, hzeros, hvalues⟩ := Option.bind_eq_some_iff.1 hvalues
  obtain rfl := Option.some.inj hvalues
  obtain rfl : [0, 0] = zeros := Option.some.inj hzeros
  have hzero : groupsValue 65536 [0, 0] = 0 := groupsValue_replicate_zero 65536 2
  refine ⟨groupsValue 65536 digits, ?_, ?_⟩
  · rw [hextetsValue, hdigits]
    rfl
  · have happend := groupsValue_append 65536 digits [0, 0]
    rw [hzero, Nat.add_zero] at happend
    exact happend

theorem hextetsValue_add_tail_lt {parts : List (List Char)} {tail value : Nat} (htail : TailFits parts tail)
    (h : hextetsValue parts = some value) : value + tail < 65536 ^ parts.length := by
  rcases htail with rfl | ⟨hlt, first, rfl⟩
  · exact hextetsValue_lt h
  · obtain ⟨high, hhigh, rfl⟩ := hextetsValue_append_zeros h
    have hbound := Nat.mul_le_mul_right (65536 ^ 2) (Nat.succ_le_of_lt (hextetsValue_lt hhigh))
    rw [Nat.succ_mul] at hbound
    rw [List.length_append, Nat.pow_add]
    change high * 65536 ^ 2 + tail < 65536 ^ first.length * 65536 ^ 2
    omega

/-- The parts behind those that are left out end in what is put in place of a dotted tail. -/
theorem tailFits_drop {parts : List (List Char)} {tail skip : Nat} (htail : TailFits parts tail) (hskip : skip ∈ skipIndices parts) :
    TailFits (parts.drop (skip + 1)) tail := by
  rcases htail with rfl | ⟨hlt, first, rfl⟩
  · exact .inl rfl
  · simp only [skipIndices, List.mem_filter, Bool.and_eq_true, decide_eq_true_eq] at hskip
    have hfirst : skip + 1 ≤ first.length := by
      by_contra hge
      have hempty := hskip.2.2
      rw [List.getElem?_append_right (by omega)] at hempty
      have hbound := hskip.2.1.2
      rw [List.length_append, List.length_cons, List.length_cons, List.length_nil] at hbound
      obtain hzero : skip - first.length = 0 := by omega
      rw [hzero] at hempty
      cases hempty
    exact .inr ⟨hlt, first.drop (skip + 1), List.drop_append_of_le_length hfirst⟩

theorem ipv6FromString_lt {text : List Char} {ip : Nat} (h : ipv6FromString text = some ip) : ip < 2 ^ 128 := by
  unfold ipv6FromString at h
  obtain ⟨⟨parts, tail⟩, hparts, h⟩ := Option.bind_eq_some_iff.1 h
  have htail := ipv6Parts_tailFits hparts
  simp only at h
  split at h
  · cases h
  · split at h
    · split at h
      · cases h
      · rename_i hlength
        obtain ⟨value, hvalue, h⟩ := Option.bind_eq_some_iff.1 h
        obtain rfl := Option.some.inj h
        have hlt := hextetsValue_add_tail_lt htail hvalue
        rw [not_not.1 hlength] at hlt
        exact hlt
    · rename_i skip hskip
      have hlow := @tailFits_drop _ _ skip htail (by rw [hskip]; exact List.mem_singleton_self skip)
      split at h
      · cases h
      · generalize hhi : (if List.take skip parts = [] ∨ (List.take skip parts).head? = some [] then []
          else List.take skip parts) = hi at h
        generalize hlo : (if List.drop (skip + 1) parts = [] ∨ (List.drop (skip + 1) parts).getLast? = some [] then []
          else List.drop (skip + 1) parts) = lo at h
        split at h
        · cases h
        · rename_i hcount
          obtain ⟨high, hhigh, h⟩ := Option.bind_eq_some_iff.1 h
          obtain ⟨low, hlowValue, h⟩ := Option.bind_eq_some_iff.1 h
          obtain rfl := Option.some.inj h
          have hlowTail : TailFits lo tail := by
            split at hlo
            · rename_i hedge
              rcases hlow with rfl | ⟨-, first, hfirst⟩
              · exact .inl rfl
              · rw [hfirst] at hedge
                simp at hedge
            · exact hlo ▸ hlow
          have hlt := hextetsValue_lt hhigh
          have hlt' := hextetsValue_add_tail_lt hlowTail hlowValue
          have hle : 65536 ^ lo.length ≤ 65536 ^ (8 - hi.length) := Nat.pow_le_pow_right (by decide) (by omega)
          have hbound := Nat.mul_le_mul_right (65536 ^ (8 - hi.length)) (Nat.succ_le_of_lt hlt)
          rw [← Nat.pow_add, Nat.succ_mul, Nat.add_sub_cancel' (by omega)] at hbound
          have hpow : (65536 : Nat) ^ 8 = 2 ^ 128 := by decide
          omega
    · cases h

end Ferm
