import Ferm.Lib.Digits
import Ferm.Lib.Lines

/-!
# Integer literals

`int(text)` and `int(text, 0)`: blanks around it, a sign, and a number in base ten or in the base its prefix says, with single
underscores between digits. The digits of any script count as ASCII's. A decimal number has no more digits than Python reads, and
before base zero no leading zero unless it is zero.
-/

namespace Ferm

/-- The digits of the longest decimal number that is read or written. -/
def INT_MAX_STR_DIGITS : Nat := 4300

/-- The digits zero beyond ASCII, each with the nine after it. -/
def DECIMAL_ZEROS : List Nat :=
  [0x660, 0x6f0, 0x7c0, 0x966, 0x9e6, 0xa66, 0xae6, 0xb66, 0xbe6, 0xc66, 0xce6, 0xd66, 0xde6, 0xe50, 0xed0, 0xf20, 0x1040, 0x1090,
    0x17e0, 0x1810, 0x1946, 0x19d0, 0x1a80, 0x1a90, 0x1b50, 0x1bb0, 0x1c40, 0x1c50, 0xa620, 0xa8d0, 0xa900, 0xa9d0, 0xa9f0, 0xaa50,
    0xabf0, 0xff10, 0x104a0, 0x10d30, 0x11066, 0x110f0, 0x11136, 0x111d0, 0x112f0, 0x11450, 0x114d0, 0x11650, 0x116c0, 0x11730,
    0x118e0, 0x11950, 0x11c50, 0x11d50, 0x11da0, 0x16a60, 0x16ac0, 0x16b50, 0x1d7ce, 0x1d7d8, 0x1d7e2, 0x1d7ec, 0x1d7f6, 0x1e140,
    0x1e2f0, 0x1e950, 0x1fbf0]

/-- A decimal digit of any script as one of ASCII. -/
def asciiDigit (c : Char) : Char :=
  match DECIMAL_ZEROS.find? fun start => start ≤ c.toNat && c.toNat < start + 10 with
  | some start => Nat.digitChar (c.toNat - start)
  | none => c

/-- A digit of the base. -/
def isDigitIn (base : Nat) (c : Char) : Bool := isHexDigit c && digitValue c < base

/-- Digits with single underscores between them. -/
def digitsIn (base : Nat) (text : List Char) : Option Nat :=
  if (text.splitOn '_').all fun part => !part.isEmpty && part.all (isDigitIn base) then
    some (uintValue base (text.filter (· ≠ '_')))
  else none

/-- Digits after a prefix, which an underscore may follow. -/
def prefixedIn (base : Nat) : List Char → Option Nat
  | '_' :: text => digitsIn base text
  | text => digitsIn base text

/-- A decimal number that is not too long. -/
def decimalDigits (text : List Char) : Option Nat := do
  let n ← digitsIn 10 text
  if INT_MAX_STR_DIGITS < (text.filter (· ≠ '_')).length then none else some n

/-- A decimal number: a leading zero is there in a zero only. -/
def decimalLiteral (text : List Char) : Option Nat := do
  let n ← decimalDigits text
  if text.head? = some '0' ∧ n ≠ 0 then none else some n

/-- A number without a sign. -/
def uintLiteral : List Char → Option Nat
  | '0' :: 'x' :: text => prefixedIn 16 text
  | '0' :: 'X' :: text => prefixedIn 16 text
  | '0' :: 'o' :: text => prefixedIn 8 text
  | '0' :: 'O' :: text => prefixedIn 8 text
  | '0' :: 'b' :: text => prefixedIn 2 text
  | '0' :: 'B' :: text => prefixedIn 2 text
  | text => decimalLiteral text

/-- A blank that may stand around a number: the four separators of ASCII do not count. -/
def isIntSpace (c : Char) : Bool := isPySpace c && !(0x1c ≤ c.toNat && c.toNat ≤ 0x1f)

/-- A number without the blanks around it. -/
def stripSpace (text : List Char) : List Char := ((text.dropWhile isIntSpace).reverse.dropWhile isIntSpace).reverse

/-- A number with a sign or without one, between blanks. -/
def signedLiteral (uint : List Char → Option Nat) (text : List Char) : Option Int :=
  match stripSpace (text.map asciiDigit) with
  | '-' :: digits => (uint digits).map fun n : Nat => -(n : Int)
  | '+' :: digits => (uint digits).map fun n : Nat => (n : Int)
  | digits => (uint digits).map fun n : Nat => (n : Int)

/-- `int(text)`. -/
def pyInt (text : List Char) : Option Int := signedLiteral decimalDigits text

/-- `int(text, 0)`. -/
def intLiteral (text : List Char) : Option Int := signedLiteral uintLiteral text

example : ["0x1f", "-0b1_1", "007", "0_0", " 8 "].map (fun text => intLiteral text.toList) = [some 31, some (-3), none, some 0, some 8] := by
  decide

example : ["-1_0", "+007", "٣", "1__0", "\x1c8"].map (fun text => pyInt text.toList) = [some (-10), some 7, some 3, none, none] := by
  decide

/-! ## ASCII texts -/

/-- The digits beyond ASCII leave ASCII's characters alone. -/
theorem asciiDigit_of_lt {c : Char} (h : c.toNat < 128) : asciiDigit c = c := by
  have hzeros : ∀ start ∈ DECIMAL_ZEROS, 128 ≤ start := by decide
  have hnone : (DECIMAL_ZEROS.find? fun start => start ≤ c.toNat && c.toNat < start + 10) = none := by
    rw [List.find?_eq_none]
    intro start hmem hfound
    rw [Bool.and_eq_true, decide_eq_true_iff] at hfound
    have := hzeros start hmem
    omega
  rw [asciiDigit, hnone]

/-- Nothing around a text of visible ASCII characters is stripped, and nothing in it is another digit. -/
theorem stripSpace_of_visible {text : List Char} (h : ∀ c ∈ text, 33 ≤ c.toNat ∧ c.toNat ≤ 126) :
    stripSpace (text.map asciiDigit) = text := by
  have hmap : text.map asciiDigit = text :=
    (List.map_congr_left fun c hc => asciiDigit_of_lt (by have := h c hc; omega)).trans (List.map_id _)
  have hspace : ∀ c ∈ text, isIntSpace c = false := fun c hc => by rw [isIntSpace, isPySpace_eq_false (h c hc), Bool.false_and]
  have hdrop : ∀ text : List Char, (∀ c ∈ text, isIntSpace c = false) → text.dropWhile isIntSpace = text := by
    intro text h
    cases text with
    | nil => rfl
    | cons c text => rw [List.dropWhile_cons, if_neg (Bool.eq_false_iff.1 (h c List.mem_cons_self))]
  rw [hmap, stripSpace, hdrop text hspace, hdrop _ (fun c hc => hspace c (List.mem_reverse.1 hc)), List.reverse_reverse]

/-- The characters of a number are visible, and no underscores. -/
theorem isHexDigit_ne {c : Char} (h : isHexDigit c = true) : (33 ≤ c.toNat ∧ c.toNat ≤ 126) ∧ c ≠ '_' := by
  refine ⟨?_, ?_⟩
  · simp only [isHexDigit, Char.isDigit, Bool.or_eq_true, Bool.and_eq_true, decide_eq_true_eq, Char.le_def, ge_iff_le, UInt32.le_iff_toNat_le] at h
    have ha : 'a'.val.toNat = 97 := rfl
    have hf : 'f'.val.toNat = 102 := rfl
    have hA : 'A'.val.toNat = 65 := rfl
    have hF : 'F'.val.toNat = 70 := rfl
    have h0 : '0'.val.toNat = 48 := rfl
    have h9 : '9'.val.toNat = 57 := rfl
    have hc : c.toNat = c.val.toNat := rfl
    omega
  · rintro rfl
    exact absurd h (by decide)

theorem digitsIn_toDigits {base : Nat} (hbase : 1 < base) (hle : base ≤ 16) (n : Nat) :
    digitsIn base (Nat.toDigits base n) = some n ∧ (Nat.toDigits base n).filter (· ≠ '_') = Nat.toDigits base n := by
  have hhex : ∀ c ∈ Nat.toDigits base n, isHexDigit c = true := fun c hc => isHexDigit_of_mem_toDigits hbase hle hc
  have hfilter : (Nat.toDigits base n).filter (· ≠ '_') = Nat.toDigits base n :=
    List.filter_eq_self.2 fun c hc => decide_eq_true (isHexDigit_ne (hhex c hc)).2
  have hall : (Nat.toDigits base n).all (isDigitIn base) = true := List.all_eq_true.2 fun c hc => by
    rw [isDigitIn, hhex c hc, Bool.true_and]
    exact decide_eq_true (digitValue_lt_of_mem_toDigits hbase hle hc)
  refine ⟨?_, hfilter⟩
  rw [digitsIn, List.splitOn_eq_singleton (not_mem_toDigits hbase hle (by decide) n), List.all_cons, List.all_nil, Bool.and_true, hall,
    Bool.and_true, if_pos (by simp [Nat.toDigits_ne_nil]), hfilter, uintValue_toDigits hbase hle]

/-! ## Decimal numbers -/

theorem toList_toString_int (n : Int) :
    (toString n).toList = if 0 ≤ n then Nat.toDigits 10 n.toNat else '-' :: Nat.toDigits 10 (-n).toNat := by
  rw [Int.toString_eq_repr, Int.repr_eq_if]
  split
  · rw [Nat.toList_repr]
  · rw [String.toList_append, Nat.toList_repr]
    rfl

/-- The number of digits that `str(n)` writes. -/
def digitCount (n : Int) : Nat := (Nat.toDigits 10 n.natAbs).length

/-- `str(n)`, nothing where the number is too long to be written. -/
def pyStr (n : Int) : Option String := if digitCount n ≤ INT_MAX_STR_DIGITS then some (toString n) else none

/-- A number that can be written is read back. -/
theorem pyInt_toString {n : Int} (h : digitCount n ≤ INT_MAX_STR_DIGITS) : pyInt (toString n).toList = some n := by
  have hvisible : ∀ m : Nat, ∀ c ∈ Nat.toDigits 10 m, 33 ≤ c.toNat ∧ c.toNat ≤ 126 := fun m c hc =>
    (isHexDigit_ne (isHexDigit_of_mem_toDigits (by decide) (by decide) hc)).1
  have hread : ∀ m : Nat, (Nat.toDigits 10 m).length ≤ INT_MAX_STR_DIGITS → decimalDigits (Nat.toDigits 10 m) = some m := by
    intro m hm
    obtain ⟨hdigits, hfilter⟩ := digitsIn_toDigits (by decide : 1 < 10) (by decide) m
    rw [decimalDigits, hdigits, hfilter]
    exact if_neg (Nat.not_lt.2 hm)
  rw [digitCount] at h
  rw [pyInt, signedLiteral, toList_toString_int]
  by_cases hn : 0 ≤ n
  · have habs : n.toNat = n.natAbs := by omega
    rw [if_pos hn, habs, stripSpace_of_visible (hvisible _)]
    obtain ⟨c, cs, hcs⟩ := List.exists_cons_of_ne_nil (Nat.toDigits_ne_nil (n := n.natAbs) (b := 10))
    have hdigit : c.isDigit = true := Nat.isDigit_of_mem_toDigits (b := 10) (by decide) (by decide) (hcs ▸ List.mem_cons_self)
    split
    · rename_i heq
      rw [List.head_eq_of_cons_eq (hcs.symm.trans heq)] at hdigit
      cases hdigit
    · rename_i heq
      rw [List.head_eq_of_cons_eq (hcs.symm.trans heq)] at hdigit
      cases hdigit
    · rw [hread _ h]
      exact congrArg some (Int.natAbs_of_nonneg hn)
  · have habs : (-n).toNat = n.natAbs := by omega
    have hminus : ∀ c ∈ '-' :: Nat.toDigits 10 n.natAbs, 33 ≤ c.toNat ∧ c.toNat ≤ 126 :=
      List.forall_mem_cons.2 ⟨by decide, hvisible _⟩
    rw [if_neg hn, habs, stripSpace_of_visible hminus]
    simp only [hread _ h, Option.map_some]
    congr 1
    omega

theorem pyInt_toDigits {n : Nat} (h : (Nat.toDigits 10 n).length ≤ INT_MAX_STR_DIGITS) : pyInt (Nat.toDigits 10 n) = some (n : Int) := by
  have hread : pyInt (toString (n : Int)).toList = some (n : Int) := pyInt_toString h
  rwa [toList_toString_int, if_pos (Int.natCast_nonneg n), Int.toNat_natCast] at hread

/-! ## Hexadecimal numbers -/

/-- A number that is written in hexadecimal is read back. -/
theorem intLiteral_hex (n : Nat) : intLiteral ('0' :: 'x' :: Nat.toDigits 16 n) = some (n : Int) := by
  have hvisible : ∀ c ∈ '0' :: 'x' :: Nat.toDigits 16 n, 33 ≤ c.toNat ∧ c.toNat ≤ 126 := by
    refine List.forall_mem_cons.2 ⟨by decide, List.forall_mem_cons.2 ⟨by decide, fun c hc => ?_⟩⟩
    exact (isHexDigit_ne (isHexDigit_of_mem_toDigits (by decide) (by decide) hc)).1
  have hprefixed : prefixedIn 16 (Nat.toDigits 16 n) = some n := by
    unfold prefixedIn
    split
    · rename_i text heq
      exact absurd (heq ▸ List.mem_cons_self) (not_mem_toDigits (by decide) (by decide) (by decide : isHexDigit '_' = false) n)
    · exact (digitsIn_toDigits (by decide) (by decide) n).1
  rw [intLiteral, signedLiteral, stripSpace_of_visible hvisible]
  change (prefixedIn 16 (Nat.toDigits 16 n)).map (fun n : Nat => (n : Int)) = some (n : Int)
  rw [hprefixed]
  rfl

/-- The digits of a number in hexadecimal, as many as are asked for. -/
def hexDigits (count n : Nat) : List Char := (groups 16 count n).map Nat.digitChar

theorem uintValue_hexDigits {count n : Nat} (h : n < 16 ^ count) : uintValue 16 (hexDigits count n) = n := by
  have hfold : ∀ (digits : List Nat) (m : Nat), (∀ d ∈ digits, d < 16) →
      (digits.map Nat.digitChar).foldl (fun n c => 16 * n + digitValue c) m = digits.foldl (fun n d => 16 * n + d) m := by
    intro digits
    induction digits with
    | nil => exact fun _ _ => rfl
    | cons d digits ih =>
      intro m hd
      obtain ⟨hd, hdigits⟩ := List.forall_mem_cons.1 hd
      rw [List.map_cons, List.foldl_cons, List.foldl_cons, digitValue_digitChar hd, ih _ hdigits]
  rw [uintValue, hexDigits, hfold _ _ fun d hd => lt_of_mem_groups (by decide) hd]
  exact groupsValue_groups h

theorem isHexDigit_of_mem_hexDigits {count n : Nat} {c : Char} (h : c ∈ hexDigits count n) : isHexDigit c = true := by
  have hall : ∀ d < 16, isHexDigit (Nat.digitChar d) = true := by decide
  obtain ⟨d, hd, rfl⟩ := List.mem_map.1 h
  exact hall d (lt_of_mem_groups (by decide) hd)

end Ferm
