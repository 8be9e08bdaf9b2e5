import Mathlib.Tactic.Common

/-!
# Text

The few string methods the readers of addresses, set elements and headers use, on lists of characters.
-/

namespace Ferm

/-- A run of ASCII digits: `text.isascii() and text.isdigit()`. -/
def isAsciiUint (text : List Char) : Bool := !text.isEmpty && text.all Char.isDigit

/-- The value of a digit in any base up to sixteen. -/
def digitValue (c : Char) : Nat :=
  if c.isDigit then c.toNat - '0'.toNat
  else if 'a' ≤ c ∧ c ≤ 'f' then c.toNat - 'a'.toNat + 10
  else if 'A' ≤ c ∧ c ≤ 'F' then c.toNat - 'A'.toNat + 10
  else 0

/-- A hexadecimal digit of either case. -/
def isHexDigit (c : Char) : Bool := c.isDigit || ('a' ≤ c && c ≤ 'f') || ('A' ≤ c && c ≤ 'F')

/-- The number a run of digits spells in `base`. -/
def uintValue (base : Nat) (text : List Char) : Nat := text.foldl (fun n c => base * n + digitValue c) 0

/-- The text before and after the first `sep`: `text.partition(sep)` where it finds one. -/
def partitionAt (sep : Char) : List Char → Option (List Char × List Char)
  | [] => none
  | c :: cs =>
    if c = sep then some ([], cs)
    else (partitionAt sep cs).map fun p => (c :: p.1, p.2)

/-- `text.split()`: the words between blanks. -/
def words (text : String) : List String :=
  ((text.toList.splitOn ' ').filter fun word => !word.isEmpty).map String.ofList

/-- `text.split(sep)`. -/
def splitText (sep : Char) (text : String) : List String := (text.toList.splitOn sep).map String.ofList

/-- `text.startswith(head)`. -/
def startsWith (text head : String) : Bool := head.toList.isPrefixOf text.toList

/-- `hex(n)` of one byte: two lower-case digits. -/
def hexByte (n : Nat) : List Char := [Nat.digitChar (n / 16 % 16), Nat.digitChar (n % 16)]

/-- `repr(text)` of Latin-1 text: in single quotes unless only those occur in it, the quote and what cannot be printed escaped. -/
def pyRepr (text : String) : String :=
  let cs := text.toList
  let quote := if '\'' ∈ cs ∧ '"' ∉ cs then '"' else '\''
  let escape (c : Char) : List Char :=
    if c = '\\' ∨ c = quote then ['\\', c]
    else if c = '\n' then ['\\', 'n']
    else if c = '\r' then ['\\', 'r']
    else if c = '\t' then ['\\', 't']
    else if c.toNat < 32 ∨ (127 ≤ c.toNat ∧ c.toNat ≤ 160) ∨ c.toNat = 173 then '\\' :: 'x' :: hexByte c.toNat
    else [c]
  String.ofList (quote :: cs.flatMap escape ++ [quote])

/-! ## Runs of digits -/

theorem not_isAsciiUint_of_mem {text : List Char} {c : Char} (hmem : c ∈ text) (hc : c.isDigit = false) : isAsciiUint text = false := by
  rw [← Bool.not_eq_true, isAsciiUint, Bool.and_eq_true, List.all_eq_true]
  rintro ⟨-, hall⟩
  rw [hall c hmem] at hc
  cases hc

/-! ## Parts of a text -/

theorem partitionAt_append {sep : Char} {a : List Char} (h : sep ∉ a) (b : List Char) :
    partitionAt sep (a ++ sep :: b) = some (a, b) := by
  induction a with
  | nil =>
    rw [List.nil_append, partitionAt, if_pos rfl]
  | cons c a ih =>
    rw [List.mem_cons, not_or] at h
    rw [List.cons_append, partitionAt, if_neg (Ne.symm h.1), ih h.2]
    rfl

theorem partitionAt_eq_none {sep : Char} {text : List Char} (h : sep ∉ text) : partitionAt sep text = none := by
  induction text with
  | nil => rfl
  | cons c text ih =>
    rw [List.mem_cons, not_or] at h
    rw [partitionAt, if_neg (Ne.symm h.1), ih h.2]
    rfl

/-- The two parts of a text and what is between them. -/
theorem partitionAt_eq_some {sep : Char} {text a b : List Char} (h : partitionAt sep text = some (a, b)) :
    text = a ++ sep :: b ∧ sep ∉ a := by
  induction text generalizing a b with
  | nil => cases h
  | cons c text ih =>
    rw [partitionAt] at h
    split at h
    · obtain ⟨rfl, rfl⟩ := Prod.mk.inj (Option.some.inj h)
      exact ⟨congrArg (· :: text) ‹c = sep›, List.not_mem_nil⟩
    · obtain ⟨p, hp, heq⟩ := Option.map_eq_some_iff.1 h
      obtain ⟨rfl, rfl⟩ := Prod.mk.inj heq
      obtain ⟨rfl, hnot⟩ := ih hp
      exact ⟨rfl, List.not_mem_cons_of_ne_of_not_mem (Ne.symm ‹_›) hnot⟩

/-! ## Words -/

/-- A blank ends a word. -/
theorem words_append_blank {text a b : String} (h : text.toList = a.toList ++ ' ' :: b.toList) : words text = words a ++ words b := by
  rw [words, h, List.splitOn_append_cons_self, List.filter_append, List.map_append]
  rfl

/-- A word between blanks is a word of the text. -/
theorem words_between {op sep : String} (hsep : sep.toList = ' ' :: op.toList ++ [' ']) (hop : words op = [op]) (a b : String) :
    words (a ++ sep ++ b) = words a ++ op :: words b := by
  have hfirst : (a ++ sep ++ b).toList = a.toList ++ ' ' :: (op ++ " " ++ b).toList := by simp [hsep]
  have hsecond : (op ++ " " ++ b).toList = op.toList ++ ' ' :: b.toList := by simp
  rw [words_append_blank hfirst, words_append_blank hsecond, hop, List.singleton_append]

/-- A text without blanks is a word. -/
theorem words_eq_singleton {text : String} (hne : text.toList ≠ []) (h : ' ' ∉ text.toList) : words text = [text] := by
  rw [words, List.splitOn_eq_singleton h]
  simp [hne]

end Ferm
