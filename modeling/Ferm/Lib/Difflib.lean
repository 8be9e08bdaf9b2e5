import Mathlib.Data.List.Basic
import Mathlib.Data.List.ProdSigma
import Mathlib.Data.Prod.Lex
import Mathlib.Tactic.Common

/-!
# Sequence matching

The difference of two sequences as opcodes, after the documented behaviour of a sequence matcher without junk: the longest
matching block is taken (the earliest in the first sequence and, among those, the earliest in the second), and the parts to its
left and to its right are matched in the same way. Without junk two blocks are never adjacent, since the longer of the two
would have been extended, so no merging step is needed.

`getOpcodes_contract` is the contract a reader of the opcodes relies on, `getOpcodes_self` says that equal sequences have
nothing but an equal block, and `keptBy_getOpcodes_eq_nil_iff` that sequences without a common element have none.
-/

namespace Ferm

universe u

/-- The elements of `l` at the positions from `i` up to `j`. -/
def slice {α : Type u} (l : List α) (i j : Nat) : List α := (l.drop i).take (j - i)

@[simp] theorem slice_self {α : Type u} (l : List α) (i : Nat) : slice l i i = [] := by simp [slice]

/-- A suffix is a slice and the suffix after it. -/
theorem drop_eq_slice_append {α : Type u} (l : List α) {i j : Nat} (h : i ≤ j) :
    l.drop i = slice l i j ++ l.drop j := by
  have hj : l.drop j = (l.drop i).drop (j - i) := by rw [List.drop_drop, Nat.add_sub_cancel' h]
  rw [hj, slice, List.take_append_drop]

/-- What an opcode does to its two slices. -/
inductive Tag where
  | replace
  | delete
  | insert
  | equal
  deriving DecidableEq, Repr

/-- One step of the way from the first sequence to the second. -/
structure Opcode where
  tag : Tag
  i1 : Nat
  i2 : Nat
  j1 : Nat
  j2 : Nat
  deriving DecidableEq, Repr

/-- A run of `size` equal elements, at `i` in the first sequence and at `j` in the second. -/
structure Block where
  i : Nat
  j : Nat
  size : Nat
  deriving DecidableEq, Repr

namespace SequenceMatcher

variable {α : Type u} [DecidableEq α]

/-- How many elements two lists share from their start. -/
def commonPrefix : List α → List α → Nat
  | x :: xs, y :: ys => if x = y then commonPrefix xs ys + 1 else 0
  | _, _ => 0

/-- Keep the longer of the best block so far and the block that starts at a position: an earlier position wins a tie. -/
def better (a b : List α) (best : Block) (p : Nat × Nat) : Block :=
  if best.size < commonPrefix (a.drop p.1) (b.drop p.2) then
    ⟨p.1, p.2, commonPrefix (a.drop p.1) (b.drop p.2)⟩
  else best

/-- The longest matching block of two lists, of size 0 when they share no element. -/
def findLongestMatch (a b : List α) : Block :=
  ((List.range a.length).product (List.range b.length)).foldl (better a b) ⟨0, 0, 0⟩

/-- The matching blocks of `a` and `b`, whose first elements stand at `ai` and `bj`; each level of the recursion takes an
element off `a`, so its length is fuel enough. -/
def matchingBlocks : Nat → List α → List α → Nat → Nat → List Block
  | 0, _, _, _, _ => []
  | n + 1, a, b, ai, bj =>
    let m := findLongestMatch a b
    if m.size = 0 then []
    else
      matchingBlocks n (a.take m.i) (b.take m.j) ai bj ++
        ⟨ai + m.i, bj + m.j, m.size⟩ ::
          matchingBlocks n (a.drop (m.i + m.size)) (b.drop (m.j + m.size)) (ai + m.i + m.size) (bj + m.j + m.size)

/-- The matching blocks in order, closed by an empty block at the two ends. -/
def getMatchingBlocks (a b : List α) : List Block :=
  matchingBlocks a.length a b 0 0 ++ [⟨a.length, b.length, 0⟩]

/-- The opcode of the gap before a block. -/
def gapOpcode (i j i' j' : Nat) : List Opcode :=
  if i < i' ∧ j < j' then [⟨.replace, i, i', j, j'⟩]
  else if i < i' then [⟨.delete, i, i', j, j'⟩]
  else if j < j' then [⟨.insert, i, i', j, j'⟩]
  else []

/-- The opcodes from the positions `i` and `j` on. -/
def opcodesFrom (i j : Nat) : List Block → List Opcode
  | [] => []
  | m :: ms =>
    gapOpcode i j m.i m.j ++ (if m.size = 0 then [] else [⟨.equal, m.i, m.i + m.size, m.j, m.j + m.size⟩]) ++
      opcodesFrom (m.i + m.size) (m.j + m.size) ms

/-- The opcodes that turn `a` into `b`. -/
def getOpcodes (a b : List α) : List Opcode := opcodesFrom 0 0 (getMatchingBlocks a b)

/-! ## The longest match -/

theorem commonPrefix_self (a : List α) : commonPrefix a a = a.length := by
  induction a with
  | nil => rfl
  | cons x xs ih => simp [commonPrefix, ih]

theorem commonPrefix_le_left (a b : List α) : commonPrefix a b ≤ a.length := by
  induction a generalizing b with
  | nil => simp [commonPrefix]
  | cons x xs ih =>
    cases b with
    | nil => simp [commonPrefix]
    | cons y ys =>
      have := ih ys
      simp only [commonPrefix, List.length_cons]
      split <;> omega

theorem commonPrefix_le_right (a b : List α) : commonPrefix a b ≤ b.length := by
  induction a generalizing b with
  | nil => simp [commonPrefix]
  | cons x xs ih =>
    cases b with
    | nil => simp [commonPrefix]
    | cons y ys =>
      have := ih ys
      simp only [commonPrefix, List.length_cons]
      split <;> omega

/-- The common prefix of two lists is the same in both. -/
theorem take_commonPrefix (a b : List α) : a.take (commonPrefix a b) = b.take (commonPrefix a b) := by
  induction a generalizing b with
  | nil => simp [commonPrefix]
  | cons x xs ih =>
    cases b with
    | nil => simp [commonPrefix]
    | cons y ys =>
      by_cases h : x = y
      · simp [commonPrefix, h, ih ys]
      · simp [commonPrefix, h]

/-- A block that is really one: within both lists, with the same elements in both. -/
structure IsBlock (a b : List α) (m : Block) : Prop where
  left : m.i + m.size ≤ a.length
  right : m.j + m.size ≤ b.length
  same : (a.drop m.i).take m.size = (b.drop m.j).take m.size

theorem isBlock_better {a b : List α} {best : Block} (h : IsBlock a b best) (p : Nat × Nat)
    (ha : p.1 ≤ a.length) (hb : p.2 ≤ b.length) : IsBlock a b (better a b best p) := by
  unfold better
  split
  · have h1 := commonPrefix_le_left (a.drop p.1) (b.drop p.2)
    have h2 := commonPrefix_le_right (a.drop p.1) (b.drop p.2)
    simp only [List.length_drop] at h1 h2
    exact ⟨by simp only; omega, by simp only; omega, take_commonPrefix _ _⟩
  · exact h

/-- The fold over the positions ends with a block that is at least as long as the one at any position it visited. -/
theorem foldl_better {a b : List α} (ps : List (Nat × Nat)) (hps : ∀ p ∈ ps, p.1 ≤ a.length ∧ p.2 ≤ b.length)
    {best : Block} (h : IsBlock a b best) :
    IsBlock a b (ps.foldl (better a b) best) ∧ best.size ≤ (ps.foldl (better a b) best).size ∧
      ∀ p ∈ ps, commonPrefix (a.drop p.1) (b.drop p.2) ≤ (ps.foldl (better a b) best).size := by
  induction ps generalizing best with
  | nil => exact ⟨h, le_refl _, by simp⟩
  | cons p ps ih =>
    obtain ⟨hp, hps⟩ := List.forall_mem_cons.1 hps
    obtain ⟨h1, h2, h3⟩ := ih hps (isBlock_better h p hp.1 hp.2)
    have hstep : best.size ≤ (better a b best p).size ∧
        commonPrefix (a.drop p.1) (b.drop p.2) ≤ (better a b best p).size := by
      unfold better
      split
      · exact ⟨by simp only; omega, le_refl _⟩
      · exact ⟨le_refl _, by omega⟩
    refine ⟨h1, hstep.1.trans h2, ?_⟩
    intro q hq
    rcases List.mem_cons.1 hq with rfl | hq
    · exact hstep.2.trans h2
    · exact h3 q hq

theorem isBlock_findLongestMatch (a b : List α) : IsBlock a b (findLongestMatch a b) := by
  refine (foldl_better _ ?_ ⟨by simp, by simp, by simp⟩).1
  rintro ⟨i, j⟩ hp
  have := List.pair_mem_product.1 hp
  simp only [List.mem_range] at this
  omega

/-- The longest match of a list with itself is the whole list. -/
theorem findLongestMatch_self (a : List α) : findLongestMatch a a = ⟨0, 0, a.length⟩ := by
  have hb := isBlock_findLongestMatch a a
  have hlen : a.length ≤ (findLongestMatch a a).size := by
    cases ha : a with
    | nil => simp
    | cons x xs =>
      rw [← ha]
      have hempty : IsBlock a a ⟨0, 0, 0⟩ := ⟨by simp, by simp, by simp⟩
      have hmax := (foldl_better ((List.range a.length).product (List.range a.length)) (by
        rintro ⟨i, j⟩ hp
        have := List.pair_mem_product.1 hp
        simp only [List.mem_range] at this
        omega) hempty).2.2 (0, 0) (List.pair_mem_product.2 (by simp [ha]))
      rw [List.drop_zero, commonPrefix_self] at hmax
      exact hmax
  have h1 := hb.left
  have h2 := hb.right
  have hi : (findLongestMatch a a).i = 0 := by omega
  have hj : (findLongestMatch a a).j = 0 := by omega
  have hs : (findLongestMatch a a).size = a.length := by omega
  cases hm : findLongestMatch a a with
  | mk i j size =>
    rw [hm] at hi hj hs
    simp only at hi hj hs
    rw [hi, hj, hs]

/-! ## Matching blocks in order -/

/-- The blocks `ms` of `A` and `B` follow one another from the positions `(i, j)` and end at or before `(i', j')`. -/
def BlocksBetween (A B : List α) (i' j' : Nat) : Nat → Nat → List Block → Prop
  | i, j, [] => i ≤ i' ∧ j ≤ j'
  | i, j, m :: ms =>
    i ≤ m.i ∧ j ≤ m.j ∧ slice A m.i (m.i + m.size) = slice B m.j (m.j + m.size) ∧
      BlocksBetween A B i' j' (m.i + m.size) (m.j + m.size) ms

omit [DecidableEq α] in
/-- Blocks that end before the first block of the next list can be put before it. -/
theorem BlocksBetween.append {A B : List α} {i j p q i' j' : Nat} {ms ns : List Block}
    (h : BlocksBetween A B p q i j ms)
    (h' : ∀ s t, s ≤ p → t ≤ q → BlocksBetween A B i' j' s t ns) : BlocksBetween A B i' j' i j (ms ++ ns) := by
  induction ms generalizing i j with
  | nil => exact h' i j h.1 h.2
  | cons m ms ih => exact ⟨h.1, h.2.1, h.2.2.1, ih h.2.2.2⟩

/-- The blocks found in two slices of `A` and `B` are blocks of `A` and `B` between the ends of the slices. -/
theorem blocksBetween_matchingBlocks (A B : List α) (n : Nat) (a b : List α) (ai bj : Nat)
    (ha : a = slice A ai (ai + a.length)) (hb : b = slice B bj (bj + b.length)) :
    BlocksBetween A B (ai + a.length) (bj + b.length) ai bj (matchingBlocks n a b ai bj) := by
  induction n generalizing a b ai bj with
  | zero => exact ⟨Nat.le_add_right _ _, Nat.le_add_right _ _⟩
  | succ n ih =>
    simp only [matchingBlocks]
    split
    · exact ⟨Nat.le_add_right _ _, Nat.le_add_right _ _⟩
    · have hm := isBlock_findLongestMatch a b
      generalize findLongestMatch a b = m at hm
      obtain ⟨hl, hr, hsame⟩ := hm
      -- a slice of a slice of `A` is a slice of `A`
      have hsub : ∀ (C c : List α) (ci : Nat), c = slice C ci (ci + c.length) → ∀ s k, s + k ≤ c.length →
          (c.drop s).take k = slice C (ci + s) (ci + s + k) := by
        intro C c ci hc s k hk
        rw [hc]
        simp only [slice, Nat.add_sub_cancel_left, List.drop_take, List.drop_drop, List.take_take]
        congr 1
        omega
      refine BlocksBetween.append (p := ai + m.i) (q := bj + m.j) ?_ ?_
      · have h1 : (a.take m.i).length = m.i := by rw [List.length_take]; omega
        have h2 : (b.take m.j).length = m.j := by rw [List.length_take]; omega
        have := ih (a.take m.i) (b.take m.j) ai bj
          (by rw [h1]; simpa using hsub A a ai ha 0 m.i (by omega))
          (by rw [h2]; simpa using hsub B b bj hb 0 m.j (by omega))
        rwa [h1, h2] at this
      · intro s t hs ht
        refine ⟨hs, ht, ?_, ?_⟩
        · rw [← hsub A a ai ha m.i m.size hl, ← hsub B b bj hb m.j m.size hr]
          exact hsame
        · have h1 : (a.drop (m.i + m.size)).length = a.length - (m.i + m.size) := by rw [List.length_drop]
          have h2 : (b.drop (m.j + m.size)).length = b.length - (m.j + m.size) := by rw [List.length_drop]
          have ea : ai + m.i + m.size + (a.drop (m.i + m.size)).length = ai + a.length := by rw [h1]; omega
          have eb : bj + m.j + m.size + (b.drop (m.j + m.size)).length = bj + b.length := by rw [h2]; omega
          have := ih (a.drop (m.i + m.size)) (b.drop (m.j + m.size)) (ai + m.i + m.size) (bj + m.j + m.size)
            (by
              have := hsub A a ai ha (m.i + m.size) (a.length - (m.i + m.size)) (by omega)
              rw [List.take_of_length_le (by rw [List.length_drop])] at this
              rw [h1, ← Nat.add_assoc] at *
              exact this)
            (by
              have := hsub B b bj hb (m.j + m.size) (b.length - (m.j + m.size)) (by omega)
              rw [List.take_of_length_le (by rw [List.length_drop])] at this
              rw [h2, ← Nat.add_assoc] at *
              exact this)
          rwa [ea, eb] at this

/-! ## The contract of the opcodes -/

/-- The opcodes follow one another from `(i, j)` to the ends of `A` and `B`, an equal block has the same elements in both, a
deletion takes nothing from `B` and an insertion nothing from `A`. -/
def Contract (A B : List α) : Nat → Nat → List Opcode → Prop
  | i, j, [] => i = A.length ∧ j = B.length
  | i, j, o :: os =>
    o.i1 = i ∧ o.j1 = j ∧ i ≤ o.i2 ∧ j ≤ o.j2 ∧
      (o.tag = .equal → slice A i o.i2 = slice B j o.j2) ∧ (o.tag = .delete → j = o.j2) ∧ (o.tag = .insert → i = o.i2) ∧
      Contract A B o.i2 o.j2 os

omit [DecidableEq α] in
theorem contract_gapOpcode {A B : List α} {i j i' j' : Nat} {os : List Opcode} (hi : i ≤ i') (hj : j ≤ j')
    (h : Contract A B i' j' os) : Contract A B i j (gapOpcode i j i' j' ++ os) := by
  unfold gapOpcode
  split
  · exact ⟨rfl, rfl, hi, hj, by simp, by simp, by simp, h⟩
  · split
    · exact ⟨rfl, rfl, hi, hj, by simp, fun _ => by simp only; omega, by simp, h⟩
    · split
      · exact ⟨rfl, rfl, hi, hj, by simp, by simp, fun _ => by simp only; omega, h⟩
      · have e1 : i = i' := by omega
        have e2 : j = j' := by omega
        rw [e1, e2]
        exact h

omit [DecidableEq α] in
theorem contract_opcodesFrom {A B : List α} {i j : Nat} {ms : List Block}
    (h : BlocksBetween A B A.length B.length i j ms) :
    Contract A B i j (opcodesFrom i j (ms ++ [⟨A.length, B.length, 0⟩])) := by
  induction ms generalizing i j with
  | nil =>
    simp only [List.nil_append, opcodesFrom, if_true, List.append_nil, Nat.add_zero]
    have hend : Contract A B A.length B.length [] := ⟨rfl, rfl⟩
    simpa using contract_gapOpcode h.1 h.2 hend
  | cons m ms ih =>
    obtain ⟨hi, hj, hs, hr⟩ := h
    simp only [List.cons_append, opcodesFrom, List.append_assoc]
    refine contract_gapOpcode hi hj ?_
    split
    · rename_i h0
      rw [h0, Nat.add_zero, Nat.add_zero] at hr ⊢
      exact ih hr
    · exact ⟨rfl, rfl, Nat.le_add_right _ _, Nat.le_add_right _ _, fun _ => hs, by simp, by simp, ih hr⟩

/-- The contract of the opcodes of two sequences. -/
theorem getOpcodes_contract (a b : List α) : Contract a b 0 0 (getOpcodes a b) := by
  refine contract_opcodesFrom ?_
  have := blocksBetween_matchingBlocks a b a.length a b 0 0 (by simp [slice]) (by simp [slice])
  rwa [Nat.zero_add, Nat.zero_add] at this

/-- Equal sequences have one equal block, and nothing when they are empty. -/
theorem getOpcodes_self (a : List α) :
    getOpcodes a a = if a = [] then [] else [⟨.equal, 0, a.length, 0, a.length⟩] := by
  cases a with
  | nil => rfl
  | cons x xs =>
    have hempty : ∀ n i j, matchingBlocks n ([] : List α) [] i j = [] := by
      intro n i j
      cases n with
      | zero => rfl
      | succ n => simp [matchingBlocks, findLongestMatch, List.product]
    simp [getOpcodes, getMatchingBlocks, matchingBlocks, findLongestMatch_self, hempty, opcodesFrom, gapOpcode]

/-! ## What the two sequences share -/

/-- The elements that the opcodes leave in place. -/
def keptBy (a : List α) (codes : List Opcode) : List α :=
  codes.flatMap fun o => if o.tag = .equal then slice a o.i1 o.i2 else []

/-- The elements that the opcodes take off the first sequence. -/
def removedBy (a : List α) (codes : List Opcode) : List α :=
  codes.flatMap fun o => if o.tag = .replace ∨ o.tag = .delete then slice a o.i1 o.i2 else []

/-- The elements that the opcodes put into the second sequence. -/
def addedBy (b : List α) (codes : List Opcode) : List α :=
  codes.flatMap fun o => if o.tag = .replace ∨ o.tag = .insert then slice b o.j1 o.j2 else []

omit [DecidableEq α] in
/-- Each sequence holds what is kept and what is removed from it, or added to it. -/
theorem perm_of_contract {a b : List α} {i j : Nat} {codes : List Opcode} (h : Contract a b i j codes) :
    (a.drop i).Perm (keptBy a codes ++ removedBy a codes) ∧ (b.drop j).Perm (keptBy a codes ++ addedBy b codes) := by
  induction codes generalizing i j with
  | nil =>
    obtain ⟨rfl, rfl⟩ := h
    simp [keptBy, removedBy, addedBy]
  | cons o codes ih =>
    obtain ⟨h1, h2, hi, hj, heq, hdel, hins, hrest⟩ := h
    obtain ⟨iha, ihb⟩ := ih hrest
    rw [drop_eq_slice_append a hi, drop_eq_slice_append b hj]
    have hkept : keptBy a (o :: codes) = (if o.tag = .equal then slice a i o.i2 else []) ++ keptBy a codes := by
      simp [keptBy, h1]
    have hremoved : removedBy a (o :: codes) =
        (if o.tag = .replace ∨ o.tag = .delete then slice a i o.i2 else []) ++ removedBy a codes := by
      simp [removedBy, h1]
    have hadded : addedBy b (o :: codes) =
        (if o.tag = .replace ∨ o.tag = .insert then slice b j o.j2 else []) ++ addedBy b codes := by
      simp [addedBy, h2]
    have hmiddle : ∀ {x k r : List α} {rest : List α}, rest.Perm (k ++ r) → (x ++ rest).Perm (k ++ (x ++ r)) :=
      fun {x k r rest} hr => (hr.append_left x).trans (by
        rw [← List.append_assoc, ← List.append_assoc]
        exact List.perm_append_comm.append_right r)
    rw [hkept, hremoved, hadded]
    cases ht : o.tag with
    | replace => simpa using ⟨hmiddle iha, hmiddle ihb⟩
    | delete =>
      have hb : slice b j o.j2 = [] := by rw [hdel ht, slice_self]
      simpa [hb] using ⟨hmiddle iha, ihb⟩
    | insert =>
      have ha : slice a i o.i2 = [] := by rw [hins ht, slice_self]
      simpa [ha] using ⟨iha, hmiddle ihb⟩
    | equal =>
      rw [← heq ht]
      simpa using ⟨iha.append_left _, ihb.append_left _⟩

theorem mem_opcodesFrom {m : Block} {ms : List Block} (hm : m ∈ ms) (hsize : m.size ≠ 0) (i j : Nat) :
    (⟨.equal, m.i, m.i + m.size, m.j, m.j + m.size⟩ : Opcode) ∈ opcodesFrom i j ms := by
  induction ms generalizing i j with
  | nil => cases hm
  | cons n ms ih =>
    rw [opcodesFrom]
    rcases List.mem_cons.1 hm with rfl | hm
    · exact List.mem_append_left _ (List.mem_append_right _ (by simp [hsize]))
    · exact List.mem_append_right _ (ih hm _ _)

/-- The longest match of two lists that share an element is not empty. -/
theorem findLongestMatch_size_pos {a b : List α} {x : α} (ha : x ∈ a) (hb : x ∈ b) : 0 < (findLongestMatch a b).size := by
  obtain ⟨i, hi, hxa⟩ := List.getElem_of_mem ha
  obtain ⟨j, hj, hxb⟩ := List.getElem_of_mem hb
  have hblock : IsBlock a b ⟨0, 0, 0⟩ := ⟨by simp, by simp, by simp⟩
  have hmax := (foldl_better (a := a) (b := b) ((List.range a.length).product (List.range b.length)) (by
    rintro ⟨i, j⟩ hp
    have := List.pair_mem_product.1 hp
    simp only [List.mem_range] at this
    omega) hblock).2.2 (i, j) (List.pair_mem_product.2 ⟨List.mem_range.2 hi, List.mem_range.2 hj⟩)
  have hprefix : 0 < commonPrefix (a.drop i) (b.drop j) := by
    rw [List.drop_eq_getElem_cons hi, List.drop_eq_getElem_cons hj, hxa, hxb, commonPrefix, if_pos rfl]
    omega
  exact Nat.lt_of_lt_of_le hprefix hmax

/-- The opcodes keep nothing exactly when the two sequences share no element. -/
theorem keptBy_getOpcodes_eq_nil_iff {a b : List α} : keptBy a (getOpcodes a b) = [] ↔ ∀ x ∈ a, x ∉ b := by
  obtain ⟨hperma, hpermb⟩ := perm_of_contract (getOpcodes_contract a b)
  rw [List.drop_zero] at hperma hpermb
  constructor
  · intro hkept x ha hb
    have hpos := findLongestMatch_size_pos ha hb
    have hblock := (isBlock_findLongestMatch a b).left
    have hmem : findLongestMatch a b ∈ getMatchingBlocks a b := by
      obtain ⟨n, hn⟩ : ∃ n, a.length = n + 1 := Nat.exists_eq_succ_of_ne_zero (List.length_pos_of_mem ha).ne'
      refine List.mem_append_left _ ?_
      rw [hn, matchingBlocks, if_neg (by omega)]
      refine List.mem_append_right _ ?_
      simp
    have hslice := List.flatMap_eq_nil_iff.1 hkept _ (mem_opcodesFrom hmem hpos.ne' 0 0)
    have hlength := congrArg List.length hslice
    simp only [if_true, slice, List.length_take, List.length_drop, List.length_nil] at hlength
    omega
  · intro hdisjoint
    refine List.eq_nil_iff_forall_not_mem.2 fun x hx => ?_
    exact hdisjoint x (hperma.mem_iff.2 (List.mem_append_left _ hx)) (hpermb.mem_iff.2 (List.mem_append_left _ hx))

end SequenceMatcher

end Ferm
