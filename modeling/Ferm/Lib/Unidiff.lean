import Ferm.Lib.Difflib

/-!
# Unified diffs

The hunks of a unified diff: the opcodes in groups with a few lines of context, each opcode's lines marked as removed, added or
common. Lines are compared by a key, so that a line may carry more than its text; the matcher that finds the opcodes is any one
that keeps their contract.

`exists_changed_line` says what a reader can rely on: a part of the two sequences that differs has a marked line.
-/

namespace Ferm

open SequenceMatcher

universe u

/-- A sequence matcher: opcodes for every two sequences, that keep the contract. -/
structure Matcher (β : Type u) where
  opcodes : List β → List β → List Opcode
  contract : ∀ a b, Contract a b 0 0 (opcodes a b)

/-- The matcher without junk. -/
def Matcher.plain {β : Type u} [DecidableEq β] : Matcher β := ⟨getOpcodes, getOpcodes_contract⟩

namespace SequenceMatcher

/-- The first group shows at most `n` common lines before a change. -/
def trimFirst (n : Nat) (o : Opcode) : Opcode :=
  if o.tag = .equal then { o with i1 := max o.i1 (o.i2 - n), j1 := max o.j1 (o.j2 - n) } else o

/-- The last group shows at most `n` common lines after a change. -/
def trimLast (n : Nat) (o : Opcode) : Opcode :=
  if o.tag = .equal then { o with i2 := min o.i2 (o.i1 + n), j2 := min o.j2 (o.j1 + n) } else o

/-- The groups from the current one on: a long range of common lines ends a group and begins the next. -/
def groupFrom (n : Nat) : List Opcode → List Opcode → List (List Opcode)
  | group, [] => if group.length ≤ 1 ∧ group.all fun o => o.tag = .equal then [] else [group]
  | group, o :: os =>
    if o.tag = .equal ∧ n + n < o.i2 - o.i1 then
      (group ++ [trimLast n o]) :: groupFrom n [trimFirst n o] os
    else groupFrom n (group ++ [o]) os

/-- `get_grouped_opcodes`. -/
def groupedOpcodes (n : Nat) (codes : List Opcode) : List (List Opcode) :=
  let codes := if codes = [] then [⟨.equal, 0, 1, 0, 1⟩] else codes
  let codes := codes.modifyHead (trimFirst n)
  groupFrom n [] (codes.dropLast ++ (codes.getLast?.map (trimLast n)).toList)

/-- `_format_range_unified`. -/
def formatRangeUnified (start stop : Nat) : String :=
  let length := stop - start
  if length = 1 then toString (start + 1)
  else toString (if length = 0 then start else start + 1) ++ "," ++ toString length

end SequenceMatcher

/-- One line of a unified diff. -/
inductive DiffLine (α : Type u) where
  | header (text : String)
  | context (line : α)
  | removed (line : α)
  | added (line : α)
  deriving DecidableEq, Repr

variable {α β π : Type u}

/-- The marked lines of one opcode. -/
def opcodeLines (a b : List α) (o : Opcode) : List (DiffLine α) :=
  match o.tag with
  | .equal => (slice a o.i1 o.i2).map .context
  | .replace => (slice a o.i1 o.i2).map .removed ++ (slice b o.j1 o.j2).map .added
  | .delete => (slice a o.i1 o.i2).map .removed
  | .insert => (slice b o.j1 o.j2).map .added

/-- The lines of one hunk: its two ranges, then its opcodes. -/
def hunkLines (a b : List α) (group : List Opcode) : List (DiffLine α) :=
  let first := group.head?.getD ⟨.equal, 0, 0, 0, 0⟩
  let last := group.getLast?.getD ⟨.equal, 0, 0, 0, 0⟩
  .header ("@@ -" ++ formatRangeUnified first.i1 last.i2 ++ " +" ++ formatRangeUnified first.j1 last.j2 ++ " @@") ::
    group.flatMap (opcodeLines a b)

/-- `unified_diff` with three lines of context and no line terminator: nothing when no opcode changes anything. -/
def unifiedDiff (matcher : Matcher β) (key : α → β) (a b : List α) (fromfile tofile : String) : List (DiffLine α) :=
  match groupedOpcodes 3 (matcher.opcodes (a.map key) (b.map key)) with
  | [] => []
  | groups => .header ("--- " ++ fromfile) :: .header ("+++ " ++ tofile) :: groups.flatMap (hunkLines a b)

/-! ## Every change is in a group -/

namespace SequenceMatcher

theorem mem_groupFrom {n : Nat} {codes group : List Opcode} {o : Opcode} (ho : o ∈ group ∨ o ∈ codes) (hne : o.tag ≠ .equal) :
    ∃ g ∈ groupFrom n group codes, o ∈ g := by
  induction codes generalizing group with
  | nil =>
    have hmem : o ∈ group := ho.resolve_right (List.not_mem_nil)
    refine ⟨group, ?_, hmem⟩
    rw [groupFrom, if_neg]
    · exact List.mem_singleton.2 rfl
    · intro hall
      exact hne (of_decide_eq_true (List.all_eq_true.1 hall.2 o hmem))
  | cons c codes ih =>
    rw [groupFrom]
    split
    · rename_i hc
      rcases ho with ho | ho
      · exact ⟨_, List.mem_cons_self .., List.mem_append_left _ ho⟩
      · have hcodes : o ∈ codes := by
          rcases List.mem_cons.1 ho with rfl | ho
          · exact absurd hc.1 hne
          · exact ho
        have hstart : o ∈ [trimFirst n c] ∨ o ∈ codes := .inr hcodes
        obtain ⟨g, hg, hog⟩ := ih hstart
        exact ⟨g, List.mem_cons_of_mem _ hg, hog⟩
    · refine ih ?_
      rcases ho with ho | ho
      · exact .inl (List.mem_append_left _ ho)
      · rcases List.mem_cons.1 ho with rfl | ho
        · exact .inl (List.mem_append_right _ (List.mem_singleton.2 rfl))
        · exact .inr ho

/-- An opcode that changes something is in a group as it is. -/
theorem mem_groupedOpcodes {n : Nat} {codes : List Opcode} {o : Opcode} (ho : o ∈ codes) (hne : o.tag ≠ .equal) :
    ∃ g ∈ groupedOpcodes n codes, o ∈ g := by
  have htrimFirst : ∀ c : Opcode, c.tag ≠ .equal → trimFirst n c = c := fun c hc => if_neg hc
  have htrimLast : ∀ c : Opcode, c.tag ≠ .equal → trimLast n c = c := fun c hc => if_neg hc
  unfold groupedOpcodes
  refine mem_groupFrom (.inr ?_) hne
  rw [if_neg (List.ne_nil_of_mem ho)]
  have hhead : o ∈ codes.modifyHead (trimFirst n) := by
    rcases codes with _ | ⟨c, codes⟩
    · cases ho
    · rw [List.modifyHead_cons]
      rcases List.mem_cons.1 ho with rfl | ho
      · rw [htrimFirst o hne]
        exact List.mem_cons_self ..
      · exact List.mem_cons_of_mem _ ho
  generalize codes.modifyHead (trimFirst n) = codes at hhead
  rcases List.eq_nil_or_concat codes with rfl | ⟨init, last, rfl⟩
  · cases hhead
  · rw [List.concat_eq_append] at hhead ⊢
    simp only [List.dropLast_concat, List.getLast?_concat, Option.map_some, Option.toList_some]
    rcases List.mem_append.1 hhead with ho | ho
    · exact List.mem_append_left _ ho
    · cases List.mem_singleton.1 ho
      rw [htrimLast o hne]
      exact List.mem_append_right _ (List.mem_singleton.2 rfl)

end SequenceMatcher

/-- The lines of an opcode that changes something are in the diff. -/
theorem mem_unifiedDiff {matcher : Matcher β} {key : α → β} {a b : List α} {fromfile tofile : String} {o : Opcode}
    (ho : o ∈ matcher.opcodes (a.map key) (b.map key)) (hne : o.tag ≠ .equal) {line : DiffLine α}
    (hl : line ∈ opcodeLines a b o) : line ∈ unifiedDiff matcher key a b fromfile tofile := by
  obtain ⟨g, hg, hog⟩ := mem_groupedOpcodes (n := 3) ho hne
  unfold unifiedDiff
  split
  · rename_i hnil
    rw [hnil] at hg
    cases hg
  · refine List.mem_cons_of_mem _ (List.mem_cons_of_mem _ (List.mem_flatMap.2 ⟨g, hg, ?_⟩))
    exact List.mem_cons_of_mem _ (List.mem_flatMap.2 ⟨o, hog, hl⟩)

/-- What a line of a unified diff is. -/
theorem mem_headers_or_marked {matcher : Matcher β} {key : α → β} {a b : List α} {fromfile tofile : String}
    {line : DiffLine α} (h : line ∈ unifiedDiff matcher key a b fromfile tofile) :
    line = .header ("--- " ++ fromfile) ∨ line = .header ("+++ " ++ tofile) ∨
      (∃ ranges, line = .header ("@@ -" ++ ranges)) ∨ ∃ x, line = .context x ∨ line = .removed x ∨ line = .added x := by
  have hopcode : ∀ o, line ∈ opcodeLines a b o → ∃ x, line = .context x ∨ line = .removed x ∨ line = .added x := by
    intro o ho
    unfold opcodeLines at ho
    split at ho
    · obtain ⟨x, -, rfl⟩ := List.mem_map.1 ho
      exact ⟨x, .inl rfl⟩
    · rcases List.mem_append.1 ho with ho | ho <;> obtain ⟨x, -, rfl⟩ := List.mem_map.1 ho
      · exact ⟨x, .inr (.inl rfl)⟩
      · exact ⟨x, .inr (.inr rfl)⟩
    · obtain ⟨x, -, rfl⟩ := List.mem_map.1 ho
      exact ⟨x, .inr (.inl rfl)⟩
    · obtain ⟨x, -, rfl⟩ := List.mem_map.1 ho
      exact ⟨x, .inr (.inr rfl)⟩
  unfold unifiedDiff at h
  split at h
  · cases h
  · rcases List.mem_cons.1 h with h | h
    · exact .inl h
    rcases List.mem_cons.1 h with h | h
    · exact .inr (.inl h)
    obtain ⟨g, -, h⟩ := List.mem_flatMap.1 h
    rcases List.mem_cons.1 h with h | h
    · exact .inr (.inr (.inl ⟨_, by rw [h]; simp only [String.append_assoc]; rfl⟩))
    · obtain ⟨o, -, h⟩ := List.mem_flatMap.1 h
      exact .inr (.inr (.inr (hopcode o h)))

/-! ## A part that differs shows -/

section

variable [DecidableEq π] {key : α → β} {place : α → π} {p : π}

theorem mem_slice {l : List α} {i j : Nat} {x : α} (h : x ∈ slice l i j) : x ∈ l :=
  List.mem_of_mem_drop (List.mem_of_mem_take h)

theorem map_slice (f : α → β) (l : List α) (i j : Nat) : (slice l i j).map f = slice (l.map f) i j := by
  rw [slice, slice, List.map_take, List.map_drop]

/-- Two lists with the same keys have the same keys at a place, when the key tells the place. -/
theorem filter_eq_of_map_eq {xs ys : List α} (h : xs.map key = ys.map key)
    (hp : ∀ x ∈ xs, ∀ y ∈ ys, key x = key y → place x = place y) :
    (xs.filter fun x => place x = p).map key = (ys.filter fun y => place y = p).map key := by
  induction xs generalizing ys with
  | nil =>
    obtain rfl : ys = [] := List.map_eq_nil_iff.1 h.symm
    rfl
  | cons x xs ih =>
    rcases ys with _ | ⟨y, ys⟩
    · cases h
    · rw [List.map_cons, List.map_cons, List.cons.injEq] at h
      have hplace : place x = place y := hp x (List.mem_cons_self ..) y (List.mem_cons_self ..) h.1
      have htail := ih h.2 fun x hx y hy => hp x (List.mem_cons_of_mem _ hx) y (List.mem_cons_of_mem _ hy)
      by_cases hx : place x = p
      · rw [List.filter_cons_of_pos (by simpa using hx), List.filter_cons_of_pos (by simpa using hplace ▸ hx),
          List.map_cons, List.map_cons, h.1, htail]
      · rw [List.filter_cons_of_neg (by simpa using hx), List.filter_cons_of_neg (by simpa using hplace ▸ hx), htail]

/-- Where the opcodes change nothing at a place, the two sequences are the same there. -/
theorem filter_eq_of_contract {a b : List α} (hp : ∀ x ∈ a, ∀ y ∈ b, key x = key y → place x = place y) {i j : Nat}
    {os : List Opcode} (h : Contract (a.map key) (b.map key) i j os)
    (hrem : ∀ o ∈ os, o.tag = .replace ∨ o.tag = .delete → ∀ x ∈ slice a o.i1 o.i2, place x ≠ p)
    (hadd : ∀ o ∈ os, o.tag = .replace ∨ o.tag = .insert → ∀ y ∈ slice b o.j1 o.j2, place y ≠ p) :
    ((a.drop i).filter fun x => place x = p).map key = ((b.drop j).filter fun y => place y = p).map key := by
  induction os generalizing i j with
  | nil =>
    obtain ⟨rfl, rfl⟩ := h
    rw [List.drop_of_length_le (by simp), List.drop_of_length_le (by simp)]
  | cons o os ih =>
    obtain ⟨h1, h2, hi, hj, heq, hdel, hins, hrest⟩ := h
    obtain ⟨hrem, hrems⟩ := List.forall_mem_cons.1 hrem
    obtain ⟨hadd, hadds⟩ := List.forall_mem_cons.1 hadd
    rw [h1] at hrem
    rw [h2] at hadd
    have hempty : ∀ l : List α, (∀ x ∈ l, place x ≠ p) → (l.filter fun x => place x = p) = [] := fun l hl =>
      List.filter_eq_nil_iff.2 fun x hx => by simpa using hl x hx
    rw [drop_eq_slice_append a hi, drop_eq_slice_append b hj, List.filter_append, List.filter_append, List.map_append,
      List.map_append, ih hrest hrems hadds]
    congr 1
    cases ht : o.tag with
    | replace => rw [hempty _ (hrem (.inl ht)), hempty _ (hadd (.inl ht))]
    | delete => rw [hempty _ (hrem (.inr ht)), ← hdel ht, slice_self]; rfl
    | insert => rw [hempty _ (hadd (.inr ht)), ← hins ht, slice_self]; rfl
    | equal =>
      refine filter_eq_of_map_eq ?_ fun x hx y hy => hp x (mem_slice hx) y (mem_slice hy)
      rw [map_slice, map_slice]
      exact heq ht

/-- A place at which two sequences differ has a changed line in their diff, when no two lines of different places have one key. -/
theorem exists_changed_line (matcher : Matcher β) {a b : List α} (fromfile tofile : String)
    (hp : ∀ x ∈ a, ∀ y ∈ b, key x = key y → place x = place y)
    (hne : (a.filter fun x => place x = p).map key ≠ (b.filter fun y => place y = p).map key) :
    ∃ line, place line = p ∧ (.removed line ∈ unifiedDiff matcher key a b fromfile tofile ∨
      .added line ∈ unifiedDiff matcher key a b fromfile tofile) := by
  by_contra hno
  refine hne ?_
  have hfilter := filter_eq_of_contract (p := p) hp (matcher.contract (a.map key) (b.map key)) ?_ ?_
  · rwa [List.drop_zero, List.drop_zero] at hfilter
  · intro o ho ht x hx hplace
    have hchange : o.tag ≠ .equal := by
      rcases ht with ht | ht <;> simp [ht]
    refine hno ⟨x, hplace, .inl (mem_unifiedDiff ho hchange ?_)⟩
    rcases ht with ht | ht <;> simp [opcodeLines, ht, hx]
  · intro o ho ht y hy hplace
    have hchange : o.tag ≠ .equal := by
      rcases ht with ht | ht <;> simp [ht]
    refine hno ⟨y, hplace, .inr (mem_unifiedDiff ho hchange ?_)⟩
    rcases ht with ht | ht <;> simp [opcodeLines, ht, hy]

end

end Ferm
