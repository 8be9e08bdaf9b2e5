import Mathlib.Data.List.Chain
import Mathlib.Data.List.Infix
import Mathlib.Tactic.Common

/-!
# Prefix codes

A list is written letter by letter, each as its code word. When no word begins with another, and none with the mark that ends the
list nor the mark with it, what is written tells the list and what stands behind the mark.
-/

namespace Ferm.PrefixCode

universe u v

variable {α : Type u} {β : Type v}

/-- Of the words of two letters one begins with the other only when the letters are the same. -/
def PrefixFree (letters : α → Prop) (word : α → List β) : Prop :=
  ∀ a b, letters a → letters b → word a <+: word b → a = b

/-- No word begins with the mark, nor the mark with a word. -/
def Marks (letters : α → Prop) (word : α → List β) (mark : List β) : Prop :=
  ∀ a, letters a → ¬word a <+: mark ∧ ¬mark <+: word a

variable {letters : α → Prop} {word : α → List β} {mark : List β}

/-- Words at the front of one text belong to one letter. -/
theorem PrefixFree.eq_of_append_eq (h : PrefixFree letters word) {a b : α} (ha : letters a) (hb : letters b) {x y : List β}
    (heq : word a ++ x = word b ++ y) : a = b := by
  have hax : word a <+: word a ++ x := List.prefix_append _ _
  have hby : word b <+: word a ++ x := heq ▸ List.prefix_append _ _
  rcases List.prefix_or_prefix_of_prefix hax hby with hab | hba
  · exact h a b ha hb hab
  · exact (h b a hb ha hba).symm

theorem Marks.append_ne (h : Marks letters word mark) {a : α} (ha : letters a) (x y : List β) : word a ++ x ≠ mark ++ y := by
  intro heq
  have hax : word a <+: word a ++ x := List.prefix_append _ _
  have hmark : mark <+: word a ++ x := heq ▸ List.prefix_append _ _
  rcases List.prefix_or_prefix_of_prefix hax hmark with hab | hba
  · exact (h a ha).1 hab
  · exact (h a ha).2 hba

/-- What is written up to a mark is read in one way. -/
theorem flatMap_append_mark_inj (hword : PrefixFree letters word) (hmark : Marks letters word mark) {l l' : List α}
    (hl : ∀ a ∈ l, letters a) (hl' : ∀ a ∈ l', letters a) {r r' : List β} (heq : l.flatMap word ++ (mark ++ r) = l'.flatMap word ++ (mark ++ r')) :
    l = l' ∧ r = r' := by
  induction l generalizing l' with
  | nil =>
    cases l' with
    | nil => exact ⟨rfl, List.append_cancel_left (List.append_cancel_left heq)⟩
    | cons b l' =>
      rw [List.flatMap_nil, List.nil_append, List.flatMap_cons, List.append_assoc] at heq
      exact absurd heq.symm (hmark.append_ne (hl' b List.mem_cons_self) _ _)
  | cons a l ih =>
    obtain ⟨ha, hrest⟩ := List.forall_mem_cons.1 hl
    cases l' with
    | nil =>
      rw [List.flatMap_nil, List.nil_append, List.flatMap_cons, List.append_assoc] at heq
      exact absurd heq (hmark.append_ne ha _ _)
    | cons b l' =>
      obtain ⟨hb, hrest'⟩ := List.forall_mem_cons.1 hl'
      rw [List.flatMap_cons, List.flatMap_cons, List.append_assoc, List.append_assoc] at heq
      obtain rfl := hword.eq_of_append_eq ha hb heq
      obtain ⟨rfl, hr⟩ := ih hrest hrest' (List.append_cancel_left heq)
      exact ⟨rfl, hr⟩

/-- What is written tells the list, where no word is empty. -/
theorem flatMap_inj (hword : PrefixFree letters word) (hne : ∀ a, letters a → word a ≠ []) {l l' : List α} (hl : ∀ a ∈ l, letters a)
    (hl' : ∀ a ∈ l', letters a) (heq : l.flatMap word = l'.flatMap word) : l = l' := by
  induction l generalizing l' with
  | nil =>
    cases l' with
    | nil => rfl
    | cons b l' => exact absurd (List.append_eq_nil_iff.1 heq.symm).1 (hne b (hl' b List.mem_cons_self))
  | cons a l ih =>
    obtain ⟨ha, hrest⟩ := List.forall_mem_cons.1 hl
    cases l' with
    | nil => exact absurd (List.append_eq_nil_iff.1 heq).1 (hne a ha)
    | cons b l' =>
      obtain ⟨hb, hrest'⟩ := List.forall_mem_cons.1 hl'
      rw [List.flatMap_cons, List.flatMap_cons] at heq
      obtain rfl := hword.eq_of_append_eq ha hb heq
      rw [ih hrest hrest' (List.append_cancel_left heq)]

/-- No two neighbours are related when none are within a word, and no word ends with what is related to something. -/
theorem isChain_flatMap {R : β → β → Prop} {l : List α} (hword : ∀ a ∈ l, (word a).IsChain R)
    (hlast : ∀ a ∈ l, ∀ x ∈ (word a).getLast?, ∀ y, R x y) : (l.flatMap word).IsChain R := by
  induction l with
  | nil => exact .nil
  | cons a l ih =>
    obtain ⟨ha, hl⟩ := List.forall_mem_cons.1 hword
    obtain ⟨halast, hllast⟩ := List.forall_mem_cons.1 hlast
    rw [List.flatMap_cons, List.isChain_append]
    exact ⟨ha, ih hl hllast, fun x hx y _ => halast x hx y⟩

end Ferm.PrefixCode
