import Mathlib.Data.List.Sort
import Mathlib.Tactic.Common

/-!
# What a sort depends on

A stable sort by a total relation. The result depends only on the elements when no two of them compare equal; elements that are
behind all others and stand in order among themselves are a tail of the result, as they stood.
-/

namespace Ferm

universe u

variable {α : Type u} {r : α → α → Prop} [DecidableRel r]

/-- Elements that stand in order among themselves stay in that order. -/
theorem filter_insertionSort {p : α → Bool} {l : List α} (hp : (l.filter p).Pairwise r) :
    (l.insertionSort r).filter p = l.filter p := by
  have hsub : (l.filter p).Sublist ((l.insertionSort r).filter p) := by
    have h := (List.sublist_insertionSort hp List.filter_sublist).filter p
    rwa [List.filter_filter, List.filter_congr (q := p) fun a _ => Bool.and_self (p a)] at h
  exact (hsub.eq_of_length ((List.perm_insertionSort r l).filter p).length_eq.symm).symm

variable [Std.Total r] [IsTrans α r]

/-- Lists with the same elements are sorted to the same list when elements that compare equal are equal. -/
theorem insertionSort_eq_of_perm {l l' : List α} (h : l'.Perm l) (hanti : ∀ a ∈ l, ∀ b ∈ l, r a b → r b a → a = b) :
    l'.insertionSort r = l.insertionSort r := by
  have hl := List.perm_insertionSort r l
  have hl' := (List.perm_insertionSort r l').trans h
  refine List.Perm.eq_of_pairwise ?_ (List.pairwise_insertionSort r l') (List.pairwise_insertionSort r l) (hl'.trans hl.symm)
  intro a b ha hb
  exact hanti a (hl'.mem_iff.1 ha) b (hl.mem_iff.1 hb)

/-- A sorted list ends in the elements that are behind all others. -/
theorem eq_append_filter_of_pairwise {s : α → α → Prop} {p : α → Bool} {l : List α} (hl : l.Pairwise s)
    (hlast : ∀ a ∈ l, ∀ b ∈ l, p a = true → p b = false → ¬ s a b) : l = l.filter (fun a => !p a) ++ l.filter p := by
  induction l with
  | nil => rfl
  | cons a l ih =>
    obtain ⟨ha, hl⟩ := List.pairwise_cons.1 hl
    have hrest := ih hl fun b hb c hc => hlast b (List.mem_cons_of_mem a hb) c (List.mem_cons_of_mem a hc)
    cases hp : p a with
    | false =>
      rw [List.filter_cons_of_pos (by simp [hp]), List.filter_cons_of_neg (by simp [hp]), List.cons_append, ← hrest]
    | true =>
      -- everything behind `a` is one of the last elements
      have hall : ∀ b ∈ l, p b = true := by
        intro b hb
        by_contra hno
        exact hlast a List.mem_cons_self b (List.mem_cons_of_mem a hb) hp (Bool.not_eq_true _ ▸ hno) (ha b hb)
      have hnone : l.filter (fun a => !p a) = [] := List.filter_eq_nil_iff.2 fun b hb => by simp [hall b hb]
      rw [List.filter_cons_of_neg (by simp [hp]), hnone, List.nil_append, List.filter_cons_of_pos hp,
        List.filter_eq_self.2 hall]

/-- A sort keeps the elements that are behind all others, and in order among themselves, as its tail. -/
theorem insertionSort_eq_append_filter {p : α → Bool} {l : List α} (hp : (l.filter p).Pairwise r)
    (hlast : ∀ a ∈ l, ∀ b ∈ l, p a = true → p b = false → ¬ r a b) :
    ∃ front, l.insertionSort r = front ++ l.filter p ∧ ∀ a ∈ front, p a = false := by
  have hmem : ∀ {a : α}, a ∈ l.insertionSort r → a ∈ l := (List.mem_insertionSort r).1
  refine ⟨(l.insertionSort r).filter fun a => !p a, ?_, fun a ha => by simpa using (List.mem_filter.1 ha).2⟩
  have h := eq_append_filter_of_pairwise (List.pairwise_insertionSort r l) fun a ha b hb => hlast a (hmem ha) b (hmem hb)
  rwa [filter_insertionSort hp] at h

end Ferm
