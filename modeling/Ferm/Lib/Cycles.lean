import Mathlib.Data.List.Cycle
import Mathlib.Data.List.MinMax
import Mathlib.Logic.Relation

/-!
# Simple cycles

A simple cycle of a relation is a list without duplicates in which every element is related to the next one and the last to the
first. Rotations of it are the same cycle, of which the one that starts with the least element is the representative.
-/

namespace Ferm

universe u

variable {α : Type u}

/-- A simple cycle of a relation. -/
structure IsSimpleCycle (r : α → α → Prop) (c : List α) : Prop where
  ne_nil : c ≠ []
  nodup : c.Nodup
  chain : (c : Cycle α).Chain r

theorem IsSimpleCycle.of_isRotated {r : α → α → Prop} {c d : List α} (h : IsSimpleCycle r c) (hrot : c ~r d) : IsSimpleCycle r d := by
  refine ⟨fun hnil => h.ne_nil ?_, hrot.nodup_iff.1 h.nodup, ?_⟩
  · subst hnil
    exact List.isRotated_nil_iff.1 hrot
  · have heq : (c : Cycle α) = (d : Cycle α) := Quotient.sound hrot
    exact heq ▸ h.chain

/-- A path that leads back to its first element is a cycle. -/
theorem isSimpleCycle_of_path {r : α → α → Prop} {first last : α} {path : List α} (hnodup : (first :: path).Nodup)
    (hchain : List.IsChain r (first :: path)) (hlast : (first :: path).getLast? = some last) (hback : r last first) :
    IsSimpleCycle r (first :: path) := by
  refine ⟨List.cons_ne_nil _ _, hnodup, ?_⟩
  rw [Cycle.chain_coe_cons, ← List.cons_append, List.isChain_append]
  refine ⟨hchain, List.isChain_singleton _, ?_⟩
  intro x hx y hy
  rw [hlast, Option.mem_some_iff] at hx
  rw [List.head?_cons, Option.mem_some_iff] at hy
  exact hx ▸ hy ▸ hback

/-- Rotations without duplicates are equal when their first elements are. -/
theorem eq_of_isRotated_of_head? {c d : List α} (hnodup : c.Nodup) (hrot : c ~r d) (hhead : c.head? = d.head?) : c = d := by
  obtain ⟨n, hn, rfl⟩ := List.isRotated_iff_mod.1 hrot
  rcases Nat.lt_or_eq_of_le hn with hlt | heq
  · rw [List.head?_rotate hlt, List.head?_eq_getElem?] at hhead
    have hzero : 0 = n := (List.getElem?_inj (Nat.lt_of_le_of_lt (Nat.zero_le n) hlt) hnodup).1 hhead
    rw [← hzero, List.rotate_zero]
  · rw [heq, List.rotate_length]

end Ferm
