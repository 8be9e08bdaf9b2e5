import Mathlib.Algebra.Group.Nat.Defs
import Mathlib.Data.List.Forall2
import Mathlib.Tactic.Common

/-!
# Products of lists

All ways to choose one element of every list, the choices from the first list varying slowest.
-/

namespace Ferm

variable {α β : Type}

/-- The product of lists, in lexicographic order of the positions. -/
def lexProduct : List (List α) → List (List α)
  | [] => [[]]
  | choices :: rest => choices.flatMap fun a => (lexProduct rest).map (a :: ·)

@[simp] theorem lexProduct_nil : lexProduct ([] : List (List α)) = [[]] := rfl

theorem lexProduct_cons (choices : List α) (rest : List (List α)) :
    lexProduct (choices :: rest) = choices.flatMap fun a => (lexProduct rest).map (a :: ·) := rfl

@[simp] theorem lexProduct_singleton_cons (a : α) (rest : List (List α)) :
    lexProduct ([a] :: rest) = (lexProduct rest).map (a :: ·) := by simp [lexProduct_cons]

/-- The product holds the lists with an element of every list in its place. -/
theorem mem_lexProduct_iff {choices : List (List α)} {leaf : List α} :
    leaf ∈ lexProduct choices ↔ List.Forall₂ (fun a c => a ∈ c) leaf choices := by
  induction choices generalizing leaf with
  | nil => simp
  | cons choices rest ih =>
    rw [lexProduct_cons, List.mem_flatMap]
    constructor
    · rintro ⟨a, ha, hleaf⟩
      obtain ⟨tail, htail, rfl⟩ := List.mem_map.1 hleaf
      exact .cons ha (ih.1 htail)
    · rintro (_ | ⟨ha, htail⟩)
      exact ⟨_, ha, List.mem_map.2 ⟨_, ih.2 htail, rfl⟩⟩

theorem length_of_mem_lexProduct {choices : List (List α)} {leaf : List α} (h : leaf ∈ lexProduct choices) :
    leaf.length = choices.length :=
  (mem_lexProduct_iff.1 h).length_eq

theorem length_lexProduct (choices : List (List α)) : (lexProduct choices).length = (choices.map List.length).prod := by
  induction choices with
  | nil => rfl
  | cons choices rest ih => simp [lexProduct_cons, List.length_flatMap, ih]

end Ferm
