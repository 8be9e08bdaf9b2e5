import Ferm.Lib.Dict

/-!
# Occurrences of equal keys

A counter for each key tells its occurrences apart: the pair of a key and the number of its occurrence is handed out once.
-/

namespace Ferm

universe u

variable {κ : Type u} [DecidableEq κ]

/-- How often each key has occurred, and the pairs that were handed out. -/
structure Ordinals (κ : Type u) [DecidableEq κ] where
  counts : Dict κ Nat
  taken : List (κ × Nat)
  nodup : taken.Nodup
  below : ∀ p ∈ taken, p.2 < (counts.get? p.1).getD 0

namespace Ordinals

/-- Nothing has occurred. -/
def empty : Ordinals κ := ⟨Dict.empty, [], List.nodup_nil, nofun⟩

/-- The number of the next occurrence of a key. -/
def next (o : Ordinals κ) (k : κ) : Nat := (o.counts.get? k).getD 0

theorem next_not_mem_taken (o : Ordinals κ) (k : κ) : (k, o.next k) ∉ o.taken := fun h => Nat.lt_irrefl _ (o.below _ h)

/-- Count one more occurrence of a key. -/
def take (o : Ordinals κ) (k : κ) : Ordinals κ where
  counts := o.counts.set k (o.next k + 1)
  taken := o.taken ++ [(k, o.next k)]
  nodup := by
    rw [List.nodup_append]
    refine ⟨o.nodup, List.nodup_singleton _, fun p hp q hq he => ?_⟩
    rw [he, List.mem_singleton.1 hq] at hp
    exact o.next_not_mem_taken k hp
  below := by
    intro p hp
    rw [Dict.get?_set]
    split
    · rename_i hk
      rcases List.mem_append.1 hp with hp | hp
      · have hlt := o.below p hp
        rw [hk] at hlt
        exact Nat.lt_succ_of_lt hlt
      · rw [List.mem_singleton.1 hp]
        exact Nat.lt_succ_self _
    · rename_i hk
      rcases List.mem_append.1 hp with hp | hp
      · exact o.below p hp
      · exact absurd (congrArg Prod.fst (List.mem_singleton.1 hp)) hk

@[simp] theorem taken_empty : (empty : Ordinals κ).taken = [] := rfl

@[simp] theorem taken_take (o : Ordinals κ) (k : κ) : (o.take k).taken = o.taken ++ [(k, o.next k)] := rfl

end Ordinals

end Ferm
