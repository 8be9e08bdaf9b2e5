import Mathlib.Algebra.GroupWithZero.Nat
import Mathlib.Data.Nat.Basic
import Mathlib.Tactic.Common

/-!
# Numbers in units

A number as counts of units, the largest unit first and no count zero: what is left after a unit goes to the units below it.
-/

namespace Ferm.MixedRadix

universe u

variable {ι : Type u}

/-- The counts of a number in units with their spans. -/
def components : List (ι × Nat) → Nat → List (Nat × (ι × Nat))
  | [], _ => []
  | unit :: units, n =>
    if n / unit.2 = 0 then components units (n % unit.2) else (n / unit.2, unit) :: components units (n % unit.2)

/-- What is left after all units. -/
def remainder (units : List (ι × Nat)) (n : Nat) : Nat := units.foldl (fun r unit => r % unit.2) n

/-- The number that counts stand for. -/
def value (counts : List (Nat × (ι × Nat))) : Nat := (counts.map fun c => c.1 * c.2.2).sum

theorem value_components_add_remainder (units : List (ι × Nat)) (n : Nat) : value (components units n) + remainder units n = n := by
  induction units generalizing n with
  | nil => exact Nat.zero_add n
  | cons unit units ih =>
    have hrest := ih (n % unit.2)
    have hdiv := Nat.div_add_mod n unit.2
    rw [remainder, List.foldl_cons, ← remainder, components]
    split
    · rename_i hzero
      rw [hzero, Nat.mul_zero, Nat.zero_add] at hdiv
      rw [hrest, hdiv]
    · rw [value, List.map_cons, List.sum_cons, ← value, Nat.add_assoc, hrest, Nat.mul_comm, hdiv]

/-- The counts stand for the number when the last unit is one. -/
theorem value_components (units : List (ι × Nat)) (smallest : ι) (n : Nat) : value (components (units ++ [(smallest, 1)]) n) = n := by
  have h := value_components_add_remainder (units ++ [(smallest, 1)]) n
  rwa [remainder, List.foldl_append, List.foldl_cons, List.foldl_nil, Nat.mod_one, Nat.add_zero] at h

/-- No count is zero. -/
theorem pos_of_mem_components {units : List (ι × Nat)} {n : Nat} {c : Nat × (ι × Nat)} (h : c ∈ components units n) : 0 < c.1 := by
  induction units generalizing n with
  | nil => cases h
  | cons unit units ih =>
    rw [components] at h
    split at h
    · exact ih h
    · rename_i hne
      rcases List.mem_cons.1 h with rfl | h
      · exact Nat.pos_of_ne_zero hne
      · exact ih h

/-- The units of the counts are some of the units, in their order. -/
theorem map_snd_components_sublist (units : List (ι × Nat)) (n : Nat) : ((components units n).map Prod.snd).Sublist units := by
  induction units generalizing n with
  | nil => exact List.Sublist.refl _
  | cons unit units ih =>
    rw [components]
    split
    · exact (ih _).cons _
    · exact (ih _).cons_cons _

/-! ## The canonical counts of a number -/

/-- Counts of units, the largest first, none of them zero and each below the ratio to any larger unit. -/
structure IsCanonical (units : List (ι × Nat)) (counts : List (Nat × (ι × Nat))) : Prop where
  mem : ∀ c ∈ counts, c.2 ∈ units
  decreasing : counts.Pairwise fun c d => d.2.2 < c.2.2
  pos : ∀ c ∈ counts, 0 < c.1
  below : ∀ c ∈ counts, ∀ unit ∈ units, c.2.2 < unit.2 → c.1 < unit.2 / c.2.2

/-- Each unit is a multiple of those behind it, and larger. -/
def Nested (units : List (ι × Nat)) : Prop := units.Pairwise fun a b => b.2 < a.2 ∧ b.2 ∣ a.2

theorem value_cons (c : Nat × (ι × Nat)) (counts : List (Nat × (ι × Nat))) : value (c :: counts) = c.1 * c.2.2 + value counts := by
  rw [value, List.map_cons, List.sum_cons, ← value]

theorem mul_le_value {counts : List (Nat × (ι × Nat))} {c : Nat × (ι × Nat)} (h : c ∈ counts) : c.1 * c.2.2 ≤ value counts := by
  induction counts with
  | nil => cases h
  | cons d counts ih =>
    rw [value_cons]
    rcases List.mem_cons.1 h with rfl | h
    · exact Nat.le_add_right _ _
    · exact Nat.le_trans (ih h) (Nat.le_add_left _ _)

theorem value_components_le (units : List (ι × Nat)) (n : Nat) : value (components units n) ≤ n := by
  have h := value_components_add_remainder units n
  omega

theorem mem_units_of_mem_components {units : List (ι × Nat)} {n : Nat} {c : Nat × (ι × Nat)} (h : c ∈ components units n) : c.2 ∈ units :=
  (map_snd_components_sublist units n).subset (List.mem_map_of_mem h)

theorem Nested.dvd {units : List (ι × Nat)} (h : Nested units) {a b : ι × Nat} (ha : a ∈ units) (hb : b ∈ units) (hlt : b.2 < a.2) :
    b.2 ∣ a.2 := by
  induction units with
  | nil => cases ha
  | cons unit units ih =>
    obtain ⟨hfirst, hnested⟩ := List.pairwise_cons.1 h
    rcases List.mem_cons.1 ha with rfl | ha'
    · rcases List.mem_cons.1 hb with rfl | hb'
      · exact Nat.dvd_refl _
      · exact (hfirst b hb').2
    · rcases List.mem_cons.1 hb with rfl | hb'
      · exact absurd hlt (Nat.lt_asymm (hfirst a ha').1)
      · exact ih hnested ha' hb'

/-- A count is below the ratio to a larger unit when its share is below the unit. -/
theorem lt_ratio_iff {a b n : Nat} (h : b ∣ a) : n < a / b ↔ n * b < a := by rw [Nat.lt_div_iff_mul_lt' h, Nat.mul_comm]

/-- The share of a unit in a number is less than any larger unit. -/
theorem mul_lt_of_mem_components {units : List (ι × Nat)} (hunits : Nested units) {n : Nat} {c : Nat × (ι × Nat)}
    (h : c ∈ components units n) : ∀ unit ∈ units, c.2.2 < unit.2 → c.1 * c.2.2 < unit.2 := by
  induction units generalizing n with
  | nil => cases h
  | cons first units ih =>
    obtain ⟨hfirst, hnested⟩ := List.pairwise_cons.1 hunits
    -- what is left after the first unit is less than it
    have hrest : c ∈ components units (n % first.2) → ∀ unit ∈ first :: units, c.2.2 < unit.2 → c.1 * c.2.2 < unit.2 := by
      intro hc unit hunit hlarger
      rcases List.mem_cons.1 hunit with rfl | hunit
      · have hle := Nat.le_trans (mul_le_value hc) (value_components_le units _)
        exact Nat.lt_of_le_of_lt hle (Nat.mod_lt _ (by omega))
      · exact ih hnested hc unit hunit hlarger
    rw [components] at h
    split at h
    · exact hrest h
    · rcases List.mem_cons.1 h with rfl | h
      · intro unit hunit hlarger
        rcases List.mem_cons.1 hunit with rfl | hunit
        · exact absurd hlarger (Nat.lt_irrefl _)
        · exact absurd hlarger (Nat.lt_asymm (hfirst unit hunit).1)
      · exact hrest h

theorem isCanonical_components {units : List (ι × Nat)} (hunits : Nested units) (n : Nat) : IsCanonical units (components units n) where
  mem := fun _ hc => mem_units_of_mem_components hc
  decreasing := by
    have hdecreasing : units.Pairwise fun a b => b.2 < a.2 := hunits.imp And.left
    exact List.pairwise_map.1 (hdecreasing.sublist (map_snd_components_sublist units n))
  pos := fun _ hc => pos_of_mem_components hc
  below := fun c hc unit hunit hlarger => by
    have hdvd := hunits.dvd hunit (mem_units_of_mem_components hc) hlarger
    exact (lt_ratio_iff hdvd).2 (mul_lt_of_mem_components hunits hc unit hunit hlarger)

/-- Shares that are each below the unit in front of them make less than the first. -/
theorem value_lt {bound : Nat} (hbound : 0 < bound) {counts : List (Nat × (ι × Nat))}
    (hfirst : ∀ c ∈ counts, c.2.2 ∣ bound ∧ c.1 * c.2.2 < bound)
    (hpairs : counts.Pairwise fun c d => d.2.2 ∣ c.2.2 ∧ d.1 * d.2.2 < c.2.2) : value counts < bound := by
  induction counts generalizing bound with
  | nil => exact hbound
  | cons c counts ih =>
    obtain ⟨hnext, hpairs⟩ := List.pairwise_cons.1 hpairs
    obtain ⟨⟨q, hq⟩, hlt⟩ := hfirst c List.mem_cons_self
    have hspan : 0 < c.2.2 := by
      rcases Nat.eq_zero_or_pos c.2.2 with hzero | hpos
      · rw [hzero, Nat.zero_mul] at hq
        omega
      · exact hpos
    have hrest := ih hspan hnext hpairs
    -- the share of the first unit leaves room for one unit more
    have hroom : c.1 + 1 ≤ q := by
      rw [hq, Nat.mul_comm] at hlt
      exact Nat.lt_of_mul_lt_mul_left hlt
    have hstep : (c.1 + 1) * c.2.2 ≤ bound := by
      rw [hq, Nat.mul_comm c.2.2 q]
      exact Nat.mul_le_mul_right _ hroom
    rw [value_cons]
    rw [Nat.add_mul, Nat.one_mul] at hstep
    omega

section Canonical

variable {unit : ι × Nat} {units : List (ι × Nat)} {c : Nat × (ι × Nat)} {counts : List (Nat × (ι × Nat))}

theorem IsCanonical.tail (h : IsCanonical units (c :: counts)) : IsCanonical units counts where
  mem := fun d hd => h.mem d (List.mem_cons_of_mem _ hd)
  decreasing := (List.pairwise_cons.1 h.decreasing).2
  pos := fun d hd => h.pos d (List.mem_cons_of_mem _ hd)
  below := fun d hd => h.below d (List.mem_cons_of_mem _ hd)

/-- Counts in none of which the first unit is counted. -/
theorem IsCanonical.of_cons (h : IsCanonical (unit :: units) counts) (hne : ∀ d ∈ counts, d.2 ≠ unit) : IsCanonical units counts where
  mem := fun d hd => (List.mem_cons.1 (h.mem d hd)).resolve_left (hne d hd)
  decreasing := h.decreasing
  pos := h.pos
  below := fun d hd larger hlarger => h.below d hd larger (List.mem_cons_of_mem _ hlarger)

/-- Counts of smaller units make less than a unit. -/
theorem IsCanonical.value_lt (h : IsCanonical (unit :: units) counts) (hunits : Nested (unit :: units)) (hpos : ∀ a ∈ unit :: units, 0 < a.2)
    (hsmaller : ∀ d ∈ counts, d.2.2 < unit.2) : value counts < unit.2 := by
  have hshare : ∀ d ∈ counts, ∀ larger ∈ unit :: units, d.2.2 < larger.2 → d.2.2 ∣ larger.2 ∧ d.1 * d.2.2 < larger.2 := by
    intro d hd larger hlarger hlt
    have hdvd := hunits.dvd hlarger (h.mem d hd) hlt
    exact ⟨hdvd, (lt_ratio_iff hdvd).1 (h.below d hd larger hlarger hlt)⟩
  refine MixedRadix.value_lt (hpos unit List.mem_cons_self) (fun d hd => hshare d hd unit List.mem_cons_self (hsmaller d hd)) ?_
  exact h.decreasing.imp_of_mem fun hc hd hlt => hshare _ hd _ (h.mem _ hc) hlt

/-- A number has one canonical spelling. -/
theorem components_value (hunits : Nested units) (hpos : ∀ a ∈ units, 0 < a.2) (h : IsCanonical units counts) :
    components units (value counts) = counts := by
  induction units generalizing counts with
  | nil =>
    cases counts with
    | nil => rfl
    | cons c counts => exact absurd (h.mem c List.mem_cons_self) List.not_mem_nil
  | cons unit units ih =>
    obtain ⟨hfirst, hnested⟩ := List.pairwise_cons.1 hunits
    have hpos' : ∀ a ∈ units, 0 < a.2 := fun a ha => hpos a (List.mem_cons_of_mem _ ha)
    have hunit := hpos unit List.mem_cons_self
    -- counts of the units behind the first one
    have hbehind : ∀ {counts : List (Nat × (ι × Nat))}, IsCanonical (unit :: units) counts → (∀ d ∈ counts, d.2.2 < unit.2) →
        value counts < unit.2 ∧ components units (value counts) = counts := by
      intro counts hcounts hsmaller
      refine ⟨hcounts.value_lt hunits hpos hsmaller, ih hnested hpos' (hcounts.of_cons fun d hd heq => ?_)⟩
      have hlt := hsmaller d hd
      rw [heq] at hlt
      exact Nat.lt_irrefl _ hlt
    rw [components]
    cases counts with
    | nil =>
      have hzero : value ([] : List (Nat × (ι × Nat))) = 0 := rfl
      rw [hzero, Nat.zero_div, if_pos rfl, Nat.zero_mod]
      exact (hbehind h nofun).2
    | cons c counts =>
      obtain ⟨hsmaller, -⟩ := List.pairwise_cons.1 h.decreasing
      rcases List.mem_cons.1 (h.mem c List.mem_cons_self) with hc | hc
      · obtain ⟨hlt, hcomponents⟩ := hbehind h.tail fun d hd => hc ▸ hsmaller d hd
        have hdiv : value (c :: counts) / unit.2 = c.1 := by
          rw [value_cons, hc, Nat.mul_comm, Nat.mul_add_div hunit, Nat.div_eq_of_lt hlt, Nat.add_zero]
        have hmod : value (c :: counts) % unit.2 = value counts := by
          rw [value_cons, hc, Nat.mul_comm, Nat.mul_add_mod, Nat.mod_eq_of_lt hlt]
        rw [hdiv, hmod, if_neg (Nat.pos_iff_ne_zero.1 (h.pos c List.mem_cons_self)), hcomponents, ← hc]
      · have hc' := (hfirst c.2 hc).1
        have hall : ∀ d ∈ c :: counts, d.2.2 < unit.2 := by
          intro d hd
          rcases List.mem_cons.1 hd with rfl | hd
          · exact hc'
          · exact Nat.lt_trans (hsmaller d hd) hc'
        obtain ⟨hlt, hcomponents⟩ := hbehind h hall
        rw [Nat.div_eq_of_lt hlt, Nat.mod_eq_of_lt hlt, if_pos rfl, hcomponents]

end Canonical

end Ferm.MixedRadix
