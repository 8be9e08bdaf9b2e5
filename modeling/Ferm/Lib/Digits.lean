import Ferm.Lib.Text
import Mathlib.Algebra.Group.Nat.Defs

/-!
# Digits

Numbers written in a base and read back, and numbers as groups of a fixed number of digits.
-/

namespace Ferm

theorem digitValue_digitChar {d : Nat} (h : d < 16) : digitValue (Nat.digitChar d) = d := by
  have hall : ∀ d < 16, digitValue (Nat.digitChar d) = d := by decide
  exact hall d h

theorem digitValue_lt (c : Char) : digitValue c < 16 := by
  unfold digitValue
  split
  · rename_i h
    have hle : c.toNat ≤ '9'.toNat := by
      simp only [Char.isDigit, Bool.and_eq_true, decide_eq_true_eq] at h
      exact UInt32.le_iff_toNat_le.1 h.2
    have hnine : '9'.toNat = 57 := rfl
    have hzero : '0'.toNat = 48 := rfl
    omega
  · split
    · rename_i h
      have hle : c.toNat ≤ 'f'.toNat := UInt32.le_iff_toNat_le.1 h.2
      have hf : 'f'.toNat = 102 := rfl
      have ha : 'a'.toNat = 97 := rfl
      omega
    · split
      · rename_i h
        have hle : c.toNat ≤ 'F'.toNat := UInt32.le_iff_toNat_le.1 h.2
        have hf : 'F'.toNat = 70 := rfl
        have ha : 'A'.toNat = 65 := rfl
        omega
      · decide

theorem uintValue_append (base : Nat) (text : List Char) (c : Char) :
    uintValue base (text ++ [c]) = base * uintValue base text + digitValue c := by
  rw [uintValue, List.foldl_append]
  rfl

/-- The digits of a number are read back. -/
theorem uintValue_toDigits {base : Nat} (hbase : 1 < base) (hle : base ≤ 16) (n : Nat) :
    uintValue base (Nat.toDigits base n) = n := by
  induction n using Nat.strongRecOn with
  | _ n ih =>
    rw [Nat.toDigits_eq_if hbase]
    split
    · rename_i hn
      have hdigit := digitValue_digitChar (Nat.lt_of_lt_of_le hn hle)
      rw [← List.nil_append [Nat.digitChar n], uintValue_append, hdigit]
      exact Nat.zero_add n
    · rename_i hn
      have hlt : n / base < n := Nat.div_lt_self (by omega) hbase
      have hmod : n % base < 16 := Nat.lt_of_lt_of_le (Nat.mod_lt n (by omega)) hle
      rw [uintValue_append, ih _ hlt, digitValue_digitChar hmod]
      exact Nat.div_add_mod n base

theorem isAsciiUint_toDigits (n : Nat) : isAsciiUint (Nat.toDigits 10 n) = true := by
  rw [isAsciiUint, List.isEmpty_eq_false_iff.2 Nat.toDigits_ne_nil]
  exact List.all_eq_true.2 fun c hc => Nat.isDigit_of_mem_toDigits (b := 10) (by decide) (by decide) hc

/-- A number written in a base up to 16 has only digits that a hexadecimal number has. -/
theorem isHexDigit_of_mem_toDigits {base : Nat} (hbase : 1 < base) (hle : base ≤ 16) {n : Nat} {c : Char}
    (h : c ∈ Nat.toDigits base n) : isHexDigit c = true := by
  have hall : ∀ d < 16, isHexDigit (Nat.digitChar d) = true := by decide
  induction n using Nat.strongRecOn with
  | _ n ih =>
    rw [Nat.toDigits_eq_if hbase] at h
    split at h
    · rw [List.mem_singleton] at h
      exact h ▸ hall n (by omega)
    · rename_i hn
      rw [List.mem_append, List.mem_singleton] at h
      rcases h with h | rfl
      · exact ih _ (Nat.div_lt_self (by omega) hbase) h
      · exact hall _ (Nat.lt_of_lt_of_le (Nat.mod_lt n (by omega)) hle)

theorem not_mem_toDigits {base : Nat} (hbase : 1 < base) (hle : base ≤ 16) {c : Char} (hc : isHexDigit c = false) (n : Nat) :
    c ∉ Nat.toDigits base n := by
  intro hmem
  rw [isHexDigit_of_mem_toDigits hbase hle hmem] at hc
  cases hc

/-- The digits of a number are below its base. -/
theorem digitValue_lt_of_mem_toDigits {base : Nat} (hbase : 1 < base) (hle : base ≤ 16) {n : Nat} {c : Char}
    (h : c ∈ Nat.toDigits base n) : digitValue c < base := by
  induction n using Nat.strongRecOn with
  | _ n ih =>
    rw [Nat.toDigits_eq_if hbase] at h
    split at h
    · rename_i hn
      rw [List.mem_singleton] at h
      rwa [h, digitValue_digitChar (Nat.lt_of_lt_of_le hn hle)]
    · rename_i hn
      rw [List.mem_append, List.mem_singleton] at h
      rcases h with h | rfl
      · exact ih _ (Nat.div_lt_self (by omega) hbase) h
      · have hmod : n % base < base := Nat.mod_lt n (by omega)
        rwa [digitValue_digitChar (Nat.lt_of_lt_of_le hmod hle)]

/-! ## Groups -/

/-- The last digits of a number in a base, as many as are asked for, the highest first. -/
def groups (base : Nat) : Nat → Nat → List Nat
  | 0, _ => []
  | count + 1, n => groups base count (n / base) ++ [n % base]

/-- The number of a list of digits. -/
def groupsValue (base : Nat) (digits : List Nat) : Nat := digits.foldl (fun n d => base * n + d) 0

@[simp] theorem length_groups (base count n : Nat) : (groups base count n).length = count := by
  induction count generalizing n with
  | zero => rfl
  | succ count ih => rw [groups, List.length_append, ih, List.length_singleton]

theorem lt_of_mem_groups {base count n d : Nat} (hbase : 0 < base) (h : d ∈ groups base count n) : d < base := by
  induction count generalizing n with
  | zero => cases h
  | succ count ih =>
    rw [groups, List.mem_append, List.mem_singleton] at h
    rcases h with h | rfl
    · exact ih h
    · exact Nat.mod_lt n hbase

/-- The groups of a number that is not too large are read back. -/
theorem groupsValue_groups {base count n : Nat} (h : n < base ^ count) : groupsValue base (groups base count n) = n := by
  induction count generalizing n with
  | zero =>
    rw [Nat.pow_zero] at h
    obtain rfl : n = 0 := by omega
    rfl
  | succ count ih =>
    rw [Nat.pow_succ] at h
    have hdiv : n / base < base ^ count := Nat.div_lt_of_lt_mul (by rwa [Nat.mul_comm])
    have hvalue := ih hdiv
    rw [groupsValue] at hvalue
    rw [groups, groupsValue, List.foldl_append, hvalue]
    exact Nat.div_add_mod n base

theorem groupsValue_append (base : Nat) (a b : List Nat) :
    groupsValue base (a ++ b) = groupsValue base a * base ^ b.length + groupsValue base b := by
  have hfrom : ∀ (b : List Nat) (n : Nat), b.foldl (fun n d => base * n + d) n = n * base ^ b.length + groupsValue base b := by
    intro b
    induction b with
    | nil => simp [groupsValue]
    | cons d b ih =>
      intro n
      have hvalue : groupsValue base (d :: b) = d * base ^ b.length + groupsValue base b := by
        rw [groupsValue, List.foldl_cons, ih, Nat.mul_zero, Nat.zero_add]
      rw [List.foldl_cons, ih, hvalue, List.length_cons, Nat.pow_succ, Nat.add_mul, Nat.add_assoc, Nat.mul_comm base n,
        Nat.mul_assoc, Nat.mul_comm base (base ^ _)]
  rw [groupsValue, List.foldl_append, hfrom]
  rfl

theorem groupsValue_replicate_zero (base count : Nat) : groupsValue base (List.replicate count 0) = 0 := by
  induction count with
  | zero => rfl
  | succ count ih =>
    rw [List.replicate_succ, ← List.singleton_append, groupsValue_append, ih]
    simp [groupsValue]

end Ferm
