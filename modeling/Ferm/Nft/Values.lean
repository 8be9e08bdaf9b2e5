import Ferm.Lib.IntLiteral
import Ferm.Unfold

/-!
# Values of nft options

What the translators of the stateful modules read from a rule: the option of a module by its name, the text of its value, and the
number a text spells. Python reads and writes numbers of up to 4300 digits.
-/

namespace Ferm

/-! ## Texts -/

/-- `_UNSUPPORTED_VALUE_SHAPE`. -/
def UNSUPPORTED_VALUE_SHAPE : String := "unsupported value shape for nft backend"

/-- The text of a value once its negation is taken off. -/
def unwrapScalar (negated : Bool) : Value → Except Raised (String × Bool)
  | .params _ => .error (.ferm "multi-value cannot be expressed as a single nft match")
  | .multi _ => .error (.ferm "multi-value cannot be expressed as a single nft match")
  | .scalar text => .ok (text, negated)
  | _ => .error (.ferm UNSUPPORTED_VALUE_SHAPE)

/-- What is negated: a value, or a list of at most one. -/
def unwrapNegated : Value → Except Raised (String × Bool)
  | .array [] => .ok ("", true)
  | .array [value] => unwrapScalar true value
  | .array _ => .error (.ferm "multi-value match cannot be negated in nft")
  | value => unwrapScalar true value

/-- `unwrap_value`. -/
def unwrapValue : Value → Except Raised (String × Bool)
  | .negated value => unwrapNegated value
  | .preNegated value => unwrapNegated value
  | value => unwrapScalar false value

/-- The last option of a module with a name. -/
def moduleOption (rule : Unfold.RenderedRule) (moduleName name : String) : Option Unfold.RenderedOption :=
  (rule.options.filter fun o => o.moduleName = some moduleName && o.name = name).getLast?

/-- `_addr_set_type`. -/
def addrSetType (domain : Family) : String := if domain = .ip then "ipv4_addr" else "ipv6_addr"

/-! ## Numbers -/

/-- `int(text)` of a text of digits. -/
def intOf (text : String) : Except Raised Nat :=
  if INT_MAX_STR_DIGITS < text.toList.length then .error (.other "ValueError") else .ok (uintValue 10 text.toList)

/-- `str(n)`. -/
def strOf (n : Nat) : Except Raised String :=
  if INT_MAX_STR_DIGITS < (Nat.toDigits 10 n).length then .error (.other "ValueError")
  else .ok (String.ofList (Nat.toDigits 10 n))

theorem intOf_eq_ok_iff {text : String} {n : Nat} :
    intOf text = .ok n ↔ text.toList.length ≤ INT_MAX_STR_DIGITS ∧ n = uintValue 10 text.toList := by
  unfold intOf
  split
  · exact iff_of_false nofun (by omega)
  · rename_i hshort
    rw [Except.ok.injEq]
    exact ⟨fun h => ⟨Nat.le_of_not_lt hshort, h.symm⟩, fun h => h.2.symm⟩

theorem strOf_eq_ok_iff {n : Nat} {text : String} :
    strOf n = .ok text ↔ (Nat.toDigits 10 n).length ≤ INT_MAX_STR_DIGITS ∧ text = String.ofList (Nat.toDigits 10 n) := by
  unfold strOf
  split
  · exact iff_of_false nofun (by omega)
  · rename_i hshort
    rw [Except.ok.injEq]
    exact ⟨fun h => ⟨Nat.le_of_not_lt hshort, h.symm⟩, fun h => h.2.symm⟩

end Ferm
