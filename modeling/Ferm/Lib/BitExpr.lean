import Ferm.Lib.Text

/-!
# Bit expressions

Words with the operators `&`, `^` and `|` between them, of which the first binds tightest and the last loosest. What stands between
operators is read by a function of the words.
-/

namespace Ferm.BitExpr

variable {w : Nat}

/-- The parts between an operator, put together from the left. -/
def infixValue (op : String) (f : BitVec w → BitVec w → BitVec w) (part : List String → Option (BitVec w)) (ws : List String) :
    Option (BitVec w) := do
  match ← (ws.splitOn op).mapM part with
  | [] => none
  | value :: values => return values.foldl f value

/-- The value of an expression, where `atom` reads what has no operator. -/
def eval (atom : List String → Option (BitVec w)) : List String → Option (BitVec w) :=
  infixValue "|" (· ||| ·) (infixValue "^" (· ^^^ ·) (infixValue "&" (· &&& ·) atom))

variable {op : String} {f : BitVec w → BitVec w → BitVec w} {part atom : List String → Option (BitVec w)} {l r s : List String}

theorem infixValue_single (h : op ∉ l) : infixValue op f part l = part l := by
  rw [infixValue, List.splitOn_eq_singleton h]
  cases hp : part l <;> simp [hp]

theorem infixValue_pair (hl : op ∉ l) (hr : op ∉ r) :
    infixValue op f part (l ++ op :: r) = (part l).bind fun a => (part r).map fun b => f a b := by
  rw [infixValue, List.splitOn_append_cons_self, List.splitOn_eq_singleton hl, List.splitOn_eq_singleton hr]
  cases hpl : part l <;> cases hpr : part r <;> simp [hpl, hpr]

/-- No operator is among the words. -/
def NoOperator (ws : List String) : Prop := "&" ∉ ws ∧ "^" ∉ ws ∧ "|" ∉ ws

instance (ws : List String) : Decidable (NoOperator ws) := inferInstanceAs (Decidable (_ ∧ _))

theorem eval_atom (h : NoOperator l) : eval atom l = atom l := by
  rw [eval, infixValue_single h.2.2, infixValue_single h.2.1, infixValue_single h.1]

theorem eval_and (hl : NoOperator l) (hr : NoOperator r) :
    eval atom (l ++ "&" :: r) = (atom l).bind fun a => (atom r).map fun b => a &&& b := by
  have hother : ∀ op, op ≠ "&" → op ∉ l → op ∉ r → op ∉ l ++ "&" :: r := by
    intro op hop hl hr
    simp [hop, hl, hr]
  rw [eval, infixValue_single (hother _ (by decide) hl.2.2 hr.2.2), infixValue_single (hother _ (by decide) hl.2.1 hr.2.1),
    infixValue_pair hl.1 hr.1]

theorem eval_xor (hl : NoOperator l) (hr : NoOperator r) :
    eval atom (l ++ "^" :: r) = (atom l).bind fun a => (atom r).map fun b => a ^^^ b := by
  rw [eval, infixValue_single (by simp [hl.2.2, hr.2.2]), infixValue_pair hl.2.1 hr.2.1, infixValue_single hl.1, infixValue_single hr.1]

theorem eval_or (hr : NoOperator r) (hl : "|" ∉ l) :
    eval atom (l ++ "|" :: r) = (eval atom l).bind fun a => (atom r).map fun b => a ||| b := by
  rw [eval, infixValue_pair hl hr.2.2, infixValue_single hl, infixValue_single hr.2.1, infixValue_single hr.1]

end Ferm.BitExpr
