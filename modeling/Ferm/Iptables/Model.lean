import Ferm.Domains
import Ferm.Lib.Dict

/-!
# Values, rules and domain state

The values of rule options as they reach the iptables backend, the unfolded rules, and the state of one family: its tables,
their chains, and the ruleset that was there before.
-/

namespace Ferm

/-- The calls that are evaluated late. -/
inductive DeferredFunction where
  | resolve
  | ipfilter
  | deferredCat
  deriving DecidableEq, Repr

/-- A parsed value: a scalar, a flag without one, an array, or one of the tagged shapes. -/
inductive Value where
  | undef
  | scalar (text : String)
  | array (values : List Value)
  | negated (value : Value)
  | preNegated (value : Value)
  | params (values : List Value)
  | multi (values : List Value)
  | deferred (function : DeferredFunction) (params : List Value)
  | setRef (name : String) (elements : List Value)
  deriving Repr

mutual

/-- `==` of values: the same shape with the same content. -/
def Value.beq : Value → Value → Bool
  | .undef, .undef => true
  | .scalar s, .scalar t => s = t
  | .array vs, .array ws => beqList vs ws
  | .negated v, .negated w => v.beq w
  | .preNegated v, .preNegated w => v.beq w
  | .params vs, .params ws => beqList vs ws
  | .multi vs, .multi ws => beqList vs ws
  | .deferred f vs, .deferred g ws => f = g && beqList vs ws
  | .setRef n vs, .setRef m ws => n = m && beqList vs ws
  | _, _ => false

/-- `==` of lists of values. -/
def Value.beqList : List Value → List Value → Bool
  | [], [] => true
  | v :: vs, w :: ws => v.beq w && beqList vs ws
  | _, _ => false

end

mutual

theorem Value.beq_iff : (v w : Value) → (v.beq w = true ↔ v = w)
  | .undef, w => by cases w <;> simp [beq]
  | .scalar s, w => by cases w <;> simp [beq]
  | .array vs, w => by cases w <;> simp [beq, beqList_iff vs]
  | .negated v, w => by cases w <;> simp [beq, beq_iff v]
  | .preNegated v, w => by cases w <;> simp [beq, beq_iff v]
  | .params vs, w => by cases w <;> simp [beq, beqList_iff vs]
  | .multi vs, w => by cases w <;> simp [beq, beqList_iff vs]
  | .deferred f vs, w => by cases w <;> simp [beq, beqList_iff vs]
  | .setRef n vs, w => by cases w <;> simp [beq, beqList_iff vs]

theorem Value.beqList_iff : (vs ws : List Value) → (beqList vs ws = true ↔ vs = ws)
  | [], ws => by cases ws <;> simp [beqList]
  | v :: vs, ws => by cases ws <;> simp [beqList, beq_iff v, beqList_iff vs]

end

instance : DecidableEq Value := fun v w => decidable_of_iff _ (v.beq_iff w)

/-- One option of an unfolded rule. -/
structure RenderedOption where
  name : String
  value : Value
  deriving Repr

/-- One unfolded rule. -/
structure RenderedRule where
  options : List RenderedOption
  deriving Repr

/-- The state of one chain. -/
structure ChainInfo where
  builtin : Bool := false
  policy : Option String := none
  rules : List RenderedRule := []
  preserve : Bool := false
  priority : Option Int := none

/-- The state of one table. A preserve pattern is the test whether it finds something in a chain's name. -/
structure TableInfo where
  hasBuiltin : Bool := false
  preserveRegexes : List (String → Bool) := []
  chains : Dict String ChainInfo := Dict.empty

/-- The state of one family that its rulesets are built from: the path of its save tool, the ruleset read before, its tables. -/
structure DomainInfo where
  saveTool : String := ""
  previous : Option String := none
  tables : Dict String TableInfo := Dict.empty

/-- The options the backend looks at. -/
structure IptablesOptions where
  flush : Bool := false
  noflush : Bool := false
  deriving DecidableEq, Repr

/-- Targets that netfilter knows by itself. -/
def CORE_TARGETS : List String := ["ACCEPT", "DROP", "RETURN", "QUEUE"]

/-- The built-in chains of all tables and families. -/
def BUILTIN_CHAINS : List String := ["PREROUTING", "INPUT", "FORWARD", "OUTPUT", "POSTROUTING", "BROUTING"]

/-- `is_netfilter_builtin_chain`, which does not look at the table. -/
def isNetfilterBuiltinChain (_table chain : String) : Bool := BUILTIN_CHAINS.contains chain

end Ferm
