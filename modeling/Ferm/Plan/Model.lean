import Ferm.Domains
import Ferm.Lib.Dict

/-!
# Parsed state and change records

What the readers of the kernel's and the configuration's rulesets produce, and what the differ reports. The policy field of a
chain is kept as the words of the canonical header; a user chain carries the one word `-`.
-/

namespace Ferm

/-- One parsed chain: its policy field and its ordered rule bodies. -/
structure ParsedChain where
  policy : List String
  rules : List String := []
  deriving DecidableEq, Repr

/-- The chain with one more rule. -/
def ParsedChain.addRule (c : ParsedChain) (rule : String) : ParsedChain := { c with rules := c.rules ++ [rule] }

/-- One parsed named set. -/
structure ParsedSet where
  name : String
  elements : List String := []
  type_ : Option String := none
  flags : List String := []
  deriving DecidableEq, Repr

/-- True when the set carries the `dynamic` flag: a flags entry may hold several, joined by commas. -/
def ParsedSet.isDynamic (s : ParsedSet) : Bool := s.flags.any fun flag => (splitText ',' flag).contains "dynamic"

/-- One parsed table object. -/
structure ParsedObject where
  name : String
  kind : String
  body : String := ""
  deriving DecidableEq, Repr

/-- One parsed table. -/
structure ParsedTable where
  chains : Dict String ParsedChain := Dict.empty
  sets : Dict String ParsedSet := Dict.empty
  objects : Dict String ParsedObject := Dict.empty
  deriving DecidableEq

instance : Inhabited ParsedTable := ⟨{}⟩

/-! ## Changes -/

/-- A base chain's default policy changed. -/
structure PolicyChange where
  table : String
  chain : String
  old : List String
  new : List String
  deriving DecidableEq, Repr

/-- One rule added to a chain, or removed from it. -/
structure RuleChange where
  table : String
  chain : String
  rule : String
  deriving DecidableEq, Repr

/-- A user chain that only the kernel has. -/
structure ForeignChain where
  table : String
  chain : String
  deriving DecidableEq, Repr

/-- A base chain that only the kernel has. -/
structure DesuetChain where
  table : String
  chain : String
  deriving DecidableEq, Repr

/-- A base chain whose priority changed. -/
structure ChainRebuild where
  table : String
  chain : String
  old : String
  new : String
  deriving DecidableEq, Repr

/-- The kinds of change of a named set. -/
inductive SetChangeKind where
  | add
  | remove
  | modify
  deriving DecidableEq, Repr

/-- A named set added, removed, or with changed elements. -/
structure SetChange where
  table : String
  name : String
  kind : SetChangeKind
  elements : List String
  currentElements : List String := []
  deriving DecidableEq, Repr

/-- A table object added or removed. -/
structure ObjectChange where
  table : String
  name : String
  kind : String
  added : Bool
  deriving DecidableEq, Repr

/-- The lists of a plan, each in the order its changes were found. -/
structure Changes where
  policyChanges : List PolicyChange := []
  rulesAdded : List RuleChange := []
  rulesRemoved : List RuleChange := []
  foreignChains : List ForeignChain := []
  desuetChains : List DesuetChain := []
  chainRebuilds : List ChainRebuild := []
  setChanges : List SetChange := []
  objectChanges : List ObjectChange := []
  deriving DecidableEq, Repr

/-- The diff for one family. -/
structure PlanDiff extends Changes where
  noflush : Bool := false
  currentEmpty : Bool := false
  deriving DecidableEq, Repr

/-- True if applying the configuration would change the kernel. -/
def PlanDiff.hasChanges (d : PlanDiff) : Bool :=
  !d.policyChanges.isEmpty || !d.rulesAdded.isEmpty || !d.rulesRemoved.isEmpty || !d.foreignChains.isEmpty ||
    !d.desuetChains.isEmpty || !d.chainRebuilds.isEmpty || !d.setChanges.isEmpty || !d.objectChanges.isEmpty

namespace Changes

/-- The changes found first, then those found later. -/
def append (a b : Changes) : Changes where
  policyChanges := a.policyChanges ++ b.policyChanges
  rulesAdded := a.rulesAdded ++ b.rulesAdded
  rulesRemoved := a.rulesRemoved ++ b.rulesRemoved
  foreignChains := a.foreignChains ++ b.foreignChains
  desuetChains := a.desuetChains ++ b.desuetChains
  chainRebuilds := a.chainRebuilds ++ b.chainRebuilds
  setChanges := a.setChanges ++ b.setChanges
  objectChanges := a.objectChanges ++ b.objectChanges

/-- The changes of a walk, in its order. -/
def concat : List Changes → Changes
  | [] => {}
  | c :: cs => c.append (concat cs)

end Changes

/-! ## Walks -/

namespace Changes

/-- What holds of one list of a walk: it holds the changes of every step. Stated once for all eight lists. -/
theorem concat_field {α : Type} (field : Changes → List α) (hnil : field {} = [])
    (happend : ∀ a b : Changes, field (a.append b) = field a ++ field b) (cs : List Changes) :
    field (concat cs) = cs.flatMap field := by
  induction cs with
  | nil => exact hnil
  | cons c cs ih => rw [concat, happend, ih, List.flatMap_cons]

@[simp] theorem concat_policyChanges (cs : List Changes) : (concat cs).policyChanges = cs.flatMap policyChanges :=
  concat_field _ rfl (fun _ _ => rfl) cs

@[simp] theorem concat_rulesAdded (cs : List Changes) : (concat cs).rulesAdded = cs.flatMap rulesAdded :=
  concat_field _ rfl (fun _ _ => rfl) cs

@[simp] theorem concat_rulesRemoved (cs : List Changes) : (concat cs).rulesRemoved = cs.flatMap rulesRemoved :=
  concat_field _ rfl (fun _ _ => rfl) cs

@[simp] theorem concat_foreignChains (cs : List Changes) : (concat cs).foreignChains = cs.flatMap foreignChains :=
  concat_field _ rfl (fun _ _ => rfl) cs

@[simp] theorem concat_desuetChains (cs : List Changes) : (concat cs).desuetChains = cs.flatMap desuetChains :=
  concat_field _ rfl (fun _ _ => rfl) cs

@[simp] theorem concat_chainRebuilds (cs : List Changes) : (concat cs).chainRebuilds = cs.flatMap chainRebuilds :=
  concat_field _ rfl (fun _ _ => rfl) cs

@[simp] theorem concat_setChanges (cs : List Changes) : (concat cs).setChanges = cs.flatMap setChanges :=
  concat_field _ rfl (fun _ _ => rfl) cs

@[simp] theorem concat_objectChanges (cs : List Changes) : (concat cs).objectChanges = cs.flatMap objectChanges :=
  concat_field _ rfl (fun _ _ => rfl) cs

end Changes

end Ferm
