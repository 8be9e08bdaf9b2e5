import Ferm.Nft.Sets
import Ferm.Plan.Diff

/-!
# The incremental script

The delta of one family: what to touch is decided from the diff, what is added is copied line by line from the rendered script.
A change that nft cannot make safely inside a transaction diverts the family to a full reload.
-/

namespace Ferm

/-- The desired script's lines by the name of the object they are about. -/
structure DesiredIndex where
  chainDecl : Dict String ScriptLine := Dict.empty
  chainRules : Dict String (List ScriptLine) := Dict.empty
  setDecl : Dict String ScriptLine := Dict.empty
  setElements : Dict String ScriptLine := Dict.empty
  objectDecl : Dict String ScriptLine := Dict.empty

/-- One line of the desired script; the renderer writes no other. -/
def indexLine (index : DesiredIndex) (line : ScriptLine) : Except FermError DesiredIndex :=
  match line.command with
  | .deleteTable => .ok {}
  | .addTable => .ok index
  | .flushTable => .ok index
  | .addChain name _ => .ok { index with chainDecl := index.chainDecl.set name line }
  | .addRule name _ =>
    let rules := (index.chainRules.get? name).getD [] ++ [line]
    .ok { index with chainRules := index.chainRules.set name rules }
  | .addSet name _ => .ok { index with setDecl := index.setDecl.set name line }
  | .addElement name _ => .ok { index with setElements := index.setElements.set name line }
  | .addObject _ name _ => .ok { index with objectDecl := index.objectDecl.set name line }
  | .flushChain _ => .error (internalError ("unexpected render line: " ++ pyRepr line.toText))
  | .deleteChain _ => .error (internalError ("unexpected render line: " ++ pyRepr line.toText))
  | .deleteElement _ _ => .error (internalError ("unexpected render line: " ++ pyRepr line.toText))

/-- `_build_desired_index`. -/
def buildDesiredIndex (desiredSave : List ScriptLine) : Except FermError DesiredIndex :=
  desiredSave.foldlM indexLine {}

/-- A line of the delta that is not copied from the rendered script. -/
def deltaLine (family : String) (command : Command) : ScriptLine := ⟨family, NFT_TABLE_NAME, command⟩

@[simp] theorem deltaLine_family (family : String) (command : Command) : (deltaLine family command).family = family := rfl

@[simp] theorem deltaLine_table (family : String) (command : Command) :
    (deltaLine family command).table = NFT_TABLE_NAME := rfl

@[simp] theorem deltaLine_command (family : String) (command : Command) : (deltaLine family command).command = command :=
  rfl

/-- The lines of one set change: additions are copied, a modification adds and removes single elements. -/
def emitSetChange (current : ParsedTable) (index : DesiredIndex) (family : String) (sc : SetChange) :
    Except FermError (List ScriptLine) :=
  match sc.kind with
  | .remove =>
    .error (internalError ("set remove reached the emitter (should full-reload): " ++ pyRepr sc.name))
  | .add =>
    match index.setDecl.get? sc.name with
    | none => .error (internalError ("no desired decl for set " ++ pyRepr sc.name))
    | some decl => .ok (decl :: (index.setElements.get? sc.name).toList)
  | .modify =>
    match current.sets.get? sc.name with
    | none => .error ⟨"KeyError: " ++ pyRepr sc.name⟩
    | some live =>
      let removed := live.elements.filter (· ∉ sc.elements)
      let added := sc.elements.filter (· ∉ live.elements)
      .ok ((if removed = [] then [] else [deltaLine family (.deleteElement sc.name removed)]) ++
        if added = [] then [] else [deltaLine family (.addElement sc.name added)])

/-- `_emit_set_changes`: the set changes by name. -/
def emitSetChanges (diff : PlanDiff) (current : ParsedTable) (index : DesiredIndex) (family : String) :
    Except FermError (List ScriptLine) :=
  ((diff.setChanges.insertionSort fun a b => a.name ≤ b.name).mapM (emitSetChange current index family)).map
    List.flatten

/-- The lines of one desired chain: new, rebuilt, refilled, redeclared, or left alone. -/
def emitChain (diff : PlanDiff) (current : ParsedTable) (index : DesiredIndex) (family name : String) : List ScriptLine :=
  match index.chainDecl.get? name with
  | none => []
  | some decl =>
    let rules := (index.chainRules.get? name).getD []
    if name ∉ current.chains then decl :: rules
    else if name ∈ diff.chainRebuilds.map ChainRebuild.chain then
      deltaLine family (.deleteChain name) :: decl :: rules
    else if name ∈ diff.rulesAdded.map RuleChange.chain ∨ name ∈ diff.rulesRemoved.map RuleChange.chain then
      decl :: deltaLine family (.flushChain name) :: rules
    else if name ∈ diff.policyChanges.map PolicyChange.chain then [decl]
    else []

/-- `_emit_chain_changes`: every desired chain by name, then the chains that only the kernel has. -/
def emitChainChanges (diff : PlanDiff) (current : ParsedTable) (index : DesiredIndex) (family : String) :
    List ScriptLine :=
  (sortedNames index.chainDecl.keys).flatMap (emitChain diff current index family) ++
    (sortedNames (diff.desuetChains.map DesuetChain.chain)).map (fun name => deltaLine family (.deleteChain name)) ++
    (sortedNames (diff.foreignChains.map ForeignChain.chain)).map fun name => deltaLine family (.deleteChain name)

/-- `emit_delta_script`: nothing when nothing changed. -/
def emitDeltaScript (diff : PlanDiff) (current : Dict String ParsedTable) (index : DesiredIndex) (family : String) :
    Except FermError (List ScriptLine) :=
  if diff.hasChanges = false then .ok []
  else
    let table := tableOf current NFT_TABLE_NAME
    (emitSetChanges diff table index family).map fun sets =>
      deltaLine family .addTable :: (sets ++ emitChainChanges diff table index family)

/-- `build_nft_delta` over the parsed snapshot: no script when the family has to be reloaded. -/
def buildNftDelta (form : NftForm) (current : Dict String ParsedTable) (desiredSave : List ScriptLine) (family : String) :
    Except FermError (Option (List ScriptLine)) := do
  let desired ← parseNftScript form desiredSave
  let diff := diffTables current desired false
  if diff.setChanges.any fun sc => sc.kind = .remove then return none
  if diff.objectChanges ≠ [] then return none
  let index ← buildDesiredIndex desiredSave
  let script ← emitDeltaScript diff current index family
  return some script

end Ferm
