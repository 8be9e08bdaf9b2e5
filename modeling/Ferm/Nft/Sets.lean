import Ferm.Lib.Dict
import Ferm.Nft.Script

/-!
# Declarations and the serialized table

The declarations a family's rules imply, and the script one table is written as: the table, every declaration by name, every
chain, every rule.
-/

namespace Ferm

/-- The element type of a static named set. -/
inductive NftSetType where
  | inetService
  | ipv4Addr
  | ipv6Addr
  | ifname
  deriving DecidableEq, Repr

/-- nft's keyword for a set type. -/
def NftSetType.word : NftSetType → String
  | inetService => "inet_service"
  | ipv4Addr => "ipv4_addr"
  | ipv6Addr => "ipv6_addr"
  | ifname => "ifname"

/-- The declaration of a static set: its type and its ordered, validated elements. -/
structure SetDecl where
  type_ : NftSetType
  flagsInterval : Bool
  elements : List String
  deriving DecidableEq, Repr

/-- The declaration of a dynamic set, with what two sightings of one name are compared by. -/
structure DynSetDecl where
  type_ : String
  keyExpr : String
  timeout : Option String
  limit : Option String
  owned : Bool := true
  deriving DecidableEq, Repr

/-- The declaration of a table object. -/
structure ObjectDecl where
  kind : String
  body : String
  deriving DecidableEq, Repr

/-- One declaration of a family. -/
inductive Decl where
  | static (d : SetDecl)
  | dyn (d : DynSetDecl)
  | object (d : ObjectDecl)
  deriving DecidableEq, Repr

/-- The size the kernel gives a dynamic set. -/
def DYN_SET_SIZE : String := "65535"

/-- The statements of a set declaration. -/
def Decl.statements : Decl → List (List String)
  | static d => ["type", d.type_.word] :: if d.flagsInterval then [["flags", "interval"]] else []
  | dyn d =>
    [["type"] ++ words d.type_, ["size", DYN_SET_SIZE],
      ["flags", if d.timeout.isSome then "dynamic,timeout" else "dynamic"]]
  | object _ => []

/-- The elements a declaration is written with. -/
def Decl.elements : Decl → List String
  | static d => d.elements
  | dyn _ => []
  | object _ => []

/-- The lines of one declaration. -/
def declCommands (name : String) (decl : Decl) : List Command :=
  match decl with
  | .object d => [.addObject d.kind name d.body]
  | .dyn _ => [.addSet name decl.statements]
  | .static d => .addSet name decl.statements :: if d.elements = [] then [] else [.addElement name d.elements]

/-- `_chain_header`: nothing for a user chain. -/
def chainHeader : NftChain → Option ChainHeader
  | .base c =>
    some
      { decl := ["type", c.type.word, "hook", c.hook.word, "priority", toString c.priority]
        policy := c.policy }
  | .regular _ => none

/-- `sorted` on names. -/
def sortedNames (names : List String) : List String := names.insertionSort (· ≤ ·)

/-- A table of a family. -/
structure NftTable where
  family : String
  name : String
  deriving DecidableEq, Repr

/-- The lines of one chain's rules. -/
def ruleCommands (chain : String) (rules : List NftRule) : Except FermError (List Command) :=
  rules.mapM fun rule => (rule.toText).map fun text => .addRule chain text

/-- The envelope of a table: it is flushed unless `--noflush` keeps it. -/
def envelopeCommands (noflush : Bool) : List Command := .addTable :: if noflush then [] else [.flushTable]

/-- The declarations by sorted name. -/
def declarationCommands (decls : Dict String Decl) : List Command :=
  (sortedNames decls.keys).flatMap fun name =>
    match decls.get? name with
    | some decl => declCommands name decl
    | none => []

/-- The commands of a table: the envelope, the declarations, the chains, the rules of each chain. -/
def tableCommands (chains : List NftChain) (rules : Dict String (List NftRule)) (decls : Dict String Decl) (noflush : Bool) :
    Except FermError (List Command) := do
  let chainLines := chains.map fun chain => Command.addChain chain.name (chainHeader chain)
  let ruleLines ← chains.mapM fun chain => ruleCommands chain.name ((rules.get? chain.name).getD [])
  pure (envelopeCommands noflush ++ declarationCommands decls ++ chainLines ++ ruleLines.flatten)

/-- `serialize_table`. -/
def serializeTable (table : NftTable) (chains : List NftChain) (rules : Dict String (List NftRule))
    (decls : Dict String Decl) (noflush : Bool) : Except FermError (List ScriptLine) :=
  (tableCommands chains rules decls noflush).map fun commands =>
    commands.map fun command => ⟨table.family, table.name, command⟩

theorem sortedNames_perm (names : List String) : (sortedNames names).Perm names := List.perm_insertionSort ..

@[simp] theorem mem_sortedNames {name : String} {names : List String} : name ∈ sortedNames names ↔ name ∈ names :=
  (sortedNames_perm names).mem_iff

theorem nodup_sortedNames {names : List String} (h : names.Nodup) : (sortedNames names).Nodup :=
  (sortedNames_perm names).nodup_iff.2 h

end Ferm
