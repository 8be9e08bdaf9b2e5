import Ferm.Iptables.Save

/-!
# The slow command list

The commands of one family in slow mode: for every table the policies of its built-in chains are reset, the table is cleared, its
chains are made and get their policies, and its rules are appended.
-/

namespace Ferm

/-- One command about a table. -/
inductive TableCommand where
  | setPolicy (chain policy : String)
  | flush
  | deleteChains
  | newChain (chain : String) (policy : Option String)
  | append (chain text : String)
  deriving DecidableEq, Repr

/-- A command and its table. -/
structure SlowCommand where
  table : String
  command : TableCommand
  deriving DecidableEq, Repr

/-- The command line, with the tool's path. -/
def SlowCommand.text (tool : String) (c : SlowCommand) : String :=
  tool ++ " -t " ++ c.table ++
    match c.command with
    | .setPolicy chain policy => " -P " ++ chain ++ " " ++ policy
    | .flush => " -F"
    | .deleteChains => " -X"
    | .newChain chain none => " -N " ++ chain
    | .newChain chain (some policy) => " -N " ++ chain ++ " -P " ++ policy
    | .append chain text => " -A " ++ chain ++ text

/-- True for a chain whose policy the reset sets. -/
def isResetChain (table : String) (info : TableInfo) (chain : String) (chainInfo : ChainInfo) : Bool :=
  chainInfo.builtin || (!info.hasBuiltin && isNetfilterBuiltinChain table chain)

/-- The reset of the policies, and the clearing, of a table. -/
def resetCommands (table : String) (info : TableInfo) (noflush : Bool) : List TableCommand :=
  if noflush then []
  else
    (info.chains.entries.flatMap fun e =>
      if isResetChain table info e.1 e.2 then [.setPolicy e.1 "ACCEPT"] else []) ++ [.flush, .deleteChains]

/-- The command that makes a chain or sets its policy. -/
def createCommands (table chain : String) (info : ChainInfo) : List TableCommand :=
  if isNetfilterBuiltinChain table chain then
    match info.policy with
    | some policy => if policy ≠ "ACCEPT" then [.setPolicy chain policy] else []
    | none => []
  else [.newChain chain info.policy]

/-- The commands that append a chain's rules. -/
def appendCommands (domain : Family) (chain : String) (info : ChainInfo) : Except FermError (List TableCommand) := do
  let texts ← info.rules.mapM fun rule => formatRule domain rule false
  return texts.map (.append chain)

/-- The commands of one table. -/
def slowTableCommands (domain : Family) (options : IptablesOptions) (table : String) (info : TableInfo) :
    Except FermError (List TableCommand) := do
  let reset := resetCommands table info options.noflush
  if options.flush then return reset
  let rules ← info.chains.entries.mapM fun e => appendCommands domain e.1 e.2
  return reset ++ info.chains.entries.flatMap (fun e => createCommands table e.1 e.2) ++ rules.flatten

/-- `_render_slow` for a family other than the bridge family. -/
def renderSlow (domain : Family) (info : DomainInfo) (options : IptablesOptions) : Except FermError (List SlowCommand) := do
  let tables ← info.tables.entries.mapM fun e =>
    (slowTableCommands domain options e.1 e.2).map fun commands => commands.map (⟨e.1, ·⟩)
  return tables.flatten

end Ferm
