import Ferm.Iptables.Slow
import Ferm.Lib.KeyedRun

/-!
# The kernel's tables

What the commands `-P`, `-F`, `-X`, `-N` and `-A` of iptables do to a table, and what `iptables-restore` makes of a save, with and
without `--noflush`. How a rule's text is read is a parameter: it may depend on the chains that are there, since a rule can jump
to one.
-/

namespace Ferm

/-- How the text of a rule is read: from a command line by the shell and iptables, and from a line of a save by
`iptables-restore`. Nothing is read from a text that is refused, or that is not one line of the save. -/
structure RuleReader (ρ : Type) where
  command : (String → Bool) → String → Option ρ
  save : (String → Bool) → String → Option ρ

/-- A chain of the kernel: a built-in chain has a policy, a user chain has none. -/
structure LiveChain (ρ : Type) where
  policy : Option String
  rules : List ρ
  deriving DecidableEq, Repr

/-- The chains of a table of the kernel. -/
abbrev LiveTable (ρ : Type) : Type := Dict String (LiveChain ρ)

/-- The tables of the kernel; nothing for a table it does not know. -/
abbrev LiveTables (ρ : Type) : Type := String → Option (LiveTable ρ)

/-- The policies a built-in chain can have. -/
def LIVE_POLICIES : List String := ["ACCEPT", "DROP"]

variable {ρ : Type}

namespace LiveChain

/-- The chain without its rules. -/
def flushed (c : LiveChain ρ) : LiveChain ρ := { c with rules := [] }

/-- The chain with more rules. -/
def addRules (c : LiveChain ρ) (rules : List ρ) : LiveChain ρ := { c with rules := c.rules ++ rules }

/-- `-P`: only a built-in chain can get a policy. -/
def withPolicy (policy : String) : Option (LiveChain ρ) → Option (LiveChain ρ)
  | some c => if c.policy.isSome ∧ policy ∈ LIVE_POLICIES then some { c with policy := some policy } else none
  | none => none

/-- `-N`: a chain that is not there is made, and without a policy. -/
def make (policy : Option String) (c : Option (LiveChain ρ)) : Option (LiveChain ρ) :=
  if policy.isSome ∨ c.isSome then none else some ⟨none, []⟩

/-- A chain's line in a save. A policy `-` leaves a built-in chain as it is; a user chain is there and empty afterwards, and
cannot get a policy. -/
def declare (policy : String) : Option (LiveChain ρ) → Option (LiveChain ρ)
  | some ⟨some q, rules⟩ => if policy = "-" then some ⟨some q, rules⟩ else withPolicy policy (some ⟨some q, rules⟩)
  | some ⟨none, _⟩ => if policy = "-" then some ⟨none, []⟩ else none
  | none => if policy = "-" then some ⟨none, []⟩ else none

end LiveChain

namespace LiveTable

/-- The names of the chains. -/
def has (t : LiveTable ρ) (name : String) : Bool := decide (name ∈ t)

/-- `-F`. -/
def flush (t : LiveTable ρ) : LiveTable ρ := t.mapValues LiveChain.flushed

/-- The table without its user chains. -/
def builtinOnly (t : LiveTable ρ) : LiveTable ρ := t.filterValues fun c => c.policy.isSome

/-- Work on one chain, which is there afterwards. -/
def onChain (f : Option (LiveChain ρ) → Option (LiveChain ρ)) (name : String) (t : LiveTable ρ) : Option (LiveTable ρ) :=
  (f (t.get? name)).map (t.set name)

/-- A rule that is read is appended to its chain. -/
def appendRule (read : (String → Bool) → String → Option ρ) (chain text : String) (t : LiveTable ρ) : Option (LiveTable ρ) :=
  t.onChain (fun c => c.bind fun c => (read t.has text).map fun rule => c.addRules [rule]) chain

end LiveTable

/-! ## Commands -/

/-- Run one command. The user chains can be deleted when they are empty. -/
def TableCommand.run (reader : RuleReader ρ) : TableCommand → LiveTable ρ → Option (LiveTable ρ)
  | setPolicy chain policy, t => t.onChain (LiveChain.withPolicy policy) chain
  | flush, t => some t.flush
  | deleteChains, t => if t.entries.all fun e => e.2.policy.isSome || e.2.rules.isEmpty then some t.builtinOnly else none
  | newChain chain policy, t => t.onChain (LiveChain.make policy) chain
  | append chain text, t => t.appendRule reader.command chain text

/-- Work on one table; a table the kernel does not know cannot be worked on. -/
def onTable (f : LiveTable ρ → Option (LiveTable ρ)) (name : String) (k : LiveTables ρ) : Option (LiveTables ρ) :=
  ((k name).bind f).map fun t name' => if name' = name then some t else k name'

/-- Run one command of the list; the list ends with the first one that fails. -/
def SlowCommand.step (reader : RuleReader ρ) (c : SlowCommand) (k : LiveTables ρ) : Option (LiveTables ρ) :=
  onTable (c.command.run reader) c.table k

/-! ## Restoring -/

/-- Read one entry of a table's section. Lines that are copied from an earlier save are not read here. -/
def SaveEntry.read (reader : RuleReader ρ) : SaveEntry → LiveTable ρ → Option (LiveTable ρ)
  | chain name policy, t => t.onChain (LiveChain.declare policy) name
  | rule name text, t => t.appendRule reader.save name text
  | comment _, t => some t
  | commit, t => some t
  | table _, _ => none
  | saved _, _ => none

/-- What the header of a section does: without `--noflush` the table is emptied and its user chains are deleted. -/
def enterTable (noflush : Bool) (t : LiveTable ρ) : LiveTable ρ := if noflush then t else t.flush.builtinOnly

/-- Restore the entries from the current table on. -/
def restoreEntry (reader : RuleReader ρ) (noflush : Bool) (entry : SaveEntry) (s : Option String × LiveTables ρ) :
    Option (Option String × LiveTables ρ) :=
  match entry, s.1 with
  | .comment _, _ => some s
  | .table name, none => (onTable (fun t => some (enterTable noflush t)) name s.2).map fun k => (some name, k)
  | .commit, some _ => some (none, s.2)
  | entry, some name => (onTable (entry.read reader) name s.2).map fun k => (some name, k)
  | _, none => none

/-- `iptables-restore` of a save. -/
def restoreSave (reader : RuleReader ρ) (noflush : Bool) (entries : List SaveEntry) (k : LiveTables ρ) :
    Option (LiveTables ρ) :=
  (runScript (restoreEntry reader noflush) entries (none, k)).map Prod.snd

end Ferm
