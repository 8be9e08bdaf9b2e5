import Ferm.Nft.Model

/-!
# Lines of an nft script

What the renderer writes and the delta emitter writes, one command a line, each for a family and a table.
-/

namespace Ferm

/-- The header of a base chain between its braces: the words of the declaration, and the policy when the line carries one. -/
structure ChainHeader where
  decl : List String
  policy : Option String := none
  deriving DecidableEq, Repr

/-- The words of a header, without semicolons. -/
def ChainHeader.words (h : ChainHeader) : List String :=
  h.decl ++ match h.policy with
    | some policy => ["policy", policy]
    | none => []

/-- The command of a script line, after the family and the table. -/
inductive Command where
  | addTable
  | flushTable
  | deleteTable
  | addChain (name : String) (header : Option ChainHeader)
  | flushChain (name : String)
  | deleteChain (name : String)
  | addRule (chain body : String)
  | addSet (name : String) (statements : List (List String))
  | addElement (set : String) (elements : List String)
  | deleteElement (set : String) (elements : List String)
  | addObject (kind name body : String)
  deriving DecidableEq, Repr

/-- One line of a script. -/
structure ScriptLine where
  family : String
  table : String
  command : Command
  deriving DecidableEq, Repr

/-- The statements between braces, each closed by a semicolon. -/
def braceText (statements : List (List String)) : String :=
  "\x7b " ++ String.intercalate " " (statements.map fun words => String.intercalate " " words ++ ";") ++ " \x7d"

/-- The statements of a chain header. -/
def ChainHeader.statements (h : ChainHeader) : List (List String) :=
  h.decl :: match h.policy with
    | some policy => [["policy", policy]]
    | none => []

/-- The text of a line. -/
def ScriptLine.toText (l : ScriptLine) : String :=
  let head (verb : String) : String := verb ++ " " ++ l.family ++ " " ++ l.table
  match l.command with
  | .addTable => head "add table"
  | .flushTable => head "flush table"
  | .deleteTable => head "delete table"
  | .addChain name none => head "add chain" ++ " " ++ name
  | .addChain name (some header) => head "add chain" ++ " " ++ name ++ " " ++ braceText header.statements
  | .flushChain name => head "flush chain" ++ " " ++ name
  | .deleteChain name => head "delete chain" ++ " " ++ name
  | .addRule chain body => head "add rule" ++ " " ++ chain ++ (if body = "" then "" else " " ++ body)
  | .addSet name statements => head "add set" ++ " " ++ name ++ " " ++ braceText statements
  | .addElement set elements => head "add element" ++ " " ++ set ++ " " ++ setBody elements
  | .deleteElement set elements => head "delete element" ++ " " ++ set ++ " " ++ setBody elements
  | .addObject kind name body => head ("add " ++ kind) ++ " " ++ name ++ " \x7b " ++ body ++ " \x7d"

/-- The cell of the kernel's table a command works on. -/
inductive Target where
  | table
  | chain (name : String)
  | set (name : String)
  | object (name : String)
  deriving DecidableEq, Repr

/-- What a command works on. -/
def Command.target : Command → Target
  | addTable => .table
  | flushTable => .table
  | deleteTable => .table
  | addChain name _ => .chain name
  | flushChain name => .chain name
  | deleteChain name => .chain name
  | addRule chain _ => .chain chain
  | addSet name _ => .set name
  | addElement set _ => .set set
  | deleteElement set _ => .set set
  | addObject _ name _ => .object name

end Ferm
