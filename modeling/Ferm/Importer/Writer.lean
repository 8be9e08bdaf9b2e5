import Mathlib.Data.List.Sort
import Ferm.Importer.Options

/-!
# Writing a configuration

The importer as it goes over the lines of a saved ruleset: it opens a domain, a table or a chain when a line asks for it, keeps the
rules of a chain and the policies of a table until they are due, and closes what it has opened.
-/

namespace Ferm.Importer

/-! ## What is written -/

/-- What opens a block. -/
inductive Header where
  | domain (name : String)
  | table (name : String)
  | chain (name : String)
  | rules (entries : List MatchEntry)
  deriving DecidableEq

/-- A line inside of blocks. -/
inductive Leaf where
  | chain (name : String)
  | chainPolicy (chain policy : String)
  | policy (policy : String)
  | rule (entries : List MatchEntry) (data : RuleData)

/-- One written line. -/
inductive Written where
  | comment (text : String)
  | opening (header : Header)
  | closing
  | leaf (leaf : Leaf)

/-- `stringify`. Where it is used here, a value is a text. -/
def stringify : Value → String
  | .scalar text => text
  | _ => ""

/-- `_ESCAPE_RE` finds none of these. -/
def isBareChar (c : Char) : Bool := isWordChar c || c = '-' || c = '.' || c = ':' || c = '/'

/-- `ferm_escape`. -/
def fermEscape (value : Value) : String :=
  let text := stringify value
  if text.toList.isEmpty || text.toList.any fun c => !isBareChar c then "'" ++ text ++ "'" else text

/-- The elements of an array in parentheses, unless there is only one. -/
def formatElements (values : List Value) : String :=
  match values with
  | [value] => fermEscape value
  | values => "(" ++ String.intercalate " " (values.map fermEscape) ++ ")"

/-- `format_array`. -/
def formatArray : Value → String
  | .multi values => formatElements values
  | .array values => formatElements values
  | value => fermEscape value

/-- The arguments of an option. -/
def formatArguments : Value → List String
  | .params values => values.map formatArray
  | .undef => []
  | value => [formatArray value]

/-- The name of an option with its arguments, a negation between them. -/
def formatNegated (key : String) : Value → List String
  | .negated value => key :: "!" :: formatArguments value
  | value => key :: formatArguments value

/-- `_flush_option`. -/
def flushOption (e : MatchEntry) : List String :=
  match e.value with
  | .preNegated value => "!" :: formatNegated e.name value
  | value => formatNegated e.name value

/-- What a rule does with a packet. -/
def targetTokens (defs : Defs) (d : RuleData) : List String :=
  match d.jump, d.goto with
  | some target, _ =>
    if CORE_TARGETS.contains target || (defs.targetDef target).isSome then [target] else flushOption ⟨"jump", .scalar target⟩
  | none, some target => flushOption ⟨"goto", .scalar target⟩
  | none, none => ["NOP"]

/-- The tokens of a header. -/
def Header.tokens : Header → List String
  | domain name => ["domain", name]
  | table name => ["table", name]
  | chain name => ["chain", name]
  | rules entries => entries.flatMap flushOption

/-- The tokens of a line inside of blocks. -/
def Leaf.tokens (defs : Defs) : Leaf → List String
  | chain name => ["chain " ++ name ++ ";"]
  | chainPolicy name value => ["chain", name, "policy", value, ";"]
  | policy value => ["policy", value, ";"]
  | rule entries d => entries.flatMap flushOption ++ targetTokens defs d ++ (d.target.getD []).flatMap flushOption ++ [";"]

/-- The arguments of `write_line`. -/
def Written.tokens (defs : Defs) : Written → List String
  | comment text => [text]
  | opening header => header.tokens ++ ["\x7b"]
  | closing => ["\x7d"]
  | leaf l => l.tokens defs

/-- The text of a line: a semicolon at the end follows the token before it. -/
def lineText (indent : Int) (tokens : List String) : String :=
  let (tokens, comma) := if tokens.getLast? = some ";" then (tokens.dropLast, ";") else (tokens, "")
  String.ofList (List.replicate indent.toNat ' ') ++ String.intercalate " " tokens ++ comma ++ "\n"

/-! ## The importer -/

/-- What the importer has written, line by line and as a text, and what it has open. -/
structure State where
  out : List Written := []
  text : String := ""
  indent : Int := 0
  table : Option String := none
  chain : Option String := none
  domain : Option String := none
  nextDomain : String
  rules : List Rule := []
  policies : Dict String String := Dict.empty
  lineno : Nat := 0

mutual

/-- The lines of a rule. -/
def Rule.written : Rule → List Written
  | .line entries d => [.leaf (.rule entries d)]
  | .block entries members => .opening (.rules entries) :: (writtenAll members ++ [.closing])

/-- The lines of rules. -/
def writtenAll : List Rule → List Written
  | [] => []
  | r :: rs => r.written ++ writtenAll rs

end

/-- A rule whose target is the empty text, which is refused. -/
def Written.refused : Written → Bool
  | leaf (.rule _ d) => d.jump = some ""
  | _ => false

section

variable (defs : Defs) (levels : Nat)

namespace State

/-- `write_line`. -/
def writeLine (i : State) (w : Written) : State :=
  let tokens := w.tokens defs
  let body := if tokens.getLast? = some ";" then tokens.dropLast else tokens
  let indent := if (body.head?.any fun token => startsWith token "\x7d") then i.indent - 4 else i.indent
  { i with
    out := i.out ++ [w]
    text := i.text ++ lineText indent tokens
    indent := if (body.getLast?.any fun token => token.toList.getLast? = some '\x7b') then indent + 4 else indent }

/-- `out.write` of a comment. -/
def writeComment (i : State) (comment : String) : State :=
  { i with out := i.out ++ [.comment comment], text := i.text ++ comment ++ "\n" }

/-- `flush`: the rules are written, down to `levels` of blocks optimized again. -/
def flush (i : State) : Except FermError State :=
  let lines := writtenAll (Ferm.Importer.flush levels i.rules)
  if lines.any Written.refused then .error (internalError "undefined or empty target")
  else .ok { lines.foldl (writeLine defs) i with rules := [] }

/-- `_flush_policies`, by the names of the chains. -/
def flushPolicies (i : State) : State :=
  let lines := (i.policies.entries.insertionSort fun e e' => e.1 ≤ e'.1).map fun e => Written.leaf (.chainPolicy e.1 e.2)
  { lines.foldl (writeLine defs) i with policies := Dict.empty }

/-- A closing brace where there is something to close. -/
def closeIf (i : State) (isOpen : Bool) : State := if isOpen then i.writeLine defs .closing else i

/-- `_flush_domain`. -/
def flushDomain (i : State) : Except FermError State := do
  let i ← i.flush defs levels
  let i := i.closeIf defs i.chain.isSome
  let i := i.closeIf defs i.table.isSome
  let i := i.closeIf defs i.domain.isSome
  return { i with chain := none, table := none, domain := none }

/-- `_handle_table`. -/
def handleTable (i : State) (name : String) : Except FermError State := do
  let i := if i.policies.entries.isEmpty then i else i.flushPolicies defs
  let i ←
    if i.domain = some i.nextDomain then pure i
    else do
      let i ← i.flushDomain defs levels
      pure ({ i with domain := some i.nextDomain }.writeLine defs (.opening (.domain i.nextDomain)))
  let i := i.closeIf defs i.table.isSome
  return { i with table := some name }.writeLine defs (.opening (.table name))

/-- The block of a rule's chain: the chain that is open, or a new one. -/
def openChain (i : State) (chain : String) : Except FermError State := do
  match i.chain with
  | none =>
    let i ← i.flush defs levels
    return { i with chain := some chain }.writeLine defs (.opening (.chain chain))
  | some current =>
    if chain = current then return i
    else
      let i ← i.flush defs levels
      let i := i.writeLine defs .closing
      return { i with chain := some chain }.writeLine defs (.opening (.chain chain))

/-- The policy of a chain, once its block is open. -/
def writePolicy (i : State) (chain : String) : State :=
  match i.policies.get? chain with
  | some policy => { i.writeLine defs (.leaf (.policy policy)) with policies := i.policies.erase chain }
  | none => i

/-- `_handle_rule`. -/
def handleRule (i : State) (chain rest : String) : Except FermError State := do
  let i ← i.openChain defs levels chain
  let i := i.writePolicy defs chain
  let r ← parseRule defs i.lineno rest
  return { i with rules := i.rules ++ [.line r.entries r.data] }

/-- `_process_line`, of what the line says. -/
def processLine (i : State) (line : SaveLine) : Except FermError State :=
  match line with
  | .comment saveTool => .ok { i with nextDomain := saveTool.getD i.nextDomain }
  | .table name => i.handleTable defs levels name
  | .chain name => if i.table.isNone then .error (parseError i.lineno) else .ok (i.writeLine defs (.leaf (.chain name)))
  | .policy chain policy =>
    if i.table.isNone then .error (parseError i.lineno) else .ok { i with policies := i.policies.set chain policy }
  | .rule chain rest => i.handleRule defs levels chain rest
  | .commit => do
    let i ← i.flush defs levels
    return if i.chain.isSome then { i.writeLine defs .closing with chain := none } else i
  | .other => .ok i

/-- A line of the input. -/
def readLine (i : State) (raw : String) : Except FermError State :=
  { i with lineno := i.lineno + 1 }.processLine defs levels (classifyLine raw)

/-- What is done at the end of the input. -/
def finish (i : State) : Except FermError State := do
  let i := if i.policies.entries.isEmpty then i else i.flushPolicies defs
  let i ← if i.domain.isSome then i.flushDomain defs levels else pure i
  if i.indent ≠ 0 then throw (internalError "unbalanced indentation") else return i

/-- The importer before the first line. -/
def start (domain : String) : State :=
  (({ nextDomain := domain } : State).writeComment "# ferm rules generated by import-ferm").writeComment
    "# http://ferm.foo-projects.org/"

/-- `Importer.run`. -/
def run (domain : String) (lines : List String) : Except FermError State := do
  let i ← lines.foldlM (readLine defs levels) (start domain)
  i.finish defs levels

end State

end

end Ferm.Importer
