import Ferm.Lib.Lines
import Ferm.Plan.Model

/-!
# Reading a save

`parse_save`: one family's save text, line by line. Every line is blank, a comment, or one of a table's header, a chain, a rule and a
commit; anything else is an error. A rule is kept in canonical form.
-/

namespace Ferm

/-! ## Rules -/

/-- How far `shlex` is in a token: between tokens, in a plain one, or in one that began with a quote. -/
inductive ShlexState where
  | blank
  | word (token : List Char)
  | quoted (quote : Char) (token : List Char)

/-- `shlex.split(text, posix=False)`; nothing when a quote is not closed. A quote ends a token only where it began one. -/
def shlexSplit : ShlexState → List Char → Option (List (List Char))
  | .blank, [] => some []
  | .word token, [] => some [token]
  | .quoted _ _, [] => none
  | .blank, c :: cs =>
    if [' ', '\t', '\r', '\n'].contains c then shlexSplit .blank cs
    else if c = '"' ∨ c = '\'' then shlexSplit (.quoted c [c]) cs
    else shlexSplit (.word [c]) cs
  | .word token, c :: cs =>
    if [' ', '\t', '\r', '\n'].contains c then (shlexSplit .blank cs).map (token :: ·)
    else shlexSplit (.word (token ++ [c])) cs
  | .quoted quote token, c :: cs =>
    if c = quote then (shlexSplit .blank cs).map ((token ++ [c]) :: ·)
    else shlexSplit (.quoted quote (token ++ [c])) cs

/-- `_tokenize_rule`. -/
def tokenizeRule (body : List Char) : List String :=
  ((shlexSplit .blank body).getD (pyWords body)).map String.ofList

/-- Options and their short forms. -/
def OPTION_ALIASES : List (String × String) :=
  [("--protocol", "-p"), ("--source", "-s"), ("--destination", "-d"), ("--match", "-m"), ("--jump", "-j"), ("--goto", "-g"),
    ("--in-interface", "-i"), ("--out-interface", "-o"), ("--fragment", "-f"), ("--destination-ports", "--dports"),
    ("--source-ports", "--sports")]

/-- Matches that a protocol implies. -/
def IMPLIED_MATCHES : List String := ["tcp", "udp", "icmp", "icmpv6"]

/-- `_proto_of`. -/
def protoOf : List String → Option String
  | token :: next :: rest => if token = "-p" then some next else protoOf (next :: rest)
  | _ => none

/-- `_strip_host_mask`. -/
def stripHostMask (operand hostMask : String) : String :=
  if hostMask.toList.isSuffixOf operand.toList then String.ofList (operand.toList.take (operand.length - hostMask.length))
  else operand

/-- The loop of `_canonicalize_rule`, with the modules it has seen. -/
def canonicalizeTokens (hostMask : String) (proto : Option String) : List String → List String → List String
  | seen, token :: next :: rest =>
    if token = "-m" then
      if (IMPLIED_MATCHES.contains next ∧ proto = some next) ∨ next ∈ seen then canonicalizeTokens hostMask proto seen rest
      else token :: next :: canonicalizeTokens hostMask proto (next :: seen) rest
    else if token = "-s" ∨ token = "-d" then
      token :: stripHostMask next hostMask :: canonicalizeTokens hostMask proto seen rest
    else token :: canonicalizeTokens hostMask proto seen (next :: rest)
  | _, tokens => tokens

/-- `_canonicalize_rule`. -/
def canonicalizeRule (hostMask : String) (body : List Char) : String :=
  let tokens := tokenizeRule body
  let tokens := if tokens.head? = some "-c" ∧ 3 ≤ tokens.length then tokens.drop 3 else tokens
  let tokens := tokens.map fun token => (OPTION_ALIASES.lookup token).getD token
  String.intercalate " " (canonicalizeTokens hostMask (protoOf tokens) [] tokens)

/-! ## Lines -/

/-- What one line of a save is. -/
inductive SaveProduction where
  | skipped
  | table (name : String)
  | commit
  | chain (name policy : String)
  | rule (chain : String) (body : List Char)
  deriving DecidableEq, Repr

/-- What a line is; nothing for one that is malformed wherever it stands. -/
def readSaveLine (raw : List Char) : Option SaveProduction :=
  let line := pyStrip raw
  if line = [] ∨ line.head? = some '#' then some .skipped
  else if line.head? = some '*' then
    let name := line.tail
    if name = [] ∨ ' ' ∈ name then none else some (.table (String.ofList name))
  else if line = "COMMIT".toList then some .commit
  else if line.head? = some ':' then
    match pyWords line.tail with
    | [chain, policy] => some (.chain (String.ofList chain) (String.ofList policy))
    | [chain, policy, _] => some (.chain (String.ofList chain) (String.ofList policy))
    | _ => none
  else if "-A ".toList.isPrefixOf line then
    let body := line.drop 3
    let chain := body.takeWhile (· ≠ ' ')
    if chain = [] then none else some (.rule (String.ofList chain) (body.drop (chain.length + 1)))
  else none

/-- The tables read so far, and the one whose lines are read. -/
structure SaveState where
  tables : Dict String ParsedTable := Dict.empty
  current : Option String := none
  deriving DecidableEq

/-- What a chain's line and a rule's line do to the chains of their table; nothing for a rule of a chain that is not there. -/
def SaveProduction.onChains (hostMask : String) : SaveProduction → Dict String ParsedChain → Option (Dict String ParsedChain)
  | chain name policy, chains => some (chains.set name ⟨[policy], []⟩)
  | rule name body, chains =>
    (chains.get? name).map fun c => chains.set name (c.addRule (canonicalizeRule hostMask body))
  | _, chains => some chains

/-- Work on the chains of the table whose lines are read. -/
def SaveState.onChains (s : SaveState) (f : Dict String ParsedChain → Option (Dict String ParsedChain)) : Option SaveState :=
  s.current.bind fun table =>
    let t := (s.tables.get? table).getD {}
    (f t.chains).map fun chains => { s with tables := s.tables.set table { t with chains } }

/-- What a line does; nothing where it must not stand. -/
def SaveProduction.run (hostMask : String) : SaveProduction → SaveState → Option SaveState
  | skipped, s => some s
  | table name, s =>
    if s.current.isSome ∨ name ∈ s.tables then none else some { tables := s.tables.set name {}, current := some name }
  | commit, s => s.current.map fun _ => { s with current := none }
  | chain name policy, s => s.onChains (onChains hostMask (chain name policy))
  | rule name body, s => s.onChains (onChains hostMask (rule name body))

/-- A character that can be printed, of Latin-1. -/
def isPrintable (c : Char) : Bool := (0x20 ≤ c.toNat && c.toNat ≤ 0x7e) || (0xa1 ≤ c.toNat && c.toNat ≠ 0xad)

/-- `_parse_error`. -/
def saveParseError (lineno : Nat) (line : List Char) : FermError :=
  ⟨"cannot parse save line " ++ toString lineno ++ ": " ++
    pyRepr (String.ofList (((line.rdropWhile (· = '\n')).take 80).filter isPrintable))⟩

/-- Read one line. -/
def parseSaveLine (hostMask : String) (lineno : Nat) (raw : List Char) (s : SaveState) : Except FermError SaveState :=
  match (readSaveLine raw).bind fun p => p.run hostMask s with
  | some s => .ok s
  | none => .error (saveParseError lineno raw)

/-- The lines from number `lineno` on. -/
def parseSaveLines (hostMask : String) : Nat → List (List Char) → SaveState → Except FermError SaveState
  | _, [], s => .ok s
  | lineno, line :: lines, s => (parseSaveLine hostMask lineno line s).bind (parseSaveLines hostMask (lineno + 1) lines)

/-- `parse_save`. -/
def parseSave (hostMask : String) (text : List Char) : Except FermError (Dict String ParsedTable) := do
  let lines := splitLines text
  let s ← parseSaveLines hostMask 1 lines {}
  if s.current.isSome then .error (saveParseError lines.length "<EOF: missing COMMIT>".toList) else .ok s.tables

example : canonicalizeRule "/32" "-m tcp --protocol tcp --source 10.0.0.1/32 -m comment --comment \"a b\" --jump ACCEPT".toList =
    "-p tcp -s 10.0.0.1 -m comment --comment \"a b\" -j ACCEPT" := by decide +kernel

end Ferm
