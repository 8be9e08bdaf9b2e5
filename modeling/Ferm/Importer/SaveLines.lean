import Ferm.Importer.Optimize
import Ferm.Iptables.Format
import Ferm.Lib.Text

/-!
# Reading a saved ruleset

What one line of a saved ruleset says, the tokens of a rule, and the options they are read as.
-/

namespace Ferm.Importer

/-! ## Lines -/

/-- `\w` in ASCII. -/
def isWordChar (c : Char) : Bool := c.isAlphanum || c = '_'

/-- `\S`. -/
def isNonSpace (c : Char) : Bool := !isAsciiSpace c

/-- What is left of the text behind `head`. -/
def stripHead (head : String) (text : List Char) : Option (List Char) :=
  if head.toList.isPrefixOf text then some (text.drop head.toList.length) else none

/-- A word of the pattern's class and the text behind it; none if it is empty. -/
def takeWord (p : Char → Bool) (text : List Char) : Option (List Char × List Char) :=
  match text.takeWhile p with
  | [] => none
  | word => some (word, text.dropWhile p)

/-- `\s+`. -/
def skipSpace (text : List Char) : Option (List Char) := (takeWord isAsciiSpace text).map Prod.snd

/-- The family whose save tool is named here, behind the character `before`. -/
def saveToolAt (before : Char) (text : List Char) : Option String :=
  if isWordChar before then none
  else
    ["ip", "ip6"].find? fun family =>
      match stripHead (family ++ "tables-save") text with
      | some rest => !(rest.head?.any isWordChar)
      | none => false

/-- `_SAVE_HEADER_RE`: the family of the last save tool that is named. -/
def lastSaveTool : Char → List Char → Option String
  | _, [] => none
  | before, c :: cs => (lastSaveTool c cs).or (saveToolAt before (c :: cs))

/-- A line of a saved ruleset. -/
inductive SaveLine where
  | comment (saveTool : Option String)
  | table (name : String)
  | chain (name : String)
  | policy (chain policy : String)
  | rule (chain rest : String)
  | commit
  | other
  deriving DecidableEq, Repr

/-- `_CHAIN_DECL_RE`. -/
def chainLine (line : List Char) : Option SaveLine := do
  let (name, rest) ← takeWord isNonSpace (← stripHead ":" line)
  let _ ← skipSpace (← stripHead "-" (← skipSpace rest))
  return .chain (String.ofList name)

/-- `_POLICY_RE`. -/
def policyLine (line : List Char) : Option SaveLine := do
  let (name, rest) ← takeWord isNonSpace (← stripHead ":" line)
  let (policy, rest) ← takeWord isWordChar (← skipSpace rest)
  let _ ← skipSpace rest
  return .policy (String.ofList name) (String.ofList policy)

/-- `_RULE_RE`, and the rest of the line. -/
def ruleLine (line : List Char) : Option SaveLine := do
  let (chain, rest) ← takeWord isNonSpace (← stripHead "-A " line)
  return .rule (String.ofList chain) (String.ofList (← skipSpace rest))

/-- `_TABLE_RE`. -/
def tableLine (line : List Char) : Option SaveLine := do
  let name ← stripHead "*" line
  if !name.isEmpty && name.all isWordChar then some (.table (String.ofList name)) else none

/-- `_COMMENT_RE`, and the save tool that the comment names. -/
def commentLine : List Char → Option SaveLine
  | [] => some (.comment none)
  | c :: cs => if c = '#' ∧ '\n' ∉ cs then some (.comment (lastSaveTool c cs)) else none

/-- `raw.rstrip("\r\n")`. -/
def stripLineEnd (raw : String) : List Char := (raw.toList.reverse.dropWhile fun c => c = '\r' ∨ c = '\n').reverse

/-- What a line says: the patterns of `_process_line` in order. -/
def classifyLine (raw : String) : SaveLine :=
  let line := stripLineEnd raw
  ((commentLine line).or <| (tableLine line).or <| (chainLine line).or <| (policyLine line).or <| (ruleLine line).or <|
    if (stripHead "COMMIT" line).isSome then some .commit else none).getD .other

example : classifyLine "# Generated by ip6tables-save v1.8.9 on Mon" = .comment (some "ip6") := by decide +kernel
example : classifyLine ":INPUT DROP [0:0]\n" = .policy "INPUT" "DROP" := by decide +kernel
example : classifyLine "-A INPUT -j ACCEPT" = .rule "INPUT" "-j ACCEPT" := by decide +kernel

/-! ## Tokens -/

/-- The first token and the text behind it: a text in double quotes, a `!`, or a word. -/
def nextToken (text : List Char) : Option (String × List Char) :=
  let rest := text.dropWhile isAsciiSpace
  let word : Option (String × List Char) := (takeWord isNonSpace rest).map fun w => (String.ofList w.1, w.2)
  match rest with
  | '"' :: cs => ((partitionAt '"' cs).map fun w => (String.ofList w.1, w.2)).or word
  | '!' :: cs => some ("!", cs)
  | _ => word

/-- The tokens of a text, with a bound on their number. -/
def tokensWithin : Nat → List Char → List String
  | 0, _ => []
  | n + 1, text =>
    match nextToken text with
    | some (token, rest) => token :: tokensWithin n rest
    | none => []

/-- `_tokenize`: every token takes a character. -/
def tokenize (text : String) : List String := tokensWithin text.toList.length text.toList

/-- The body of a token that may end in a line break. -/
def withoutLineBreak (token : List Char) : List Char := if token.getLast? = some '\n' then token.dropLast else token

/-- `_match_option`: the name of an option. -/
def matchOption (token : String) : Option String :=
  match withoutLineBreak token.toList with
  | ['-', c] => if isWordChar c then some (String.ofList [c]) else none
  | '-' :: '-' :: name => if !name.isEmpty && name.all isNonSpace then some (String.ofList name) else none
  | _ => none

example : tokenize "-m comment --comment \"a ! b\" ! -s 10.0.0.1" =
    ["-m", "comment", "--comment", "a ! b", "!", "-s", "10.0.0.1"] := by decide +kernel

end Ferm.Importer
