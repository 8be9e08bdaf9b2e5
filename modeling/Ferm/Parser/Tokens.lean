import Ferm.Iptables.Model
import Ferm.Lib.Text

/-!
# Tokens

The tokens of a configuration, and how its text is split into them.
-/

namespace Ferm

/-- A token: a word, the number of the line that begins, or a value that is evaluated late. -/
inductive Token where
  | word (text : String)
  | line (number : Nat)
  | deferred (value : Value)

/-- `[-+\w/.:]`. -/
def isTokenWordChar (c : Char) : Bool := c.isAlphanum || "_-+/.:".toList.contains c

/-- `\w`. -/
def isNameChar (c : Char) : Bool := c.isAlphanum || c = '_'

/-- `_TOKEN_RE.findall` up to the first comment: quoted texts that end on their line, single special characters, runs of word
characters, and names behind an at sign. Other characters are left out. -/
def tokenizeFrom : Nat → List Char → List (List Char)
  | 0, _ => []
  | _ + 1, [] => []
  | fuel + 1, c :: cs =>
    if c = '"' ∨ c = '\'' ∨ c = Char.ofNat 0x60 then
      let body := cs.takeWhile fun d => d ≠ c && d ≠ '\n'
      if (cs.drop body.length).head? = some c then (c :: body ++ [c]) :: tokenizeFrom fuel (cs.drop (body.length + 1))
      else tokenizeFrom fuel cs
    else if "!,=&$%()\x7b\x7d;".toList.contains c then [c] :: tokenizeFrom fuel cs
    else if isTokenWordChar c then
      (c :: cs.takeWhile isTokenWordChar) :: tokenizeFrom fuel (cs.dropWhile isTokenWordChar)
    else if c = '@' then
      let name := cs.takeWhile isNameChar
      if name = [] then tokenizeFrom fuel cs else (c :: name) :: tokenizeFrom fuel (cs.drop name.length)
    else if c = '#' then []
    else tokenizeFrom fuel cs

/-- `tokenize_string`. -/
def tokenizeString (line : List Char) : List Token :=
  (tokenizeFrom (line.length + 1) line).map fun word => .word (String.ofList word)

/-- `readline` until the end: lines with their line feeds, the last one perhaps without. -/
def readLines (config : List Char) : List (List Char) :=
  let lines := config.splitOn '\n'
  lines.dropLast.map (· ++ ['\n']) ++ (lines.getLast?.filter fun line => !line.isEmpty).toList

/-- The tokens of a configuration that are read without acting on line numbers: every line begins with the number 1. -/
def rawTokens (config : String) : List Token :=
  (readLines config.toList).flatMap fun line => .line 1 :: tokenizeString line

end Ferm
