import Ferm.Parser.Evaluator
import Ferm.Plan.ScriptText

/-!
# The text of a listing

`parse_nft_list` as it reads the output of `nft list table`: element lists that are wrapped are joined, then every line is read in
the block it stands in. Only lines open and close blocks, so a brace inside a line is part of it.
-/

namespace Ferm

/-! ## The joiner -/

/-- `line.lstrip().startswith("elements")`. -/
def startsElements (line : List Char) : Bool := "elements".toList.isPrefixOf (line.dropWhile isPySpace)

/-- The lines with every open list of elements on one line; `buf` is the list that is open. -/
def joinElementLines : Option (List Char) → List (List Char) → List (List Char)
  | none, [] => []
  | some buf, [] => [buf]
  | some buf, line :: lines =>
    let buf := buf ++ ' ' :: pyStrip line
    if '\x7d' ∈ line then buf :: joinElementLines none lines else joinElementLines (some buf) lines
  | none, line :: lines =>
    if startsElements line ∧ '\x7d' ∉ line then joinElementLines (some (pyRstrip line)) lines
    else line :: joinElementLines none lines

/-- `_join_multiline_elements`. -/
def joinMultilineElements (text : List Char) : List Char :=
  List.intercalate ['\n'] (joinElementLines none (splitLines text)) ++ if text.getLast? = some '\n' then ['\n'] else []

/-! ## The openers of blocks -/

/-- The name before an opening brace, which may touch it. -/
def openedName : List (List Char) → Option (List Char)
  | [name, ['\x7b']] => some name
  | [word] => if word.getLast? = some '\x7b' ∧ word.length ≠ 1 then some word.dropLast else none
  | _ => none

/-- The name a line opens a block of one kind for. -/
def openedBlock (kind : List Char) : List (List Char) → Option (List Char)
  | word :: rest => if word = kind then openedName rest else none
  | [] => none

/-- `_NFT_LIST_TABLE_RE`: the family of a line that opens the table. -/
def openedTable : List (List Char) → Option (List Char)
  | word :: family :: rest =>
    if word = "table".toList ∧ (rest = ["ferm".toList, ['\x7b']] ∨ rest = ["ferm\x7b".toList]) then some family else none
  | _ => none

/-- `_NFT_LIST_SECMARK_RE`, and `_NFT_LIST_CTHELPER_RE`, which takes one blank between its two words: the kind and the name of an
object. -/
def openedObject (line : List Char) : Option (String × List Char) :=
  match openedBlock "secmark".toList (pyWords line) with
  | some name => some ("secmark", name)
  | none =>
    if "ct helper".toList.isPrefixOf line ∧ (pyWords line).head? = some "ct".toList then
      (openedBlock "helper".toList (pyWords line).tail).map fun name => ("ct helper", name)
    else none

/-- A text that begins with `priority` at the end of a word. -/
def startsPriority (word : List Char) : Bool :=
  "priority".toList.isPrefixOf word && ((word.drop "priority".length).head?.all fun c => !Evaluator.isLatinWordChar c)

/-- `_NFT_LIST_HEADER_RE`. -/
def isListHeader (line : List Char) : Bool :=
  match pyWords line with
  | type :: _ :: hook :: _ :: priority :: _ => type = "type".toList && hook = "hook".toList && startsPriority priority
  | _ => false

/-- `_NFT_LIST_SET_IDENT_RE`; a chain's name may have a dash inside. -/
def isListIdent (dash : Bool) : List Char → Bool
  | [] => false
  | c :: cs => c.isAlpha && cs.all fun c => c.isAlphanum || c = '_' || (dash && c = '-')

/-! ## The reader -/

/-- The block a line stands in. -/
inductive ListPlace where
  | outside
  | table
  | chain (name : String) (headerSeen : Bool)
  | set (name : String)
  | object (name : String)
  deriving DecidableEq

/-- What the reader has seen: the block it is in, and the table. -/
structure ListState where
  place : ListPlace := .outside
  ferm : Option ParsedTable := none

/-- The table with a set changed. -/
def ParsedTable.updateSet (t : ParsedTable) (name : String) (f : ParsedSet → ParsedSet) : ParsedTable :=
  { t with sets := t.sets.set name (f ((t.sets.get? name).getD { name := name })) }

/-- The table with a chain changed. -/
def ParsedTable.updateChain (t : ParsedTable) (name : String) (f : ParsedChain → ParsedChain) : ParsedTable :=
  { t with chains := t.chains.set name (f ((t.chains.get? name).getD { policy := ["-"] })) }

/-- The table with one more line in an object's body. -/
def ParsedTable.addToObject (t : ParsedTable) (name : String) (line : List Char) : ParsedTable :=
  match t.objects.get? name with
  | none => t
  | some o =>
    let body := if o.body = "" then String.ofList line else String.ofList (pyStrip (o.body.toList ++ ' ' :: line))
    { t with objects := t.objects.set name { o with body } }

/-- A line inside the table opens a block of the table, or closes it. -/
def openBlock (lineno : Nat) (raw line : List Char) (t : ParsedTable) : Except FermError ListState :=
  let fail : Except FermError ListState := .error (saveParseError lineno raw)
  if line = ['\x7d'] then .ok { place := .outside, ferm := some t }
  else
    match openedObject line with
    | some (kind, name) =>
      if isListIdent false name then
        let name := String.ofList name
        .ok { place := .object name, ferm := some { t with objects := t.objects.set name { name, kind } } }
      else fail
    | none =>
      match openedBlock "set".toList (pyWords line) with
      | some name =>
        if isListIdent false name then
          let name := String.ofList name
          .ok { place := .set name, ferm := some { t with sets := t.sets.set name { name } } }
        else fail
      | none =>
        match openedBlock "chain".toList (pyWords line) with
        | some name =>
          if isListIdent true name then
            let name := String.ofList name
            .ok { place := .chain name false, ferm := some { t with chains := t.chains.set name { policy := ["-"] } } }
          else fail
        | none => fail

/-- A line inside a chain: the header of a base chain, which is its first line, or a rule. -/
def readChainLine (form : NftForm) (family name : String) (headerSeen : Bool) (line : List Char) (t : ParsedTable) : ParsedTable :=
  if headerSeen = false ∧ isListHeader line then
    t.updateChain name fun c => { c with policy := canonicalizeNftHeader family (headerWords (String.ofList line)) }
  else t.updateChain name fun c => c.addRule (form.canonicalizeNftRule family (String.ofList line))

/-- A line inside a set: its elements, or a statement of its declaration. -/
def readSetLine (form : NftForm) (line : List Char) (s : ParsedSet) : ParsedSet :=
  if "elements".toList.isPrefixOf line then
    match braceBody line with
    | none => s
    | some body => { s with elements := form.canonicalizeSetElements (s.elements ++ splitElements body) }
  else
    let header := parseSetHeaderText line
    { s with type_ := header.1.orElse fun _ => s.type_, flags := s.flags ++ header.2 }

/-- The productions of `parse_nft_list`: a stripped line. -/
def readListLine (form : NftForm) (family : String) (lineno : Nat) (raw line : List Char) (s : ListState) : Except FermError ListState :=
  let t := s.ferm.getD {}
  match s.place with
  | .outside =>
    if openedTable (pyWords line) = some family.toList then .ok { place := .table, ferm := some t }
    else .error (saveParseError lineno raw)
  | .table => openBlock lineno raw line t
  | .chain name headerSeen =>
    if line = ['\x7d'] then .ok { place := .table, ferm := some t }
    else .ok { place := .chain name true, ferm := some (readChainLine form family name headerSeen line t) }
  | .set name =>
    if line = ['\x7d'] then .ok { place := .table, ferm := some t }
    else .ok { place := .set name, ferm := some (t.updateSet name (readSetLine form line)) }
  | .object name =>
    if line = ['\x7d'] then .ok { place := .table, ferm := some t }
    else .ok { place := .object name, ferm := some (t.addToObject name line) }

/-- One line of `parse_nft_list`; empty lines and comments are skipped. -/
def parseListLine (form : NftForm) (family : String) (lineno : Nat) (raw : List Char) (s : ListState) : Except FermError ListState :=
  let line := pyStrip raw
  if line = [] ∨ line.head? = some '#' then .ok s else readListLine form family lineno raw line s

/-- The lines from number `lineno` on. -/
def parseListLines (form : NftForm) (family : String) : Nat → List (List Char) → ListState → Except FermError ListState
  | _, [], s => .ok s
  | lineno, raw :: raws, s => (parseListLine form family lineno raw s).bind (parseListLines form family (lineno + 1) raws)

/-- `parse_nft_list`. -/
def parseNftList (form : NftForm) (family text : String) : Except FermError (Dict String ParsedTable) := do
  let lines := splitLines (joinMultilineElements text.toList)
  let s ← parseListLines form family 1 lines {}
  if s.place = .outside then .ok (fermTables s.ferm)
  else .error (saveParseError (if lines = [] then 1 else lines.length) "<EOF: unterminated block>".toList)

end Ferm
