import Ferm.Lib.IntLiteral
import Ferm.Nft.Script
import Ferm.Plan.Model

/-!
# Reading a rendered script back

The canonical header of a base chain, and the reader of the nft script the renderer writes: a fold over its lines that refuses
every line it does not know.
-/

namespace Ferm

/-! ## Chain headers -/

/-- The word a priority is written as, and the words after it: a landmark, with an offset or without, becomes its number. -/
def resolvePriority (priorityMap : List (String × Int)) (next : String) (rest : List String) : String × List String :=
  match priorityMap.lookup next with
  | none => (next, rest)
  | some base =>
    match rest with
    | sign :: magnitude :: rest' =>
      if sign = "+" ∨ sign = "-" then
        match pyInt magnitude.toList with
        | some m => (toString (applyPriorityOffset base sign m), rest')
        -- a malformed offset leaves the name as it is
        | none => (next, rest)
      else (toString base, rest)
    | _ => (toString base, rest)

/-- The loop of `canonicalize_nft_header`, with whether it has seen a policy; every step takes a word, so the number of words is
fuel enough. -/
def canonicalizeHeaderLoop (priorityMap : List (String × Int)) : Nat → List String → List String × Bool
  | 0, _ => ([], false)
  | _ + 1, [] => ([], false)
  | n + 1, word :: rest =>
    if word = "policy" then (word :: (canonicalizeHeaderLoop priorityMap n rest).1, true)
    else
      match rest with
      | next :: rest' =>
        if word = "priority" then
          let p := resolvePriority priorityMap next rest'
          let r := canonicalizeHeaderLoop priorityMap n p.2
          (word :: p.1 :: r.1, r.2)
        else
          let r := canonicalizeHeaderLoop priorityMap n rest
          (word :: r.1, r.2)
      | [] => ([word], false)

/-- `canonicalize_nft_header` on the words of a header, each number written in full: the kernel's fit in 32 bits. -/
def canonicalizeNftHeader (family : String) (words : List String) : List String :=
  let r := canonicalizeHeaderLoop (NFT_PRIORITY_LANDMARKS family) words.length words
  if r.2 then r.1 else r.1 ++ ["policy", "accept"]

/-- `_header_priority`: the word after the first `priority` that has one. -/
def headerPriority : List String → Option String
  | [] => none
  | [_] => none
  | word :: next :: rest => if word = "priority" then some next else headerPriority (next :: rest)

/-! ## The canonical form of rules and elements -/

/-- The canonical form of rule bodies, by family, and of set elements, and the text that nft lists an element with which was written
so. Nothing is assumed of them. -/
structure NftForm where
  canonicalizeNftRule : String → String → String
  canonicalizeElement : String → String
  listElement : String → String

/-- Rules and elements that are canonical as they are written, and listed so. -/
def NftForm.verbatim : NftForm where
  canonicalizeNftRule _ body := body
  canonicalizeElement e := e
  listElement e := e

/-- How an element is read from a listing after it was written so. -/
def NftForm.readElement (form : NftForm) (e : String) : String := form.canonicalizeElement (form.listElement e)

/-- `canonicalize_set_elements` of a named set, which absorbs nothing: canonical, distinct, in order. -/
def NftForm.canonicalizeSetElements (form : NftForm) (elements : List String) : List String :=
  orderElements (elements.map form.canonicalizeElement).eraseDups

theorem NftForm.mem_canonicalizeSetElements (form : NftForm) {e : String} {elements : List String} :
    e ∈ form.canonicalizeSetElements elements ↔ ∃ x ∈ elements, form.canonicalizeElement x = e := by
  simp [NftForm.canonicalizeSetElements]

/-! ## The reader -/

/-- What the reader has seen: the family of the lines so far and the table `ferm`, the only one a script can have. -/
structure ParseState where
  family : Option String := none
  ferm : Option ParsedTable := none

/-- `_parse_error`: the number of the line and its text, cut to eighty characters. -/
def parseError (lineno : Nat) (line : ScriptLine) : FermError :=
  ⟨"cannot parse save line " ++ toString lineno ++ ": " ++ pyRepr (String.ofList (line.toText.toList.take 80))⟩

/-- `_parse_set_header` on the statements of a declaration: the first word after `type`, every word after `flags`. -/
def parseSetHeader (statements : List (List String)) : Option String × List String :=
  statements.foldl (fun r statement =>
    match statement with
    | "type" :: type :: _ => (some type, r.2)
    | "flags" :: flags => (r.1, r.2 ++ flags)
    | _ => r) (none, [])

/-- The policy field a chain declaration is read as. -/
def parsedPolicy (family : String) : Option ChainHeader → List String
  | none => ["-"]
  | some h => canonicalizeNftHeader family h.words

/-- The table read so far, with what a command adds to it; `none` for a command the reader does not know. -/
def parseCommand (form : NftForm) (family : String) (ferm : Option ParsedTable) : Command → Option (Option ParsedTable)
  | .addTable => some (some (ferm.getD {}))
  | .flushTable => some (some (ferm.getD {}))
  | .deleteTable => some none
  | .addChain name header =>
    let t := ferm.getD {}
    some (some { t with chains := t.chains.set name { policy := parsedPolicy family header } })
  | .addSet name statements =>
    let t := ferm.getD {}
    let s := (t.sets.get? name).getD { name := name }
    let header := parseSetHeader statements
    some (some { t with sets := t.sets.set name { s with type_ := header.1, flags := header.2 } })
  | .addObject kind name body =>
    let t := ferm.getD {}
    some (some { t with objects := t.objects.set name { name, kind, body } })
  | .addElement set elements =>
    let t := ferm.getD {}
    let s := (t.sets.get? set).getD { name := set }
    let s' := { s with elements := form.canonicalizeSetElements (s.elements ++ elements) }
    some (some { t with sets := t.sets.set set s' })
  | .addRule chain body =>
    match ferm with
    | none => none
    | some t =>
      match t.chains.get? chain with
      | none => none
      | some c =>
        if body = "" then none
        else some (some { t with chains := t.chains.set chain (c.addRule (form.canonicalizeNftRule family body)) })
  | .flushChain _ => none
  | .deleteChain _ => none
  | .deleteElement _ _ => none

/-- One line: it names the table `ferm` and the family of the lines before it. -/
def parseLine (form : NftForm) (lineno : Nat) (line : ScriptLine) (s : ParseState) : Except FermError ParseState :=
  if line.table ≠ NFT_TABLE_NAME ∨ (s.family.isSome ∧ s.family ≠ some line.family) then .error (parseError lineno line)
  else
    match parseCommand form line.family s.ferm line.command with
    | none => .error (parseError lineno line)
    | some ferm => .ok { family := some line.family, ferm }

/-- The lines from number `lineno` on. -/
def parseLines (form : NftForm) : Nat → List ScriptLine → ParseState → Except FermError ParseState
  | _, [], s => .ok s
  | lineno, line :: lines, s => (parseLine form lineno line s).bind (parseLines form (lineno + 1) lines)

/-- The tables of one nft family: the table `ferm`, or none. -/
def fermTables : Option ParsedTable → Dict String ParsedTable
  | none => Dict.empty
  | some t => Dict.empty.set NFT_TABLE_NAME t

/-- `parse_nft_script`. -/
def parseNftScript (form : NftForm) (lines : List ScriptLine) : Except FermError (Dict String ParsedTable) :=
  (parseLines form 1 lines {}).map fun s => fermTables s.ferm

example : canonicalizeNftHeader "ip" ["type", "filter", "hook", "input", "priority", "filter", "-", "1"] =
    ["type", "filter", "hook", "input", "priority", "-1", "policy", "accept"] := by decide +kernel

end Ferm
