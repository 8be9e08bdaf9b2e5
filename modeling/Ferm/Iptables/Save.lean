import Ferm.Iptables.Format
import Ferm.Lib.Difflib
import Ferm.Nft.Sets

/-!
# The save text

The save text of one family, as `iptables-restore` reads it: a comment, then for every table its chains' policies, its rules and
a commit. Chains that are to be preserved are copied from the ruleset read before.
-/

namespace Ferm

/-! ## Copying from the ruleset read before -/

namespace SaveSearch

/-- `\s`. -/
def isSpace (c : Char) : Bool :=
  isAsciiSpace c || (0x1c ≤ c.toNat && c.toNat ≤ 0x1f) || c.toNat = 0x85 || c.toNat = 0xa0

/-- How often an item of a pattern may match. -/
inductive Quantifier where
  | once
  | plus
  | possessive
  deriving DecidableEq, Repr

/-- One item of a pattern: a character, or any (`.`). -/
structure PatternItem where
  char : Option Char
  quantifier : Quantifier := .once
  deriving DecidableEq, Repr

/-- A table's name as a pattern after `\*`: a dot is any character, a plus repeats what stands before it, a second plus makes that
possessive, a third one is no pattern. The items are kept last first. -/
def patternItems : List PatternItem → List Char → Option (List PatternItem)
  | items, [] => some items.reverse
  | [], c :: cs => patternItems [⟨some c, .once⟩] cs
  | item :: items, c :: cs =>
    if c = '+' then
      match item.quantifier with
      | .once => patternItems ({ item with quantifier := .plus } :: items) cs
      | .plus => patternItems ({ item with quantifier := .possessive } :: items) cs
      | .possessive => none
    else patternItems (⟨if c = '.' then none else some c, .once⟩ :: item :: items) cs

/-- True if the item matches the character. -/
def PatternItem.accepts (item : PatternItem) (c : Char) : Bool := item.char.all (· = c)

/-- The lengths a pattern can match at the start of a text, in the order they are tried. -/
def matchLengths : List PatternItem → List Char → List Nat
  | [], _ => [0]
  | item :: items, text =>
    let run := (text.takeWhile item.accepts).length
    let tries :=
      match item.quantifier with
      | .once => if 0 < run then [1] else []
      | .plus => (List.range run).reverse.map (· + 1)
      | .possessive => if 0 < run then [run] else []
    tries.flatMap fun n => (matchLengths items (text.drop n)).map (n + ·)

/-- True if a line starts at `i`. -/
def lineStart (text : List Char) (i : Nat) : Bool := i = 0 || text[i - 1]? = some '\n'

/-- True if `COMMIT` stands at `i` with nothing but blanks up to the end of a line. -/
def commitAt (text : List Char) (i : Nat) : Bool :=
  let rest := text.drop i
  "COMMIT".toList.isPrefixOf rest &&
    (let after := rest.drop 6
     let blanks := after.takeWhile isSpace
     blanks.contains '\n' || blanks.length = after.length)

/-- The first commit at `i` or after it. -/
def commitFrom (text : List Char) (i : Nat) : Option Nat :=
  ((List.range (text.length + 1)).filter fun j => i ≤ j && lineStart text j && commitAt text j).head?

/-- The body of the first table whose header the pattern matches: blanks and letters `s` after the header are left out. -/
def tableBody (items : List PatternItem) (text : List Char) : Option (List Char) :=
  (List.range (text.length + 1)).findSome? fun i =>
    if lineStart text i then
      (matchLengths items (text.drop i)).findSome? fun n =>
        let blanks := ((text.drop (i + n)).takeWhile isSpace).length
        (List.range (blanks + 1)).reverse.findSome? fun a =>
          let letters := ((text.drop (i + n + a)).takeWhile (· = 's')).length
          (List.range (letters + 1)).reverse.findSome? fun b =>
            (commitFrom text (i + n + a + b)).map fun j => slice text (i + n + a + b) j
    else none

/-- The lines of a text that a line break ends. -/
def endedLines (text : List Char) : List (List Char) := (text.splitOn '\n').dropLast

/-- The names of the chains a save declares: from a colon at the start of a line up to the first space. -/
def declaredNames : Nat → Bool → List Char → List (List Char)
  | 0, _, _ => []
  | _ + 1, _, [] => []
  | fuel + 1, atStart, c :: cs =>
    let name := cs.takeWhile (· ≠ ' ')
    if atStart && c = ':' && !name.isEmpty && decide (name.length < cs.length) then
      name :: declaredNames fuel false ((cs.drop name.length).dropWhile (· ≠ '\n'))
    else declaredNames fuel (c = '\n') cs

end SaveSearch

open SaveSearch

/-- `extract_table_from_save`. -/
def extractTableFromSave (save table : String) : Except FermError (List Char) :=
  match patternItems [⟨some '*', .once⟩] table.toList with
  | some items => .ok ((tableBody items save.toList).getD [])
  | none => .error ⟨"multiple repeat"⟩

/-- `extract_chain_from_table_save`: the lines of the chain's rules. -/
def extractChainFromTableSave (tableSave : List Char) (chain : String) : List (List Char) :=
  (endedLines tableSave).filter fun line => ("-A " ++ chain ++ " ").toList.isPrefixOf line

/-- The line that declares a chain. -/
def savedChainLine (tableSave : List Char) (chain : String) : Option (List Char) :=
  (endedLines tableSave).find? fun line => (":" ++ chain ++ " ").toList.isPrefixOf line

/-- `resolve_dynamic_preserve`: the saved chains that a preserve pattern finds. -/
def resolveDynamicPreserve (info : TableInfo) (tableSave : List Char) : Dict String ChainInfo :=
  (declaredNames (tableSave.length + 1) true tableSave).foldl (fun added name =>
    let chain := String.ofList name
    if chain ∈ info.chains then added
    else if info.preserveRegexes.any fun regex => regex chain then added.set chain { preserve := true }
    else added) Dict.empty

/-! ## The save -/

/-- The entries by sorted key. -/
def Dict.sorted {α : Type} (d : Dict String α) : Dict String α where
  entries := (sortedNames d.keys).filterMap fun k => (d.get? k).map fun v => (k, v)
  nodup := by
    rw [List.map_filterMap]
    refine (nodup_sortedNames d.nodup_keys).filterMap fun k k' b hk hk' => ?_
    have hfst : ∀ k b, b ∈ ((d.get? k).map fun v => (k, v)).map Prod.fst → b = k := by
      intro k b hb
      rw [Option.map_map, Option.mem_def, Option.map_eq_some_iff] at hb
      obtain ⟨_, -, rfl⟩ := hb
      rfl
    exact (hfst k b hk).symm.trans (hfst k' b hk')

@[simp] theorem Dict.get?_sorted {α : Type} (d : Dict String α) (k : String) : d.sorted.get? k = d.get? k := by
  cases hk : d.get? k with
  | none =>
    rw [Dict.get?_eq_none_iff]
    intro hmem
    obtain ⟨e, he, rfl⟩ := List.mem_map.1 hmem
    obtain ⟨k, -, he⟩ := List.mem_filterMap.1 he
    obtain ⟨v, hv, rfl⟩ := Option.map_eq_some_iff.1 he
    rw [hk] at hv
    cases hv
  | some v =>
    rw [Dict.get?_eq_some_iff]
    exact List.mem_filterMap.2 ⟨k, mem_sortedNames.2 (Dict.mem_of_get? hk), by rw [hk]; rfl⟩

theorem Dict.mem_sorted_entries {α : Type} {d : Dict String α} {e : String × α} : e ∈ d.sorted.entries ↔ e ∈ d.entries := by
  rw [← Dict.get?_eq_some_iff (d := d.sorted), Dict.get?_sorted, Dict.get?_eq_some_iff]

/-- One entry of a save. -/
inductive SaveEntry where
  | comment (text : String)
  | table (name : String)
  | chain (name policy : String)
  | saved (line : String)
  | rule (chain text : String)
  | commit
  deriving DecidableEq, Repr

/-- The line of an entry. -/
def SaveEntry.text : SaveEntry → String
  | comment text => "# Generated by ferm " ++ text
  | table name => "*" ++ name
  | chain name policy => ":" ++ name ++ " " ++ policy ++ " [0:0]"
  | saved line => line
  | rule name text => "-A " ++ name ++ text
  | commit => "COMMIT"

namespace SaveEntry

@[simp] theorem text_comment (text : String) : (comment text).text = "# Generated by ferm " ++ text := rfl

@[simp] theorem text_table (name : String) : (table name).text = "*" ++ name := rfl

@[simp] theorem text_chain (name policy : String) : (chain name policy).text = ":" ++ name ++ " " ++ policy ++ " [0:0]" := rfl

@[simp] theorem text_saved (line : String) : (saved line).text = line := rfl

@[simp] theorem text_rule (name text : String) : (rule name text).text = "-A " ++ name ++ text := rfl

@[simp] theorem text_commit : commit.text = "COMMIT" := rfl

end SaveEntry

/-- The entry of a chain's policy, if it gets one. -/
def policyEntry (table chain : String) (info : ChainInfo) (flush : Bool) : Option SaveEntry :=
  match if flush then none else info.policy with
  | some policy => some (.chain chain policy)
  | none =>
    if isNetfilterBuiltinChain table chain then some (.chain chain "ACCEPT")
    else if flush then none
    else some (.chain chain "-")

/-- The entry that declares a chain: copied for a preserved chain that was there before. -/
def chainEntry (table : String) (tableSave : List Char) (chain : String) (info : ChainInfo) (flush : Bool) :
    Option SaveEntry :=
  match if info.preserve then savedChainLine tableSave chain else none with
  | some line => some (.saved (String.ofList line))
  | none => policyEntry table chain info flush

/-- `table_to_save` for one chain: what was preserved, then the rules unless they are flushed. -/
def ruleEntries (domain : Family) (tableSave : List Char) (chain : String) (info : ChainInfo) (flush : Bool) :
    Except FermError (List SaveEntry) := do
  let preserved :=
    if info.preserve then (extractChainFromTableSave tableSave chain).map fun line => SaveEntry.saved (String.ofList line)
    else []
  if flush then return preserved
  let texts ← info.rules.mapM fun rule => formatRule domain rule true
  return preserved ++ texts.map (.rule chain)

/-- The section of one table. Its part of the ruleset read before is looked up only where something is to be preserved. -/
def tableSection (domain : Family) (info : DomainInfo) (options : IptablesOptions) (table : String) (tableInfo : TableInfo) :
    Except FermError (List SaveEntry) := do
  let previous := info.previous.getD ""
  let tableSave ←
    if tableInfo.preserveRegexes ≠ [] ∨ tableInfo.chains.entries.any fun e => e.2.preserve then
      extractTableFromSave previous table
    else pure []
  let added := if tableInfo.preserveRegexes = [] then Dict.empty else resolveDynamicPreserve tableInfo tableSave
  let chains := Dict.merge (fun v _ => v) added tableInfo.chains
  let named := chains.sorted.entries
  let rules ← named.mapM fun e => ruleEntries domain tableSave e.1 e.2 options.flush
  return .table table :: named.flatMap (fun e => (chainEntry table tableSave e.1 e.2 options.flush).toList) ++ rules.flatten ++ [.commit]

/-- The name of the save tool without its directories, on each line of its path. -/
def toolName (path : String) : String :=
  String.intercalate "\n" ((splitText '\n' path).map fun line => ((splitText '/' line).getLast?).getD "")

/-- `rules_to_save` at a time, by a version of ferm. -/
def rulesToSave (domain : Family) (info : DomainInfo) (options : IptablesOptions) (version now : String) :
    Except FermError (List SaveEntry) := do
  let sections ← info.tables.sorted.entries.mapM fun e => tableSection domain info options e.1 e.2
  return .comment (version ++ " (" ++ toolName info.saveTool ++ ") on " ++ now) :: sections.flatten

/-- The text of a save. -/
def saveText (entries : List SaveEntry) : String := String.join (entries.map fun e => e.text ++ "\n")

end Ferm
