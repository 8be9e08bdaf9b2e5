import Ferm.Plan.Priority
import Ferm.Plan.SaveText

/-!
# The text of a script

`parse_nft_script` as it reads the text of a script: line by line, word by word, and between braces. A script whose names are words
and whose rule bodies are single lines is read as its commands are.
-/

namespace Ferm

/-! ## Braces -/

/-- The text before the last `sep`: what `text.rfind(sep)` finds. -/
def untilLast (sep : Char) : List Char → Option (List Char)
  | [] => none
  | c :: cs =>
    match untilLast sep cs with
    | some text => some (c :: text)
    | none => if c = sep then some [] else none

/-- `_brace_body`: the text between the first opening brace and the last closing one. -/
def braceBody (line : List Char) : Option (List Char) := (partitionAt '\x7b' line).bind fun parts => untilLast '\x7d' parts.2

theorem untilLast_concat (sep : Char) (text : List Char) : untilLast sep (text ++ [sep]) = some text := by
  induction text with
  | nil => simp [untilLast]
  | cons c text ih => rw [List.cons_append, untilLast, ih]

theorem braceBody_append {head : List Char} (h : '\x7b' ∉ head) (body : List Char) :
    braceBody (head ++ '\x7b' :: (body ++ ['\x7d'])) = some body := by
  rw [braceBody, partitionAt_append h]
  exact untilLast_concat '\x7d' body

/-! ## The reader -/

/-- The words of a text, as strings. -/
def textWords (text : List Char) : List String := (pyWords text).map String.ofList

/-- `_parse_set_header`. -/
def parseSetHeaderText (inner : List Char) : Option String × List String :=
  parseSetHeader (((inner.map fun c => if c = '\n' then ';' else c).splitOn ';').map textWords)

/-- `[e.strip() for e in body.split(",") if e.strip()]`. -/
def splitElements (body : List Char) : List String :=
  (((body.splitOn ',').map pyStrip).filter fun e => !e.isEmpty).map String.ofList

/-- `_NFT_VERBS`. -/
def NFT_VERBS : List String := ["add", "flush", "delete"]

/-- `_check_family`. -/
def checkFamily (current : Option String) (seen : String) (lineno : Nat) (raw : List Char) : Except FermError String :=
  if current.isSome ∧ current ≠ some seen then .error (saveParseError lineno raw) else .ok seen

/-- `_parse_object_head`: the family and the name of an object's line, whose name is at `nameIndex`. -/
def parseObjectHead (parts : List String) (family : Option String) (lineno : Nat) (raw : List Char) (nameIndex : Nat) :
    Except FermError (String × String) :=
  if parts[nameIndex - 1]? ≠ some NFT_TABLE_NAME then .error (saveParseError lineno raw)
  else (checkFamily family ((parts[nameIndex - 2]?).getD "") lineno raw).map fun family => (family, (parts[nameIndex]?).getD "")

/-- A table with one more object, of the brace body of its line. -/
def storeTableObject (t : ParsedTable) (name kind : String) (line : List Char) : ParsedTable :=
  { t with objects := t.objects.set name ⟨name, kind, String.ofList (pyStrip ((braceBody line).getD []))⟩ }

/-- The productions of `parse_nft_script`: a stripped line with its words. -/
def parseProduction (form : NftForm) (lineno : Nat) (raw line : List Char) (parts : List String) (s : ParseState) :
    Except FermError ParseState :=
  let verb := (parts[0]?).getD ""
  let sub := (parts[1]?).getD ""
  let fail : Except FermError ParseState := .error (saveParseError lineno raw)
  if sub = "table" ∧ verb ∈ NFT_VERBS then
    if parts.length ≠ 4 ∨ parts[3]? ≠ some NFT_TABLE_NAME then fail
    else do
      let family ← checkFamily s.family ((parts[2]?).getD "") lineno raw
      .ok { family := some family, ferm := if verb = "delete" then none else some (s.ferm.getD {}) }
  else if verb ≠ "add" then fail
  else if sub = "chain" ∧ 5 ≤ parts.length then do
    let (family, name) ← parseObjectHead parts s.family lineno raw 4
    let t := s.ferm.getD {}
    match parts[5]? with
    | none => .ok { family := some family, ferm := some { t with chains := t.chains.set name { policy := ["-"] } } }
    | some open_ =>
      if open_ ≠ "\x7b" then fail
      else
        match braceBody (pyStrip (line.drop "add chain".length)) with
        | none => fail
        | some header =>
          let policy := canonicalizeNftHeader family (headerWords (String.ofList (pyStrip header)))
          .ok { family := some family, ferm := some { t with chains := t.chains.set name { policy } } }
  else if sub = "set" ∧ 5 ≤ parts.length then do
    let (family, name) ← parseObjectHead parts s.family lineno raw 4
    let t := s.ferm.getD {}
    let old := (t.sets.get? name).getD { name := name }
    let new :=
      match braceBody line with
      | none => old
      | some body => { old with type_ := (parseSetHeaderText body).1, flags := (parseSetHeaderText body).2 }
    .ok { family := some family, ferm := some { t with sets := t.sets.set name new } }
  else if sub = "secmark" ∧ 5 ≤ parts.length then do
    let (family, name) ← parseObjectHead parts s.family lineno raw 4
    .ok { family := some family, ferm := some (storeTableObject (s.ferm.getD {}) name "secmark" line) }
  else if sub = "ct" ∧ parts[2]? = some "helper" ∧ 7 ≤ parts.length then do
    let (family, name) ← parseObjectHead parts s.family lineno raw 5
    .ok { family := some family, ferm := some (storeTableObject (s.ferm.getD {}) name "ct helper" line) }
  else if sub = "element" ∧ 5 ≤ parts.length then do
    let (family, name) ← parseObjectHead parts s.family lineno raw 4
    match braceBody line with
    | none => fail
    | some body =>
      let t := s.ferm.getD {}
      let old := (t.sets.get? name).getD { name := name }
      let new := { old with elements := form.canonicalizeSetElements (old.elements ++ splitElements body) }
      .ok { family := some family, ferm := some { t with sets := t.sets.set name new } }
  else if sub = "rule" ∧ 6 ≤ parts.length then do
    let (family, name) ← parseObjectHead parts s.family lineno raw 4
    let head := "add rule " ++ (parts[2]?).getD "" ++ " ferm " ++ name
    let body := String.ofList (pyStrip (line.drop head.length))
    match s.ferm.bind fun t => (t.chains.get? name).map fun c => (t, c) with
    | none => fail
    | some (t, c) =>
      let chains := t.chains.set name (c.addRule (form.canonicalizeNftRule family body))
      .ok { family := some family, ferm := some { t with chains } }
  else fail

/-- One line of `parse_nft_script`; empty lines and comments are skipped. -/
def parseScriptLine (form : NftForm) (lineno : Nat) (raw : List Char) (s : ParseState) : Except FermError ParseState :=
  let line := pyStrip raw
  if line = [] ∨ line.head? = some '#' then .ok s else parseProduction form lineno raw line (textWords line) s

/-- The lines from number `lineno` on. -/
def parseScriptLines (form : NftForm) : Nat → List (List Char) → ParseState → Except FermError ParseState
  | _, [], s => .ok s
  | lineno, raw :: raws, s => (parseScriptLine form lineno raw s).bind (parseScriptLines form (lineno + 1) raws)

/-- `parse_nft_script` on the text of a script. -/
def parseNftScriptText (form : NftForm) (text : String) : Except FermError (Dict String ParsedTable) :=
  (parseScriptLines form 1 (splitLines text.toList) {}).map fun s => fermTables s.ferm

/-- The text of a script: every line with a line feed after it. -/
def scriptText (lines : List ScriptLine) : String := String.join (lines.map fun line => line.toText ++ "\n")

/-! ## Lines that can be read -/

/-- A name as a line has it: a word without a brace. -/
def IsName (name : String) : Prop := IsWord name.toList ∧ '\x7b' ∉ name.toList

/-- A text that stands in one line: trimmed, and without a line boundary. -/
def OneLine (text : String) : Prop := Trimmed text.toList ∧ ∀ c ∈ text.toList, isLineBoundary c = false

theorem IsWord.oneLine {text : String} (h : IsWord text.toList) : OneLine text := ⟨h.trimmed, IsWord.no_boundary h⟩

/-- A command whose text can be read: its names are words, its header's and its statements' words have no semicolon, its body is one
line, and so are its elements, which have no comma. -/
def Command.Printable : Command → Prop
  | addTable => True
  | flushTable => True
  | deleteTable => True
  | addChain name header => IsName name ∧ ∀ h, header = some h → ∀ word ∈ h.words, IsHeaderWord word
  | flushChain name => IsName name
  | deleteChain name => IsName name
  | addRule chain body => IsName chain ∧ OneLine body
  | addSet name statements => IsName name ∧ ∀ statement ∈ statements, ∀ word ∈ statement, IsHeaderWord word
  | addElement set elements => IsName set ∧ ∀ e ∈ elements, e ≠ "" ∧ OneLine e ∧ ',' ∉ e.toList
  | deleteElement set elements => IsName set ∧ ∀ e ∈ elements, e ≠ "" ∧ OneLine e ∧ ',' ∉ e.toList
  | addObject kind name body => (kind = "secmark" ∨ kind = "ct helper") ∧ IsName name ∧ OneLine body

/-- A line whose text can be read. -/
structure ScriptLine.Printable (line : ScriptLine) : Prop where
  family : IsName line.family
  table : IsName line.table
  command : line.command.Printable

/-- The words a command's line begins with, before the family. -/
def Command.verbs : Command → List String
  | addTable => ["add", "table"]
  | flushTable => ["flush", "table"]
  | deleteTable => ["delete", "table"]
  | addChain _ _ => ["add", "chain"]
  | flushChain _ => ["flush", "chain"]
  | deleteChain _ => ["delete", "chain"]
  | addRule _ _ => ["add", "rule"]
  | addSet _ _ => ["add", "set"]
  | addElement _ _ => ["add", "element"]
  | deleteElement _ _ => ["delete", "element"]
  | addObject kind _ _ => "add" :: words kind

/-- The name after the table. -/
def Command.names : Command → List String
  | addTable => []
  | flushTable => []
  | deleteTable => []
  | addChain name _ => [name]
  | flushChain name => [name]
  | deleteChain name => [name]
  | addRule chain _ => [chain]
  | addSet name _ => [name]
  | addElement set _ => [set]
  | deleteElement set _ => [set]
  | addObject _ name _ => [name]

/-- What stands after the names. -/
def Command.rest : Command → String
  | addChain _ (some header) => braceText header.statements
  | addRule _ body => body
  | addSet _ statements => braceText statements
  | addElement _ elements => setBody elements
  | deleteElement _ elements => setBody elements
  | addObject _ _ body => "\x7b " ++ body ++ " \x7d"
  | _ => ""

/-- The words of a line before its rest. -/
def ScriptLine.head (line : ScriptLine) : List String := line.command.verbs ++ [line.family, line.table] ++ line.command.names

/-- A text after words. -/
def afterWords (words : List String) (rest : String) : List Char :=
  List.intercalate [' '] (words.map String.toList) ++ if rest = "" then [] else ' ' :: rest.toList

/-- A line is its words and its rest. -/
theorem toList_toText {line : ScriptLine} (h : line.command.Printable) : line.toText.toList = afterWords line.head line.command.rest := by
  obtain ⟨family, table, command⟩ := line
  have hbrace (statements : List (List String)) : braceText statements ≠ "" := by
    intro h
    have := congrArg String.toList h
    simp [braceText, String.toList_append] at this
  have hset (elements : List String) : setBody elements ≠ "" := by
    intro h
    have := congrArg String.toList h
    simp [setBody, String.toList_append] at this
  have hbody (body : String) : "\x7b " ++ body ++ " \x7d" ≠ "" := by
    intro h
    have := congrArg String.toList h
    simp [String.toList_append] at this
  simp only [ScriptLine.toText, ScriptLine.head, afterWords]
  cases command
  case addChain name header =>
    cases header <;> simp [Command.verbs, Command.names, Command.rest, List.intercalate, String.toList_append, hbrace]
  case addRule chain body =>
    by_cases h : body = "" <;> simp [Command.verbs, Command.names, Command.rest, List.intercalate, String.toList_append, h]
  case addObject kind name body =>
    have hsecmark : words "secmark" = ["secmark"] := by decide
    have hhelper : words "ct helper" = ["ct", "helper"] := by decide
    rcases h.1 with rfl | rfl <;>
      simp [Command.verbs, Command.names, Command.rest, List.intercalate, String.toList_append, hsecmark, hhelper, hbody]
  all_goals simp [Command.verbs, Command.names, Command.rest, List.intercalate, String.toList_append, hbrace, hset]

/-! ## The words of a line -/

theorem isWord_verbs {c : Command} (h : c.Printable) : ∀ word ∈ c.verbs, IsWord word.toList := by
  have hplain {word : String} (h : word.toList ≠ [] ∧ word.toList.all (fun c => !isPySpace c) = true) : IsWord word.toList :=
    ⟨h.1, forall_eq_false h.2⟩
  intro word hword
  cases c
  case addObject kind name body =>
    have hsecmark : words "secmark" = ["secmark"] := by decide
    have hhelper : words "ct helper" = ["ct", "helper"] := by decide
    rcases h.1 with rfl | rfl <;> simp only [Command.verbs, hsecmark, hhelper, List.mem_cons, List.not_mem_nil, or_false] at hword
    · rcases hword with rfl | rfl <;> exact hplain (by decide)
    · rcases hword with rfl | rfl | rfl <;> exact hplain (by decide)
  all_goals
    simp only [Command.verbs, List.mem_cons, List.not_mem_nil, or_false] at hword
    rcases hword with rfl | rfl <;> exact hplain (by decide)

theorem isName_names {c : Command} (h : c.Printable) : ∀ name ∈ c.names, IsName name := by
  intro name hname
  cases c <;> simp only [Command.names, List.mem_singleton, List.not_mem_nil] at hname <;> rw [hname]
  case addChain => exact h.1
  case flushChain => exact h
  case deleteChain => exact h
  case addRule => exact h.1
  case addSet => exact h.1
  case addElement => exact h.1
  case deleteElement => exact h.1
  case addObject => exact h.2.1

theorem isWord_head {line : ScriptLine} (h : line.Printable) : ∀ word ∈ line.head, IsWord word.toList := by
  intro word hword
  simp only [ScriptLine.head, List.mem_append, List.mem_cons, List.not_mem_nil, or_false] at hword
  rcases hword with (hword | rfl | rfl) | hword
  · exact isWord_verbs h.command word hword
  · exact h.family.1
  · exact h.table.1
  · exact (isName_names h.command word hword).1

/-- A text between braces. -/
theorem oneLine_braces {text : String} (h : ∀ c ∈ text.toList, isLineBoundary c = false) : OneLine ("\x7b " ++ text ++ " \x7d") := by
  have hlist : ("\x7b " ++ text ++ " \x7d").toList = '\x7b' :: ' ' :: (text.toList ++ [' ', '\x7d']) := by simp [String.toList_append]
  rw [OneLine, hlist]
  refine ⟨⟨fun c hc => ?_, fun c hc => ?_⟩, ?_⟩
  · cases hc
    decide
  · have hlast : ('\x7b' :: ' ' :: (text.toList ++ [' ', '\x7d'])).getLast? = some '\x7d' := by
      simp [List.getLast?_cons, List.getLast?_append]
    rw [hlast] at hc
    cases hc
    decide
  · simp only [List.forall_mem_cons, List.forall_mem_append]
    exact ⟨by decide, by decide, h, by decide, by decide, fun c hc => absurd hc List.not_mem_nil⟩

theorem IsHeaderWord.no_boundary {word : String} (h : IsHeaderWord word) : ∀ c ∈ word.toList, isLineBoundary c = false :=
  IsWord.no_boundary h.1

/-- Statements between braces are one line. -/
theorem oneLine_braceText {statements : List (List String)} (h : ∀ statement ∈ statements, ∀ word ∈ statement, IsHeaderWord word) :
    OneLine (braceText statements) := by
  refine oneLine_braces ?_
  rw [String.toList_intercalate]
  refine forall_mem_intercalate_text (forall_eq_false (by decide)) fun text htext => ?_
  simp only [List.map_map, List.mem_map, Function.comp_apply] at htext
  obtain ⟨statement, hstatement, rfl⟩ := htext
  rw [String.toList_append, String.toList_intercalate, List.forall_mem_append]
  refine ⟨forall_mem_intercalate_text (forall_eq_false (by decide)) fun text htext => ?_, forall_eq_false (by decide)⟩
  obtain ⟨word, hword, rfl⟩ := List.mem_map.1 htext
  exact (h statement hstatement word hword).no_boundary

theorem oneLine_setBody {elements : List String} (h : ∀ e ∈ elements, e ≠ "" ∧ OneLine e ∧ ',' ∉ e.toList) :
    OneLine (setBody elements) := by
  refine oneLine_braces ?_
  rw [String.toList_intercalate]
  refine forall_mem_intercalate_text (forall_eq_false (by decide)) fun text htext => ?_
  obtain ⟨e, he, rfl⟩ := List.mem_map.1 htext
  exact (h e he).2.1.2

/-- The words of a header's statements are those of the header. -/
theorem mem_statements {header : ChainHeader} {statement : List String} (h : statement ∈ header.statements) {word : String}
    (hword : word ∈ statement) : word ∈ header.words := by
  obtain ⟨decl, policy⟩ := header
  cases policy with
  | none =>
    simp only [ChainHeader.statements, List.mem_singleton] at h
    rw [ChainHeader.words, ← h, List.append_nil]
    exact hword
  | some policy =>
    simp only [ChainHeader.statements, List.mem_cons, List.not_mem_nil, or_false] at h
    rw [ChainHeader.words, List.mem_append]
    rcases h with rfl | rfl
    · exact .inl hword
    · exact .inr hword

theorem oneLine_rest {c : Command} (h : c.Printable) : OneLine c.rest := by
  have hempty : OneLine "" := ⟨⟨fun c hc => absurd hc (Option.not_mem_none c), fun c hc => absurd hc (Option.not_mem_none c)⟩,
    forall_eq_false (by decide)⟩
  cases c
  case addChain name header =>
    cases header with
    | none => exact hempty
    | some header =>
      exact oneLine_braceText fun statement hstatement word hword => h.2 header rfl word (mem_statements hstatement hword)
  case addRule => exact h.2
  case addSet => exact oneLine_braceText h.2
  case addElement => exact oneLine_setBody h.2
  case deleteElement => exact oneLine_setBody h.2
  case addObject kind name body => exact oneLine_braces h.2.2.2
  all_goals exact hempty

theorem map_ofList_toList (words : List String) : (words.map String.toList).map String.ofList = words := by
  rw [List.map_map]
  exact (List.map_congr_left fun word _ => String.ofList_toList).trans (List.map_id _)

/-- Words and a rest of one line are one line, and their words are the words and those of the rest. -/
theorem oneLine_afterWords {ws : List String} (hne : ws ≠ []) (h : ∀ word ∈ ws, IsWord word.toList) {rest : String}
    (hrest : OneLine rest) :
    Trimmed (afterWords ws rest) ∧ (∀ c ∈ afterWords ws rest, isLineBoundary c = false) ∧
      textWords (afterWords ws rest) = ws ++ textWords rest.toList := by
  have hwords : ∀ word ∈ ws.map String.toList, IsWord word := by
    intro text htext
    obtain ⟨word, hword, rfl⟩ := List.mem_map.1 htext
    exact h word hword
  have hhead : Trimmed (List.intercalate [' '] (ws.map String.toList)) :=
    trimmed_intercalate fun word hword => ⟨(hwords word hword).trimmed, (hwords word hword).1⟩
  have hheadBoundary : ∀ c ∈ List.intercalate [' '] (ws.map String.toList), isLineBoundary c = false :=
    forall_mem_intercalate (by decide) fun word hword => (hwords word hword).no_boundary
  obtain ⟨htrimmed, hboundary⟩ := hrest
  rw [afterWords, textWords, textWords]
  by_cases hempty : rest = ""
  · rw [if_pos hempty, List.append_nil, pyWords_intercalate hwords, map_ofList_toList, hempty]
    exact ⟨hhead, hheadBoundary, (List.append_nil _).symm⟩
  · have hrestNe : rest.toList ≠ [] := fun h => hempty (String.toList_eq_nil_iff.1 h)
    have hheadNe : List.intercalate [' '] (ws.map String.toList) ≠ [] := by
      intro hnil
      have hwordsNil := congrArg pyWords hnil
      rw [pyWords_intercalate hwords] at hwordsNil
      exact hne (List.map_eq_nil_iff.1 hwordsNil)
    rw [if_neg hempty, pyWords_intercalate_append hwords, List.map_append, map_ofList_toList]
    refine ⟨hhead.append htrimmed hheadNe hrestNe [' '], ?_, rfl⟩
    rw [List.forall_mem_append, List.forall_mem_cons]
    exact ⟨hheadBoundary, by decide, hboundary⟩

/-- A printable line is trimmed, is one line, and its words are those before the rest and those of the rest. -/
theorem line_toText {line : ScriptLine} (h : line.Printable) :
    Trimmed line.toText.toList ∧ (∀ c ∈ line.toText.toList, isLineBoundary c = false) ∧
      textWords line.toText.toList = line.head ++ textWords line.command.rest.toList := by
  rw [toList_toText h.command]
  exact oneLine_afterWords (by simp [ScriptLine.head]) (isWord_head h) (oneLine_rest h.command)

theorem no_brace_head {line : ScriptLine} (h : line.Printable) : ∀ word ∈ line.head, '\x7b' ∉ word.toList := by
  have hverbs : ∀ word ∈ line.command.verbs, '\x7b' ∉ word.toList := by
    intro word hword
    have hcommand := h.command
    cases hc : line.command <;> rw [hc] at hword hcommand
    case addObject kind name body =>
      rcases hcommand.1 with rfl | rfl
      · rw [Command.verbs, show words "secmark" = ["secmark"] by decide] at hword
        simp only [List.mem_cons, List.not_mem_nil, or_false] at hword
        rcases hword with rfl | rfl <;> decide
      · rw [Command.verbs, show words "ct helper" = ["ct", "helper"] by decide] at hword
        simp only [List.mem_cons, List.not_mem_nil, or_false] at hword
        rcases hword with rfl | rfl | rfl <;> decide
    all_goals
      simp only [Command.verbs, List.mem_cons, List.not_mem_nil, or_false] at hword
      rcases hword with rfl | rfl <;> decide
  intro word hword
  simp only [ScriptLine.head, List.mem_append, List.mem_cons, List.not_mem_nil, or_false] at hword
  rcases hword with (hword | rfl | rfl) | hword
  · exact hverbs word hword
  · exact h.family.2
  · exact h.table.2
  · exact (isName_names h.command word hword).2

/-- The braces after words without braces. -/
theorem braceBody_afterWords {ws : List String} (h : ∀ word ∈ ws, '\x7b' ∉ word.toList) (text : String) :
    braceBody (afterWords ws ("\x7b " ++ text ++ " \x7d")) = some (' ' :: (text.toList ++ [' '])) := by
  have hne : "\x7b " ++ text ++ " \x7d" ≠ "" := by
    intro h
    have := congrArg String.toList h
    simp [String.toList_append] at this
  have hlist : ("\x7b " ++ text ++ " \x7d").toList = '\x7b' :: ((' ' :: (text.toList ++ [' '])) ++ ['\x7d']) := by
    simp [String.toList_append]
  have hhead : '\x7b' ∉ List.intercalate [' '] (ws.map String.toList) ++ [' '] := by
    have hall : ∀ c ∈ List.intercalate [' '] (ws.map String.toList), c ≠ '\x7b' := by
      refine forall_mem_intercalate (by decide) fun part hpart c hc heq => ?_
      obtain ⟨word, hword, rfl⟩ := List.mem_map.1 hpart
      exact h word hword (heq ▸ hc)
    intro hmem
    rcases List.mem_append.1 hmem with hmem | hmem
    · exact hall _ hmem rfl
    · exact absurd (List.mem_singleton.1 hmem) (by decide)
  rw [afterWords, if_neg hne, hlist, List.append_cons]
  exact braceBody_append hhead _

/-- An opening brace is a word of its own. -/
theorem textWords_brace (text : List Char) : textWords ('\x7b' :: ' ' :: text) = "\x7b" :: textWords text := by
  have hword : IsWord ['\x7b'] := ⟨List.cons_ne_nil _ _, forall_eq_false (by decide)⟩
  have hcons : pyWords ('\x7b' :: ' ' :: text) = ['\x7b'] :: pyWords text := pyWords_cons hword (by decide) text
  rw [textWords, hcons]
  rfl

/-- The first words can be cut off a line. -/
theorem afterWords_append {ws ws' : List String} (hne : ws ≠ []) (hne' : ws' ≠ []) (rest : String) :
    afterWords (ws ++ ws') rest = List.intercalate [' '] (ws.map String.toList) ++ ' ' :: afterWords ws' rest := by
  have hsplit : List.intercalate [' '] ((ws ++ ws').map String.toList) =
      List.intercalate [' '] (ws.map String.toList) ++ ' ' :: List.intercalate [' '] (ws'.map String.toList) := by
    induction ws with
    | nil => exact absurd rfl hne
    | cons w ws ih =>
      cases ws with
      | nil =>
        obtain ⟨w', ws', rfl⟩ := List.exists_cons_of_ne_nil hne'
        simp [List.intercalate_cons_cons]
      | cons next ws =>
        have ih := ih (List.cons_ne_nil _ _)
        simp only [List.cons_append, List.map_cons, List.intercalate_cons_cons] at ih ⊢
        rw [ih]
        simp
  rw [afterWords, hsplit, afterWords, List.append_assoc]
  rfl

/-! ## What stands between braces -/

/-- The text of statements. -/
def statementsText (statements : List (List String)) : List Char :=
  List.intercalate [' '] (statements.map fun statement => List.intercalate [' '] (statement.map String.toList) ++ [';'])

theorem braceText_eq (statements : List (List String)) :
    braceText statements = "\x7b " ++ String.ofList (statementsText statements) ++ " \x7d" := by
  have hinner : String.intercalate " " (statements.map fun words => String.intercalate " " words ++ ";") =
      String.ofList (statementsText statements) := by
    rw [← String.toList_inj, String.toList_ofList, String.toList_intercalate, statementsText, List.map_map]
    simp only [Function.comp_def, String.toList_append, String.toList_intercalate]
    rfl
  rw [braceText, hinner]

theorem statementsText_cons (statement : List String) (statements : List (List String)) :
    statementsText (statement :: statements) = List.intercalate [' '] (statement.map String.toList) ++
      ';' :: if statements = [] then [] else ' ' :: statementsText statements := by
  cases statements with
  | nil => simp [statementsText]
  | cons next statements => simp [statementsText, List.intercalate_cons_cons]

theorem textWords_intercalate {ws : List String} (h : ∀ word ∈ ws, IsHeaderWord word) :
    textWords (List.intercalate [' '] (ws.map String.toList)) = ws := by
  rw [textWords, pyWords_intercalate, map_ofList_toList]
  intro text htext
  obtain ⟨word, hword, rfl⟩ := List.mem_map.1 htext
  exact (h word hword).1

/-- Statements are split at their semicolons. -/
theorem splitOn_statementsText {statements : List (List String)} (h : ∀ statement ∈ statements, ∀ word ∈ statement, IsHeaderWord word) :
    ((' ' :: (statementsText statements ++ [' '])).splitOn ';').map textWords = statements ++ [[]] := by
  have hblank : textWords [' '] = [] := by decide
  induction statements with
  | nil => decide
  | cons statement statements ih =>
    obtain ⟨hstatement, hstatements⟩ := List.forall_mem_cons.1 h
    have hsemicolon : ';' ∉ ' ' :: List.intercalate [' '] (statement.map String.toList) := by
      have hall : ∀ c ∈ List.intercalate [' '] (statement.map String.toList), c ≠ ';' := by
        refine forall_mem_intercalate (by decide) fun part hpart c hc heq => ?_
        obtain ⟨word, hword, rfl⟩ := List.mem_map.1 hpart
        exact (hstatement word hword).2 (heq ▸ hc)
      intro hmem
      rcases List.mem_cons.1 hmem with heq | hmem
      · exact absurd heq (by decide)
      · exact hall _ hmem rfl
    have hfirst : textWords (' ' :: List.intercalate [' '] (statement.map String.toList)) = statement := by
      rw [textWords, pyWords_cons_blank (by decide)]
      exact textWords_intercalate hstatement
    have hsplit (text : List Char) :
        ((' ' :: (List.intercalate [' '] (statement.map String.toList) ++ ';' :: text)).splitOn ';').map textWords =
          statement :: (text.splitOn ';').map textWords := by
      rw [← List.cons_append, List.splitOn_append_cons_self, List.splitOn_eq_singleton hsemicolon, List.map_append, List.map_singleton, hfirst]
      rfl
    rw [statementsText_cons, List.append_assoc, List.cons_append, hsplit, List.cons_append]
    by_cases hnil : statements = []
    · rw [if_pos hnil, hnil]
      exact congrArg (statement :: ·) (by decide)
    · rw [if_neg hnil, List.cons_append, ih hstatements]

theorem no_boundary_statementsText {statements : List (List String)}
    (h : ∀ statement ∈ statements, ∀ word ∈ statement, IsHeaderWord word) : ∀ c ∈ statementsText statements, isLineBoundary c = false := by
  refine forall_mem_intercalate (by decide) fun part hpart => ?_
  obtain ⟨statement, hstatement, rfl⟩ := List.mem_map.1 hpart
  rw [List.forall_mem_append]
  refine ⟨forall_mem_intercalate (by decide) fun text htext => ?_, forall_eq_false (by decide)⟩
  obtain ⟨word, hword, rfl⟩ := List.mem_map.1 htext
  exact (h statement hstatement word hword).no_boundary

theorem parseSetHeaderText_statements {statements : List (List String)}
    (h : ∀ statement ∈ statements, ∀ word ∈ statement, IsHeaderWord word) :
    parseSetHeaderText (' ' :: (statementsText statements ++ [' '])) = parseSetHeader statements := by
  have hboundary : ∀ c ∈ ' ' :: (statementsText statements ++ [' ']), isLineBoundary c = false := by
    rw [List.forall_mem_cons, List.forall_mem_append]
    exact ⟨by decide, no_boundary_statementsText h, forall_eq_false (by decide)⟩
  have hmap : (' ' :: (statementsText statements ++ [' '])).map (fun c => if c = '\n' then ';' else c) =
      ' ' :: (statementsText statements ++ [' ']) := by
    refine (List.map_congr_left fun c hc => if_neg ?_).trans (List.map_id _)
    rintro rfl
    exact absurd (hboundary '\n' hc) (by decide)
  rw [parseSetHeaderText, hmap, splitOn_statementsText h, parseSetHeader, parseSetHeader, List.foldl_append]
  rfl

/-- Where semicolons are blanks, the words of statements are theirs, one statement after the other. -/
theorem pyWords_statementsText {statements : List (List String)} (h : ∀ statement ∈ statements, ∀ word ∈ statement, IsHeaderWord word) :
    pyWords ((statementsText statements).map fun c => if c = ';' then ' ' else c) = statements.flatten.map String.toList := by
  induction statements with
  | nil => rfl
  | cons statement statements ih =>
    obtain ⟨hstatement, hstatements⟩ := List.forall_mem_cons.1 h
    have hwords : ∀ word ∈ statement.map String.toList, IsWord word := by
      intro text htext
      obtain ⟨word, hword, rfl⟩ := List.mem_map.1 htext
      exact (hstatement word hword).1
    have hsame : (List.intercalate [' '] (statement.map String.toList)).map (fun c => if c = ';' then ' ' else c) =
        List.intercalate [' '] (statement.map String.toList) := by
      have hall : ∀ c ∈ List.intercalate [' '] (statement.map String.toList), c ≠ ';' := by
        refine forall_mem_intercalate (by decide) fun part hpart c hc heq => ?_
        obtain ⟨word, hword, rfl⟩ := List.mem_map.1 hpart
        exact (hstatement word hword).2 (heq ▸ hc)
      exact (List.map_congr_left fun c hc => if_neg (hall c hc)).trans (List.map_id _)
    rw [statementsText_cons, List.map_append, hsame, List.map_cons, if_pos rfl, pyWords_intercalate_append hwords, List.flatten_cons,
      List.map_append]
    congr 1
    by_cases hnil : statements = []
    · rw [if_pos hnil, hnil]
      rfl
    · rw [if_neg hnil, List.map_cons, if_neg (by decide), pyWords_cons_blank (by decide), ih hstatements]

theorem trimmed_statementsText {statements : List (List String)} (h : ∀ statement ∈ statements, ∀ word ∈ statement, IsHeaderWord word) :
    Trimmed (statementsText statements) := by
  refine trimmed_intercalate fun part hpart => ?_
  obtain ⟨statement, hstatement, rfl⟩ := List.mem_map.1 hpart
  refine ⟨?_, by simp⟩
  have hsemicolon : Trimmed [';'] := IsWord.trimmed ⟨List.cons_ne_nil _ _, forall_eq_false (by decide)⟩
  cases statement with
  | nil => exact hsemicolon
  | cons word rest =>
    have hwords : ∀ part ∈ (word :: rest).map String.toList, Trimmed part ∧ part ≠ [] := by
      intro text htext
      obtain ⟨w, hw, rfl⟩ := List.mem_map.1 htext
      have hword : IsWord w.toList := (h _ hstatement w hw).1
      exact ⟨hword.trimmed, hword.1⟩
    have hne : List.intercalate [' '] ((word :: rest).map String.toList) ≠ [] := by
      intro hnil
      have hword : word.toList ≠ [] := (hwords _ (List.mem_map.2 ⟨word, List.mem_cons_self, rfl⟩)).2
      cases rest with
      | nil => exact hword (by simpa using hnil)
      | cons next rest => simp [List.intercalate_cons_cons] at hnil
    exact (trimmed_intercalate hwords).append hsemicolon hne (List.cons_ne_nil _ _) []

/-- The words of a header's statements. -/
theorem headerWords_statements {header : ChainHeader} (h : ∀ word ∈ header.words, IsHeaderWord word) :
    headerWords (String.ofList (pyStrip (' ' :: (statementsText header.statements ++ [' '])))) = header.words := by
  have hstatements : ∀ statement ∈ header.statements, ∀ word ∈ statement, IsHeaderWord word :=
    fun statement hstatement word hword => h word (mem_statements hstatement hword)
  have hflatten : header.statements.flatten = header.words := by
    obtain ⟨decl, policy⟩ := header
    cases policy <;> simp [ChainHeader.statements, ChainHeader.words]
  rw [(trimmed_statementsText hstatements).pyStrip_between, headerWords, String.toList_ofList, pyWords_statementsText hstatements,
    map_ofList_toList, hflatten]

/-- Elements are split at their commas. -/
theorem splitElements_intercalate {elements : List String} (h : ∀ e ∈ elements, e ≠ "" ∧ OneLine e ∧ ',' ∉ e.toList) :
    splitElements (' ' :: ((String.intercalate ", " elements).toList ++ [' '])) = elements := by
  have hpieces : ((' ' :: ((String.intercalate ", " elements).toList ++ [' '])).splitOn ',').map pyStrip =
      if elements = [] then [[]] else elements.map String.toList := by
    rw [String.toList_intercalate]
    induction elements with
    | nil => decide
    | cons e elements ih =>
      obtain ⟨⟨-, ⟨htrimmed, -⟩, hcomma⟩, helements⟩ := List.forall_mem_cons.1 h
      rw [if_neg (List.cons_ne_nil _ _)]
      cases elements with
      | nil =>
        have hnot : ',' ∉ ' ' :: (e.toList ++ [' ']) := by simp [hcomma]
        rw [List.map_singleton, List.intercalate_singleton, List.splitOn_eq_singleton hnot, List.map_singleton, htrimmed.pyStrip_between]
      | cons next elements =>
        have hnot : ',' ∉ ' ' :: e.toList := by simp [hcomma]
        have hfirst : pyStrip (' ' :: e.toList) = e.toList := by rw [pyStrip_cons_blank (by decide), htrimmed.pyStrip_eq]
        have ih := ih helements
        rw [if_neg (List.cons_ne_nil _ _)] at ih
        have hlist : ' ' :: (List.intercalate (", ").toList ((e :: next :: elements).map String.toList) ++ [' ']) =
            (' ' :: e.toList) ++ ',' :: (' ' :: (List.intercalate (", ").toList ((next :: elements).map String.toList) ++ [' '])) := by
          simp [List.intercalate_cons_cons]
        rw [hlist, List.splitOn_append_cons_self, List.splitOn_eq_singleton hnot, List.map_append, List.map_singleton, hfirst, ih]
        rfl
  rw [splitElements, hpieces]
  by_cases hnil : elements = []
  · rw [if_pos hnil, hnil]
    rfl
  · rw [if_neg hnil, List.filter_eq_self.2, map_ofList_toList]
    intro text htext
    obtain ⟨e, he, rfl⟩ := List.mem_map.1 htext
    simpa using (h e he).1

/-! ## One line -/

variable {form : NftForm} {lineno : Nat} {raw : List Char} {s : ParseState} {family table name : String} {tail : List String}

/-- A line is for the table `ferm` and for the family of the lines before it. -/
def Admitted (s : ParseState) (family table : String) : Prop :=
  table = NFT_TABLE_NAME ∧ ¬(s.family.isSome ∧ s.family ≠ some family)

instance : Decidable (Admitted s family table) := inferInstanceAs (Decidable (_ ∧ _))

/-- What a line of an admitted family and table makes of the state. -/
theorem toOption_parseLine (line : ScriptLine) :
    (parseLine form lineno line s).toOption =
      if Admitted s line.family line.table then
        (parseCommand form line.family s.ferm line.command).map fun ferm => ⟨some line.family, ferm⟩
      else none := by
  rw [parseLine]
  by_cases h : Admitted s line.family line.table
  · have hno : ¬(line.table ≠ NFT_TABLE_NAME ∨ (s.family.isSome ∧ s.family ≠ some line.family)) := by
      rintro (hne | hfamily)
      · exact hne h.1
      · exact h.2 hfamily
    rw [if_neg hno, if_pos h]
    cases parseCommand form line.family s.ferm line.command <;> rfl
  · rw [if_neg h, if_pos]
    · rfl
    · by_contra hno
      rw [not_or, not_not] at hno
      exact h hno

/-- The head of an object's line says which family and which name it is for. -/
theorem parseObjectHead_eq {parts : List String} {k : Nat} (hfamily : parts[k - 2]? = some family) (htable : parts[k - 1]? = some table)
    (hname : parts[k]? = some name) :
    parseObjectHead parts s.family lineno raw k =
      if Admitted s family table then .ok (family, name) else .error (saveParseError lineno raw) := by
  rw [parseObjectHead, hfamily, htable, hname, checkFamily, Option.getD_some, Option.getD_some]
  by_cases hferm : table = NFT_TABLE_NAME
  · rw [if_neg (not_not.2 (congrArg some hferm))]
    by_cases hother : s.family.isSome ∧ s.family ≠ some family
    · rw [if_pos hother, if_neg fun h => h.2 hother]
      rfl
    · rw [if_neg hother, if_pos ⟨hferm, hother⟩]
      rfl
  · rw [if_pos fun h => hferm (Option.some.inj h), if_neg fun h => hferm h.1]

/-- A line about the table says which family it is for. -/
theorem checkFamily_eq (lineno : Nat) (raw : List Char) (s : ParseState) (family table : String) :
    (if table = NFT_TABLE_NAME then checkFamily s.family family lineno raw else .error (saveParseError lineno raw)) =
      if Admitted s family table then .ok family else .error (saveParseError lineno raw) := by
  rw [checkFamily]
  by_cases hferm : table = NFT_TABLE_NAME
  · rw [if_pos hferm]
    by_cases hother : s.family.isSome ∧ s.family ≠ some family
    · rw [if_pos hother, if_neg fun h => h.2 hother]
    · rw [if_neg hother, if_pos ⟨hferm, hother⟩]
  · rw [if_neg hferm, if_neg fun h => hferm h.1]

/-- A line of another table or another family is refused, whatever it says. -/
theorem parseProduction_refused {line : ScriptLine} (h : line.Printable) (hno : ¬ Admitted s line.family line.table) (text : List Char) :
    (parseProduction form lineno raw text (line.head ++ textWords line.command.rest.toList) s).toOption = none := by
  obtain ⟨family, table, command⟩ := line
  have hobject (verb sub name : String) (tail : List String) :
      parseObjectHead (verb :: sub :: family :: table :: name :: tail) s.family lineno raw 4 = .error (saveParseError lineno raw) :=
    (parseObjectHead_eq rfl rfl rfl).trans (if_neg hno)
  have hhelper (verb sub sub' name : String) (tail : List String) :
      parseObjectHead (verb :: sub :: sub' :: family :: table :: name :: tail) s.family lineno raw 5 = .error (saveParseError lineno raw) :=
    (parseObjectHead_eq rfl rfl rfl).trans (if_neg hno)
  have htable := (checkFamily_eq lineno raw s family table).trans (if_neg hno)
  simp only [ScriptLine.head]
  cases command
  case addObject kind name body =>
    rcases h.command.1 with rfl | rfl
    · simp [parseProduction, Command.verbs, Command.names, show words "secmark" = ["secmark"] by decide, hobject]
      rfl
    · simp [parseProduction, Command.verbs, Command.names, show words "ct helper" = ["ct", "helper"] by decide, hhelper]
      split <;> rfl
  case addChain => simp [parseProduction, Command.verbs, Command.names, hobject]; rfl
  case addSet => simp [parseProduction, Command.verbs, Command.names, hobject]; rfl
  case addElement => simp [parseProduction, Command.verbs, Command.names, hobject]; rfl
  case addRule =>
    simp [parseProduction, Command.verbs, Command.names, hobject]
    split <;> rfl
  case flushChain => simp [parseProduction, Command.verbs, Command.names]; rfl
  case deleteChain => simp [parseProduction, Command.verbs, Command.names]; rfl
  case deleteElement => simp [parseProduction, Command.verbs, Command.names]; rfl
  -- the lines about the table itself
  all_goals
    simp [parseProduction, Command.verbs, Command.names, Command.rest, textWords, pyWords, NFT_VERBS]
    split
    · rename_i hferm
      rw [if_pos hferm] at htable
      rw [htable]
      rfl
    · rfl

/-- The text of an admitted line. -/
theorem parseProduction_admitted {line : ScriptLine} (h : line.Printable) (hadmitted : Admitted s line.family line.table) :
    (parseProduction form lineno raw line.toText.toList (line.head ++ textWords line.command.rest.toList) s).toOption =
      (parseCommand form line.family s.ferm line.command).map fun ferm => ⟨some line.family, ferm⟩ := by
  obtain ⟨family, table, command⟩ := line
  obtain rfl : table = NFT_TABLE_NAME := hadmitted.1
  have hobject (verb sub name : String) (tail : List String) :
      parseObjectHead (verb :: sub :: family :: NFT_TABLE_NAME :: name :: tail) s.family lineno raw 4 = .ok (family, name) :=
    (parseObjectHead_eq rfl rfl rfl).trans (if_pos hadmitted)
  have hhelper (verb sub sub' name : String) (tail : List String) :
      parseObjectHead (verb :: sub :: sub' :: family :: NFT_TABLE_NAME :: name :: tail) s.family lineno raw 5 = .ok (family, name) :=
    (parseObjectHead_eq rfl rfl rfl).trans (if_pos hadmitted)
  have htable : checkFamily s.family family lineno raw = .ok family := if_neg hadmitted.2
  have hbrace {text : String} (hrest : command.rest = "\x7b " ++ text ++ " \x7d") :
      braceBody (ScriptLine.toText ⟨family, NFT_TABLE_NAME, command⟩).toList = some (' ' :: (text.toList ++ [' '])) := by
    rw [toList_toText h.command, hrest]
    exact braceBody_afterWords (no_brace_head h) text
  simp only [ScriptLine.head]
  cases command
  case addSet name statements =>
    simp [parseProduction, Command.verbs, Command.names, hobject, hbrace (braceText_eq statements), parseCommand, parseSetHeaderText_statements h.command.2]
    rfl
  case addElement name elements =>
    have helements : splitElements (' ' :: ([',', ' '].intercalate (elements.map String.toList) ++ [' '])) = elements := by
      simpa using splitElements_intercalate h.command.2
    simp [parseProduction, Command.verbs, Command.names, hobject, hbrace rfl, parseCommand, helements]
    rfl
  case addObject kind name body =>
    rcases h.command.1 with rfl | rfl
    · simp [parseProduction, Command.verbs, Command.names, show words "secmark" = ["secmark"] by decide, hobject, storeTableObject, hbrace rfl, parseCommand, h.command.2.2.1.pyStrip_between]
      rfl
    · simp [parseProduction, Command.verbs, Command.names, show words "ct helper" = ["ct", "helper"] by decide, hhelper, storeTableObject, hbrace rfl, parseCommand, h.command.2.2.1.pyStrip_between, Command.rest, textWords_brace]
      rfl
  case flushChain => simp [parseProduction, Command.verbs, Command.names, parseCommand]; rfl
  case deleteChain => simp [parseProduction, Command.verbs, Command.names, parseCommand]; rfl
  case deleteElement => simp [parseProduction, Command.verbs, Command.names, parseCommand]; rfl
  case addTable =>
    simp [parseProduction, Command.verbs, Command.names, Command.rest, textWords, pyWords, NFT_VERBS, htable, parseCommand]
    rfl
  case flushTable =>
    simp [parseProduction, Command.verbs, Command.names, Command.rest, textWords, pyWords, NFT_VERBS, htable, parseCommand]
    rfl
  case deleteTable =>
    simp [parseProduction, Command.verbs, Command.names, Command.rest, textWords, pyWords, NFT_VERBS, htable, parseCommand]
    rfl
  case addChain name header =>
    cases header with
    | none =>
      simp [parseProduction, Command.verbs, Command.names, Command.rest, textWords, pyWords, hobject, parseCommand, parsedPolicy]
      rfl
    | some header =>
      have hstatements : ∀ statement ∈ header.statements, ∀ word ∈ statement, IsHeaderWord word :=
        fun statement hstatement word hword => h.command.2 header rfl word (mem_statements hstatement hword)
      -- the braces are looked for behind the two verbs
      have hdrop : braceBody (pyStrip ((ScriptLine.toText ⟨family, NFT_TABLE_NAME, .addChain name (some header)⟩).toList.drop "add chain".length)) =
          some (' ' :: (statementsText header.statements ++ [' '])) := by
        have hhead : (ScriptLine.toText ⟨family, NFT_TABLE_NAME, .addChain name (some header)⟩).toList =
            "add chain".toList ++ ' ' :: afterWords [family, NFT_TABLE_NAME, name] (braceText header.statements) := by
          rw [toList_toText h.command]
          exact afterWords_append (List.cons_ne_nil "add" ["chain"]) (List.cons_ne_nil _ _) _
        have hwords : ∀ word ∈ [family, NFT_TABLE_NAME, name], IsName word := by
          simp only [List.forall_mem_cons]
          exact ⟨h.family, h.table, h.command.1, fun _ h => absurd h List.not_mem_nil⟩
        obtain ⟨htrimmed, -⟩ := oneLine_afterWords (List.cons_ne_nil _ _) (fun word hword => (hwords word hword).1) (oneLine_braceText hstatements)
        have hlength : "add chain".length = "add chain".toList.length := rfl
        rw [hhead, hlength, List.drop_left, pyStrip_cons_blank (by decide), htrimmed.pyStrip_eq, braceText_eq]
        have hbody := braceBody_afterWords (fun word hword => (hwords word hword).2) (String.ofList (statementsText header.statements))
        rwa [String.toList_ofList] at hbody
      have hfirst : textWords (braceText header.statements).toList = "\x7b" :: textWords (statementsText header.statements ++ [' ', '\x7d']) := by
        rw [braceText_eq]
        simp [textWords_brace]
      simp [parseProduction, Command.verbs, Command.names, Command.rest, hfirst, hobject, parseCommand, hdrop, headerWords_statements (h.command.2 header rfl), parsedPolicy]
      rfl
  case addRule chain body =>
    by_cases hbody : body = ""
    · have hnone : parseCommand form family s.ferm (.addRule chain body) = none := by
        cases s.ferm with
        | none => rfl
        | some t => cases hc : t.chains.get? chain <;> simp [parseCommand, hc, hbody]
      rw [hnone]
      simp [parseProduction, Command.verbs, Command.names, Command.rest, textWords, pyWords, hbody]
      rfl
    · have hhead : (ScriptLine.toText ⟨family, NFT_TABLE_NAME, .addRule chain body⟩).toList =
          ("add rule " ++ family ++ " ferm " ++ chain).toList ++ ' ' :: body.toList := by
        simp [ScriptLine.toText, String.toList_append, hbody, NFT_TABLE_NAME]
      have hdrop : pyStrip ((ScriptLine.toText ⟨family, NFT_TABLE_NAME, .addRule chain body⟩).toList.drop
          ("add rule " ++ family ++ " ferm " ++ chain).length) = body.toList := by
        rw [hhead, ← String.length_toList, List.drop_left, pyStrip_cons_blank (by decide), h.command.2.1.pyStrip_eq]
      have hwords : 1 ≤ (textWords body.toList).length := by
        rw [textWords, List.length_map, Nat.one_le_iff_ne_zero, Ne, List.length_eq_zero_iff]
        exact pyWords_ne_nil h.command.2.1 fun hnil => hbody (String.toList_eq_nil_iff.1 hnil)
      simp [parseProduction, Command.verbs, Command.names, Command.rest, hobject, parseCommand, hbody, -String.length_append]
      rw [if_pos hwords]
      change (match s.ferm.bind fun t => Option.map (fun c => (t, c)) (t.chains.get? chain) with
        | none => Except.error (saveParseError lineno raw)
        | some (t, c) => _).toOption = _
      cases s.ferm with
      | none => rfl
      | some t =>
        cases hc : t.chains.get? chain with
        | none => simp [hc]; rfl
        | some c => simp [hc, hdrop, -String.length_append]; rfl

/-- A line is neither empty nor a comment. -/
theorem not_skipped (line : ScriptLine) : ¬(line.toText.toList = [] ∨ line.toText.toList.head? = some '#') := by
  rw [not_or]
  obtain ⟨family, table, command⟩ := line
  cases command
  case addChain name header => cases header <;> simp [ScriptLine.toText, String.toList_append]
  all_goals simp [ScriptLine.toText, String.toList_append]

/-- The text of a line is read as its command is. -/
theorem parseScriptLine_toText {line : ScriptLine} (h : line.Printable) (lineno : Nat) (s : ParseState) :
    (parseScriptLine form lineno line.toText.toList s).toOption = (parseLine form lineno line s).toOption := by
  obtain ⟨htrimmed, -, hwords⟩ := line_toText h
  rw [parseScriptLine, htrimmed.pyStrip_eq, if_neg (not_skipped line), hwords, toOption_parseLine]
  by_cases hadmitted : Admitted s line.family line.table
  · rw [if_pos hadmitted, parseProduction_admitted h hadmitted]
  · rw [if_neg hadmitted, parseProduction_refused h hadmitted]

/-! ## Whole scripts -/

theorem toList_scriptText (lines : List ScriptLine) :
    (scriptText lines).toList = (lines.map fun line => line.toText.toList).flatMap fun line => line ++ ['\n'] := by
  rw [scriptText, String.toList_join, List.flatMap_map, List.flatMap_map]
  simp [String.toList_append]

/-- The lines of the text of a script are those of the script. -/
theorem splitLines_scriptText {lines : List ScriptLine} (h : ∀ line ∈ lines, line.Printable) :
    splitLines (scriptText lines).toList = lines.map fun line => line.toText.toList := by
  rw [toList_scriptText, splitLines_lines, List.flatMap_map, List.map_eq_flatMap]
  refine List.flatMap_congr fun line hline => ?_
  have hboundary := (line_toText (h line hline)).2.1
  rw [firstLine_eq_self hboundary, furtherLines_eq_nil hboundary]

/-- The text of a script is read as its commands are: with the same tables, or refused as they are. -/
theorem parseNftScriptText_toOption {lines : List ScriptLine} (h : ∀ line ∈ lines, line.Printable) :
    (parseNftScriptText form (scriptText lines)).toOption = (parseNftScript form lines).toOption := by
  have hlines : ∀ (lineno : Nat) (s : ParseState),
      (parseScriptLines form lineno (lines.map fun line => line.toText.toList) s).toOption = (parseLines form lineno lines s).toOption := by
    induction lines with
    | nil => exact fun _ _ => rfl
    | cons line lines ih =>
      intro lineno s
      obtain ⟨hline, hlines⟩ := List.forall_mem_cons.1 h
      have hstep : (parseScriptLine form lineno line.toText.toList s).toOption = (parseLine form lineno line s).toOption :=
        parseScriptLine_toText hline lineno s
      rw [List.map_cons, parseScriptLines, parseLines]
      cases htext : parseScriptLine form lineno line.toText.toList s with
      | error e =>
        rw [htext] at hstep
        cases hcommand : parseLine form lineno line s with
        | error e' => rfl
        | ok s' =>
          rw [hcommand] at hstep
          cases hstep
      | ok s₁ =>
        rw [htext] at hstep
        cases hcommand : parseLine form lineno line s with
        | error e' =>
          rw [hcommand] at hstep
          cases hstep
        | ok s' =>
          rw [hcommand] at hstep
          obtain rfl : s₁ = s' := Option.some.inj hstep
          exact ih hlines (lineno + 1) s₁
  have hall := hlines 1 {}
  rw [parseNftScriptText, parseNftScript, splitLines_scriptText h]
  cases htext : parseScriptLines form 1 (lines.map fun line => line.toText.toList) {} <;>
    cases hcommand : parseLines form 1 lines {} <;> rw [htext, hcommand] at hall
  case error.error => rfl
  case error.ok => cases hall
  case ok.error => cases hall
  case ok.ok s s' =>
    obtain rfl : s = s' := Option.some.inj hall
    rfl

end Ferm
