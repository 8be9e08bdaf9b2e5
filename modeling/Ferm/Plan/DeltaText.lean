import Ferm.Plan.Delta
import Ferm.Plan.ScriptText

/-!
# The text of a delta

The index of a rendered script's text and the delta script that is copied from it, line by line. For a script that can be read, the
text of the delta is the text of the delta's commands.
-/

namespace Ferm

/-! ## The index of the text -/

/-- `_DesiredIndex`: the stripped lines by the name of the object they are about. -/
structure TextIndex where
  chainDecl : Dict String String := Dict.empty
  chainRules : Dict String (List String) := Dict.empty
  setDecl : Dict String String := Dict.empty
  setElements : Dict String String := Dict.empty
  objectDecl : Dict String String := Dict.empty

/-- The productions of `_build_desired_index`: a stripped line with its words. -/
def indexProduction (index : TextIndex) (text : String) (parts : List String) : Except FermError TextIndex :=
  let fail : Except FermError TextIndex := .error (internalError ("unexpected render line: " ++ pyRepr text))
  let sub := (parts[1]?).getD ""
  let name := (parts[4]?).getD ""
  if parts.take 2 = ["delete", "table"] then .ok {}
  else if parts.take 2 = ["add", "table"] ∨ parts.take 2 = ["flush", "table"] then .ok index
  else if parts.length ≤ 4 ∨ parts[0]? ≠ some "add" then fail
  else if sub = "ct" ∧ parts[2]? = some "helper" ∧ 5 < parts.length then
    .ok { index with objectDecl := index.objectDecl.set ((parts[5]?).getD "") text }
  else if sub = "chain" then .ok { index with chainDecl := index.chainDecl.set name text }
  else if sub = "rule" then
    .ok { index with chainRules := index.chainRules.set name ((index.chainRules.get? name).getD [] ++ [text]) }
  else if sub = "set" then .ok { index with setDecl := index.setDecl.set name text }
  else if sub = "element" then .ok { index with setElements := index.setElements.set name text }
  else if sub = "secmark" then .ok { index with objectDecl := index.objectDecl.set name text }
  else fail

/-- One line of `_build_desired_index`; empty lines and comments are skipped. -/
def indexTextLine (index : TextIndex) (raw : List Char) : Except FermError TextIndex :=
  let stripped := pyStrip raw
  if stripped = [] ∨ stripped.head? = some '#' then .ok index
  else indexProduction index (String.ofList stripped) (textWords stripped)

/-- `_build_desired_index` on the text of a script. -/
def buildDesiredIndexText (desiredSave : String) : Except FermError TextIndex :=
  (splitLines desiredSave.toList).foldlM indexTextLine {}

/-! ## The lines of a delta -/

/-- `_emit_set_changes` for one set change. -/
def emitSetChangeText (current : ParsedTable) (index : TextIndex) (family : String) (sc : SetChange) : Except FermError (List String) :=
  let pref := family ++ " ferm"
  match sc.kind with
  | .remove => .error (internalError ("set remove reached the emitter (should full-reload): " ++ pyRepr sc.name))
  | .add =>
    match index.setDecl.get? sc.name with
    | none => .error (internalError ("no desired decl for set " ++ pyRepr sc.name))
    | some decl => .ok (decl :: (index.setElements.get? sc.name).toList)
  | .modify =>
    match current.sets.get? sc.name with
    | none => .error ⟨"KeyError: " ++ pyRepr sc.name⟩
    | some live =>
      let removed := live.elements.filter (· ∉ sc.elements)
      let added := sc.elements.filter (· ∉ live.elements)
      .ok ((if removed = [] then []
          else ["delete element " ++ pref ++ " " ++ sc.name ++ " \x7b " ++ String.intercalate ", " removed ++ " \x7d"]) ++
        if added = [] then [] else ["add element " ++ pref ++ " " ++ sc.name ++ " \x7b " ++ String.intercalate ", " added ++ " \x7d"])

/-- `_emit_set_changes`. -/
def emitSetChangesText (diff : PlanDiff) (current : ParsedTable) (index : TextIndex) (family : String) :
    Except FermError (List String) :=
  ((diff.setChanges.insertionSort fun a b => a.name ≤ b.name).mapM (emitSetChangeText current index family)).map List.flatten

/-- `_emit_chain_changes` for one desired chain. -/
def emitChainText (diff : PlanDiff) (current : ParsedTable) (index : TextIndex) (family name : String) : List String :=
  let pref := family ++ " ferm"
  match index.chainDecl.get? name with
  | none => []
  | some decl =>
    let rules := (index.chainRules.get? name).getD []
    if name ∉ current.chains then decl :: rules
    else if name ∈ diff.chainRebuilds.map ChainRebuild.chain then ("delete chain " ++ pref ++ " " ++ name) :: decl :: rules
    else if name ∈ diff.rulesAdded.map RuleChange.chain ∨ name ∈ diff.rulesRemoved.map RuleChange.chain then
      decl :: ("flush chain " ++ pref ++ " " ++ name) :: rules
    else if name ∈ diff.policyChanges.map PolicyChange.chain then [decl]
    else []

/-- `_emit_chain_changes`. -/
def emitChainChangesText (diff : PlanDiff) (current : ParsedTable) (index : TextIndex) (family : String) : List String :=
  let pref := family ++ " ferm"
  (sortedNames index.chainDecl.keys).flatMap (emitChainText diff current index family) ++
    (sortedNames (diff.desuetChains.map DesuetChain.chain)).map (fun name => "delete chain " ++ pref ++ " " ++ name) ++
    (sortedNames (diff.foreignChains.map ForeignChain.chain)).map fun name => "delete chain " ++ pref ++ " " ++ name

/-- `emit_delta_script`. -/
def emitDeltaScriptText (diff : PlanDiff) (current : Dict String ParsedTable) (index : TextIndex) (family : String) :
    Except FermError String :=
  if diff.hasChanges = false then .ok ""
  else
    let table := tableOf current NFT_TABLE_NAME
    (emitSetChangesText diff table index family).map fun sets =>
      String.intercalate "\n" (("add table " ++ family ++ " ferm") :: (sets ++ emitChainChangesText diff table index family)) ++ "\n"

/-- `build_nft_delta` over the parsed snapshot, on the text of the rendered script. -/
def buildNftDeltaText (form : NftForm) (current : Dict String ParsedTable) (desiredSave : String) (family : String) :
    Except FermError (Option String) := do
  let desired ← parseNftScriptText form desiredSave
  let diff := diffTables current desired false
  if diff.setChanges.any fun sc => sc.kind = .remove then return none
  if diff.objectChanges ≠ [] then return none
  let index ← buildDesiredIndexText desiredSave
  let script ← emitDeltaScriptText diff current index family
  return some script

/-! ## The index of a readable script -/

/-- The texts of an index. -/
def DesiredIndex.texts (index : DesiredIndex) : TextIndex where
  chainDecl := index.chainDecl.mapValues ScriptLine.toText
  chainRules := index.chainRules.mapValues (List.map ScriptLine.toText)
  setDecl := index.setDecl.mapValues ScriptLine.toText
  setElements := index.setElements.mapValues ScriptLine.toText
  objectDecl := index.objectDecl.mapValues ScriptLine.toText

/-- The rules of a chain, as texts. -/
theorem chainRules_texts (index : DesiredIndex) (name : String) :
    (index.texts.chainRules.get? name).getD [] = ((index.chainRules.get? name).getD []).map ScriptLine.toText := by
  rw [DesiredIndex.texts, Dict.get?_mapValues]
  cases index.chainRules.get? name <;> rfl

/-- A line of a script is indexed as its command is. -/
theorem indexTextLine_toText {line : ScriptLine} (h : line.Printable) (index : DesiredIndex) :
    indexTextLine index.texts line.toText.toList = (indexLine index line).map DesiredIndex.texts := by
  obtain ⟨htrimmed, -, hwords⟩ := line_toText h
  rw [indexTextLine, htrimmed.pyStrip_eq, if_neg (not_skipped line), hwords, String.ofList_toList]
  obtain ⟨family, table, command⟩ := line
  simp only [ScriptLine.head]
  cases command
  case addObject kind name body =>
    have hsecmark : words "secmark" = ["secmark"] := by decide
    have hhelper : words "ct helper" = ["ct", "helper"] := by decide
    rcases h.command.1 with rfl | rfl
    · simp [indexProduction, indexLine, Command.verbs, Command.names, hsecmark, DesiredIndex.texts, Dict.mapValues_set, Except.map]
    · simp [indexProduction, indexLine, Command.verbs, Command.names, hhelper, DesiredIndex.texts, Dict.mapValues_set, Except.map]
  case addRule chain body =>
    have hrules := chainRules_texts index chain
    simp [indexProduction, indexLine, Command.verbs, Command.names, hrules, Except.map]
    simp [DesiredIndex.texts, Dict.mapValues_set]
  case deleteTable => rfl
  all_goals simp [indexProduction, indexLine, Command.verbs, Command.names, DesiredIndex.texts, Dict.mapValues_set, Except.map]

/-- The lines of a readable script are indexed as its commands are. -/
theorem foldlM_indexTextLine {lines : List ScriptLine} (h : ∀ line ∈ lines, line.Printable) (index : DesiredIndex) :
    (lines.map fun line => line.toText.toList).foldlM indexTextLine index.texts =
      (lines.foldlM indexLine index).map DesiredIndex.texts := by
  induction lines generalizing index with
  | nil => rfl
  | cons line lines ih =>
    obtain ⟨hline, hlines⟩ := List.forall_mem_cons.1 h
    rw [List.map_cons, List.foldlM_cons, List.foldlM_cons, indexTextLine_toText hline]
    cases indexLine index line with
    | error e => rfl
    | ok next => exact ih hlines next

theorem buildDesiredIndexText_scriptText {lines : List ScriptLine} (h : ∀ line ∈ lines, line.Printable) :
    buildDesiredIndexText (scriptText lines) = (buildDesiredIndex lines).map DesiredIndex.texts := by
  rw [buildDesiredIndexText, splitLines_scriptText h]
  exact foldlM_indexTextLine h {}

/-! ## What is copied -/

variable {index : DesiredIndex} {family : String}

/-- A set change is written line by line as its commands are. -/
theorem emitSetChangeText_texts (current : ParsedTable) (sc : SetChange) :
    emitSetChangeText current index.texts family sc = (emitSetChange current index family sc).map (List.map ScriptLine.toText) := by
  rw [emitSetChangeText, emitSetChange]
  cases sc.kind with
  | remove => rfl
  | add =>
    have hdecl : index.texts.setDecl.get? sc.name = (index.setDecl.get? sc.name).map ScriptLine.toText := Dict.get?_mapValues ..
    have helements : index.texts.setElements.get? sc.name = (index.setElements.get? sc.name).map ScriptLine.toText :=
      Dict.get?_mapValues ..
    rw [hdecl, helements]
    cases index.setDecl.get? sc.name with
    | none => rfl
    | some decl => cases index.setElements.get? sc.name <;> rfl
  | modify =>
    cases current.sets.get? sc.name with
    | none => rfl
    | some live =>
      have hdelete (elements : List String) :
          "delete element " ++ (family ++ " ferm") ++ " " ++ sc.name ++ " \x7b " ++ String.intercalate ", " elements ++ " \x7d" =
            (deltaLine family (.deleteElement sc.name elements)).toText := by
        simp [← String.toList_inj, String.toList_append, deltaLine, ScriptLine.toText, setBody, NFT_TABLE_NAME]
      have hadd (elements : List String) :
          "add element " ++ (family ++ " ferm") ++ " " ++ sc.name ++ " \x7b " ++ String.intercalate ", " elements ++ " \x7d" =
            (deltaLine family (.addElement sc.name elements)).toText := by
        simp [← String.toList_inj, String.toList_append, deltaLine, ScriptLine.toText, setBody, NFT_TABLE_NAME]
      simp only [hdelete, hadd, Except.map, List.map_append]
      split_ifs <;> rfl

/-- Set changes are written as their commands are. -/
theorem emitSetChangesText_texts (diff : PlanDiff) (current : ParsedTable) :
    emitSetChangesText diff current index.texts family =
      (emitSetChanges diff current index family).map (List.map ScriptLine.toText) := by
  have hmap (changes : List SetChange) :
      changes.mapM (emitSetChangeText current index.texts family) =
        (changes.mapM (emitSetChange current index family)).map (List.map (List.map ScriptLine.toText)) := by
    induction changes with
    | nil => rfl
    | cons sc changes ih =>
      rw [List.mapM_cons, List.mapM_cons, ih, emitSetChangeText_texts]
      cases emitSetChange current index family sc with
      | error e => rfl
      | ok lines => cases changes.mapM (emitSetChange current index family) <;> rfl
  rw [emitSetChangesText, emitSetChanges, hmap]
  cases (diff.setChanges.insertionSort fun a b => a.name ≤ b.name).mapM (emitSetChange current index family) with
  | error e => rfl
  | ok lines => exact congrArg Except.ok List.map_flatten.symm

/-- A chain is written line by line as its commands are. -/
theorem emitChainText_texts (diff : PlanDiff) (current : ParsedTable) (name : String) :
    emitChainText diff current index.texts family name = (emitChain diff current index family name).map ScriptLine.toText := by
  have hdelete : "delete chain " ++ (family ++ " ferm") ++ " " ++ name = (deltaLine family (.deleteChain name)).toText := by
    simp [deltaLine, ScriptLine.toText, NFT_TABLE_NAME, String.append_assoc]
  have hflush : "flush chain " ++ (family ++ " ferm") ++ " " ++ name = (deltaLine family (.flushChain name)).toText := by
    simp [deltaLine, ScriptLine.toText, NFT_TABLE_NAME, String.append_assoc]
  have hdecl : index.texts.chainDecl.get? name = (index.chainDecl.get? name).map ScriptLine.toText := Dict.get?_mapValues ..
  rw [emitChainText, emitChain, hdecl]
  cases index.chainDecl.get? name with
  | none => rfl
  | some decl =>
    simp only [Option.map_some, chainRules_texts, hdelete, hflush]
    split_ifs <;> simp

/-- Chain changes are written as their commands are. -/
theorem emitChainChangesText_texts (diff : PlanDiff) (current : ParsedTable) :
    emitChainChangesText diff current index.texts family = (emitChainChanges diff current index family).map ScriptLine.toText := by
  have hkeys : index.texts.chainDecl.keys = index.chainDecl.keys := Dict.keys_mapValues ..
  have hdelete (names : List String) :
      (names.map fun name => "delete chain " ++ (family ++ " ferm") ++ " " ++ name) =
        (names.map fun name => deltaLine family (.deleteChain name)).map ScriptLine.toText := by
    rw [List.map_map]
    refine List.map_congr_left fun name _ => ?_
    simp [deltaLine, ScriptLine.toText, NFT_TABLE_NAME, String.append_assoc]
  simp only [emitChainChangesText, emitChainChanges, hkeys, hdelete, List.map_append, List.map_flatMap]
  rw [List.flatMap_congr fun name _ => emitChainText_texts diff current name]

/-! ## The text of the delta -/

theorem scriptText_cons (line : ScriptLine) (lines : List ScriptLine) :
    scriptText (line :: lines) = String.intercalate "\n" ((line :: lines).map ScriptLine.toText) ++ "\n" := by
  induction lines generalizing line with
  | nil => simp [scriptText]
  | cons next lines ih =>
    rw [List.map_cons, List.map_cons, String.intercalate_cons_cons, ← List.map_cons, String.append_assoc, ← ih]
    simp [scriptText, String.append_assoc]

theorem emitDeltaScriptText_texts (diff : PlanDiff) (current : Dict String ParsedTable) :
    emitDeltaScriptText diff current index.texts family = (emitDeltaScript diff current index family).map scriptText := by
  rw [emitDeltaScriptText, emitDeltaScript]
  by_cases hchanges : diff.hasChanges = false
  · rw [if_pos hchanges, if_pos hchanges]
    rfl
  · rw [if_neg hchanges, if_neg hchanges]
    simp only [emitSetChangesText_texts, emitChainChangesText_texts]
    cases emitSetChanges diff (tableOf current NFT_TABLE_NAME) index family with
    | error e => rfl
    | ok sets =>
      have htable : "add table " ++ family ++ " ferm" = (deltaLine family .addTable).toText := by
        simp [deltaLine, ScriptLine.toText, NFT_TABLE_NAME, String.append_assoc]
      refine congrArg Except.ok ?_
      rw [scriptText_cons, htable, List.map_cons, List.map_append]

/-- The text of a delta is the text of its commands: on the text of a readable script the delta builder refuses, diverts to a reload
and writes exactly what it does on the script's commands. -/
theorem buildNftDeltaText_toOption {form : NftForm} {lines : List ScriptLine} (h : ∀ line ∈ lines, line.Printable)
    (current : Dict String ParsedTable) (family : String) :
    (buildNftDeltaText form current (scriptText lines) family).toOption =
      (buildNftDelta form current lines family).toOption.map (Option.map scriptText) := by
  have hread : (parseNftScriptText form (scriptText lines)).toOption = (parseNftScript form lines).toOption :=
    parseNftScriptText_toOption h
  simp only [buildNftDeltaText, buildNftDelta, bind, Except.bind, buildDesiredIndexText_scriptText h]
  cases htext : parseNftScriptText form (scriptText lines) <;> cases hcommand : parseNftScript form lines <;> rw [htext, hcommand] at hread
  case error.error => rfl
  case error.ok => cases hread
  case ok.error => cases hread
  case ok.ok desired desired' =>
    obtain rfl : desired = desired' := Option.some.inj hread
    dsimp only
    split_ifs
    · rfl
    · rfl
    · cases buildDesiredIndex lines with
      | error e => rfl
      | ok index =>
        simp only [Except.map, emitDeltaScriptText_texts]
        cases emitDeltaScript (diffTables current desired false) current index family <;> rfl

end Ferm
