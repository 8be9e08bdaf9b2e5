import Ferm.Plan.ListText

/-!
# Listings

A table as `nft list table` prints it: every chain, set and object a block, one line for a header, a rule or a statement, the elements
of a set on one line or wrapped after any of them. The reader recovers the table: no brace in a line is taken for a block's.
-/

namespace Ferm

/-! ## Printed tables -/

/-- A block of a listing. The elements of a set are given line by line. -/
inductive ListedBlock where
  | chain (name : String) (header : Option ChainHeader) (rules : List String)
  | set (name : String) (statements elements : List (List String))
  | object (name kind : String) (body : List String)

/-- A line after tabs. -/
def tabbed (n : Nat) (line : List Char) : List Char := List.replicate n '\t' ++ line

/-- One line's elements; `rest` are those of the lines after it. -/
def elementsText (line : List String) (rest : List (List String)) : List Char :=
  List.intercalate [',', ' '] (line.map String.toList) ++ if rest = [] then [' ', '\x7d'] else [',']

/-- The lines of the elements after the first. -/
def furtherElementLines : List (List String) → List (List Char)
  | [] => []
  | line :: rest => (tabbed 3 ("     ".toList ++ elementsText line rest)) :: furtherElementLines rest

/-- What stands before the first element. -/
def elementsLead : List Char := "elements = \x7b ".toList

/-- The lines of a set's elements. -/
def elementLines : List (List String) → List (List Char)
  | [] => []
  | line :: rest => tabbed 2 (elementsLead ++ elementsText line rest) :: furtherElementLines rest

/-- The line that closes a block. -/
def closingLine : List Char := tabbed 1 ['\x7d']

/-- The line that opens a block. -/
def openingLine (kind name : String) : List Char := tabbed 1 (kind.toList ++ ' ' :: (name.toList ++ " \x7b".toList))

/-- The lines of a block. -/
def ListedBlock.lines : ListedBlock → List (List Char)
  | chain name header rules =>
    openingLine "chain" name :: ((header.map fun h => tabbed 2 (statementsText h.statements)).toList ++
      rules.map (fun rule => tabbed 2 rule.toList) ++ [closingLine])
  | set name statements elements =>
    openingLine "set" name :: (statements.map (fun statement => tabbed 2 (List.intercalate [' '] (statement.map String.toList))) ++
      elementLines elements ++ [closingLine])
  | object name kind body => openingLine kind name :: (body.map (fun line => tabbed 2 line.toList) ++ [closingLine])

/-- The lines of the blocks, with an empty line between any two. -/
def blockLines (blocks : List ListedBlock) : List (List Char) := List.intercalate [[]] (blocks.map ListedBlock.lines)

/-- The lines of a table. -/
def listingLines (family : String) (blocks : List ListedBlock) : List (List Char) :=
  ("table ".toList ++ (family.toList ++ " ferm \x7b".toList)) :: (blockLines blocks ++ [['\x7d']])

/-- What `nft list table` prints of a table. -/
def listingText (family : String) (blocks : List ListedBlock) : String :=
  String.ofList ((listingLines family blocks).flatMap fun line => line ++ ['\n'])

/-- What a block is read as. -/
def ListedBlock.store (form : NftForm) (family : String) (t : ParsedTable) : ListedBlock → ParsedTable
  | chain name header rules =>
    { t with chains := t.chains.set name ⟨parsedPolicy family header, rules.map (form.canonicalizeNftRule family)⟩ }
  | set name statements elements =>
    let header := parseSetHeader statements
    { t with sets := t.sets.set name ⟨name, form.canonicalizeSetElements elements.flatten, header.1, header.2⟩ }
  | object name kind body => { t with objects := t.objects.set name ⟨name, kind, String.intercalate " " body⟩ }

/-! ## Tables that can be read -/

/-- A line of a block's body: it is not empty, closes no block, and is neither a comment nor the beginning of a list of elements. -/
structure IsBodyLine (line : String) : Prop where
  oneLine : OneLine line
  ne_nil : line ≠ ""
  ne_close : line ≠ "\x7d"
  noComment : line.toList.head? ≠ some '#'
  noElements : "elements".toList.isPrefixOf line.toList = false

/-- An element of a set that has a place in a listing. -/
structure IsListedElement (e : String) : Prop where
  ne_nil : e ≠ ""
  oneLine : OneLine e
  noComma : ',' ∉ e.toList
  noBrace : '\x7d' ∉ e.toList

/-- A block that can be read. A base chain's header says its type, hook and priority, in this order; a user chain does not begin with a
rule that looks like one. -/
def ListedBlock.Listable : ListedBlock → Prop
  | chain name header rules =>
    isListIdent true name.toList = true ∧ (∀ rule ∈ rules, IsBodyLine rule) ∧
      match header with
      | none => ∀ rule ∈ rules.head?, isListHeader rule.toList = false
      | some h => (∀ word ∈ h.words, IsHeaderWord word) ∧ ∃ type hook priority rest,
        h.decl = "type" :: type :: "hook" :: hook :: "priority" :: priority :: rest
  | set name statements elements =>
    isListIdent false name.toList = true ∧
      (∀ statement ∈ statements, (∀ word ∈ statement, IsHeaderWord word) ∧ IsBodyLine (String.intercalate " " statement)) ∧
      ∀ line ∈ elements, line ≠ [] ∧ ∀ e ∈ line, IsListedElement e
  | object name kind body =>
    isListIdent false name.toList = true ∧ (kind = "secmark" ∨ kind = "ct helper") ∧ ∀ line ∈ body, IsBodyLine line

theorem IsBodyLine.text {line : String} (h : IsBodyLine line) : line.toList ≠ [] ∧ line.toList ≠ ['\x7d'] :=
  ⟨fun hnil => h.ne_nil (String.toList_eq_nil_iff.1 hnil), fun hclose => h.ne_close (String.toList_inj.1 hclose)⟩

/-- What a body line is, said of the words of a statement. -/
theorem IsBodyLine.statement {statement : List String} (h : IsBodyLine (String.intercalate " " statement)) :
    Trimmed (List.intercalate [' '] (statement.map String.toList)) ∧
      List.intercalate [' '] (statement.map String.toList) ≠ [] ∧
      List.intercalate [' '] (statement.map String.toList) ≠ ['\x7d'] ∧
      (List.intercalate [' '] (statement.map String.toList)).head? ≠ some '#' ∧
      "elements".toList.isPrefixOf (List.intercalate [' '] (statement.map String.toList)) = false := by
  have htext : (String.intercalate " " statement).toList = List.intercalate [' '] (statement.map String.toList) := String.toList_intercalate ..
  rw [← htext]
  exact ⟨h.oneLine.1, h.text.1, h.text.2, h.noComment, h.noElements⟩

/-! ## Joining the elements -/

namespace ListingAux

theorem isPySpace_tabs (n : Nat) : ∀ c ∈ List.replicate n '\t', isPySpace c = true := by
  intro c hc
  rw [List.eq_of_mem_replicate hc]
  decide

theorem tabbed_append (n : Nat) (line more : List Char) : tabbed n (line ++ more) = tabbed n line ++ more := (List.append_assoc ..).symm

theorem pyStrip_tabbed {line : List Char} (h : Trimmed line) (n : Nat) : pyStrip (tabbed n line) = line := by
  rw [tabbed, pyStrip_append_blanks (isPySpace_tabs n), h.pyStrip_eq]

/-- A line that does not begin a list of elements keeps its place. -/
theorem joinElementLines_plain {line : List Char} (h : startsElements line = false) (rest : List (List Char)) :
    joinElementLines none (line :: rest) = line :: joinElementLines none rest := by
  rw [joinElementLines, if_neg]
  rintro ⟨hstarts, -⟩
  rw [h] at hstarts
  cases hstarts

theorem joinElementLines_append {lines : List (List Char)} (h : ∀ line ∈ lines, startsElements line = false) (rest : List (List Char)) :
    joinElementLines none (lines ++ rest) = lines ++ joinElementLines none rest := by
  induction lines with
  | nil => rfl
  | cons line lines ih =>
    obtain ⟨hline, hlines⟩ := List.forall_mem_cons.1 h
    rw [List.cons_append, joinElementLines_plain hline, ih hlines]
    rfl

theorem startsElements_tabbed {line : List Char} (h : Trimmed line) (n : Nat) :
    startsElements (tabbed n line) = "elements".toList.isPrefixOf line := by
  have hdrop : line.dropWhile isPySpace = line := by
    cases line with
    | nil => rfl
    | cons c line => rw [List.dropWhile_cons, h.head c rfl, if_neg Bool.false_ne_true]
  rw [startsElements, tabbed, dropWhile_append_blanks (isPySpace_tabs n), hdrop]

/-- The text of all elements on one line. -/
def allElements (elements : List (List String)) : List Char :=
  elementsLead ++ (List.intercalate [',', ' '] (elements.flatten.map String.toList) ++ [' ', '\x7d'])

/-- The text of the elements after the first line's, as they are joined. -/
def joinedText : List (List String) → List Char
  | [] => []
  | line :: rest => ' ' :: (elementsText line rest ++ joinedText rest)

theorem intercalate_append_ne_nil {sep : List Char} {xs ys : List (List Char)} (hx : xs ≠ []) (hy : ys ≠ []) :
    List.intercalate sep (xs ++ ys) = List.intercalate sep xs ++ (sep ++ List.intercalate sep ys) := by
  induction xs with
  | nil => exact absurd rfl hx
  | cons x xs ih =>
    cases xs with
    | nil =>
      obtain ⟨y, ys, rfl⟩ := List.exists_cons_of_ne_nil hy
      rw [List.singleton_append, List.intercalate_cons_cons, List.intercalate_singleton, List.append_assoc]
    | cons x' xs =>
      rw [List.cons_append, List.cons_append, List.intercalate_cons_cons, List.intercalate_cons_cons, ← List.cons_append,
        ih (List.cons_ne_nil _ _), List.append_assoc, List.append_assoc, List.append_assoc]

/-- Joined lines of elements are the elements in one line. -/
theorem elementsText_joined (line : List String) (rest : List (List String)) (h : ∀ l ∈ line :: rest, l ≠ []) :
    elementsText line rest ++ joinedText rest =
      List.intercalate [',', ' '] ((line :: rest).flatten.map String.toList) ++ [' ', '\x7d'] := by
  induction rest generalizing line with
  | nil => simp [elementsText, joinedText]
  | cons next rest ih =>
    obtain ⟨hline, hrest⟩ := List.forall_mem_cons.1 h
    have hnext : next ≠ [] := hrest next List.mem_cons_self
    have hne : (next :: rest).flatten.map String.toList ≠ [] := by
      rw [List.flatten_cons, List.map_append]
      exact List.append_ne_nil_of_left_ne_nil (fun hnil => hnext (List.map_eq_nil_iff.1 hnil)) _
    rw [List.flatten_cons, List.map_append, intercalate_append_ne_nil (fun hnil => hline (List.map_eq_nil_iff.1 hnil)) hne,
      elementsText, joinedText, if_neg (List.cons_ne_nil next rest), ih next hrest]
    simp

/-- The elements of an element line do not close it. -/
theorem noBrace_elementsText {line : List String} {rest : List (List String)} (h : ∀ e ∈ line, IsListedElement e) (hrest : rest ≠ []) :
    '\x7d' ∉ elementsText line rest := by
  have hsep : ∀ c ∈ [',', ' '], c ≠ '\x7d' := List.forall_mem_cons.2 ⟨by decide, List.forall_mem_singleton.2 (by decide)⟩
  have hall : ∀ c ∈ List.intercalate [',', ' '] (line.map String.toList), c ≠ '\x7d' := by
    refine forall_mem_intercalate_text hsep fun text htext c hc heq => ?_
    obtain ⟨e, he, rfl⟩ := List.mem_map.1 htext
    exact (h e he).noBrace (heq ▸ hc)
  rw [elementsText, if_neg hrest, List.mem_append, not_or]
  exact ⟨fun hmem => hall _ hmem rfl, by decide⟩

theorem brace_elementsText (line : List String) : '\x7d' ∈ elementsText line [] := by
  simp [elementsText]

theorem trimmed_elementsText {line : List String} (hline : line ≠ []) (h : ∀ e ∈ line, IsListedElement e) (rest : List (List String)) :
    Trimmed (elementsText line rest) := by
  obtain ⟨e, line, rfl⟩ := List.exists_cons_of_ne_nil hline
  obtain ⟨he, -⟩ := List.forall_mem_cons.1 h
  have hne : e.toList ≠ [] := fun hnil => he.ne_nil (String.toList_eq_nil_iff.1 hnil)
  have hhead : ∃ more, List.intercalate [',', ' '] ((e :: line).map String.toList) = e.toList ++ more := by
    cases line with
    | nil => exact ⟨[], by simp⟩
    | cons next line => exact ⟨_, List.intercalate_cons_cons.trans (List.append_assoc ..)⟩
  obtain ⟨more, hmore⟩ := hhead
  rw [elementsText, hmore, List.append_assoc]
  by_cases hrest : rest = []
  · have hclose : Trimmed ['\x7d'] := IsWord.trimmed ⟨List.cons_ne_nil _ _, forall_eq_false (by decide)⟩
    have htrimmed := he.oneLine.1.append hclose hne (List.cons_ne_nil _ _) (more ++ [' '])
    rw [if_pos hrest]
    simpa using htrimmed
  · have hcomma : Trimmed [','] := IsWord.trimmed ⟨List.cons_ne_nil _ _, forall_eq_false (by decide)⟩
    have htrimmed := he.oneLine.1.append hcomma hne (List.cons_ne_nil _ _) more
    rw [if_neg hrest]
    exact htrimmed

theorem pyStrip_furtherLine {line : List String} (hline : line ≠ []) (h : ∀ e ∈ line, IsListedElement e) (rest : List (List String)) :
    pyStrip (tabbed 3 ("     ".toList ++ elementsText line rest)) = elementsText line rest := by
  have hblanks : ∀ c ∈ "     ".toList, isPySpace c = true := List.all_eq_true.1 (by decide)
  rw [tabbed, pyStrip_append_blanks (isPySpace_tabs 3), pyStrip_append_blanks hblanks, (trimmed_elementsText hline h rest).pyStrip_eq]

theorem joinElementLines_further {rest : List (List String)} (hne : rest ≠ [])
    (h : ∀ line ∈ rest, line ≠ [] ∧ ∀ e ∈ line, IsListedElement e) (buf : List Char) (more : List (List Char)) :
    joinElementLines (some buf) (furtherElementLines rest ++ more) = (buf ++ joinedText rest) :: joinElementLines none more := by
  induction rest generalizing buf with
  | nil => exact absurd rfl hne
  | cons line rest ih =>
    obtain ⟨⟨hline, helements⟩, hrest⟩ := List.forall_mem_cons.1 h
    rw [furtherElementLines, List.cons_append, joinElementLines, pyStrip_furtherLine hline helements]
    by_cases hlast : rest = []
    · subst hlast
      have hbrace : '\x7d' ∈ tabbed 3 ("     ".toList ++ elementsText line []) :=
        List.mem_append_right _ (List.mem_append_right _ (brace_elementsText line))
      rw [if_pos hbrace, joinedText, joinedText, List.append_nil]
      rfl
    · have hbrace : '\x7d' ∉ tabbed 3 ("     ".toList ++ elementsText line rest) := by
        simp only [tabbed, List.mem_append, not_or]
        exact ⟨by decide, by decide, noBrace_elementsText helements hlast⟩
      rw [if_neg hbrace, ih hlast hrest, joinedText, List.append_assoc]
      rfl

/-- The lines of a set's elements are joined into one. -/
theorem joinElementLines_elementLines {elements : List (List String)} (h : ∀ line ∈ elements, line ≠ [] ∧ ∀ e ∈ line, IsListedElement e)
    (more : List (List Char)) :
    joinElementLines none (elementLines elements ++ more) =
      (if elements = [] then [] else [tabbed 2 (allElements elements)]) ++ joinElementLines none more := by
  cases elements with
  | nil => rfl
  | cons line rest =>
    obtain ⟨⟨hline, helements⟩, hrest⟩ := List.forall_mem_cons.1 h
    have hjoined := elementsText_joined line rest fun l hl => (h l hl).1
    have hall : tabbed 2 (allElements (line :: rest)) = tabbed 2 (elementsLead ++ elementsText line rest) ++ joinedText rest :=
      calc tabbed 2 (allElements (line :: rest))
        _ = tabbed 2 (elementsLead ++ (elementsText line rest ++ joinedText rest)) :=
          congrArg (fun text => tabbed 2 (elementsLead ++ text)) hjoined.symm
        _ = tabbed 2 (elementsLead ++ elementsText line rest) ++ joinedText rest := by
          rw [← List.append_assoc]
          exact tabbed_append 2 _ _
    rw [elementLines, List.cons_append, if_neg (List.cons_ne_nil line rest), hall, List.singleton_append]
    by_cases hlast : rest = []
    · subst hlast
      have hclosed : ¬(startsElements (tabbed 2 (elementsLead ++ elementsText line [])) = true ∧
          '\x7d' ∉ tabbed 2 (elementsLead ++ elementsText line [])) := fun hopen =>
        hopen.2 (List.mem_append_right _ (List.mem_append_right _ (brace_elementsText line)))
      rw [joinElementLines, if_neg hclosed, joinedText, List.append_nil, furtherElementLines, List.nil_append]
    · have hbrace : '\x7d' ∉ tabbed 2 (elementsLead ++ elementsText line rest) := by
        simp only [tabbed, List.mem_append, not_or]
        exact ⟨by decide, by decide, noBrace_elementsText helements hlast⟩
      have hstarts : startsElements (tabbed 2 (elementsLead ++ elementsText line rest)) = true := by
        rw [startsElements, tabbed, dropWhile_append_blanks (isPySpace_tabs 2)]
        rfl
      have hstrip : pyRstrip (tabbed 2 (elementsLead ++ elementsText line rest)) =
          tabbed 2 (elementsLead ++ elementsText line rest) := by
        rw [tabbed, elementsText, if_neg hlast, ← List.append_assoc, ← List.append_assoc, pyRstrip, List.rdropWhile_concat, if_neg (by decide)]
      rw [joinElementLines, if_pos ⟨hstarts, hbrace⟩, hstrip, joinElementLines_further hlast hrest]

/-! ## Joining the lines of a block -/

/-- The lines of a block with its elements on one line. -/
def joinedLines : ListedBlock → List (List Char)
  | .set name statements elements =>
    openingLine "set" name :: (statements.map (fun statement => tabbed 2 (List.intercalate [' '] (statement.map String.toList))) ++
      (if elements = [] then [] else [tabbed 2 (allElements elements)]) ++ [closingLine])
  | b => b.lines

/-- The kinds of blocks. -/
def IsBlockKind (kind : String) : Prop := kind = "chain" ∨ kind = "set" ∨ kind = "secmark" ∨ kind = "ct helper"

theorem startsElements_openingLine {kind : String} (h : IsBlockKind kind) (name : String) :
    startsElements (openingLine kind name) = false := by
  rcases h with rfl | rfl | rfl | rfl <;> rfl

theorem startsElements_body {line : String} (h : IsBodyLine line) : startsElements (tabbed 2 line.toList) = false := by
  rw [startsElements_tabbed h.oneLine.1, h.noElements]

theorem startsElements_header {h : ChainHeader} {word : String} {rest : List String} (hdecl : h.decl = "type" :: word :: rest) :
    startsElements (tabbed 2 (statementsText h.statements)) = false := by
  have hstatements : ∃ more, h.statements = ("type" :: word :: rest) :: more := by
    rw [ChainHeader.statements, hdecl]
    exact ⟨_, rfl⟩
  obtain ⟨more, hmore⟩ := hstatements
  rw [hmore, statementsText_cons, List.map_cons, List.map_cons, List.intercalate_cons_cons]
  rfl

/-- The lines of a block are joined by themselves. -/
theorem joinElementLines_lines {b : ListedBlock} (h : b.Listable) (more : List (List Char)) :
    joinElementLines none (b.lines ++ more) = joinedLines b ++ joinElementLines none more := by
  have hclose : startsElements closingLine = false := rfl
  cases b with
  | chain name header rules =>
    obtain ⟨-, hrules, hheader⟩ := h
    refine joinElementLines_append (List.forall_mem_cons.2 ⟨startsElements_openingLine (.inl rfl) name, ?_⟩) more
    intro line hline
    simp only [List.mem_append, List.mem_singleton, List.mem_map, Option.mem_toList, Option.map_eq_some_iff] at hline
    rcases hline with (⟨h, rfl, rfl⟩ | ⟨rule, hrule, rfl⟩) | rfl
    · obtain ⟨-, type, hook, priority, rest, hdecl⟩ := hheader
      exact startsElements_header hdecl
    · exact startsElements_body (hrules rule hrule)
    · exact hclose
  | object name kind body =>
    obtain ⟨-, hkind, hbody⟩ := h
    refine joinElementLines_append (List.forall_mem_cons.2 ⟨startsElements_openingLine (.inr (.inr hkind)) name, ?_⟩) more
    intro line hline
    simp only [List.mem_append, List.mem_singleton, List.mem_map] at hline
    rcases hline with ⟨text, htext, rfl⟩ | rfl
    · exact startsElements_body (hbody text htext)
    · exact hclose
  | set name statements elements =>
    obtain ⟨-, hstatements, helements⟩ := h
    have hbefore : ∀ line ∈ openingLine "set" name ::
        statements.map fun statement => tabbed 2 (List.intercalate [' '] (statement.map String.toList)), startsElements line = false := by
      refine List.forall_mem_cons.2 ⟨startsElements_openingLine (.inr (.inl rfl)) name, fun line hline => ?_⟩
      obtain ⟨statement, hstatement, rfl⟩ := List.mem_map.1 hline
      obtain ⟨htrimmed, -, -, -, hno⟩ := (hstatements statement hstatement).2.statement
      rw [startsElements_tabbed htrimmed, hno]
    have hlines : (ListedBlock.set name statements elements).lines ++ more =
        (openingLine "set" name :: statements.map fun statement => tabbed 2 (List.intercalate [' '] (statement.map String.toList))) ++
          (elementLines elements ++ ([closingLine] ++ more)) := by
      simp [ListedBlock.lines]
    rw [hlines, joinElementLines_append hbefore, joinElementLines_elementLines helements, List.singleton_append, joinElementLines_plain hclose]
    simp [joinedLines]

theorem joinElementLines_blockLines {blocks : List ListedBlock} (h : ∀ b ∈ blocks, b.Listable) (more : List (List Char)) :
    joinElementLines none (blockLines blocks ++ more) =
      List.intercalate [[]] (blocks.map joinedLines) ++ joinElementLines none more := by
  induction blocks with
  | nil => rfl
  | cons b blocks ih =>
    obtain ⟨hb, hblocks⟩ := List.forall_mem_cons.1 h
    cases blocks with
    | nil => simpa [blockLines] using joinElementLines_lines hb more
    | cons next blocks =>
      have hempty : startsElements [] = false := rfl
      have hrest := ih hblocks
      rw [blockLines] at hrest ⊢
      rw [List.map_cons, List.map_cons, List.intercalate_cons_cons, ← List.map_cons, List.append_assoc, List.append_assoc,
        joinElementLines_lines hb, List.singleton_append, joinElementLines_plain hempty, hrest]
      change _ = List.intercalate [[]] (joinedLines b :: joinedLines next :: blocks.map joinedLines) ++ _
      rw [List.intercalate_cons_cons]
      simp

/-! ## Reading lines -/

variable {form : NftForm} {family : String}

/-- Lines that take the reader from one state to another, whatever their numbers. -/
inductive ReadsTo (form : NftForm) (family : String) : List (List Char) → ListState → ListState → Prop
  | nil (s : ListState) : ReadsTo form family [] s s
  | cons {line : List Char} {lines : List (List Char)} {s s' s'' : ListState}
      (hline : ∀ lineno, parseListLine form family lineno line s = .ok s') (hlines : ReadsTo form family lines s' s'') :
      ReadsTo form family (line :: lines) s s''

theorem ReadsTo.one {line : List Char} {s s' : ListState} (h : ∀ lineno, parseListLine form family lineno line s = .ok s') :
    ReadsTo form family [line] s s' := .cons h (.nil s')

theorem ReadsTo.append {lines more : List (List Char)} {s s' s'' : ListState} (hlines : ReadsTo form family lines s s')
    (hmore : ReadsTo form family more s' s'') : ReadsTo form family (lines ++ more) s s'' := by
  induction hlines with
  | nil s => exact hmore
  | cons hline _ ih => exact .cons hline (ih hmore)

theorem ReadsTo.parse {lines : List (List Char)} {s s' : ListState} (h : ReadsTo form family lines s s') (lineno : Nat) :
    parseListLines form family lineno lines s = .ok s' := by
  induction h generalizing lineno with
  | nil s => rfl
  | cons hline _ ih =>
    rw [parseListLines, hline lineno]
    exact ih (lineno + 1)

/-- A line of text is read as a production. -/
theorem parseListLine_tabbed {text : List Char} (htrimmed : Trimmed text) (hne : text ≠ []) (hcomment : text.head? ≠ some '#') (n lineno : Nat)
    (s : ListState) : parseListLine form family lineno (tabbed n text) s = readListLine form family lineno (tabbed n text) text s := by
  rw [parseListLine, pyStrip_tabbed htrimmed, if_neg]
  rintro (hnil | hhead)
  · exact hne hnil
  · exact hcomment hhead

/-- The closing line of a block. -/
theorem readsTo_close {t : ParsedTable} {place : ListPlace} (h : place ≠ .outside ∧ place ≠ .table) :
    ReadsTo form family [closingLine] ⟨place, some t⟩ ⟨.table, some t⟩ := by
  have hclose : Trimmed ['\x7d'] := IsWord.trimmed ⟨List.cons_ne_nil _ _, forall_eq_false (by decide)⟩
  refine .one fun lineno => ?_
  rw [closingLine, parseListLine_tabbed hclose (List.cons_ne_nil _ _) (by decide), readListLine]
  cases place with
  | outside => exact absurd rfl h.1
  | table => exact absurd rfl h.2
  | chain name headerSeen => rfl
  | set name => rfl
  | object name => rfl

/-! ### Opening a block -/

theorem isWord_of_isListIdent {dash : Bool} {name : List Char} (h : isListIdent dash name = true) : IsWord name := by
  cases name with
  | nil => cases h
  | cons c name =>
    rw [isListIdent, Bool.and_eq_true] at h
    refine ⟨List.cons_ne_nil _ _, List.forall_mem_cons.2 ⟨isPySpace_of_isAlpha h.1, fun d hd => ?_⟩⟩
    have hsafe := List.all_eq_true.1 h.2 d hd
    simp only [Bool.or_eq_true, Bool.and_eq_true, decide_eq_true_eq] at hsafe
    rcases hsafe with (halnum | rfl) | ⟨-, rfl⟩
    · rw [Char.isAlphanum, Bool.or_eq_true] at halnum
      rcases halnum with halpha | hdigit
      · exact isPySpace_of_isAlpha halpha
      · exact isPySpace_of_isDigit hdigit
    · decide
    · decide

/-- The text of a line that opens a block. -/
def openingText (kind name : String) : List Char := kind.toList ++ ' ' :: (name.toList ++ " \x7b".toList)

theorem words_openingText {kind name : String} (hkind : IsWord kind.toList) (hname : IsWord name.toList) :
    pyWords (openingText kind name) = [kind.toList, name.toList, ['\x7b']] := by
  have hbrace : IsWord ['\x7b'] := ⟨List.cons_ne_nil _ _, forall_eq_false (by decide)⟩
  have htext : openingText kind name = List.intercalate [' '] [kind.toList, name.toList, ['\x7b']] := by
    simp [openingText, List.intercalate]
  rw [htext, pyWords_intercalate]
  simp only [List.forall_mem_cons]
  exact ⟨hkind, hname, hbrace, fun _ h => absurd h List.not_mem_nil⟩

theorem trimmed_openingText {kind : String} (hkind : Trimmed kind.toList) (hne : kind.toList ≠ []) (name : String) :
    Trimmed (openingText kind name) := by
  have hbrace : Trimmed ['\x7b'] := IsWord.trimmed ⟨List.cons_ne_nil _ _, forall_eq_false (by decide)⟩
  have h := hkind.append hbrace hne (List.cons_ne_nil _ _) (' ' :: (name.toList ++ [' ']))
  simpa [openingText] using h

theorem openedBlock_ne {kind word : List Char} (h : word ≠ kind) (rest : List (List Char)) : openedBlock kind (word :: rest) = none :=
  if_neg h

theorem openedBlock_name (kind name : List Char) : openedBlock kind [kind, name, ['\x7b']] = some name := if_pos rfl

variable {t : ParsedTable}

theorem parseListLine_opening {kind : String} (h : IsBlockKind kind) (name : String) (lineno : Nat) :
    parseListLine form family lineno (openingLine kind name) ⟨.table, some t⟩ =
      openBlock lineno (openingLine kind name) (openingText kind name) t := by
  have hplain {kind : String} (hne : kind.toList ≠ []) (hspace : kind.toList.all (fun c => !isPySpace c) = true) : Trimmed kind.toList :=
    IsWord.trimmed ⟨hne, forall_eq_false hspace⟩
  have hopening {kind : String} (htrimmed : Trimmed kind.toList) (hne : kind.toList ≠ []) (hhead : kind.toList.head? ≠ some '#') :
      parseListLine form family lineno (openingLine kind name) ⟨.table, some t⟩ =
        openBlock lineno (openingLine kind name) (openingText kind name) t := by
    have htext : (openingText kind name).head? = kind.toList.head? := List.head?_append_of_ne_nil _ hne
    exact parseListLine_tabbed (trimmed_openingText htrimmed hne name) (List.append_ne_nil_of_left_ne_nil hne _) (htext ▸ hhead) 1 lineno _
  rcases h with rfl | rfl | rfl | rfl
  · exact hopening (hplain (by decide) (by decide)) (by decide) (by decide)
  · exact hopening (hplain (by decide) (by decide)) (by decide) (by decide)
  · exact hopening (hplain (by decide) (by decide)) (by decide) (by decide)
  · refine hopening ?_ (by decide) (by decide)
    have hct : Trimmed "ct".toList := hplain (by decide) (by decide)
    have hhelper : Trimmed "helper".toList := hplain (by decide) (by decide)
    exact hct.append hhelper (by decide) (by decide) [' ']

/-- A line that opens a block is not the one that closes the table. -/
theorem openingText_ne_close {kind : String} (h : IsBlockKind kind) (name : String) : openingText kind name ≠ ['\x7d'] := by
  intro heq
  have hlength := congrArg List.length heq
  have hkind : 1 < kind.toList.length := by rcases h with rfl | rfl | rfl | rfl <;> decide
  rw [openingText, List.length_append, List.length_singleton] at hlength
  omega

theorem openedObject_other {kind : String} (h : kind = "chain" ∨ kind = "set") {name : String} (hname : IsWord name.toList) :
    openedObject (openingText kind name) = none := by
  rcases h with rfl | rfl
  · rw [openedObject, words_openingText ⟨by decide, forall_eq_false (by decide)⟩ hname, openedBlock_ne (by decide)]
    rfl
  · rw [openedObject, words_openingText ⟨by decide, forall_eq_false (by decide)⟩ hname, openedBlock_ne (by decide)]
    rfl

theorem openedObject_object {kind : String} (h : kind = "secmark" ∨ kind = "ct helper") {name : String} (hname : IsWord name.toList) :
    openedObject (openingText kind name) = some (kind, name.toList) := by
  rcases h with rfl | rfl
  · rw [openedObject, words_openingText ⟨by decide, forall_eq_false (by decide)⟩ hname, openedBlock_name]
  · have hwords : pyWords (openingText "ct helper" name) = ["ct".toList, "helper".toList, name.toList, ['\x7b']] := by
      have htext : openingText "ct helper" name = List.intercalate [' '] ["ct".toList, "helper".toList, name.toList, ['\x7b']] := by
        simp [openingText, List.intercalate]
      rw [htext, pyWords_intercalate]
      simp only [List.forall_mem_cons]
      exact ⟨⟨by decide, forall_eq_false (by decide)⟩, ⟨by decide, forall_eq_false (by decide)⟩, hname,
        ⟨List.cons_ne_nil _ _, forall_eq_false (by decide)⟩, fun _ h => absurd h List.not_mem_nil⟩
    rw [openedObject, hwords, openedBlock_ne (by decide)]
    dsimp only
    rw [if_pos, List.tail_cons, openedBlock_name]
    · rfl
    · exact ⟨rfl, rfl⟩

theorem readsTo_openChain {name : String} (h : isListIdent true name.toList = true) :
    ReadsTo form family [openingLine "chain" name] ⟨.table, some t⟩
      ⟨.chain name false, some { t with chains := t.chains.set name { policy := ["-"] } }⟩ := by
  have hname := isWord_of_isListIdent h
  refine .one fun lineno => ?_
  rw [parseListLine_opening (.inl rfl), openBlock, if_neg (openingText_ne_close (.inl rfl) name), openedObject_other (.inl rfl) hname,
    words_openingText ⟨by decide, forall_eq_false (by decide)⟩ hname]
  dsimp only
  rw [openedBlock_ne (by decide)]
  dsimp only
  rw [openedBlock_name]
  dsimp only
  rw [if_pos h, String.ofList_toList]

theorem readsTo_openSet {name : String} (h : isListIdent false name.toList = true) :
    ReadsTo form family [openingLine "set" name] ⟨.table, some t⟩
      ⟨.set name, some { t with sets := t.sets.set name { name } }⟩ := by
  have hname := isWord_of_isListIdent h
  refine .one fun lineno => ?_
  rw [parseListLine_opening (.inr (.inl rfl)), openBlock, if_neg (openingText_ne_close (.inr (.inl rfl)) name),
    openedObject_other (.inr rfl) hname, words_openingText ⟨by decide, forall_eq_false (by decide)⟩ hname]
  dsimp only
  rw [openedBlock_name]
  dsimp only
  rw [if_pos h, String.ofList_toList]

theorem readsTo_openObject {kind name : String} (hkind : kind = "secmark" ∨ kind = "ct helper") (h : isListIdent false name.toList = true) :
    ReadsTo form family [openingLine kind name] ⟨.table, some t⟩
      ⟨.object name, some { t with objects := t.objects.set name { name, kind } }⟩ := by
  have hblock : IsBlockKind kind := .inr (.inr hkind)
  refine .one fun lineno => ?_
  rw [parseListLine_opening hblock, openBlock, if_neg (openingText_ne_close hblock name),
    openedObject_object hkind (isWord_of_isListIdent h)]
  dsimp only
  rw [if_pos h, String.ofList_toList]

/-! ### Chains -/

theorem updateChain_set (t : ParsedTable) (name : String) (c : ParsedChain) (f : ParsedChain → ParsedChain) :
    ({ t with chains := t.chains.set name c } : ParsedTable).updateChain name f = { t with chains := t.chains.set name (f c) } := by
  rw [ParsedTable.updateChain, Dict.get?_set_self, Dict.set_set]
  rfl

/-- A line of a chain's body. -/
theorem parseListLine_chain {text : List Char} (htrimmed : Trimmed text) (hne : text ≠ []) (hclose : text ≠ ['\x7d'])
    (hcomment : text.head? ≠ some '#') (name : String) (headerSeen : Bool) (lineno : Nat) :
    parseListLine form family lineno (tabbed 2 text) ⟨.chain name headerSeen, some t⟩ =
      .ok ⟨.chain name true, some (readChainLine form family name headerSeen text t)⟩ := by
  rw [parseListLine_tabbed htrimmed hne hcomment, readListLine]
  exact if_neg hclose

/-- A rule is added to the chain. -/
theorem readsTo_rule {rule : String} (h : IsBodyLine rule) {name : String} {headerSeen : Bool}
    (hrule : headerSeen = true ∨ isListHeader rule.toList = false) (c : ParsedChain) :
    ReadsTo form family [tabbed 2 rule.toList] ⟨.chain name headerSeen, some { t with chains := t.chains.set name c }⟩
      ⟨.chain name true, some { t with chains := t.chains.set name (c.addRule (form.canonicalizeNftRule family rule)) }⟩ := by
  have hno : ¬(headerSeen = false ∧ isListHeader rule.toList = true) := by
    rintro ⟨hseen, hheader⟩
    rcases hrule with h | h
    · rw [hseen] at h
      cases h
    · rw [h] at hheader
      cases hheader
  refine .one fun lineno => ?_
  rw [parseListLine_chain h.oneLine.1 h.text.1 h.text.2 h.noComment, readChainLine, if_neg hno, updateChain_set, String.ofList_toList]

/-- Rules are added to the chain in order. -/
theorem readsTo_rules {rules : List String} (h : ∀ rule ∈ rules, IsBodyLine rule) (name : String) (c : ParsedChain) :
    ReadsTo form family (rules.map fun rule => tabbed 2 rule.toList) ⟨.chain name true, some { t with chains := t.chains.set name c }⟩
      ⟨.chain name true,
        some { t with chains := t.chains.set name { c with rules := c.rules ++ rules.map (form.canonicalizeNftRule family) } }⟩ := by
  induction rules generalizing c with
  | nil =>
    rw [List.map_nil, List.map_nil, List.append_nil]
    exact .nil _
  | cons rule rules ih =>
    obtain ⟨hrule, hrules⟩ := List.forall_mem_cons.1 h
    have hstep := ih hrules (c.addRule (form.canonicalizeNftRule family rule))
    have hall : (c.addRule (form.canonicalizeNftRule family rule)).rules ++ rules.map (form.canonicalizeNftRule family) =
        c.rules ++ (rule :: rules).map (form.canonicalizeNftRule family) := by
      simp [ParsedChain.addRule]
    rw [hall] at hstep
    exact (readsTo_rule hrule (.inl rfl) c).append hstep

/-- The header of a base chain. -/
theorem isListHeader_header {h : ChainHeader} (hwords : ∀ word ∈ h.words, IsHeaderWord word) {type hook priority : String} {rest : List String}
    (hdecl : h.decl = "type" :: type :: "hook" :: hook :: "priority" :: priority :: rest) :
    isListHeader (statementsText h.statements) = true := by
  have hstatements : ∃ more, statementsText h.statements =
      List.intercalate [' '] (["type", type, "hook", hook, "priority"].map String.toList) ++ ' ' :: more := by
    have hcons : ∃ others, h.statements = h.decl :: others := ⟨_, rfl⟩
    obtain ⟨others, hothers⟩ := hcons
    rw [hothers, statementsText_cons, hdecl]
    have hfirst : ["type", type, "hook", hook, "priority"].map String.toList ≠ [] := List.cons_ne_nil _ _
    have hsplit : List.intercalate [' '] (("type" :: type :: "hook" :: hook :: "priority" :: priority :: rest).map String.toList) =
        List.intercalate [' '] (["type", type, "hook", hook, "priority"].map String.toList) ++
          ([' '] ++ List.intercalate [' '] ((priority :: rest).map String.toList)) :=
      intercalate_append_ne_nil hfirst (List.cons_ne_nil _ _)
    rw [hsplit]
    exact ⟨_, by rw [List.append_assoc, List.append_assoc]; rfl⟩
  obtain ⟨more, hmore⟩ := hstatements
  have hfive : ∀ word ∈ ["type", type, "hook", hook, "priority"].map String.toList, IsWord word := by
    intro text htext
    obtain ⟨word, hword, rfl⟩ := List.mem_map.1 htext
    refine (hwords word ?_).1
    rw [ChainHeader.words, hdecl]
    simp only [List.mem_cons, List.not_mem_nil, or_false] at hword
    rcases hword with rfl | rfl | rfl | rfl | rfl <;> simp
  rw [hmore, isListHeader, pyWords_intercalate_append hfive]
  rfl

theorem headerWords_text {header : ChainHeader} (h : ∀ word ∈ header.words, IsHeaderWord word) :
    headerWords (String.ofList (statementsText header.statements)) = header.words := by
  have hstatements : ∀ statement ∈ header.statements, ∀ word ∈ statement, IsHeaderWord word :=
    fun statement hstatement word hword => h word (mem_statements hstatement hword)
  have hwords := headerWords_statements h
  rwa [(trimmed_statementsText hstatements).pyStrip_between] at hwords

theorem readsTo_header {h : ChainHeader} (hwords : ∀ word ∈ h.words, IsHeaderWord word) {type hook priority : String} {rest : List String}
    (hdecl : h.decl = "type" :: type :: "hook" :: hook :: "priority" :: priority :: rest) (name : String) (c : ParsedChain) :
    ReadsTo form family [tabbed 2 (statementsText h.statements)]
      ⟨.chain name false, some { t with chains := t.chains.set name c }⟩
      ⟨.chain name true, some { t with chains := t.chains.set name { c with policy := canonicalizeNftHeader family h.words } }⟩ := by
  have hstatements : ∀ statement ∈ h.statements, ∀ word ∈ statement, IsHeaderWord word :=
    fun statement hstatement word hword => hwords word (mem_statements hstatement hword)
  have htext : ∃ more, statementsText h.statements = 't' :: 'y' :: more := by
    have hcons : ∃ others, h.statements = h.decl :: others := ⟨_, rfl⟩
    obtain ⟨others, hothers⟩ := hcons
    rw [hothers, statementsText_cons, hdecl, List.map_cons, List.map_cons, List.intercalate_cons_cons]
    exact ⟨_, rfl⟩
  obtain ⟨more, hmore⟩ := htext
  refine .one fun lineno => ?_
  rw [parseListLine_chain (trimmed_statementsText hstatements) (by rw [hmore]; exact List.cons_ne_nil _ _) (by rw [hmore]; simp)
    (by rw [hmore]; simp), readChainLine, if_pos ⟨rfl, isListHeader_header hwords hdecl⟩, updateChain_set, headerWords_text hwords]

/-- The block of a chain is read as the chain. -/
theorem readsTo_chain {name : String} {header : Option ChainHeader} {rules : List String} (h : (ListedBlock.chain name header rules).Listable) :
    ReadsTo form family (ListedBlock.chain name header rules).lines ⟨.table, some t⟩
      ⟨.table, some ((ListedBlock.chain name header rules).store form family t)⟩ := by
  obtain ⟨hident, hrules, hheader⟩ := h
  refine (readsTo_openChain hident).append ?_
  cases header with
  | some h =>
    obtain ⟨hwords, type, hook, priority, rest, hdecl⟩ := hheader
    exact ((readsTo_header hwords hdecl name _).append (readsTo_rules hrules name _)).append (readsTo_close ⟨by simp, by simp⟩)
  | none =>
    cases rules with
    | nil => exact readsTo_close ⟨by simp, by simp⟩
    | cons rule rules =>
      obtain ⟨hrule, hrest⟩ := List.forall_mem_cons.1 hrules
      have hfirst : ReadsTo form family [tabbed 2 rule.toList]
          ⟨.chain name false, some { t with chains := t.chains.set name { policy := ["-"] } }⟩ _ :=
        readsTo_rule hrule (.inr (hheader rule rfl)) _
      exact (hfirst.append (readsTo_rules hrest name _)).append (readsTo_close ⟨by simp, by simp⟩)

/-! ### Sets -/

theorem updateSet_set (t : ParsedTable) (name : String) (s : ParsedSet) (f : ParsedSet → ParsedSet) :
    ({ t with sets := t.sets.set name s } : ParsedTable).updateSet name f = { t with sets := t.sets.set name (f s) } := by
  rw [ParsedTable.updateSet, Dict.get?_set_self, Dict.set_set]
  rfl

/-- A line of a set's body. -/
theorem readsTo_setLine {text : List Char} (htrimmed : Trimmed text) (hne : text ≠ []) (hclose : text ≠ ['\x7d'])
    (hcomment : text.head? ≠ some '#') (name : String) (s : ParsedSet) :
    ReadsTo form family [tabbed 2 text] ⟨.set name, some { t with sets := t.sets.set name s }⟩
      ⟨.set name, some { t with sets := t.sets.set name (readSetLine form text s) }⟩ := by
  refine .one fun lineno => ?_
  rw [parseListLine_tabbed htrimmed hne hcomment, readListLine]
  dsimp only
  rw [if_neg hclose, Option.getD_some, updateSet_set]

/-- What a statement of a declaration adds to the type and the flags. -/
def headerStep (r : Option String × List String) (statement : List String) : Option String × List String :=
  ((parseSetHeader [statement]).1.orElse fun _ => r.1, r.2 ++ (parseSetHeader [statement]).2)

/-- The set of a declaration's statements, without elements. -/
def declaredSet (name : String) (statements : List (List String)) : ParsedSet :=
  ⟨name, [], (parseSetHeader statements).1, (parseSetHeader statements).2⟩

theorem parseSetHeader_append (statements : List (List String)) (statement : List String) :
    parseSetHeader (statements ++ [statement]) = headerStep (parseSetHeader statements) statement := by
  rw [parseSetHeader, List.foldl_append, ← parseSetHeader, headerStep, parseSetHeader, parseSetHeader, List.foldl_cons, List.foldl_nil,
    List.foldl_cons, List.foldl_nil]
  rcases statement with _ | ⟨word, rest⟩
  · simp
  · by_cases htype : word = "type"
    · subst htype
      cases rest <;> simp
    · by_cases hflags : word = "flags"
      · subst hflags
        simp
      · simp [htype, hflags]

theorem parseSetHeaderText_words {words : List String} (h : ∀ word ∈ words, IsHeaderWord word) :
    parseSetHeaderText (List.intercalate [' '] (words.map String.toList)) = parseSetHeader [words] := by
  have hall : ∀ c ∈ List.intercalate [' '] (words.map String.toList), c ≠ '\n' ∧ c ≠ ';' := by
    refine forall_mem_intercalate (by decide) fun text htext c hc => ?_
    obtain ⟨word, hword, rfl⟩ := List.mem_map.1 htext
    refine ⟨?_, fun heq => (h word hword).2 (heq ▸ hc)⟩
    rintro rfl
    have hboundary := (h word hword).no_boundary '\n' hc
    revert hboundary
    decide
  have hmap : (List.intercalate [' '] (words.map String.toList)).map (fun c => if c = '\n' then ';' else c) =
      List.intercalate [' '] (words.map String.toList) :=
    (List.map_congr_left fun c hc => if_neg (hall c hc).1).trans (List.map_id _)
  rw [parseSetHeaderText, hmap, List.splitOn_eq_singleton fun hmem => (hall ';' hmem).2 rfl, List.map_singleton, textWords_intercalate h]

/-- The statements of a set's declaration are read in order. -/
theorem readsTo_statements {name : String} (seen : List (List String)) {statements : List (List String)}
    (h : ∀ statement ∈ statements, (∀ word ∈ statement, IsHeaderWord word) ∧ IsBodyLine (String.intercalate " " statement)) :
    ReadsTo form family (statements.map fun statement => tabbed 2 (List.intercalate [' '] (statement.map String.toList)))
      ⟨.set name, some { t with sets := t.sets.set name (declaredSet name seen) }⟩
      ⟨.set name, some { t with sets := t.sets.set name (declaredSet name (seen ++ statements)) }⟩ := by
  induction statements generalizing seen with
  | nil =>
    rw [List.append_nil]
    exact .nil _
  | cons statement statements ih =>
    obtain ⟨⟨hwords, hbody⟩, hstatements⟩ := List.forall_mem_cons.1 h
    obtain ⟨htrimmed, hne, hclose, hcomment, hno⟩ := hbody.statement
    have hline : readSetLine form (List.intercalate [' '] (statement.map String.toList)) (declaredSet name seen) =
        declaredSet name (seen ++ [statement]) := by
      rw [readSetLine, if_neg (by rw [hno]; exact Bool.false_ne_true), parseSetHeaderText_words hwords, declaredSet, declaredSet,
        parseSetHeader_append]
      rfl
    have hstep : ReadsTo form family [tabbed 2 (List.intercalate [' '] (statement.map String.toList))]
        ⟨.set name, some { t with sets := t.sets.set name (declaredSet name seen) }⟩
        ⟨.set name, some { t with sets := t.sets.set name (declaredSet name (seen ++ [statement])) }⟩ :=
      hline ▸ readsTo_setLine htrimmed hne hclose hcomment name _
    have hrest := ih (seen ++ [statement]) hstatements
    rw [List.append_assoc, List.singleton_append] at hrest
    exact hstep.append hrest

theorem trimmed_allElements (elements : List (List String)) : Trimmed (allElements elements) := by
  have hlast (start text : List Char) (c d : Char) : start ++ (text ++ [c, d]) = (start ++ (text ++ [c])) ++ [d] := by simp
  have hne : elementsLead ≠ [] := by decide
  constructor
  · intro c hc
    rw [allElements, List.head?_append_of_ne_nil _ hne] at hc
    cases hc
    decide
  · intro c hc
    rw [allElements, hlast, List.getLast?_concat] at hc
    cases hc
    decide

theorem braceBody_allElements (elements : List (List String)) :
    braceBody (allElements elements) = some (' ' :: ((String.intercalate ", " elements.flatten).toList ++ [' '])) := by
  have hhead : '\x7b' ∉ "elements = ".toList := by decide
  have hlead : elementsLead = "elements = ".toList ++ ['\x7b', ' '] := by decide
  have hsplit (start text : List Char) (c d e f : Char) :
      (start ++ [c, d]) ++ (text ++ [e, f]) = start ++ c :: ((d :: (text ++ [e])) ++ [f]) := by simp
  have hsep : ", ".toList = [',', ' '] := by decide
  rw [allElements, hlead, hsplit, braceBody_append hhead, String.toList_intercalate, hsep]

/-- The elements of a set are read as they are written. -/
theorem readSetLine_allElements {elements : List (List String)} (h : ∀ line ∈ elements, line ≠ [] ∧ ∀ e ∈ line, IsListedElement e)
    (s : ParsedSet) :
    readSetLine form (allElements elements) s =
      { s with elements := form.canonicalizeSetElements (s.elements ++ elements.flatten) } := by
  have helements : ∀ e ∈ elements.flatten, e ≠ "" ∧ OneLine e ∧ ',' ∉ e.toList := by
    intro e he
    obtain ⟨line, hline, he⟩ := List.mem_flatten.1 he
    have hlisted := (h line hline).2 e he
    exact ⟨hlisted.ne_nil, hlisted.oneLine, hlisted.noComma⟩
  have hstarts : "elements".toList.isPrefixOf (allElements elements) = true := rfl
  rw [readSetLine, if_pos hstarts, braceBody_allElements]
  dsimp only
  rw [splitElements_intercalate helements]

theorem readsTo_set {name : String} {statements elements : List (List String)} (h : (ListedBlock.set name statements elements).Listable) :
    ReadsTo form family (joinedLines (.set name statements elements)) ⟨.table, some t⟩
      ⟨.table, some ((ListedBlock.set name statements elements).store form family t)⟩ := by
  obtain ⟨hident, hstatements, helements⟩ := h
  have hheader : ReadsTo form family (statements.map fun statement => tabbed 2 (List.intercalate [' '] (statement.map String.toList)))
      ⟨.set name, some { t with sets := t.sets.set name { name } }⟩
      ⟨.set name, some { t with sets := t.sets.set name (declaredSet name statements) }⟩ := readsTo_statements [] hstatements
  have hbody : ReadsTo form family (if elements = [] then [] else [tabbed 2 (allElements elements)])
      ⟨.set name, some { t with sets := t.sets.set name (declaredSet name statements) }⟩
      ⟨.set name, some ((ListedBlock.set name statements elements).store form family t)⟩ := by
    by_cases hnil : elements = []
    · subst hnil
      exact .nil _
    · have hne : allElements elements ≠ [] := List.cons_ne_nil _ _
      have hclose : allElements elements ≠ ['\x7d'] := fun heq => by
        have hhead := congrArg List.head? heq
        cases hhead
      have hcomment : (allElements elements).head? ≠ some '#' := fun heq => by cases heq
      have hline : ReadsTo form family [tabbed 2 (allElements elements)]
          ⟨.set name, some { t with sets := t.sets.set name (declaredSet name statements) }⟩ _ :=
        readsTo_setLine (trimmed_allElements elements) hne hclose hcomment name _
      rw [readSetLine_allElements helements] at hline
      rw [if_neg hnil]
      exact hline
  exact (readsTo_openSet hident).append ((hheader.append hbody).append (readsTo_close ⟨by simp, by simp⟩))

/-! ### Objects -/

theorem addToObject_set (t : ParsedTable) (name kind body : String) (line : List Char) :
    ({ t with objects := t.objects.set name ⟨name, kind, body⟩ } : ParsedTable).addToObject name line =
      { t with objects := t.objects.set name ⟨name, kind, if body = "" then String.ofList line
        else String.ofList (pyStrip (body.toList ++ ' ' :: line))⟩ } := by
  rw [ParsedTable.addToObject, Dict.get?_set_self]
  dsimp only
  rw [Dict.set_set]

/-- A line is added to an object's body with a blank before it. -/
theorem body_append {seen : List String} {line : String} (h : ∀ l ∈ seen ++ [line], IsBodyLine l) :
    (if String.intercalate " " seen = "" then String.ofList line.toList
      else String.ofList (pyStrip ((String.intercalate " " seen).toList ++ ' ' :: line.toList))) =
      String.intercalate " " (seen ++ [line]) := by
  have hpart : ∀ part ∈ (seen ++ [line]).map String.toList, Trimmed part ∧ part ≠ [] := by
    intro text htext
    obtain ⟨l, hl, rfl⟩ := List.mem_map.1 htext
    exact ⟨(h l hl).oneLine.1, (h l hl).text.1⟩
  have hall := trimmed_intercalate hpart
  by_cases hseen : seen = []
  · subst hseen
    rw [String.ofList_toList]
    simp
  · have hne : seen.map String.toList ≠ [] := fun hnil => hseen (List.map_eq_nil_iff.1 hnil)
    have hjoin : List.intercalate [' '] ((seen ++ [line]).map String.toList) =
        (String.intercalate " " seen).toList ++ ' ' :: line.toList := by
      have hline : [line].map String.toList ≠ [] := List.cons_ne_nil _ _
      rw [List.map_append, intercalate_append_ne_nil hne hline, String.toList_intercalate]
      simp
    have hbody : String.intercalate " " seen ≠ "" := by
      obtain ⟨first, rest, rfl⟩ := List.exists_cons_of_ne_nil hseen
      intro hnil
      have hlist := congrArg String.toList hnil
      rw [String.toList_intercalate] at hlist
      have hfirst : first.toList ≠ [] := (h first (by simp)).text.1
      cases rest with
      | nil => exact hfirst (by simpa using hlist)
      | cons next rest => simp [List.intercalate_cons_cons] at hlist
    rw [if_neg hbody, ← hjoin, hall.pyStrip_eq, ← String.toList_inj, String.toList_ofList, String.toList_intercalate]
    rfl

theorem readsTo_body {name kind : String} (seen : List String) {body : List String} (h : ∀ line ∈ seen ++ body, IsBodyLine line) :
    ReadsTo form family (body.map fun line => tabbed 2 line.toList)
      ⟨.object name, some { t with objects := t.objects.set name ⟨name, kind, String.intercalate " " seen⟩ }⟩
      ⟨.object name, some { t with objects := t.objects.set name ⟨name, kind, String.intercalate " " (seen ++ body)⟩ }⟩ := by
  induction body generalizing seen with
  | nil =>
    rw [List.append_nil]
    exact .nil _
  | cons line body ih =>
    have hline : IsBodyLine line := h line (by simp)
    have hstep : ReadsTo form family [tabbed 2 line.toList]
        ⟨.object name, some { t with objects := t.objects.set name ⟨name, kind, String.intercalate " " seen⟩ }⟩
        ⟨.object name, some { t with objects := t.objects.set name ⟨name, kind, String.intercalate " " (seen ++ [line])⟩ }⟩ := by
      refine .one fun lineno => ?_
      rw [parseListLine_tabbed hline.oneLine.1 hline.text.1 hline.noComment, readListLine]
      dsimp only
      rw [if_neg hline.text.2, Option.getD_some, addToObject_set, body_append]
      intro l hl
      refine h l ?_
      rcases List.mem_append.1 hl with hl | hl
      · exact List.mem_append_left _ hl
      · rw [List.mem_singleton.1 hl]
        simp
    have hrest := ih (seen ++ [line]) (by rwa [List.append_assoc, List.singleton_append])
    rw [List.append_assoc, List.singleton_append] at hrest
    exact hstep.append hrest

theorem readsTo_object {name kind : String} {body : List String} (h : (ListedBlock.object name kind body).Listable) :
    ReadsTo form family (ListedBlock.object name kind body).lines ⟨.table, some t⟩
      ⟨.table, some ((ListedBlock.object name kind body).store form family t)⟩ := by
  obtain ⟨hident, hkind, hbody⟩ := h
  exact (readsTo_openObject hkind hident).append ((readsTo_body [] hbody).append (readsTo_close ⟨by simp, by simp⟩))

/-! ## Whole listings -/

/-- A block is read as what it prints. -/
theorem readsTo_block {b : ListedBlock} (h : b.Listable) :
    ReadsTo form family (joinedLines b) ⟨.table, some t⟩ ⟨.table, some (b.store form family t)⟩ := by
  cases b with
  | chain name header rules => exact readsTo_chain h
  | set name statements elements => exact readsTo_set h
  | object name kind body => exact readsTo_object h

/-- Blocks are read in order. -/
theorem readsTo_blocks {blocks : List ListedBlock} (h : ∀ b ∈ blocks, b.Listable) :
    ReadsTo form family (List.intercalate [[]] (blocks.map joinedLines)) ⟨.table, some t⟩
      ⟨.table, some (blocks.foldl (ListedBlock.store form family) t)⟩ := by
  induction blocks generalizing t with
  | nil => exact .nil _
  | cons b blocks ih =>
    obtain ⟨hb, hblocks⟩ := List.forall_mem_cons.1 h
    cases blocks with
    | nil => simpa using readsTo_block hb
    | cons next blocks =>
      have hempty (s : ListState) : ReadsTo form family [[]] s s := .one fun lineno => rfl
      have hjoin : List.intercalate [[]] ((b :: next :: blocks).map joinedLines) =
          joinedLines b ++ [[]] ++ List.intercalate [[]] ((next :: blocks).map joinedLines) := List.intercalate_cons_cons
      rw [hjoin]
      exact ((readsTo_block hb).append (hempty _)).append (ih hblocks)

theorem readsTo_openTable (hfamily : IsWord family.toList) :
    ReadsTo form family ["table ".toList ++ (family.toList ++ " ferm \x7b".toList)] {} ⟨.table, some {}⟩ := by
  have hwords : pyWords ("table ".toList ++ (family.toList ++ " ferm \x7b".toList)) =
      ["table".toList, family.toList, "ferm".toList, ['\x7b']] := by
    have htext : "table ".toList ++ (family.toList ++ " ferm \x7b".toList) =
        List.intercalate [' '] ["table".toList, family.toList, "ferm".toList, ['\x7b']] := by
      simp [List.intercalate]
    rw [htext, pyWords_intercalate]
    simp only [List.forall_mem_cons]
    exact ⟨⟨by decide, forall_eq_false (by decide)⟩, hfamily, ⟨by decide, forall_eq_false (by decide)⟩,
      ⟨List.cons_ne_nil _ _, forall_eq_false (by decide)⟩, fun _ h => absurd h List.not_mem_nil⟩
  have htrimmed : Trimmed ("table ".toList ++ (family.toList ++ " ferm \x7b".toList)) := by
    have htable : Trimmed "table".toList := IsWord.trimmed ⟨by decide, forall_eq_false (by decide)⟩
    have hbrace : Trimmed ['\x7b'] := IsWord.trimmed ⟨List.cons_ne_nil _ _, forall_eq_false (by decide)⟩
    have h := htable.append hbrace (by decide) (List.cons_ne_nil _ _) (' ' :: (family.toList ++ " ferm ".toList))
    simpa using h
  have hopen : openedTable ["table".toList, family.toList, "ferm".toList, ['\x7b']] = some family.toList := by
    rw [openedTable]
    exact if_pos ⟨rfl, .inl rfl⟩
  refine .one fun lineno => ?_
  rw [parseListLine, htrimmed.pyStrip_eq, if_neg, readListLine]
  · dsimp only
    rw [hwords, hopen, if_pos rfl]
    rfl
  · rintro (hnil | hhead)
    · cases hnil
    · cases hhead

theorem readsTo_closeTable : ReadsTo form family [['\x7d']] ⟨.table, some t⟩ ⟨.outside, some t⟩ := by
  refine .one fun lineno => ?_
  rfl

/-! ## Lines without a boundary -/

/-- A text that is one line. -/
def Unbroken (line : List Char) : Prop := ∀ c ∈ line, isLineBoundary c = false

theorem Unbroken.append {line more : List Char} (hline : Unbroken line) (hmore : Unbroken more) : Unbroken (line ++ more) :=
  List.forall_mem_append.2 ⟨hline, hmore⟩

theorem Unbroken.tabbed {line : List Char} (h : Unbroken line) (n : Nat) : Unbroken (tabbed n line) := by
  refine Unbroken.append (fun c hc => ?_) h
  rw [List.eq_of_mem_replicate hc]
  decide

theorem unbroken_openingLine {kind : String} (hkind : IsBlockKind kind) {name : String} (hname : IsWord name.toList) :
    Unbroken (openingLine kind name) := by
  have hplain : Unbroken kind.toList := by
    rcases hkind with rfl | rfl | rfl | rfl <;> exact forall_eq_false (by decide)
  have hbrace : Unbroken " \x7b".toList := forall_eq_false (by decide)
  refine Unbroken.tabbed (hplain.append (List.forall_mem_cons.2 ⟨by decide, ?_⟩)) 1
  exact Unbroken.append hname.no_boundary hbrace

theorem unbroken_words {words : List String} (h : ∀ word ∈ words, IsHeaderWord word) :
    Unbroken (List.intercalate [' '] (words.map String.toList)) := by
  refine forall_mem_intercalate (by decide) fun text htext => ?_
  obtain ⟨word, hword, rfl⟩ := List.mem_map.1 htext
  exact (h word hword).no_boundary

theorem unbroken_elements {elements : List String} (h : ∀ e ∈ elements, IsListedElement e) :
    Unbroken (List.intercalate [',', ' '] (elements.map String.toList)) := by
  have hsep : Unbroken [',', ' '] := forall_eq_false (by decide)
  refine forall_mem_intercalate_text hsep fun text htext => ?_
  obtain ⟨e, he, rfl⟩ := List.mem_map.1 htext
  exact (h e he).oneLine.2

theorem unbroken_elementsText {line : List String} (h : ∀ e ∈ line, IsListedElement e) (rest : List (List String)) :
    Unbroken (elementsText line rest) := by
  have hclose : Unbroken [' ', '\x7d'] := forall_eq_false (by decide)
  have hcomma : Unbroken [','] := forall_eq_false (by decide)
  refine (unbroken_elements h).append ?_
  split
  · exact hclose
  · exact hcomma

theorem unbroken_elementsLead : Unbroken elementsLead := forall_eq_false (by decide)

theorem unbroken_elementLines {elements : List (List String)} (h : ∀ line ∈ elements, line ≠ [] ∧ ∀ e ∈ line, IsListedElement e) :
    ∀ line ∈ elementLines elements, Unbroken line := by
  have hblanks : Unbroken "     ".toList := forall_eq_false (by decide)
  have hfurther (rest : List (List String)) (hrest : ∀ line ∈ rest, line ≠ [] ∧ ∀ e ∈ line, IsListedElement e) :
      ∀ line ∈ furtherElementLines rest, Unbroken line := by
    induction rest with
    | nil => exact fun _ hmem => absurd hmem List.not_mem_nil
    | cons line rest ih =>
      obtain ⟨hline, hrest⟩ := List.forall_mem_cons.1 hrest
      exact List.forall_mem_cons.2 ⟨(hblanks.append (unbroken_elementsText hline.2 rest)).tabbed 3, ih hrest⟩
  cases elements with
  | nil => exact fun _ hmem => absurd hmem List.not_mem_nil
  | cons line rest =>
    obtain ⟨hline, hrest⟩ := List.forall_mem_cons.1 h
    exact List.forall_mem_cons.2 ⟨(unbroken_elementsLead.append (unbroken_elementsText hline.2 rest)).tabbed 2, hfurther rest hrest⟩

theorem unbroken_allElements {elements : List (List String)} (h : ∀ line ∈ elements, line ≠ [] ∧ ∀ e ∈ line, IsListedElement e) :
    Unbroken (allElements elements) := by
  have hclose : Unbroken [' ', '\x7d'] := forall_eq_false (by decide)
  refine unbroken_elementsLead.append (Unbroken.append (unbroken_elements fun e he => ?_) hclose)
  obtain ⟨line, hline, he⟩ := List.mem_flatten.1 he
  exact (h line hline).2 e he

/-- The lines of a block, and its lines with the elements on one, are lines. -/
theorem unbroken_block {b : ListedBlock} (h : b.Listable) : ∀ line ∈ b.lines ++ joinedLines b, Unbroken line := by
  have hclosing : Unbroken closingLine := forall_eq_false (by decide)
  have hbody {lines : List String} (hlines : ∀ line ∈ lines, IsBodyLine line) :
      ∀ line ∈ lines.map fun line => tabbed 2 line.toList, Unbroken line := by
    intro line hline
    obtain ⟨text, htext, rfl⟩ := List.mem_map.1 hline
    exact Unbroken.tabbed (hlines text htext).oneLine.2 2
  cases b with
  | chain name header rules =>
    obtain ⟨hident, hrules, hheader⟩ := h
    have hopening := unbroken_openingLine (.inl rfl) (isWord_of_isListIdent hident)
    have hfirst : ∀ line ∈ (header.map fun h => tabbed 2 (statementsText h.statements)).toList, Unbroken line := by
      intro line hline
      rw [Option.mem_toList, Option.map_eq_some_iff] at hline
      obtain ⟨h, rfl, rfl⟩ := hline
      exact Unbroken.tabbed (no_boundary_statementsText fun statement hstatement word hword =>
        hheader.1 word (mem_statements hstatement hword)) 2
    have hall : ∀ line ∈ (ListedBlock.chain name header rules).lines, Unbroken line :=
      List.forall_mem_cons.2 ⟨hopening, List.forall_mem_append.2
        ⟨List.forall_mem_append.2 ⟨hfirst, hbody hrules⟩, List.forall_mem_singleton.2 hclosing⟩⟩
    exact List.forall_mem_append.2 ⟨hall, hall⟩
  | object name kind body =>
    obtain ⟨hident, hkind, hlines⟩ := h
    have hopening := unbroken_openingLine (.inr (.inr hkind)) (isWord_of_isListIdent hident)
    have hall : ∀ line ∈ (ListedBlock.object name kind body).lines, Unbroken line :=
      List.forall_mem_cons.2 ⟨hopening, List.forall_mem_append.2 ⟨hbody hlines, List.forall_mem_singleton.2 hclosing⟩⟩
    exact List.forall_mem_append.2 ⟨hall, hall⟩
  | set name statements elements =>
    obtain ⟨hident, hstatements, helements⟩ := h
    have hopening := unbroken_openingLine (.inr (.inl rfl)) (isWord_of_isListIdent hident)
    have hstatementLines : ∀ line ∈ statements.map fun statement => tabbed 2 (List.intercalate [' '] (statement.map String.toList)),
        Unbroken line := by
      intro line hline
      obtain ⟨statement, hstatement, rfl⟩ := List.mem_map.1 hline
      exact Unbroken.tabbed (unbroken_words (hstatements statement hstatement).1) 2
    have hjoined : ∀ line ∈ if elements = [] then [] else [tabbed 2 (allElements elements)], Unbroken line := by
      split
      · exact fun _ hmem => absurd hmem List.not_mem_nil
      · exact List.forall_mem_singleton.2 ((unbroken_allElements helements).tabbed 2)
    have hall (middle : List (List Char)) (hmiddle : ∀ line ∈ middle, Unbroken line) :
        ∀ line ∈ openingLine "set" name ::
          (statements.map (fun statement => tabbed 2 (List.intercalate [' '] (statement.map String.toList))) ++ middle ++ [closingLine]),
          Unbroken line :=
      List.forall_mem_cons.2 ⟨hopening, List.forall_mem_append.2
        ⟨List.forall_mem_append.2 ⟨hstatementLines, hmiddle⟩, List.forall_mem_singleton.2 hclosing⟩⟩
    exact List.forall_mem_append.2 ⟨hall _ (unbroken_elementLines helements), hall _ hjoined⟩

theorem splitLines_unbroken {lines : List (List Char)} (h : ∀ line ∈ lines, Unbroken line) :
    splitLines (lines.flatMap fun line => line ++ ['\n']) = lines := by
  rw [splitLines_lines, List.flatMap_congr fun line hline => ?_]
  · exact List.flatMap_singleton' lines
  · rw [firstLine_eq_self (h line hline), furtherLines_eq_nil (h line hline)]

/-- Lines with line feeds between them and one after the last. -/
theorem intercalate_newline {lines : List (List Char)} (h : lines ≠ []) :
    List.intercalate ['\n'] lines ++ ['\n'] = lines.flatMap fun line => line ++ ['\n'] := by
  induction lines with
  | nil => exact absurd rfl h
  | cons line lines ih =>
    cases lines with
    | nil => simp
    | cons next lines =>
      have hrest := ih (List.cons_ne_nil _ _)
      rw [List.intercalate_cons_cons, List.append_assoc, List.append_assoc, hrest]
      simp

theorem trimmed_of_ends {text : List Char} {first last : Char} (hfirst : text.head? = some first) (hlast : text.getLast? = some last)
    (hf : isPySpace first = false) (hl : isPySpace last = false) : Trimmed text := by
  constructor
  · intro c hc
    rw [hfirst] at hc
    cases hc
    exact hf
  · intro c hc
    rw [hlast] at hc
    cases hc
    exact hl

/-- The base chain of `INPUT` with one rule, a set whose elements take two lines, and a security mark. -/
def exampleBlocks : List ListedBlock :=
  [.chain "INPUT" (some ⟨["type", "filter", "hook", "input", "priority", "filter"], some "drop"⟩) ["tcp dport \x7b 22, 80 \x7d accept"],
    .set "s" [["type", "ipv4_addr"]] [["10.0.0.1", "10.0.0.2"], ["10.0.0.3"]],
    .object "web" "secmark" ["\"context\""]]

theorem listable_example : ∀ b ∈ exampleBlocks, b.Listable := by
  have hrule : IsBodyLine "tcp dport \x7b 22, 80 \x7d accept" := {
    oneLine := ⟨trimmed_of_ends (rfl : _ = some 't') (rfl : _ = some 't') (by decide) (by decide), forall_eq_false (by decide)⟩
    ne_nil := by decide
    ne_close := by decide
    noComment := by decide
    noElements := by decide }
  have hcontext : IsBodyLine "\"context\"" := {
    oneLine := IsWord.oneLine ⟨by decide, forall_eq_false (by decide)⟩
    ne_nil := by decide
    ne_close := by decide
    noComment := by decide
    noElements := by decide }
  have htype : IsBodyLine (String.intercalate " " ["type", "ipv4_addr"]) := {
    oneLine := ⟨trimmed_of_ends (rfl : _ = some 't') (rfl : _ = some 'r') (by decide) (by decide), forall_eq_false (by decide)⟩
    ne_nil := by decide
    ne_close := by decide
    noComment := by decide
    noElements := by decide }
  have hword : ∀ word ∈ ["type", "filter", "hook", "input", "priority", "policy", "drop", "ipv4_addr"], IsHeaderWord word := by
    have hne : ∀ word ∈ ["type", "filter", "hook", "input", "priority", "policy", "drop", "ipv4_addr"], word.toList ≠ [] := by decide
    have hall : ∀ word ∈ ["type", "filter", "hook", "input", "priority", "policy", "drop", "ipv4_addr"],
        word.toList.all (fun c => !isPySpace c && c ≠ ';') = true := by decide
    intro word hmem
    exact isHeaderWord_of_all (hne word hmem) (hall word hmem)
  have helement : ∀ e ∈ ["10.0.0.1", "10.0.0.2", "10.0.0.3"], IsListedElement e := by
    have hne : ∀ e ∈ ["10.0.0.1", "10.0.0.2", "10.0.0.3"], e.toList ≠ [] ∧ ',' ∉ e.toList ∧ '\x7d' ∉ e.toList := by decide
    have hall : ∀ e ∈ ["10.0.0.1", "10.0.0.2", "10.0.0.3"], e.toList.all (fun c => !isPySpace c) = true := by decide
    intro e hmem
    obtain ⟨hnil, hcomma, hbrace⟩ := hne e hmem
    exact ⟨fun he => hnil (String.toList_eq_nil_iff.2 he), IsWord.oneLine ⟨hnil, forall_eq_false (hall e hmem)⟩, hcomma, hbrace⟩
  intro b hb
  rw [exampleBlocks, List.mem_cons, List.mem_cons, List.mem_singleton] at hb
  obtain rfl | rfl | rfl := hb
  · refine ⟨by decide, List.forall_mem_singleton.2 hrule, fun word hmem => hword word ?_, "filter", "input", "filter", [], rfl⟩
    revert word
    decide
  · refine ⟨by decide, List.forall_mem_singleton.2 ⟨fun word hmem => hword word ?_, htype⟩,
      fun line hline => ⟨?_, fun e he => helement e ?_⟩⟩
    · revert word
      decide
    · rintro rfl
      revert hline
      decide
    · revert line e
      decide
  · exact ⟨by decide, .inl rfl, List.forall_mem_singleton.2 hcontext⟩

end ListingAux

end Ferm
