import Ferm.Nft.Kernel
import Ferm.Plan.Delta

/-!
# What a rendered script is read as

The script `serializeTable` writes, as its two readers see it: the reader of the desired model and the index of the lines. Both
work on one cell at a time, so each object of the table can be followed alone.
-/

namespace Ferm

open Keyed

variable {form : NftForm} {family : String}

/-! ## The header of a rendered chain -/

namespace HeaderAux

/-- A word that is no keyword is kept. -/
theorem loop_word {map : List (String × Int)} {n : Nat} {word next : String} {rest : List String}
    (h : word ≠ "policy" ∧ word ≠ "priority") :
    canonicalizeHeaderLoop map (n + 1) (word :: next :: rest) =
      (word :: (canonicalizeHeaderLoop map n (next :: rest)).1, (canonicalizeHeaderLoop map n (next :: rest)).2) := by
  simp [canonicalizeHeaderLoop, h.1, h.2]

/-- A priority that is no landmark is kept. -/
theorem loop_priority {map : List (String × Int)} {n : Nat} {next : String} {rest : List String}
    (h : map.lookup next = none) :
    canonicalizeHeaderLoop map (n + 1) ("priority" :: next :: rest) =
      ("priority" :: next :: (canonicalizeHeaderLoop map n rest).1, (canonicalizeHeaderLoop map n rest).2) := by
  simp [canonicalizeHeaderLoop, resolvePriority, h]

theorem type_word_ne (t : ChainType) : t.word ≠ "policy" ∧ t.word ≠ "priority" := by cases t <;> decide

theorem hook_word_ne (t : Hook) : t.word ≠ "policy" ∧ t.word ≠ "priority" := by cases t <;> decide

/-- The words of a rendered declaration are canonical already. -/
theorem loop_decl (family : String) (c : NftBaseChain) (n : Nat) (rest : List String) :
    canonicalizeHeaderLoop (NFT_PRIORITY_LANDMARKS family) (n + 5)
      ("type" :: c.type.word :: "hook" :: c.hook.word :: "priority" :: toString c.priority :: rest) =
    ("type" :: c.type.word :: "hook" :: c.hook.word :: "priority" :: toString c.priority ::
        (canonicalizeHeaderLoop (NFT_PRIORITY_LANDMARKS family) n rest).1,
      (canonicalizeHeaderLoop (NFT_PRIORITY_LANDMARKS family) n rest).2) := by
  rw [loop_word (by decide), loop_word (type_word_ne c.type), loop_word (by decide), loop_word (hook_word_ne c.hook),
    loop_priority (lookup_landmarks_toString family c.priority)]

end HeaderAux

open HeaderAux in
/-- A rendered chain is read as the kind the kernel makes of its declaration. -/
theorem parsedPolicy_chainHeader (chain : NftChain) :
    parsedPolicy family (chainHeader chain) = (ChainKind.ofHeader family (chainHeader chain)).policyField := by
  cases chain with
  | regular name => rfl
  | base c =>
    have hdecl := loop_decl family c 1 []
    cases hc : c.policy with
    | none =>
      simp only [parsedPolicy, chainHeader, ChainHeader.words, hc, List.append_nil, canonicalizeNftHeader,
        ChainKind.ofHeader, ChainKind.policyField, List.length_cons, List.length_nil, hdecl]
      simp [canonicalizeHeaderLoop]
    | some policy =>
      have hwords := loop_decl family c 3 ["policy", policy]
      simp only [parsedPolicy, chainHeader, ChainHeader.words, hc, canonicalizeNftHeader, ChainKind.ofHeader,
        ChainKind.policyField, List.length_cons, List.length_nil, List.cons_append, List.nil_append, hdecl, hwords]
      simp only [canonicalizeHeaderLoop, if_true]
      split <;> simp

/-! ## The reader, cell by cell -/

/-- One cell of the model that is being read. -/
inductive ParsedCell where
  | table
  | chain (c : Option ParsedChain)
  | set (s : Option ParsedSet)
  | object (o : Option ParsedObject)
  deriving DecidableEq

/-- The cell of a target; a table that is not there yet has none. -/
def parsedView (t : Option ParsedTable) : Target → ParsedCell
  | .table => .table
  | .chain name => .chain ((t.getD {}).chains.get? name)
  | .set name => .set ((t.getD {}).sets.get? name)
  | .object name => .object ((t.getD {}).objects.get? name)

/-- What a line does to the cell it is about. -/
def parsedCellStep (form : NftForm) (family : String) : Command → ParsedCell → Option ParsedCell
  | .addTable, .table => some .table
  | .flushTable, .table => some .table
  | .addChain _ header, .chain _ => some (.chain (some { policy := parsedPolicy family header }))
  | .addRule _ body, .chain (some c) =>
    if body = "" then none else some (.chain (some (c.addRule (form.canonicalizeNftRule family body))))
  | .addSet name statements, .set s =>
    let s := s.getD { name := name }
    some (.set (some { s with type_ := (parseSetHeader statements).1, flags := (parseSetHeader statements).2 }))
  | .addElement name elements, .set s =>
    let s := s.getD { name := name }
    some (.set (some { s with elements := form.canonicalizeSetElements (s.elements ++ elements) }))
  | .addObject kind name body, .object _ => some (.object (some ⟨name, kind, body⟩))
  | _, _ => none

/-- A rule is read into a chain that is there, and is not empty. -/
theorem parseCommand_addRule {t t' : Option ParsedTable} {chain body : String}
    (h : parseCommand form family t (.addRule chain body) = some t') :
    ∃ t₀ c, t = some t₀ ∧ t₀.chains.get? chain = some c ∧ body ≠ "" ∧
      t' = some { t₀ with chains := t₀.chains.set chain (c.addRule (form.canonicalizeNftRule family body)) } := by
  cases t with
  | none => cases h
  | some t =>
    cases hc : t.chains.get? chain with
    | none => simp [parseCommand, hc] at h
    | some c =>
      by_cases hb : body = ""
      · simp [parseCommand, hc, hb] at h
      · simp only [parseCommand, hc, hb, if_false, Option.some.injEq] at h
        exact ⟨t, c, rfl, hc, hb, h.symm⟩

/-- The reader works on one cell at a time, but for a deleted table. -/
theorem parse_keyed :
    Keyed (· ≠ Command.deleteTable) (fun c t => parseCommand form family t c) parsedView Command.target
      (parsedCellStep form family) where
  here := by
    intro c t t' hc h
    cases c
    case deleteTable => exact absurd rfl hc
    case addRule chain body =>
      obtain ⟨t, c, rfl, hch, hb, rfl⟩ := parseCommand_addRule h
      simp [parsedCellStep, parsedView, Command.target, hch, hb]
    case flushChain => cases h
    case deleteChain => cases h
    case deleteElement => cases h
    all_goals
      cases h
      simp [parsedCellStep, parsedView, Command.target]
  frame := by
    intro c t t' hc h k hk
    cases c
    case deleteTable => exact absurd rfl hc
    case flushChain => cases h
    case deleteChain => cases h
    case deleteElement => cases h
    case addTable => cases h; cases k <;> rfl
    case flushTable => cases h; cases k <;> rfl
    case addRule chain body =>
      obtain ⟨t, c, rfl, _, _, rfl⟩ := parseCommand_addRule h
      cases k <;> try rfl
      case chain name => simp [parsedView, Dict.get?_set, show name ≠ chain from fun e => hk (congrArg Target.chain e)]
    case addChain chain header =>
      cases h
      cases k <;> try rfl
      case chain name => simp [parsedView, Dict.get?_set, show name ≠ chain from fun e => hk (congrArg Target.chain e)]
    case addObject kind object body =>
      cases h
      cases k <;> try rfl
      case object name => simp [parsedView, Dict.get?_set, show name ≠ object from fun e => hk (congrArg Target.object e)]
    case addSet set statements =>
      cases h
      cases k <;> try rfl
      case set name => simp [parsedView, Dict.get?_set, show name ≠ set from fun e => hk (congrArg Target.set e)]
    case addElement set elements =>
      cases h
      cases k <;> try rfl
      case set name => simp [parsedView, Dict.get?_set, show name ≠ set from fun e => hk (congrArg Target.set e)]
  total := by
    intro c t hc h
    cases c <;> simp only [parseCommand, Option.isSome_some] <;> simp only [Command.target, parsedView] at h
    case flushChain => simp [parsedCellStep] at h
    case deleteChain => simp [parsedCellStep] at h
    case deleteElement => simp [parsedCellStep] at h
    case addRule chain body =>
      cases t with
      | none => simp [parsedCellStep] at h
      | some t =>
        cases hch : t.chains.get? chain with
        | none => simp [parsedCellStep, hch] at h
        | some c =>
          by_cases hb : body = ""
          · simp [parsedCellStep, hch, hb] at h
          · simp [hch, hb]

/-- The lines of commands for one family and the table `ferm`. -/
def fermLines (family : String) (commands : List Command) : List ScriptLine := commands.map (deltaLine family)

/-- Reading such lines is running their commands. -/
theorem parseLines_fermLines {lineno : Nat} {commands : List Command} {s s' : ParseState}
    (hf : s.family = none ∨ s.family = some family) (h : parseLines form lineno (fermLines family commands) s = .ok s') :
    runScript (fun c t => parseCommand form family t c) commands s.ferm = some s'.ferm := by
  induction commands generalizing lineno s with
  | nil =>
    cases h
    rfl
  | cons command commands ih =>
    have hline : ¬ ((deltaLine family command).table ≠ NFT_TABLE_NAME ∨
        (s.family.isSome = true ∧ s.family ≠ some (deltaLine family command).family)) := by
      rcases hf with hf | hf <;> simp [hf]
    simp only [fermLines, List.map_cons, parseLines, parseLine] at h
    rw [if_neg hline, deltaLine_family, deltaLine_command] at h
    cases hc : parseCommand form family s.ferm command with
    | none =>
      rw [hc] at h
      cases h
    | some ferm =>
      rw [hc] at h
      rw [runScript_cons, hc]
      exact ih (s := ⟨some family, ferm⟩) (.inr rfl) h

/-! ## The index, cell by cell -/

/-- The lines of the index about one object. -/
inductive IndexCell where
  | table
  | chain (decl : Option ScriptLine) (rules : List ScriptLine)
  | set (decl elements : Option ScriptLine)
  | object (decl : Option ScriptLine)
  deriving DecidableEq

/-- The cell of a target. -/
def indexView (index : DesiredIndex) : Target → IndexCell
  | .table => .table
  | .chain name => .chain (index.chainDecl.get? name) ((index.chainRules.get? name).getD [])
  | .set name => .set (index.setDecl.get? name) (index.setElements.get? name)
  | .object name => .object (index.objectDecl.get? name)

/-- What a line does to the cell it is about. -/
def indexCellStep (line : ScriptLine) (cell : IndexCell) : Option IndexCell :=
  match line.command, cell with
  | .addTable, .table => some .table
  | .flushTable, .table => some .table
  | .addChain _ _, .chain _ rules => some (.chain (some line) rules)
  | .addRule _ _, .chain decl rules => some (.chain decl (rules ++ [line]))
  | .addSet _ _, .set _ elements => some (.set (some line) elements)
  | .addElement _ _, .set decl _ => some (.set decl (some line))
  | .addObject _ _ _, .object _ => some (.object (some line))
  | _, _ => none

/-- The index is built one cell at a time, but for a deleted table. -/
theorem index_keyed :
    Keyed (fun line : ScriptLine => line.command ≠ .deleteTable) (fun line index => (indexLine index line).toOption)
      indexView (fun line => line.command.target) indexCellStep where
  here := by
    rintro ⟨f, t, c⟩ index index' hc h
    cases c
    case deleteTable => exact absurd rfl hc
    case flushChain => cases h
    case deleteChain => cases h
    case deleteElement => cases h
    all_goals
      cases h
      simp [indexCellStep, indexView, Command.target]
  frame := by
    rintro ⟨f, t, c⟩ index index' hc h k hk
    cases c
    case deleteTable => exact absurd rfl hc
    case flushChain => cases h
    case deleteChain => cases h
    case deleteElement => cases h
    case addTable => cases h; rfl
    case flushTable => cases h; rfl
    case addRule chain body =>
      cases h
      cases k <;> try rfl
      case chain name => simp [indexView, Dict.get?_set, show name ≠ chain from fun e => hk (congrArg Target.chain e)]
    case addChain chain header =>
      cases h
      cases k <;> try rfl
      case chain name => simp [indexView, Dict.get?_set, show name ≠ chain from fun e => hk (congrArg Target.chain e)]
    case addObject kind object body =>
      cases h
      cases k <;> try rfl
      case object name => simp [indexView, Dict.get?_set, show name ≠ object from fun e => hk (congrArg Target.object e)]
    case addSet set statements =>
      cases h
      cases k <;> try rfl
      case set name => simp [indexView, Dict.get?_set, show name ≠ set from fun e => hk (congrArg Target.set e)]
    case addElement set elements =>
      cases h
      cases k <;> try rfl
      case set name => simp [indexView, Dict.get?_set, show name ≠ set from fun e => hk (congrArg Target.set e)]
  total := by
    rintro ⟨f, t, c⟩ index hc h
    cases c <;> first | rfl | simp [indexCellStep] at h

/-- Building the index is a run. -/
theorem buildDesiredIndex_toOption (lines : List ScriptLine) (index : DesiredIndex) :
    (lines.foldlM indexLine index).toOption = runScript (fun line index => (indexLine index line).toOption) lines index := by
  induction lines generalizing index with
  | nil => rfl
  | cons line lines ih =>
    rw [List.foldlM_cons, runScript_cons]
    cases h : indexLine index line with
    | error e => rfl
    | ok index' => exact ih index'

/-! ## The commands of a rendered table, cell by cell -/

/-- The bodies of a chain's rules as the script has them. -/
def ruleBodies (rules : Dict String (List NftRule)) (chain : String) : List String :=
  (((rules.get? chain).getD []).mapM NftRule.toText).toOption.getD []

/-- The cell a declaration is about. -/
def declTarget (name : String) : Decl → Target
  | .object _ => .object name
  | _ => .set name

namespace RenderedAux

theorem ruleCommands_eq (chain : String) (rules : List NftRule) :
    ruleCommands chain rules = (rules.mapM NftRule.toText).map (List.map (Command.addRule chain)) := by
  unfold ruleCommands
  induction rules with
  | nil => rfl
  | cons rule rules ih =>
    rw [List.mapM_cons, List.mapM_cons, ih]
    cases rule.toText with
    | error e => rfl
    | ok text =>
      cases rules.mapM NftRule.toText with
      | error e => rfl
      | ok texts => rfl

/-- The results of a walk whose steps can fail are those of its steps. -/
theorem eq_map_of_mapM_ok {α β ε : Type} {f : α → Except ε β} {g : α → β} {l : List α} {r : List β}
    (hfg : ∀ a ∈ l, ∀ b, f a = .ok b → b = g a) (h : l.mapM f = .ok r) : r = l.map g := by
  induction l generalizing r with
  | nil =>
    cases h
    rfl
  | cons a l ih =>
    obtain ⟨ha', hl'⟩ := List.forall_mem_cons.1 hfg
    rw [List.mapM_cons] at h
    cases ha : f a with
    | error e => rw [ha] at h; cases h
    | ok b =>
      cases hl : l.mapM f with
      | error e => rw [ha, hl] at h; cases h
      | ok bs =>
        rw [ha, hl] at h
        cases h
        rw [List.map_cons, ← ha' b ha, ← ih hl' hl]

end RenderedAux

section

variable {chains : List NftChain} {rules : Dict String (List NftRule)} {decls : Dict String Decl} {noflush : Bool}
  {commands : List Command}

open RenderedAux in
theorem tableCommands_eq (h : tableCommands chains rules decls noflush = .ok commands) :
    commands = envelopeCommands noflush ++ declarationCommands decls ++
      chains.flatMap (fun c => [Command.addChain c.name (chainHeader c)]) ++
      chains.flatMap fun c => (ruleBodies rules c.name).map (Command.addRule c.name) := by
  unfold tableCommands at h
  cases hr : chains.mapM fun chain => ruleCommands chain.name ((rules.get? chain.name).getD []) with
  | error e => rw [hr] at h; cases h
  | ok ruleLines =>
    have hlines := eq_map_of_mapM_ok (g := fun c => (ruleBodies rules c.name).map (Command.addRule c.name)) (by
      intro chain _ lines hl
      rw [ruleCommands_eq] at hl
      unfold ruleBodies
      cases ht : ((rules.get? chain.name).getD []).mapM NftRule.toText with
      | error e => rw [ht] at hl; cases hl
      | ok texts =>
        rw [ht] at hl
        cases hl
        rfl) hr
    rw [hr] at h
    cases h
    rw [hlines, ← List.flatMap_def, List.map_eq_flatMap]

/-- A rendered command works on a cell of its own; only the table is never deleted. -/
theorem ne_deleteTable (h : tableCommands chains rules decls noflush = .ok commands) :
    ∀ c ∈ commands, c ≠ .deleteTable := by
  rw [tableCommands_eq h]
  intro c hc
  simp only [List.mem_append, List.mem_flatMap, envelopeCommands, declarationCommands, List.mem_cons] at hc
  rintro rfl
  rcases hc with (((hc | hc) | ⟨name, _, hc⟩) | ⟨chain, _, hc⟩) | ⟨chain, _, hc⟩
  · cases hc
  · cases noflush <;> simp at hc
  · cases hd : decls.get? name with
    | none => rw [hd] at hc; cases hc
    | some d =>
      rw [hd] at hc
      cases d with
      | object d => simp [declCommands] at hc
      | dyn d => simp [declCommands] at hc
      | static d => simp only [declCommands] at hc; split at hc <;> simp at hc
  · simp at hc
  · simp at hc

theorem target_declCommands {name : String} {d : Decl} : ∀ c ∈ declCommands name d, c.target = declTarget name d := by
  intro c hc
  cases d with
  | object d =>
    rw [declCommands, List.mem_singleton] at hc
    rw [hc]
    rfl
  | dyn d =>
    rw [declCommands, List.mem_singleton] at hc
    rw [hc]
    rfl
  | static d =>
    simp only [declCommands, List.mem_cons] at hc
    rcases hc with rfl | hc
    · rfl
    · split at hc
      · cases hc
      · rw [List.mem_singleton] at hc
        rw [hc]
        rfl

theorem target_envelopeCommands : ∀ c ∈ envelopeCommands noflush, c.target = .table := by
  cases noflush <;> simp [envelopeCommands, Command.target]

/-- The declarations are about sets and objects. -/
theorem target_declarationCommands :
    ∀ c ∈ declarationCommands decls, ∃ name d, decls.get? name = some d ∧ c ∈ declCommands name d := by
  intro c hc
  obtain ⟨name, _, hc⟩ := List.mem_flatMap.1 hc
  cases hd : decls.get? name with
  | none => rw [hd] at hc; cases hc
  | some d => exact ⟨name, d, hd, by rwa [hd] at hc⟩

/-- A rendered chain is declared and then filled. -/
theorem onKey_chain (h : tableCommands chains rules decls noflush = .ok commands) (hn : (chains.map NftChain.name).Nodup)
    {c : NftChain} (hc : c ∈ chains) :
    onKey Command.target (.chain c.name) commands =
      .addChain c.name (chainHeader c) :: (ruleBodies rules c.name).map (Command.addRule c.name) := by
  have hinj : ∀ a ∈ chains, ∀ b ∈ chains, Target.chain a.name = Target.chain b.name → a = b :=
    fun a ha b hb he => List.inj_on_of_nodup_map hn ha hb (Target.chain.inj he)
  have henv : onKey Command.target (.chain c.name) (envelopeCommands noflush) = [] := onKey_eq_nil fun d hd he => by
    rw [target_envelopeCommands d hd] at he
    cases he
  have hdecl : onKey Command.target (.chain c.name) (declarationCommands decls) = [] := onKey_eq_nil fun d hd he => by
    obtain ⟨name, decl, _, hd⟩ := target_declarationCommands d hd
    rw [target_declCommands d hd] at he
    cases decl <;> cases he
  rw [tableCommands_eq h, onKey_append, onKey_append, onKey_append, henv, hdecl,
    onKey_flatMap hn.of_map hinj (fun a _ d hd => by rw [List.mem_singleton.1 hd]; rfl) hc,
    onKey_flatMap hn.of_map hinj (fun a _ d hd => by obtain ⟨_, _, rfl⟩ := List.mem_map.1 hd; rfl) hc]
  rfl

/-- Nothing is written about a cell that is neither the table's, a chain's nor a declaration's. -/
theorem onKey_absent (h : tableCommands chains rules decls noflush = .ok commands) {k : Target} (ht : k ≠ .table)
    (hc : ∀ c ∈ chains, .chain c.name ≠ k) (hd : ∀ name d, decls.get? name = some d → declTarget name d ≠ k) :
    onKey Command.target k commands = [] := by
  refine onKey_eq_nil fun e he hk => ?_
  rw [tableCommands_eq h] at he
  simp only [List.mem_append, List.mem_flatMap] at he
  rcases he with ((he | he) | ⟨c, hcm, he⟩) | ⟨c, hcm, he⟩
  · exact ht (hk.symm.trans (target_envelopeCommands e he))
  · obtain ⟨name, d, hname, he⟩ := target_declarationCommands e he
    exact hd name d hname ((target_declCommands e he).symm.trans hk)
  · rw [List.mem_singleton.1 he] at hk
    exact hc c hcm hk
  · obtain ⟨_, _, rfl⟩ := List.mem_map.1 he
    exact hc c hcm hk

theorem onKey_noChain (h : tableCommands chains rules decls noflush = .ok commands) {name : String}
    (hno : ∀ c ∈ chains, c.name ≠ name) : onKey Command.target (.chain name) commands = [] := by
  refine onKey_absent h (by simp) (fun c hc he => hno c hc (Target.chain.inj he)) ?_
  intro n d _ he
  cases d <;> cases he

theorem onKey_noSet (h : tableCommands chains rules decls noflush = .ok commands) {name : String}
    (hno : ∀ d, decls.get? name = some d → declTarget name d ≠ .set name) :
    onKey Command.target (.set name) commands = [] := by
  refine onKey_absent h (by simp) (by simp) ?_
  intro n d hd he
  cases d <;> cases he <;> exact hno _ hd rfl

theorem onKey_noObject (h : tableCommands chains rules decls noflush = .ok commands) {name : String}
    (hno : ∀ d, decls.get? name = some d → declTarget name d ≠ .object name) :
    onKey Command.target (.object name) commands = [] := by
  refine onKey_absent h (by simp) (by simp) ?_
  intro n d hd he
  cases d <;> cases he
  exact hno _ hd rfl

/-- A declaration's lines are the only ones about its cell. -/
theorem onKey_decl (h : tableCommands chains rules decls noflush = .ok commands) {name : String} {d : Decl}
    (hd : decls.get? name = some d) : onKey Command.target (declTarget name d) commands = declCommands name d := by
  have hnil : ∀ cs : List Command, (∀ c ∈ cs, c.target = .table ∨ ∃ n, c.target = .chain n) →
      onKey Command.target (declTarget name d) cs = [] := fun cs hcs => onKey_eq_nil fun c hc he => by
    rcases hcs c hc with hc | ⟨n, hc⟩ <;> rw [hc] at he <;> cases d <;> cases he
  let key : String → Target := fun n => (decls.get? n).elim (.set n) (declTarget n)
  have hkey : ∀ n, key n = .set n ∨ key n = .object n := by
    intro n
    simp only [key]
    cases decls.get? n with
    | none => exact .inl rfl
    | some d => cases d <;> simp [declTarget]
  have hdecl : onKey Command.target (key name) (declarationCommands decls) = declCommands name d := by
    refine (onKey_flatMap (nodup_sortedNames decls.nodup_keys) ?_ ?_ ?_).trans ?_
    · intro a _ b _ he
      rcases hkey a with ha | ha <;> rcases hkey b with hb | hb <;> rw [ha, hb] at he <;> cases he <;> rfl
    · intro a _ c hc
      cases ha : decls.get? a with
      | none => rw [ha] at hc; cases hc
      | some d' =>
        rw [ha] at hc
        rw [target_declCommands c hc]
        simp only [key, ha, Option.elim_some]
    · exact mem_sortedNames.2 (Dict.mem_of_get? hd)
    · simp only [hd]
  have hname : key name = declTarget name d := by simp only [key, hd, Option.elim_some]
  rw [tableCommands_eq h, onKey_append, onKey_append, onKey_append, hnil _ (fun c hc => .inl (target_envelopeCommands c hc)),
    ← hname, hdecl, hname, hnil, hnil]
  · simp
  · intro c hc
    obtain ⟨chain, _, hc⟩ := List.mem_flatMap.1 hc
    obtain ⟨_, _, rfl⟩ := List.mem_map.1 hc
    exact .inr ⟨_, rfl⟩
  · intro c hc
    obtain ⟨chain, _, hc⟩ := List.mem_flatMap.1 hc
    rw [List.mem_singleton.1 hc]
    exact .inr ⟨_, rfl⟩

/-! ## The desired model -/

/-- The set a declaration is read as. -/
def Decl.parsedSet (form : NftForm) (name : String) (d : Decl) : ParsedSet where
  name := name
  elements := form.canonicalizeSetElements d.elements
  type_ := (parseSetHeader d.statements).1
  flags := (parseSetHeader d.statements).2

/-- The model a rendered table is read as. -/
structure ReadsAs (form : NftForm) (family : String) (chains : List NftChain) (rules : Dict String (List NftRule))
    (decls : Dict String Decl) (desired : ParsedTable) : Prop where
  chain : ∀ c ∈ chains, desired.chains.get? c.name =
    some ⟨(ChainKind.ofHeader family (chainHeader c)).policyField,
      (ruleBodies rules c.name).map (form.canonicalizeNftRule family)⟩
  noChain : ∀ name, (∀ c ∈ chains, c.name ≠ name) → desired.chains.get? name = none
  set : ∀ name d, decls.get? name = some d → declTarget name d = .set name →
    desired.sets.get? name = some (d.parsedSet form name)
  noSet : ∀ name, (∀ d, decls.get? name = some d → declTarget name d ≠ .set name) → desired.sets.get? name = none
  object : ∀ name d, decls.get? name = some (.object d) → desired.objects.get? name = some ⟨name, d.kind, d.body⟩
  noObject : ∀ name, (∀ d, decls.get? name = some d → declTarget name d ≠ .object name) →
    desired.objects.get? name = none

/-- Every set of a rendered table is a declaration's. -/
theorem ReadsAs.set_decl (hr : ReadsAs form family chains rules decls desired) {name : String} {s : ParsedSet}
    (hs : desired.sets.get? name = some s) :
    ∃ d, decls.get? name = some d ∧ declTarget name d = .set name ∧ s = d.parsedSet form name := by
  by_contra hn
  have hnone : desired.sets.get? name = none := by
    refine hr.noSet name fun d hd ht => hn ⟨d, hd, ht, ?_⟩
    rw [hr.set name d hd ht] at hs
    exact (Option.some.inj hs).symm
  rw [hs] at hnone
  cases hnone

namespace RenderedAux

/-- The rules of a chain are read in order. -/
theorem runScript_addRules {name : String} {bodies : List String} {c : ParsedChain} {cell : ParsedCell}
    (h : runScript (parsedCellStep form family) (bodies.map (Command.addRule name)) (.chain (some c)) = some cell) :
    cell = .chain (some ⟨c.policy, c.rules ++ bodies.map (form.canonicalizeNftRule family)⟩) := by
  induction bodies generalizing c with
  | nil =>
    cases h
    simp
  | cons body bodies ih =>
    simp only [List.map_cons, runScript_cons, parsedCellStep] at h
    by_cases hb : body = ""
    · simp [hb] at h
    · rw [if_neg hb, Option.bind_some] at h
      rw [ih h]
      simp [ParsedChain.addRule]

/-- A line that is read leaves a table. -/
theorem isSome_of_parseCommand {t t' : Option ParsedTable} {c : Command} (hc : c ≠ .deleteTable)
    (h : parseCommand form family t c = some t') : t'.isSome = true := by
  cases c
  case deleteTable => exact absurd rfl hc
  case addRule =>
    obtain ⟨_, _, _, _, _, rfl⟩ := parseCommand_addRule h
    rfl
  all_goals
    cases h <;> rfl

theorem isSome_of_runScript {t t' : Option ParsedTable} {cs : List Command} (hcs : ∀ c ∈ cs, c ≠ .deleteTable)
    (ht : t.isSome = true) (h : runScript (fun c t => parseCommand form family t c) cs t = some t') : t'.isSome = true := by
  induction cs generalizing t with
  | nil =>
    cases h
    exact ht
  | cons c cs ih =>
    obtain ⟨hc, hcs⟩ := List.forall_mem_cons.1 hcs
    obtain ⟨t₁, h₁, h⟩ := Option.bind_eq_some_iff.1 h
    exact ih hcs (isSome_of_parseCommand hc h₁) h

end RenderedAux

open RenderedAux in
/-- The reader recovers the rendered table. -/
theorem readsAs_of_parse (h : tableCommands chains rules decls noflush = .ok commands)
    (hn : (chains.map NftChain.name).Nodup) {tables : Dict String ParsedTable}
    (hp : parseNftScript form (fermLines family commands) = .ok tables) :
    ∃ desired, tables = fermTables (some desired) ∧ ReadsAs form family chains rules decls desired := by
  unfold parseNftScript at hp
  cases hl : parseLines form 1 (fermLines family commands) {} with
  | error e => rw [hl] at hp; cases hp
  | ok s =>
    rw [hl] at hp
    cases hp
    have hrun := parseLines_fermLines (.inl rfl) hl
    have hsome : s.ferm.isSome = true := by
      have hdel := ne_deleteTable h
      rw [tableCommands_eq h] at hdel hrun
      exact isSome_of_runScript (t := some {}) (fun c hc => hdel c (List.mem_cons_of_mem _ hc)) rfl hrun
    obtain ⟨desired, hd⟩ := Option.isSome_iff_exists.1 hsome
    have hview := parse_keyed.view_run (ne_deleteTable h) hrun
    rw [hd] at hview
    refine ⟨desired, congrArg fermTables hd, ?_, ?_, ?_, ?_, ?_, ?_⟩
    · intro c hc
      have := hview (.chain c.name)
      rw [onKey_chain h hn hc] at this
      have := runScript_addRules this
      simp only [parsedView, Option.getD_some, ParsedCell.chain.injEq] at this
      rw [this, parsedPolicy_chainHeader]
      rfl
    · intro name hc
      have := hview (.chain name)
      rw [onKey_noChain h hc] at this
      exact (ParsedCell.chain.inj (Option.some.inj this)).symm
    · intro name d hd ht
      have := hview (.set name)
      rw [← ht, onKey_decl h hd, ht] at this
      cases d with
      | object d => cases ht
      | dyn d =>
        have := ParsedCell.set.inj (Option.some.inj this)
        rw [Option.getD_some] at this
        rw [← this]
        simp [Decl.parsedSet, Decl.elements, NftForm.canonicalizeSetElements, orderElements, orderByElement]
      | static d =>
        simp only [declCommands] at this
        by_cases he : d.elements = []
        · rw [if_pos he] at this
          have := ParsedCell.set.inj (Option.some.inj this)
          rw [Option.getD_some] at this
          rw [← this]
          simp [Decl.parsedSet, Decl.elements, NftForm.canonicalizeSetElements, orderElements, orderByElement, he]
        · rw [if_neg he] at this
          exact (ParsedCell.set.inj (Option.some.inj this)).symm
    · intro name hno
      have := hview (.set name)
      rw [onKey_noSet h hno] at this
      exact (ParsedCell.set.inj (Option.some.inj this)).symm
    · intro name d hd
      have := hview (.object name)
      have hk := onKey_decl h hd
      rw [declTarget] at hk
      rw [hk] at this
      exact (ParsedCell.object.inj (Option.some.inj this)).symm
    · intro name hno
      have := hview (.object name)
      rw [onKey_noObject h hno] at this
      exact (ParsedCell.object.inj (Option.some.inj this)).symm

/-! ## The index of the lines -/

/-- The lines the index of a rendered table finds. -/
structure IndexedAs (family : String) (chains : List NftChain) (rules : Dict String (List NftRule))
    (decls : Dict String Decl) (index : DesiredIndex) : Prop where
  chainDecl : ∀ c ∈ chains, index.chainDecl.get? c.name = some (deltaLine family (.addChain c.name (chainHeader c)))
  noChainDecl : ∀ name, (∀ c ∈ chains, c.name ≠ name) → index.chainDecl.get? name = none
  chainRules : ∀ c ∈ chains, (index.chainRules.get? c.name).getD [] =
    (ruleBodies rules c.name).map fun body => deltaLine family (.addRule c.name body)
  setDecl : ∀ name d, decls.get? name = some d → declTarget name d = .set name →
    index.setDecl.get? name = some (deltaLine family (.addSet name d.statements))
  setElements : ∀ name d, decls.get? name = some d → declTarget name d = .set name →
    index.setElements.get? name =
      if d.elements = [] then none else some (deltaLine family (.addElement name d.elements))

namespace RenderedAux

theorem onKey_fermLines (k : Target) (cs : List Command) :
    onKey (fun line : ScriptLine => line.command.target) k (fermLines family cs) =
      fermLines family (onKey Command.target k cs) := by
  induction cs with
  | nil => rfl
  | cons c cs ih =>
    by_cases hc : c.target = k
    · simp only [fermLines, List.map_cons, onKey_cons, deltaLine_command, hc, if_true] at ih ⊢
      rw [ih]
    · simp only [fermLines, List.map_cons, onKey_cons, deltaLine_command, hc, if_false] at ih ⊢
      rw [ih]

theorem runScript_indexRules {name : String} {bodies : List String} {decl : Option ScriptLine} {rules : List ScriptLine} :
    runScript indexCellStep (fermLines family (bodies.map (Command.addRule name))) (.chain decl rules) =
      some (.chain decl (rules ++ bodies.map fun body => deltaLine family (.addRule name body))) := by
  induction bodies generalizing rules with
  | nil => simp [fermLines]
  | cons body bodies ih =>
    rw [List.map_cons, fermLines, List.map_cons, runScript_cons]
    refine ih.trans ?_
    simp [deltaLine]

end RenderedAux

open RenderedAux in
/-- The index finds the lines of the rendered table. -/
theorem indexedAs_of_build (h : tableCommands chains rules decls noflush = .ok commands)
    (hn : (chains.map NftChain.name).Nodup) {index : DesiredIndex}
    (hb : buildDesiredIndex (fermLines family commands) = .ok index) : IndexedAs family chains rules decls index := by
  have hrun := buildDesiredIndex_toOption (fermLines family commands) {}
  unfold buildDesiredIndex at hb
  rw [hb] at hrun
  have hview := index_keyed.view_run (by
    intro line hline
    obtain ⟨c, hc, rfl⟩ := List.mem_map.1 hline
    exact ne_deleteTable h c hc) hrun.symm
  simp only [onKey_fermLines] at hview
  have hchain : ∀ c ∈ chains, indexView index (.chain c.name) =
      .chain (some (deltaLine family (.addChain c.name (chainHeader c))))
        ((ruleBodies rules c.name).map fun body => deltaLine family (.addRule c.name body)) := by
    intro c hc
    have := hview (.chain c.name)
    rw [onKey_chain h hn hc] at this
    exact (Option.some.inj (runScript_indexRules.symm.trans this)).symm
  have hset : ∀ name d, decls.get? name = some d → declTarget name d = .set name → indexView index (.set name) =
      .set (some (deltaLine family (.addSet name d.statements)))
        (if d.elements = [] then none else some (deltaLine family (.addElement name d.elements))) := by
    intro name d hd ht
    have := hview (.set name)
    rw [← ht, onKey_decl h hd, ht] at this
    cases d with
    | object d => cases ht
    | dyn d => exact (Option.some.inj this).symm
    | static d =>
      simp only [declCommands] at this
      by_cases he : d.elements = []
      · rw [if_pos he] at this
        rw [if_pos (show (Decl.static d).elements = [] from he)]
        exact (Option.some.inj this).symm
      · rw [if_neg he] at this
        rw [if_neg (show ¬ (Decl.static d).elements = [] from he)]
        exact (Option.some.inj this).symm
  refine ⟨fun c hc => ?_, fun name hno => ?_, fun c hc => ?_, fun name d hd ht => ?_, fun name d hd ht => ?_⟩
  · exact (IndexCell.chain.inj (hchain c hc)).1
  · have := hview (.chain name)
    rw [onKey_noChain h hno] at this
    exact (IndexCell.chain.inj (Option.some.inj this)).1.symm
  · exact (IndexCell.chain.inj (hchain c hc)).2
  · exact (IndexCell.set.inj (hset name d hd ht)).1
  · exact (IndexCell.set.inj (hset name d hd ht)).2

end

end Ferm
