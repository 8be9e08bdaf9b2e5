import Ferm.Lib.CopyOnWrite
import Ferm.Lib.KeyedRun
import Ferm.Unfold

/-!
# Levels of rules

The working rules of nested blocks. A level knows its keywords, and for each of them the module that brought it, in two tables it
shares with its parent until it writes to them. The tables are cells of a heap; those of the module registry are its first cells.
-/

namespace Ferm.Scope

open StructuralParser (SourcePosition)

variable {κ : Type}

/-! ## Rules and their tables -/

/-- The working rule of a level. Its two tables are addresses. -/
structure Rule where
  cow : List String := []
  keywords : Nat
  keywordModule : Nat
  matchModules : List String := []
  options : List Unfold.RuleOption := []
  domain : Value := .undef
  domainFamily : Option String := none
  domainBoth : Bool := false
  table : Value := .undef
  chain : Value := .undef
  protocol : Value := .undef
  autoProtocol : Value := .undef
  hasRule : Bool := false
  hasAction : Bool := false
  nonEmpty : Bool := false
  script : Option SourcePosition := none

/-- The tables of keywords and the tables of the modules that brought them. -/
structure Heap (κ : Type) where
  keywords : List (Dict String κ)
  keywordModule : List (Dict String String)

/-- The keyword tables of the registered modules, and which of them holds the base keywords of a family. -/
structure Registry (κ : Type) where
  tables : List (Dict String κ)
  base : String → Option Nat
  base_lt : ∀ {family : String} {c : Nat}, base family = some c → c < tables.length

/-- What the parser is run with: the registry, the one family asked for, and what initializing a family says. -/
structure Environment (κ : Type) where
  registry : Registry κ
  domain : Option String := none
  initializeDomain : Family → Except FermError Unit

/-- `copy_on_write`. -/
def copyOnWrite (heap : Heap κ) (rule : Rule) (key : String) : Heap κ × Rule :=
  if key ∉ rule.cow then (heap, rule)
  else
    let cow := rule.cow.filter (· ≠ key)
    if key = "keywords" then
      match heap.keywords[rule.keywords]?, heap.keywordModule[rule.keywordModule]? with
      | some keywords, some modules =>
        ({ keywords := heap.keywords ++ [keywords], keywordModule := heap.keywordModule ++ [modules] },
          { rule with cow := cow, keywords := heap.keywords.length, keywordModule := heap.keywordModule.length })
      | _, _ => (heap, { rule with cow := cow })
    else (heap, { rule with cow := cow })

/-- `new_level`. -/
def newLevel (heap : Heap κ) : Option Rule → Heap κ × Rule
  | none =>
    ({ keywords := heap.keywords ++ [Dict.empty], keywordModule := heap.keywordModule ++ [Dict.empty] },
      { keywords := heap.keywords.length, keywordModule := heap.keywordModule.length })
  | some prev =>
    (heap,
      { cow := ["keywords"]
        keywords := prev.keywords
        keywordModule := prev.keywordModule
        matchModules := prev.matchModules
        options := prev.options
        domain := prev.domain
        domainFamily := prev.domainFamily
        domainBoth := prev.domainBoth
        table := prev.table
        chain := prev.chain
        protocol := prev.protocol
        autoProtocol := prev.autoProtocol
        hasRule := prev.hasRule
        hasAction := prev.hasAction })

/-- `rule.keywords.update(keywords)`. -/
def updateKeywords (keywords : Dict String κ) (table : Dict String κ) : Dict String κ :=
  Dict.merge (fun keyword _ => keyword) keywords table

/-- Record the module of every keyword. -/
def recordModule (keywords : List String) (module : Option String) (table : Dict String String) : Dict String String :=
  match module with
  | some module => keywords.foldl (fun table name => table.set name module) table
  | none => table

/-- `merge_keywords`, of the keywords at an address. -/
def mergeKeywords (heap : Heap κ) (rule : Rule) (keywords : Dict String κ) (module : Option String) : Heap κ × Rule :=
  let (heap, rule) := copyOnWrite heap rule "keywords"
  ({ keywords := heap.keywords.modify rule.keywords (updateKeywords keywords)
     keywordModule := heap.keywordModule.modify rule.keywordModule (recordModule keywords.keys module) }, rule)

/-! ## The family of a rule -/

/-- `stringify` of a value that is no reference. -/
def stringify : Value → String
  | .scalar text => text
  | _ => ""

/-- `_domain_key`. -/
def domainKey : Value → Except FermError Family
  | .scalar name => Family.fromName name
  | _ => .error (internalError "unexpected value type")

/-- `check_domain`: whether the family is not filtered out. -/
def checkDomain (env : Environment κ) (domain : Value) : Except FermError Bool :=
  if env.domain.any fun wanted => domain ≠ .scalar wanted then .ok false
  else
    match (domainKey domain).bind env.initializeDomain with
    | .ok _ => .ok true
    | .error e => .error ⟨e.message ++ "\n"⟩

/-- The family the keywords of a domain are looked up by. -/
def foldedFamily : Value → Except FermError String
  | .array [] => .ok "none"
  | .array items =>
    if items.any fun d => d ≠ .scalar "ip" ∧ d ≠ .scalar "ip6" then .error ⟨"Cannot combine non-IP domains"⟩ else .ok Family.ip.name
  | domain => if domain = .scalar "ip6" then .ok Family.ip.name else (Family.fromName (stringify domain)).map Family.name

/-- `set_domain`; nothing where the family is filtered out. -/
def setDomain (env : Environment κ) (heap : Heap κ) (rule : Rule) (domain : Value) : Except FermError (Option (Heap κ × Rule)) := do
  unless ← checkDomain env domain do return none
  let family ← foldedFamily domain
  let modules := heap.keywordModule ++ [Dict.empty]
  let cow := rule.cow.insert "keywords"
  match env.registry.base family with
  | some base =>
    return some ({ heap with keywordModule := modules },
      { rule with
        domainFamily := some family, keywords := base, keywordModule := heap.keywordModule.length, cow := cow, domain := domain })
  | none =>
    return some ({ keywords := heap.keywords ++ [Dict.empty], keywordModule := modules },
      { rule with
        domainFamily := some family, keywords := heap.keywords.length, keywordModule := heap.keywordModule.length, cow := cow
        domain := domain })

/-! ## Runs -/

/-- A level: the one it was opened in, and its rule. -/
structure Level where
  parent : Option Nat
  rule : Rule

/-- The heap, every level that was opened, and which of them are open, from the inside out. -/
structure State (κ : Type) where
  heap : Heap κ
  levels : List Level
  opened : List Nat

/-- A step of the parser on its levels. The keywords that are merged are those of a registered module. -/
inductive Call where
  | newLevel
  | leave
  | setDomain (domain : Value)
  | mergeKeywords (table : Nat) (module : Option String)

/-- Before the first level. -/
def State.initial (registry : Registry κ) : State κ := ⟨⟨registry.tables, []⟩, [], []⟩

/-- Open the level of a rule. -/
def State.enter (s : State κ) (parent : Option Nat) (opened : Heap κ × Rule) : State κ :=
  { heap := opened.1, levels := s.levels ++ [⟨parent, opened.2⟩], opened := s.levels.length :: s.opened }

/-- Put a rule in the place of the rule of a level. -/
def State.change (s : State κ) (l : Nat) (changed : Heap κ × Rule) : State κ :=
  { s with heap := changed.1, levels := s.levels.modify l fun level => { level with rule := changed.2 } }

/-- One step; none where the step is not possible or ends the parser with an error. -/
def step (env : Environment κ) (call : Call) (s : State κ) : Option (State κ) :=
  match call, s.opened with
  | .newLevel, [] => some (s.enter none (newLevel s.heap none))
  | .newLevel, l :: _ => s.levels[l]?.map fun level => s.enter (some l) (newLevel s.heap (some level.rule))
  | .leave, _ :: opened => some { s with opened := opened }
  | .setDomain domain, l :: _ => do
    let level ← s.levels[l]?
    match setDomain env s.heap level.rule domain with
    | .ok (some changed) => some (s.change l changed)
    | .ok none => some s
    | .error _ => none
  | .mergeKeywords table module, l :: _ => do
    let level ← s.levels[l]?
    let keywords ← env.registry.tables[table]?
    some (s.change l (mergeKeywords s.heap level.rule keywords module))
  | _, [] => none

/-- A run of the parser on its levels. -/
def run (env : Environment κ) (calls : List Call) : Option (State κ) := runScript (step env) calls (State.initial env.registry)

/-! ## What the levels say by value -/

/-- The two tables of a level. -/
structure Tables (κ : Type) where
  keywords : Dict String κ
  keywordModule : Dict String String

/-- The family `set_domain` gives a rule; nothing where it is filtered out. -/
def acceptedFamily (env : Environment κ) (domain : Value) : Except FermError (Option String) := do
  unless ← checkDomain env domain do return none
  return some (← foldedFamily domain)

/-- The base keywords of a family, none of which a module brought. -/
def baseTables (registry : Registry κ) (family : String) : Tables κ :=
  ⟨((registry.base family).bind fun base => registry.tables[base]?).getD Dict.empty, Dict.empty⟩

/-- One step on the tables of the open levels, where every level has tables of its own: a new one starts from those of the level
around it. -/
def tablesStep (env : Environment κ) (call : Call) (tables : List (Tables κ)) : Option (List (Tables κ)) :=
  match call, tables with
  | .newLevel, [] => some [⟨Dict.empty, Dict.empty⟩]
  | .newLevel, t :: rest => some (t :: t :: rest)
  | .leave, _ :: rest => some rest
  | .setDomain domain, t :: rest =>
    match acceptedFamily env domain with
    | .ok (some family) => some (baseTables env.registry family :: rest)
    | .ok none => some (t :: rest)
    | .error _ => none
  | .mergeKeywords table module, t :: rest => do
    let keywords ← env.registry.tables[table]?
    some (⟨updateKeywords keywords t.keywords, recordModule keywords.keys module t.keywordModule⟩ :: rest)
  | _, [] => none

/-! ## The heap under the levels -/

/-- A level as a reader of one of its tables. -/
def Level.reader (cell : Rule → Nat) (level : Level) : CopyOnWrite.Level :=
  ⟨level.parent, cell level.rule, level.rule.cow.contains "keywords"⟩

/-- The keyword tables with their readers. -/
def keywordStore (s : State κ) : CopyOnWrite.Store (Dict String κ) := ⟨s.heap.keywords, s.levels.map (Level.reader Rule.keywords)⟩

/-- The tables of modules with their readers. -/
def moduleStore (s : State κ) : CopyOnWrite.Store (Dict String String) :=
  ⟨s.heap.keywordModule, s.levels.map (Level.reader Rule.keywordModule)⟩

theorem map_modify {α β : Type} (f : α → β) (g : α → α) (g' : β → β) (h : ∀ a, f (g a) = g' (f a)) (xs : List α) (i : Nat) :
    (xs.modify i g).map f = (xs.map f).modify i g' := by
  refine List.ext_getElem? fun j => ?_
  simp only [List.getElem?_map, List.getElem?_modify]
  cases xs[j]? with
  | none => rfl
  | some a =>
    by_cases hij : i = j
    · simp [hij, h]
    · simp [hij]

theorem modify_reader {levels : List CopyOnWrite.Level} {l cell : Nat} {parent : Option Nat} {shared : Bool}
    (h : levels[l]? = some ⟨parent, cell, shared⟩) :
    (levels.modify l fun reader => { reader with cell := cell, shared := shared }) = levels := by
  refine List.ext_getElem? fun j => ?_
  rw [List.getElem?_modify]
  by_cases hlj : l = j
  · rw [← hlj, h]
    simp
  · simp [hlj]

variable {env : Environment κ} {s : State κ} {l : Nat} {level : Level}

/-- A changed rule is a reader that points elsewhere. -/
theorem map_reader_modify (cell : Rule → Nat) (rule : Rule) (levels : List Level) (l : Nat) :
    (levels.modify l fun level => { level with rule := rule }).map (Level.reader cell) =
      (levels.map (Level.reader cell)).modify l fun reader =>
        { reader with cell := cell rule, shared := rule.cow.contains "keywords" } :=
  map_modify (Level.reader cell) _ (fun reader => ⟨reader.parent, cell rule, rule.cow.contains "keywords"⟩) (fun _ => rfl) _ _

theorem contains_insert_keywords (cow : List String) : (cow.insert "keywords").contains "keywords" = true :=
  List.contains_iff_mem.2 List.mem_insert_self

theorem contains_filter_keywords (cow : List String) : (cow.filter (· ≠ "keywords")).contains "keywords" = false := by
  rw [← Bool.not_eq_true, List.contains_iff_mem, List.mem_filter]
  simp

theorem reader_of_level (cell : Rule → Nat) (hl : s.levels[l]? = some level) :
    (s.levels.map (Level.reader cell))[l]? = some (level.reader cell) := by
  rw [List.getElem?_map, hl, Option.map_some]

/-! ### A new level -/

theorem keywordStore_enter_root :
    keywordStore (s.enter none (newLevel s.heap none)) = (keywordStore s).openRoot Dict.empty := by
  simp only [keywordStore, State.enter, newLevel, List.map_append, List.map_cons, List.map_nil, CopyOnWrite.Store.openRoot,
    CopyOnWrite.Store.push, CopyOnWrite.Store.alloc]
  rfl

theorem moduleStore_enter_root : moduleStore (s.enter none (newLevel s.heap none)) = (moduleStore s).openRoot Dict.empty := by
  simp only [moduleStore, State.enter, newLevel, List.map_append, List.map_cons, List.map_nil, CopyOnWrite.Store.openRoot,
    CopyOnWrite.Store.push, CopyOnWrite.Store.alloc]
  rfl

theorem keywordStore_enter_child (hl : s.levels[l]? = some level) :
    keywordStore (s.enter (some l) (newLevel s.heap (some level.rule))) = (keywordStore s).openChild l := by
  have hreader := reader_of_level Rule.keywords hl
  simp only [keywordStore, State.enter, newLevel, List.map_append, List.map_cons, List.map_nil, CopyOnWrite.Store.openChild,
    CopyOnWrite.Store.push, hreader]
  rfl

theorem moduleStore_enter_child (hl : s.levels[l]? = some level) :
    moduleStore (s.enter (some l) (newLevel s.heap (some level.rule))) = (moduleStore s).openChild l := by
  have hreader := reader_of_level Rule.keywordModule hl
  simp only [moduleStore, State.enter, newLevel, List.map_append, List.map_cons, List.map_nil, CopyOnWrite.Store.openChild,
    CopyOnWrite.Store.push, hreader]
  rfl

/-! ### A merge -/

/-- A merge updates both tables of a level. -/
theorem stores_change_mergeKeywords (hl : s.levels[l]? = some level) (hkeywords : level.rule.keywords < s.heap.keywords.length)
    (hmodules : level.rule.keywordModule < s.heap.keywordModule.length) (keywords : Dict String κ) (module : Option String) :
    keywordStore (s.change l (mergeKeywords s.heap level.rule keywords module)) =
        (keywordStore s).update l (updateKeywords keywords) ∧
      moduleStore (s.change l (mergeKeywords s.heap level.rule keywords module)) =
        (moduleStore s).update l (recordModule keywords.keys module) := by
  have hkeywordReader := reader_of_level Rule.keywords hl
  have hmoduleReader := reader_of_level Rule.keywordModule hl
  have hkeywordCell := List.getElem?_eq_getElem hkeywords
  have hmoduleCell := List.getElem?_eq_getElem hmodules
  by_cases hcow : "keywords" ∈ level.rule.cow
  · have hshared : level.rule.cow.contains "keywords" = true := List.contains_iff_mem.2 hcow
    rw [Level.reader, hshared] at hkeywordReader hmoduleReader
    rw [CopyOnWrite.Store.update_of_shared hkeywordReader hkeywordCell,
      CopyOnWrite.Store.update_of_shared hmoduleReader hmoduleCell]
    simp only [keywordStore, moduleStore, map_reader_modify, CopyOnWrite.Store.refresh, CopyOnWrite.Store.point,
      CopyOnWrite.Store.alloc, CopyOnWrite.Store.write, mergeKeywords, copyOnWrite, hcow, not_true_eq_false, if_false, if_true,
      hkeywordCell, hmoduleCell, contains_filter_keywords, State.change, and_self]
  · have hshared : level.rule.cow.contains "keywords" = false := by
      rw [← Bool.not_eq_true, List.contains_iff_mem]
      exact hcow
    rw [Level.reader, hshared] at hkeywordReader hmoduleReader
    rw [CopyOnWrite.Store.update_of_owned hkeywordReader, CopyOnWrite.Store.update_of_owned hmoduleReader]
    simp only [keywordStore, moduleStore, map_reader_modify, CopyOnWrite.Store.write, mergeKeywords, copyOnWrite, hcow,
      not_false_eq_true, if_true, State.change, hshared, modify_reader hkeywordReader, modify_reader hmoduleReader, and_self]

/-! ### A family -/

/-- `set_domain` gives a rule the base keywords of a family, in a table of the registry where the family has one, and a new table
of modules. -/
theorem stores_change_setDomain {domain : Value} {changed : Heap κ × Rule}
    (h : setDomain env s.heap level.rule domain = .ok (some changed)) :
    ∃ family, acceptedFamily env domain = .ok (some family) ∧
      keywordStore (s.change l changed) =
        (match env.registry.base family with
        | some base => (keywordStore s).point l base true
        | none => (keywordStore s).refresh l Dict.empty true) ∧
      moduleStore (s.change l changed) = (moduleStore s).refresh l Dict.empty true := by
  unfold setDomain at h
  unfold acceptedFamily
  cases hcheck : checkDomain env domain with
  | error e => rw [hcheck] at h; cases h
  | ok accepted =>
    cases accepted with
    | false => rw [hcheck] at h; cases h
    | true =>
      cases hfamily : foldedFamily domain with
      | error e => rw [hcheck, hfamily] at h; cases h
      | ok family =>
        refine ⟨family, rfl, ?_⟩
        rw [hcheck, hfamily] at h
        cases hbase : env.registry.base family with
        | some base =>
          simp only [bind, Except.bind, if_true, pure, Except.pure, hbase, Except.ok.injEq, Option.some.injEq] at h
          subst h
          simp only [keywordStore, moduleStore, State.change, map_reader_modify, contains_insert_keywords, CopyOnWrite.Store.point,
            CopyOnWrite.Store.refresh, CopyOnWrite.Store.alloc, and_self]
        | none =>
          simp only [bind, Except.bind, if_true, pure, Except.pure, hbase, Except.ok.injEq, Option.some.injEq] at h
          subst h
          simp only [keywordStore, moduleStore, State.change, map_reader_modify, contains_insert_keywords, CopyOnWrite.Store.point,
            CopyOnWrite.Store.refresh, CopyOnWrite.Store.alloc, and_self]

/-- Where `set_domain` leaves a rule as it was, the family is filtered out. -/
theorem acceptedFamily_of_setDomain_none {domain : Value} {heap : Heap κ} {rule : Rule}
    (h : setDomain env heap rule domain = .ok none) : acceptedFamily env domain = .ok none := by
  unfold setDomain at h
  unfold acceptedFamily
  cases hcheck : checkDomain env domain with
  | error e => rw [hcheck] at h; cases h
  | ok accepted =>
    cases accepted with
    | false => rfl
    | true =>
      cases hfamily : foldedFamily domain with
      | error e => rw [hcheck, hfamily] at h; cases h
      | ok family =>
        rw [hcheck, hfamily] at h
        cases hbase : env.registry.base family with
        | some base =>
          simp only [bind, Except.bind, if_true, pure, Except.pure, hbase, Except.ok.injEq, reduceCtorEq] at h
        | none =>
          simp only [bind, Except.bind, if_true, pure, Except.pure, hbase, Except.ok.injEq, reduceCtorEq] at h

/-! ## Runs keep the levels apart -/

/-- The levels are apart, and the open ones read the given tables. -/
structure Holds (env : Environment κ) (s : State κ) (tables : List (Tables κ)) : Prop where
  keywords : (keywordStore s).Intact env.registry.tables
  modules : (moduleStore s).Intact []
  readKeywords : (keywordStore s).Reads s.opened (tables.map Tables.keywords)
  readModules : (moduleStore s).Reads s.opened (tables.map Tables.keywordModule)

namespace Holds

variable {tables : List (Tables κ)}

theorem initial (env : Environment κ) : Holds env (State.initial env.registry) [] :=
  ⟨.initial _, .initial _, ⟨.nil, by simp [State.initial], rfl⟩, ⟨.nil, by simp [State.initial], rfl⟩⟩

/-- Without an open level there are no tables. -/
theorem tables_eq_nil (h : Holds env s tables) (hopened : s.opened = []) : tables = [] := by
  have hreads := h.readKeywords.reads
  rw [hopened] at hreads
  exact List.map_eq_nil_iff.1 (List.map_eq_nil_iff.1 hreads.symm)

/-- With one, there are the tables it reads. -/
theorem tables_eq_cons {opened : List Nat} (h : Holds env s tables) (hopened : s.opened = l :: opened) :
    ∃ t rest, tables = t :: rest := by
  have hreads := congrArg List.length h.readKeywords.reads
  cases tables with
  | nil => rw [hopened] at hreads; cases hreads
  | cons t rest => exact ⟨t, rest, rfl⟩

/-- The tables of a level are allocated. -/
theorem allocated (h : Holds env s tables) (hl : s.levels[l]? = some level) :
    level.rule.keywords < s.heap.keywords.length ∧ level.rule.keywordModule < s.heap.keywordModule.length :=
  ⟨h.keywords.allocated (reader_of_level Rule.keywords hl), h.modules.allocated (reader_of_level Rule.keywordModule hl)⟩

theorem newLevel_root (h : Holds env s tables) (hopened : s.opened = []) :
    Holds env (s.enter none (newLevel s.heap none)) [⟨Dict.empty, Dict.empty⟩] := by
  refine ⟨?_, ?_, ?_, ?_⟩
  · rw [keywordStore_enter_root]
    exact h.keywords.openRoot _
  · rw [moduleStore_enter_root]
    exact h.modules.openRoot _
  · have hreads := CopyOnWrite.Store.Reads.openRoot (keywordStore s) Dict.empty
    rw [keywordStore_enter_root, State.enter, hopened]
    rwa [keywordStore, List.length_map] at hreads
  · have hreads := CopyOnWrite.Store.Reads.openRoot (moduleStore s) Dict.empty
    rw [moduleStore_enter_root, State.enter, hopened]
    rwa [moduleStore, List.length_map] at hreads

theorem newLevel_child {opened : List Nat} {t : Tables κ} (h : Holds env s (t :: tables)) (hopened : s.opened = l :: opened)
    (hl : s.levels[l]? = some level) :
    Holds env (s.enter (some l) (newLevel s.heap (some level.rule))) (t :: t :: tables) := by
  have hkeywords := h.readKeywords
  have hmodules := h.readModules
  rw [hopened] at hkeywords hmodules
  refine ⟨?_, ?_, ?_, ?_⟩
  · rw [keywordStore_enter_child hl]
    exact h.keywords.openChild l
  · rw [moduleStore_enter_child hl]
    exact h.modules.openChild l
  · have hreads := hkeywords.openChild
    rw [keywordStore_enter_child hl, State.enter, hopened]
    rwa [keywordStore, List.length_map] at hreads
  · have hreads := hmodules.openChild
    rw [moduleStore_enter_child hl, State.enter, hopened]
    rwa [moduleStore, List.length_map] at hreads

theorem leave {opened : List Nat} {t : Tables κ} (h : Holds env s (t :: tables)) (hopened : s.opened = l :: opened) :
    Holds env { s with opened := opened } tables := by
  have hkeywords := h.readKeywords
  have hmodules := h.readModules
  rw [hopened] at hkeywords hmodules
  exact ⟨h.keywords, h.modules, hkeywords.leave, hmodules.leave⟩

theorem setDomain {opened : List Nat} {t : Tables κ} {domain : Value} {changed : Heap κ × Rule} (h : Holds env s (t :: tables))
    (hopened : s.opened = l :: opened) (hset : Scope.setDomain env s.heap level.rule domain = .ok (some changed)) :
    ∃ family, acceptedFamily env domain = .ok (some family) ∧
      Holds env (s.change l changed) (baseTables env.registry family :: tables) := by
  have hkeywords := h.readKeywords
  have hmodules := h.readModules
  rw [hopened] at hkeywords hmodules
  obtain ⟨family, hfamily, hkeywordStore, hmoduleStore⟩ := stores_change_setDomain (l := l) hset
  refine ⟨family, hfamily, ?_, ?_, ?_, ?_⟩
  · rw [hkeywordStore]
    split
    · exact h.keywords.rebind (env.registry.base_lt ‹_›)
    · exact h.keywords.refresh _ _
  · rw [hmoduleStore]
    exact h.modules.refresh _ _
  · rw [hkeywordStore, State.change, hopened, List.map_cons]
    cases hbase : env.registry.base family with
    | some base =>
      have hcell := List.getElem?_eq_getElem (env.registry.base_lt hbase)
      simp only [baseTables, hbase, Option.bind_some, hcell, Option.getD_some]
      exact hkeywords.rebind h.keywords hcell
    | none =>
      simp only [baseTables, hbase, Option.bind_none, Option.getD_none]
      exact hkeywords.refresh h.keywords _
  · rw [hmoduleStore, State.change, hopened, List.map_cons]
    exact hmodules.refresh h.modules _

theorem mergeKeywords {opened : List Nat} {t : Tables κ} (h : Holds env s (t :: tables)) (hopened : s.opened = l :: opened)
    (hl : s.levels[l]? = some level) (keywords : Dict String κ) (module : Option String) :
    Holds env (s.change l (Scope.mergeKeywords s.heap level.rule keywords module))
      (⟨updateKeywords keywords t.keywords, recordModule keywords.keys module t.keywordModule⟩ :: tables) := by
  have hkeywords := h.readKeywords
  have hmodules := h.readModules
  rw [hopened] at hkeywords hmodules
  obtain ⟨hkeywordCell, hmoduleCell⟩ := h.allocated hl
  obtain ⟨hkeywordStore, hmoduleStore⟩ := stores_change_mergeKeywords hl hkeywordCell hmoduleCell keywords module
  refine ⟨?_, ?_, ?_, ?_⟩
  · rw [hkeywordStore]
    exact h.keywords.update _ hkeywords.lt_length
  · rw [hmoduleStore]
    exact h.modules.update _ hmodules.lt_length
  · rw [hkeywordStore, State.change, hopened]
    exact hkeywords.update h.keywords _
  · rw [hmoduleStore, State.change, hopened]
    exact hmodules.update h.modules _

/-- Every step does to what the open levels read what it does to tables that are not shared. -/
theorem step {call : Call} {s' : State κ} (h : Holds env s tables) (hstep : Scope.step env call s = some s') :
    ∃ tables', tablesStep env call tables = some tables' ∧ Holds env s' tables' := by
  cases hopened : s.opened with
  | nil =>
    obtain rfl := h.tables_eq_nil hopened
    cases call with
    | newLevel =>
      simp only [Scope.step, hopened, Option.some.injEq] at hstep
      exact ⟨_, rfl, hstep ▸ h.newLevel_root hopened⟩
    | leave => simp only [Scope.step, hopened, reduceCtorEq] at hstep
    | setDomain domain => simp only [Scope.step, hopened, reduceCtorEq] at hstep
    | mergeKeywords table module => simp only [Scope.step, hopened, reduceCtorEq] at hstep
  | cons l opened =>
    obtain ⟨t, rest, rfl⟩ := h.tables_eq_cons hopened
    cases call with
    | newLevel =>
      simp only [Scope.step, hopened, Option.map_eq_some_iff] at hstep
      obtain ⟨level, hl, rfl⟩ := hstep
      exact ⟨_, rfl, h.newLevel_child hopened hl⟩
    | leave =>
      simp only [Scope.step, hopened, Option.some.injEq] at hstep
      exact ⟨_, rfl, hstep ▸ h.leave hopened⟩
    | setDomain domain =>
      simp only [Scope.step, hopened, Option.bind_eq_bind, Option.bind_eq_some_iff] at hstep
      obtain ⟨level, hl, hset⟩ := hstep
      split at hset
      · rename_i changed hchanged
        obtain ⟨family, hfamily, hholds⟩ := h.setDomain hopened hchanged
        refine ⟨_, ?_, Option.some.inj hset ▸ hholds⟩
        simp only [tablesStep, hfamily]
      · rename_i hnone
        refine ⟨t :: rest, ?_, Option.some.inj hset ▸ h⟩
        simp only [tablesStep, acceptedFamily_of_setDomain_none hnone]
      · cases hset
    | mergeKeywords table module =>
      simp only [Scope.step, hopened, Option.bind_eq_bind, Option.bind_eq_some_iff] at hstep
      obtain ⟨level, hl, keywords, hkeywords, heq⟩ := hstep
      refine ⟨_, ?_, Option.some.inj heq ▸ h.mergeKeywords hopened hl keywords module⟩
      simp only [tablesStep, hkeywords, Option.bind_eq_bind, Option.bind_some]

/-- A run does to what the open levels read what it does to tables that are not shared. -/
theorem run {calls : List Call} {s' : State κ} (h : Holds env s tables) (hrun : runScript (Scope.step env) calls s = some s') :
    ∃ tables', runScript (tablesStep env) calls tables = some tables' ∧ Holds env s' tables' := by
  induction calls generalizing s tables with
  | nil => exact ⟨tables, rfl, Option.some.inj hrun ▸ h⟩
  | cons call calls ih =>
    obtain ⟨mid, hstep, hrest⟩ := Option.bind_eq_some_iff.1 hrun
    obtain ⟨tables', htables, hmid⟩ := h.step hstep
    obtain ⟨last, hlast, hholds⟩ := ih hmid hrest
    exact ⟨last, Option.bind_eq_some_iff.2 ⟨tables', htables, hlast⟩, hholds⟩

end Holds

/-! ## The module that defined a keyword last -/

/-- What happened to the keywords of a level: its family was set, or keywords were merged, of a module where one is named. -/
inductive Event where
  | family
  | merged (keywords : List String) (module : Option String)

/-- What happened on each of the open levels since it was opened, the latest event first. -/
def historyStep (env : Environment κ) (history : List (List Event)) : Call → List (List Event)
  | .newLevel => [] :: history
  | .leave => history.tail
  | .setDomain domain =>
    match acceptedFamily env domain with
    | .ok (some _) => history.modifyHead (.family :: ·)
    | _ => history
  | .mergeKeywords table module =>
    history.modifyHead (.merged ((env.registry.tables[table]?.map Dict.keys).getD []) module :: ·)

/-- What happened on the open levels of a run. -/
def history (env : Environment κ) (calls : List Call) : List (List Event) := calls.foldl (historyStep env) []

/-- What happened on the path from the root to the level that `depth` open ones lie in, the latest event first. -/
def path (env : Environment κ) (calls : List Call) (depth : Nat) : List Event := ((history env calls).drop depth).flatten

/-- The module whose merge defined a keyword last. The base keywords of a family, which replace all others, are of no module. -/
def lastDefiner (keyword : String) : List Event → Option String
  | [] => none
  | .family :: _ => none
  | .merged keywords (some module) :: events => if keyword ∈ keywords then some module else lastDefiner keyword events
  | .merged _ none :: events => lastDefiner keyword events

/-- A merge assigns the module to the keywords it merges, and to no other. -/
theorem get?_recordModule (keywords : List String) (module : String) (table : Dict String String) (keyword : String) :
    (recordModule keywords (some module) table).get? keyword =
      if keyword ∈ keywords then some module else table.get? keyword := by
  simp only [recordModule]
  induction keywords generalizing table with
  | nil => rfl
  | cons name keywords ih =>
    rw [List.foldl_cons, ih, Dict.get?_set]
    by_cases hname : keyword = name
    · simp [hname]
    · simp [hname]

/-- Every table of modules names the module that defined a keyword last. -/
inductive Recorded : List (Tables κ) → List (List Event) → Prop where
  | nil : Recorded [] []
  | cons {t : Tables κ} {tables : List (Tables κ)} {events : List Event} {history : List (List Event)} :
      (∀ keyword, t.keywordModule.get? keyword = lastDefiner keyword (events :: history).flatten) →
      Recorded tables history → Recorded (t :: tables) (events :: history)

namespace Recorded

variable {tables : List (Tables κ)} {history : List (List Event)}

/-- What a step keeps. -/
theorem step {call : Call} {tables' : List (Tables κ)} (h : Recorded tables history)
    (hstep : tablesStep env call tables = some tables') : Recorded tables' (historyStep env history call) := by
  cases h with
  | nil =>
    cases call with
    | newLevel =>
      obtain rfl := Option.some.inj hstep
      exact .cons (fun _ => rfl) .nil
    | leave => cases hstep
    | setDomain domain => cases hstep
    | mergeKeywords table module => cases hstep
  | cons htop hrest =>
    cases call with
    | newLevel =>
      obtain rfl := Option.some.inj hstep
      exact .cons (fun keyword => htop keyword) (.cons htop hrest)
    | leave => exact Option.some.inj hstep ▸ hrest
    | setDomain domain =>
      simp only [tablesStep] at hstep
      simp only [historyStep]
      split at hstep
      · rename_i hfamily
        rw [hfamily]
        exact Option.some.inj hstep ▸ .cons (fun _ => rfl) hrest
      · rename_i hfamily
        rw [hfamily]
        exact Option.some.inj hstep ▸ .cons htop hrest
      · cases hstep
    | mergeKeywords table module =>
      obtain ⟨keywords, hkeywords, heq⟩ := Option.bind_eq_some_iff.1 hstep
      rw [historyStep, hkeywords]
      refine Option.some.inj heq ▸ .cons (fun keyword => ?_) hrest
      cases module with
      | none => exact htop keyword
      | some module =>
        simp only [get?_recordModule, htop keyword]
        rfl

theorem run {calls : List Call} {tables' : List (Tables κ)} (h : Recorded tables history)
    (hrun : runScript (tablesStep env) calls tables = some tables') : Recorded tables' (calls.foldl (historyStep env) history) := by
  induction calls generalizing tables history with
  | nil => exact Option.some.inj hrun ▸ h
  | cons call calls ih =>
    obtain ⟨mid, hstep, hrest⟩ := Option.bind_eq_some_iff.1 hrun
    exact ih (h.step hstep) hrest

/-- The table of the level that `depth` open ones lie in. -/
theorem get? (h : Recorded tables history) {depth : Nat} {t : Tables κ} (ht : tables[depth]? = some t) (keyword : String) :
    t.keywordModule.get? keyword = lastDefiner keyword (history.drop depth).flatten := by
  induction h generalizing depth with
  | nil => cases ht
  | cons htop hrest ih =>
    cases depth with
    | zero => exact Option.some.inj ht ▸ htop keyword
    | succ depth => exact ih ht

end Recorded

/-! ## Blocks do not see each other's keywords -/

/-- The keywords a level sees. -/
def State.keywordsOf (s : State κ) (l : Nat) : Option (Dict String κ) :=
  s.levels[l]?.bind fun level => s.heap.keywords[level.rule.keywords]?

/-- The modules of keywords a level sees. -/
def State.keywordModuleOf (s : State κ) (l : Nat) : Option (Dict String String) :=
  s.levels[l]?.bind fun level => s.heap.keywordModule[level.rule.keywordModule]?

/-- The level a level was opened in. -/
def State.parentOf (s : State κ) (l : Nat) : Option Nat := s.levels[l]?.bind Level.parent

/-- `r` is `l`, or was opened in a level that is `l` or below it. -/
def State.Below (s : State κ) (l r : Nat) : Prop := Relation.ReflTransGen (fun a b => s.parentOf b = some a) l r

theorem read_keywordStore (s : State κ) (l : Nat) : (keywordStore s).read l = s.keywordsOf l := by
  simp only [CopyOnWrite.Store.read, keywordStore, State.keywordsOf, List.getElem?_map, Option.bind_map]
  rfl

theorem read_moduleStore (s : State κ) (l : Nat) : (moduleStore s).read l = s.keywordModuleOf l := by
  simp only [CopyOnWrite.Store.read, moduleStore, State.keywordModuleOf, List.getElem?_map, Option.bind_map]
  rfl

theorem parentOf_keywordStore (s : State κ) (l : Nat) : (keywordStore s).parentOf l = s.parentOf l := by
  simp only [CopyOnWrite.Store.parentOf, keywordStore, State.parentOf, List.getElem?_map, Option.bind_map]
  rfl

theorem parentOf_moduleStore (s : State κ) (l : Nat) : (moduleStore s).parentOf l = s.parentOf l := by
  simp only [CopyOnWrite.Store.parentOf, moduleStore, State.parentOf, List.getElem?_map, Option.bind_map]
  rfl

/-- A merge into the innermost level is seen by the levels below it only. -/
theorem Holds.of_not_below {tables : List (Tables κ)} {opened : List Nat} (h : Holds env s tables) (hopened : s.opened = l :: opened)
    (hl : s.levels[l]? = some level) (keywords : Dict String κ) (module : Option String) {r : Nat} (hr : ¬ s.Below l r) :
    (s.change l (Scope.mergeKeywords s.heap level.rule keywords module)).keywordsOf r = s.keywordsOf r ∧
      (s.change l (Scope.mergeKeywords s.heap level.rule keywords module)).keywordModuleOf r = s.keywordModuleOf r := by
  have hkeywords := h.readKeywords
  have hmodules := h.readModules
  rw [hopened] at hkeywords hmodules
  obtain ⟨hkeywordCell, hmoduleCell⟩ := h.allocated hl
  obtain ⟨hkeywordStore, hmoduleStore⟩ := stores_change_mergeKeywords hl hkeywordCell hmoduleCell keywords module
  have hkeywordBelow : ¬ (keywordStore s).Below l r := by
    simpa only [CopyOnWrite.Store.Below, State.Below, parentOf_keywordStore] using hr
  have hmoduleBelow : ¬ (moduleStore s).Below l r := by
    simpa only [CopyOnWrite.Store.Below, State.Below, parentOf_moduleStore] using hr
  rw [← read_keywordStore, ← read_keywordStore, ← read_moduleStore, ← read_moduleStore, hkeywordStore, hmoduleStore]
  exact ⟨h.keywords.read_update_of_not_below _ hkeywords.lt_length hkeywordBelow,
    h.modules.read_update_of_not_below _ hmodules.lt_length hmoduleBelow⟩

/-- The parent and the siblings of a level are not below it. -/
theorem Holds.not_below {tables : List (Tables κ)} (h : Holds env s tables) {r : Nat}
    (hr : s.parentOf l = some r ∨ r ≠ l ∧ s.parentOf r = s.parentOf l) : ¬ s.Below l r := by
  have hbelow : ∀ r, ¬ (keywordStore s).Below l r → ¬ s.Below l r := fun r hnot => by
    simpa only [CopyOnWrite.Store.Below, State.Below, parentOf_keywordStore] using hnot
  rcases hr with hparent | ⟨hne, hsame⟩
  · exact hbelow r (h.keywords.not_below_parent (parentOf_keywordStore s l ▸ hparent))
  · refine hbelow r (h.keywords.not_below_sibling hne ?_)
    rw [parentOf_keywordStore, parentOf_keywordStore, hsame]

/-- **Scopes are isolated**: in every run, the registry is as it was, every open level knows for each keyword the module that
defined it last on the path from the root, and a merge into the innermost level changes no table that a level sees which is not
below it: not those of its parent, nor those of its siblings. -/
theorem scopes_isolated {calls : List Call} {s : State κ} (h : run env calls = some s) :
    env.registry.tables <+: s.heap.keywords ∧
    (∀ depth l, s.opened[depth]? = some l →
      ∃ modules, s.keywordModuleOf l = some modules ∧ ∀ keyword, modules.get? keyword = lastDefiner keyword (path env calls depth)) ∧
    ∀ l opened table module s', s.opened = l :: opened → step env (.mergeKeywords table module) s = some s' →
      ∀ r, ¬ s.Below l r ∨ s.parentOf l = some r ∨ (r ≠ l ∧ s.parentOf r = s.parentOf l) →
        s'.keywordsOf r = s.keywordsOf r ∧ s'.keywordModuleOf r = s.keywordModuleOf r := by
  obtain ⟨tables, htables, hholds⟩ := (Holds.initial env).run h
  have hrecorded := Recorded.nil.run htables
  refine ⟨hholds.keywords.kept, ?_, ?_⟩
  · intro depth l hl
    have hreads := congrArg (fun reads => reads[depth]?) hholds.readModules.reads
    simp only [List.getElem?_map, hl, Option.map_some, Option.map_map] at hreads
    obtain ⟨t, ht, hread⟩ := Option.map_eq_some_iff.1 hreads.symm
    refine ⟨t.keywordModule, ?_, hrecorded.get? ht⟩
    rw [← read_moduleStore, ← hread]
    rfl
  · intro l opened table module s' hopened hstep r hr
    simp only [step, hopened, Option.bind_eq_bind, Option.bind_eq_some_iff] at hstep
    obtain ⟨level, hl, keywords, -, heq⟩ := hstep
    have hnot : ¬ s.Below l r := hr.elim id hholds.not_below
    exact Option.some.inj heq ▸ hholds.of_not_below hopened hl keywords module hnot

/-- A registry with the base keywords of one family and the keywords of one module. -/
def sportEnvironment : Environment Unit where
  registry :=
    { tables := [⟨[("saddr", ())], by decide⟩, ⟨[("sport", ())], by decide⟩]
      base := fun family => if family = "ip" then some 0 else none
      base_lt := fun h => by
        split at h
        · exact Option.some.inj h ▸ Nat.zero_lt_succ _
        · cases h }
  initializeDomain := fun _ => .ok ()

/-- A block in a block: the module is loaded inside after it was loaded and dropped in a sibling. -/
def nestedCalls : List Call :=
  [.newLevel, .setDomain (.scalar "ip"), .newLevel, .mergeKeywords 1 (some "udp"), .leave, .newLevel, .newLevel,
    .mergeKeywords 1 (some "tcp")]

theorem scopes_isolated_nested : ∃ (s : State Unit) (l : Nat) (modules : Dict String String),
    run sportEnvironment nestedCalls = some s ∧ s.opened[0]? = some l ∧ s.keywordModuleOf l = some modules ∧
      modules.get? "sport" = some "tcp" := by
  have hsome : (run sportEnvironment nestedCalls).isSome = true := by decide
  have hrun : run sportEnvironment nestedCalls = some ((run sportEnvironment nestedCalls).get hsome) := (Option.some_get hsome).symm
  have hopened : ((run sportEnvironment nestedCalls).get hsome).opened[0]? = some 3 := rfl
  obtain ⟨modules, hmodules, hget⟩ := (scopes_isolated hrun).2.1 0 3 hopened
  have hdefiner : lastDefiner "sport" (path sportEnvironment nestedCalls 0) = some "tcp" := by decide
  exact ⟨_, 3, modules, hrun, hopened, hmodules, (hget "sport").trans hdefiner⟩

end Ferm.Scope
