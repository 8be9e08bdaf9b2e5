import Ferm.Lib.KeyedSort
import Ferm.Plan.Actions
import Ferm.Plan.Rendered

/-!
# What a delta script does, cell by cell

A delta script of a rendered table against the table the kernel has: every line is a command on one cell, and the commands for
each chain and each set are known.
-/

namespace Ferm

open Keyed

variable {form : NftForm} {family : String}

/-! ## Running lines -/

/-- A command on one cell, or the table's declaration. -/
def Command.onCell (c : Command) : Prop := c ≠ .flushTable ∧ c ≠ .deleteTable

/-- A script for the table `ferm` of one family that neither flushes nor deletes the table. -/
def OnCells (family : String) (lines : List ScriptLine) : Prop :=
  ∀ line ∈ lines, line = deltaLine family line.command ∧ line.command.onCell

/-- On a kernel that has the table, such a script is the run of its commands. -/
theorem execScript_eq {lines : List ScriptLine} (h : OnCells family lines) (t : KernelTable form) :
    execScript family lines (some t) =
      (runScript (KernelTable.exec family) (lines.map ScriptLine.command) t).map some := by
  induction lines generalizing t with
  | nil => rfl
  | cons line lines ih =>
    obtain ⟨⟨hline, hcell⟩, h⟩ := List.forall_mem_cons.1 h
    have hstep : execLine family line (some t) = (t.exec family line.command).map some := by
      rw [hline]
      unfold execLine
      rw [if_neg (by simp), deltaLine_command]
      cases hc : line.command
      case flushTable => exact absurd hc hcell.1
      case deleteTable => exact absurd hc hcell.2
      all_goals rfl
    rw [execScript, runScript_cons, hstep, List.map_cons, runScript_cons]
    cases t.exec family line.command with
    | none => rfl
    | some t' => exact ih h t'

/-! ## The chain phase -/

/-- The commands of an action on a chain. -/
def ChainAction.commands (name : String) (header : Option ChainHeader) (bodies : List String) : ChainAction → List Command
  | add => .addChain name header :: bodies.map (.addRule name)
  | rebuild => .deleteChain name :: .addChain name header :: bodies.map (.addRule name)
  | refill => .addChain name header :: .flushChain name :: bodies.map (.addRule name)
  | redeclare => [.addChain name header]
  | keep => []

theorem ChainAction.target_commands {name : String} {header : Option ChainHeader} {bodies : List String}
    (action : ChainAction) : ∀ c ∈ action.commands name header bodies, c.target = .chain name ∧ c.onCell := by
  intro c hc
  cases action <;> simp only [commands, List.mem_cons, List.mem_map, List.not_mem_nil, or_false] at hc
  case add => rcases hc with rfl | ⟨_, _, rfl⟩ <;> exact ⟨rfl, by simp, by simp⟩
  case rebuild => rcases hc with rfl | rfl | ⟨_, _, rfl⟩ <;> exact ⟨rfl, by simp, by simp⟩
  case refill => rcases hc with rfl | rfl | ⟨_, _, rfl⟩ <;> exact ⟨rfl, by simp, by simp⟩
  case redeclare => exact hc ▸ ⟨rfl, by simp, by simp⟩

/-- The plan of the one table `ferm`. -/
theorem diffTables_ferm (current desired : ParsedTable) :
    (diffTables (fermTables (some current)) (fermTables (some desired)) false).toChanges =
      diffTable false NFT_TABLE_NAME current desired := by
  have happend : ∀ c : Changes, c.append {} = c := fun c => by simp [Changes.append]
  exact happend _

/-- The plan of a rendered table against the kernel's. -/
def fermDiff (current desired : ParsedTable) : PlanDiff :=
  diffTables (fermTables (some current)) (fermTables (some desired)) false

section

variable {chains : List NftChain} {rules : Dict String (List NftRule)} {decls : Dict String Decl}
  {current desired : ParsedTable} {index : DesiredIndex}

/-- The lines of a desired chain are those of its action. -/
theorem emitChain_eq (hi : IndexedAs family chains rules decls index) {c : NftChain} (hc : c ∈ chains) {d : ParsedChain}
    (hd : desired.chains.get? c.name = some d) :
    emitChain (fermDiff current desired) current index family c.name =
      fermLines family ((chainAction (current.chains.get? c.name) d).commands c.name (chainHeader c)
        (ruleBodies rules c.name)) := by
  have hrules := hi.chainRules c hc
  simp only [emitChain, hi.chainDecl c hc, hrules]
  cases hcur : current.chains.get? c.name with
  | none =>
    rw [if_pos (by rw [Dict.mem_iff_isSome, hcur]; simp)]
    simp [chainAction, ChainAction.commands, fermLines, Function.comp_def]
  | some k =>
    rw [if_neg (by rw [Dict.mem_iff_isSome, hcur]; simp)]
    obtain ⟨hrebuild, hrefill, hredeclare⟩ := chainAction_iff NFT_TABLE_NAME c.name k d
    have hnames := diffChain_names false NFT_TABLE_NAME
    have h1 : c.name ∈ (fermDiff current desired).chainRebuilds.map ChainRebuild.chain ↔
        chainAction (some k) d = .rebuild := by
      rw [fermDiff, diffTables_ferm, diffTable_chainField _ _ _ _ Changes.chainRebuilds rfl (fun _ _ => rfl) (fun _ => rfl)
        (fun _ => rfl) (fun _ _ => rfl), mem_map_flatMap (fun e x hx => (hnames e.1 _ e.2).1 x hx) hd, hcur]
      exact hrebuild
    have h2 : chainAction (some k) d ≠ .rebuild → (c.name ∈ (fermDiff current desired).rulesAdded.map RuleChange.chain ∨
        c.name ∈ (fermDiff current desired).rulesRemoved.map RuleChange.chain ↔ chainAction (some k) d = .refill) := by
      intro hne
      rw [fermDiff, diffTables_ferm, diffTable_chainField _ _ _ _ Changes.rulesAdded rfl (fun _ _ => rfl) (fun _ => rfl)
        (fun _ => rfl) (fun _ _ => rfl), diffTable_chainField _ _ _ _ Changes.rulesRemoved rfl (fun _ _ => rfl)
        (fun _ => rfl) (fun _ => rfl) (fun _ _ => rfl), mem_map_flatMap (fun e x hx => (hnames e.1 _ e.2).2.1 x hx) hd,
        mem_map_flatMap (fun e x hx => (hnames e.1 _ e.2).2.2.1 x hx) hd, hcur]
      exact hrefill hne
    have h3 : chainAction (some k) d ≠ .rebuild → chainAction (some k) d ≠ .refill →
        (c.name ∈ (fermDiff current desired).policyChanges.map PolicyChange.chain ↔
          chainAction (some k) d = .redeclare) := by
      intro hne hne'
      rw [fermDiff, diffTables_ferm, diffTable_chainField _ _ _ _ Changes.policyChanges rfl (fun _ _ => rfl) (fun _ => rfl)
        (fun _ => rfl) (fun _ _ => rfl), mem_map_flatMap (fun e x hx => (hnames e.1 _ e.2).2.2.2 x hx) hd, hcur]
      exact hredeclare hne hne'
    by_cases hb : chainAction (some k) d = .rebuild
    · rw [if_pos (h1.2 hb), hb]
      simp [ChainAction.commands, fermLines, Function.comp_def]
    · rw [if_neg (fun h => hb (h1.1 h))]
      by_cases hf : chainAction (some k) d = .refill
      · rw [if_pos ((h2 hb).2 hf), hf]
        simp [ChainAction.commands, fermLines, Function.comp_def]
      · rw [if_neg (fun h => hf ((h2 hb).1 h))]
        by_cases hr : chainAction (some k) d = .redeclare
        · rw [if_pos ((h3 hb hf).2 hr), hr]
          simp [ChainAction.commands, fermLines]
        · rw [if_neg (fun h => hr ((h3 hb hf).1 h))]
          cases ha : chainAction (some k) d
          case add => simp [chainAction] at ha; split at ha <;> (try split at ha) <;> (try split at ha) <;> simp at ha
          case rebuild => exact absurd ha hb
          case refill => exact absurd ha hf
          case redeclare => exact absurd ha hr
          case keep => simp [ChainAction.commands, fermLines]

/-! ### The chains that only the kernel has -/

/-- The names of the desuet chains and of the foreign chains, in the order of the kernel's chains. -/
theorem map_extraChains (current desired : ParsedTable) :
    (fermDiff current desired).desuetChains.map DesuetChain.chain =
        (current.chains.entries.filter fun e => e.1 ∉ desired.chains ∧ isBuiltin e.2 = true).map Prod.fst ∧
      (fermDiff current desired).foreignChains.map ForeignChain.chain =
        (current.chains.entries.filter fun e => e.1 ∉ desired.chains ∧ isBuiltin e.2 = false).map Prod.fst := by
  rw [fermDiff, diffTables_ferm, diffTable_desuetChains, diffTable_foreignChains]
  induction current.chains.entries with
  | nil => exact ⟨rfl, rfl⟩
  | cons e es ih =>
    simp only [List.flatMap_cons, List.map_append, ih.1, ih.2, List.filter_cons]
    by_cases hd : e.1 ∈ desired.chains
    · simp [diffExtraChain, hd]
    · cases hb : isBuiltin e.2 <;> simp [diffExtraChain, hd, hb]

/-- The deletions of the chain phase. -/
def extraChains (current desired : ParsedTable) : List String :=
  sortedNames ((fermDiff current desired).desuetChains.map DesuetChain.chain) ++
    sortedNames ((fermDiff current desired).foreignChains.map ForeignChain.chain)

/-- A chain is deleted at the end when only the kernel has it. -/
theorem mem_extraChains {name : String} :
    name ∈ extraChains current desired ↔ name ∈ current.chains ∧ name ∉ desired.chains := by
  simp only [extraChains, List.mem_append, mem_sortedNames, (map_extraChains _ _).1, (map_extraChains _ _).2, List.mem_map,
    List.mem_filter, decide_eq_true_eq]
  constructor
  · rintro (⟨e, ⟨he, hd, _⟩, rfl⟩ | ⟨e, ⟨he, hd, _⟩, rfl⟩) <;> exact ⟨Dict.mem_of_mem_entries he, hd⟩
  · rintro ⟨hc, hd⟩
    obtain ⟨c, hc⟩ := Dict.mem_iff_exists.1 hc
    have he := Dict.get?_eq_some_iff.1 hc
    cases hb : isBuiltin c with
    | true => exact .inl ⟨_, ⟨he, hd, hb⟩, rfl⟩
    | false => exact .inr ⟨_, ⟨he, hd, hb⟩, rfl⟩

/-- No chain is deleted twice. -/
theorem nodup_extraChains (current desired : ParsedTable) : (extraChains current desired).Nodup := by
  have hkeys := current.chains.nodup
  refine List.nodup_append.2 ⟨nodup_sortedNames ?_, nodup_sortedNames ?_, ?_⟩
  · rw [(map_extraChains _ _).1]
    exact hkeys.sublist (List.filter_sublist.map _)
  · rw [(map_extraChains _ _).2]
    exact hkeys.sublist (List.filter_sublist.map _)
  · intro a ha b hb hab
    subst hab
    simp only [mem_sortedNames, (map_extraChains _ _).1, (map_extraChains _ _).2, List.mem_map, List.mem_filter,
      decide_eq_true_eq] at ha hb
    obtain ⟨e, ⟨he, _, hbe⟩, hea⟩ := ha
    obtain ⟨f, ⟨hf, _, hbf⟩, hfa⟩ := hb
    have := List.inj_on_of_nodup_map hkeys he hf (hea.trans hfa.symm)
    rw [this, hbf] at hbe
    cases hbe

/-! ## The set phase -/

/-- The one change of a set whose type and flags are those of the configuration. -/
def setStep (name : String) (c : Option ParsedSet) (s : ParsedSet) : Option SetChange :=
  match c with
  | none => some ⟨NFT_TABLE_NAME, name, .add, s.elements, []⟩
  | some c =>
    if !s.isDynamic && c.elements ≠ s.elements then some ⟨NFT_TABLE_NAME, name, .modify, s.elements, c.elements⟩ else none

theorem name_of_setStep {name : String} {c : Option ParsedSet} {s : ParsedSet} {sc : SetChange}
    (h : setStep name c s = some sc) : sc.name = name := by
  cases c with
  | none => cases h; rfl
  | some c =>
    simp only [setStep] at h
    split at h
    · cases h; rfl
    · cases h

/-- The differ finds that change and no other when type and flags agree. -/
theorem diffSet_setChanges {name : String} {c : Option ParsedSet} {s : ParsedSet}
    (h : ∀ c', c = some c' → (c'.type_, c'.flags) = (s.type_, s.flags)) :
    (diffSet NFT_TABLE_NAME name c s).setChanges = (setStep name c s).toList := by
  cases c with
  | none => rfl
  | some c =>
    simp only [diffSet, setStep, h c rfl, ne_eq, not_true_eq_false, if_false]
    split <;> rfl

/-- Without a removal the kernel has no further set, no set changes its type or flags, and the changes are one step a set. -/
theorem setChanges_of_noRemove (h : ∀ sc ∈ (fermDiff current desired).setChanges, sc.kind ≠ .remove) :
    (∀ name ∈ current.sets, name ∈ desired.sets) ∧
      (∀ name c s, current.sets.get? name = some c → desired.sets.get? name = some s →
        c.type_ = s.type_ ∧ c.flags = s.flags) ∧
      (fermDiff current desired).setChanges =
        desired.sets.entries.filterMap fun e => setStep e.1 (current.sets.get? e.1) e.2 := by
  rw [fermDiff, diffTables_ferm, diffTable_setChanges] at h ⊢
  have hextra : ∀ e ∈ current.sets.entries, e.1 ∈ desired.sets := by
    intro e he
    by_contra hd
    refine h ⟨NFT_TABLE_NAME, e.1, .remove, [], []⟩ (List.mem_append_right _ (List.mem_flatMap.2 ⟨e, he, ?_⟩)) rfl
    simp [diffExtraSet, hd]
  have htype : ∀ e ∈ desired.sets.entries, ∀ c, current.sets.get? e.1 = some c →
      (c.type_, c.flags) = (e.2.type_, e.2.flags) := by
    intro e he c hc
    by_contra hne
    refine h ⟨NFT_TABLE_NAME, e.1, .remove, [], []⟩ (List.mem_append_left _ (List.mem_flatMap.2 ⟨e, he, ?_⟩)) rfl
    simp [diffSet, hc, hne]
  refine ⟨?_, ?_, ?_⟩
  · intro name hname
    obtain ⟨c, hc⟩ := Dict.mem_iff_exists.1 hname
    exact hextra _ (Dict.get?_eq_some_iff.1 hc)
  · intro name c s hc hs
    have := htype _ (Dict.get?_eq_some_iff.1 hs) c hc
    exact ⟨congrArg Prod.fst this, congrArg Prod.snd this⟩
  · have hnil : (current.sets.entries.flatMap fun e => (diffExtraSet NFT_TABLE_NAME desired e.1).setChanges) = [] :=
      List.flatMap_eq_nil_iff.2 fun e he => by simp [diffExtraSet, hextra e he]
    rw [hnil, List.append_nil]
    rw [List.filterMap_eq_flatMap_toList]
    exact List.flatMap_congr fun e he => diffSet_setChanges (htype e he)

/-- Names kept by a partial walk are a part of the names walked over, in the same order. -/
theorem map_filterMap_sublist {α β γ : Type} {f : α → Option β} {g : β → γ} {h : α → γ}
    (hf : ∀ a b, f a = some b → g b = h a) (l : List α) : ((l.filterMap f).map g).Sublist (l.map h) := by
  induction l with
  | nil => exact .slnil
  | cons a l ih =>
    rw [List.filterMap_cons]
    cases ha : f a with
    | none => exact ih.cons _
    | some b =>
      rw [List.map_cons, List.map_cons, hf a b ha]
      exact ih.cons_cons _

/-- The commands of the set phase for one desired set. -/
def setCommands (name : String) (d : Decl) (c : Option ParsedSet) (s : ParsedSet) : List Command :=
  match c with
  | none => .addSet name d.statements :: if d.elements = [] then [] else [.addElement name d.elements]
  | some c =>
    if !s.isDynamic && c.elements ≠ s.elements then
      (if c.elements.filter (· ∉ s.elements) = [] then []
        else [.deleteElement name (c.elements.filter (· ∉ s.elements))]) ++
      if s.elements.filter (· ∉ c.elements) = [] then []
        else [.addElement name (s.elements.filter (· ∉ c.elements))]
    else []

theorem target_setCommands {name : String} {d : Decl} {c : Option ParsedSet} {s : ParsedSet} :
    ∀ x ∈ setCommands name d c s, x.target = .set name ∧ x.onCell := by
  intro x hx
  cases c with
  | none =>
    simp only [setCommands, List.mem_cons] at hx
    rcases hx with rfl | hx
    · exact ⟨rfl, by simp, by simp⟩
    · split at hx
      · cases hx
      · rw [List.mem_singleton] at hx
        exact hx ▸ ⟨rfl, by simp, by simp⟩
  | some c =>
    simp only [setCommands] at hx
    split at hx
    · rcases List.mem_append.1 hx with hx | hx <;> split at hx
      · cases hx
      · rw [List.mem_singleton] at hx
        exact hx ▸ ⟨rfl, by simp, by simp⟩
      · cases hx
      · rw [List.mem_singleton] at hx
        exact hx ▸ ⟨rfl, by simp, by simp⟩
    · cases hx

/-- A set that gets no change gets no command. -/
theorem setCommands_of_setStep_none {name : String} {d : Decl} {c : Option ParsedSet} {s : ParsedSet}
    (h : setStep name c s = none) : setCommands name d c s = [] := by
  cases c with
  | none => cases h
  | some c =>
    simp only [setStep] at h
    split at h
    · cases h
    · rename_i hm
      simp only [setCommands, hm, if_false, Bool.false_eq_true]

/-- The lines of a set's change. -/
theorem emitSetChange_eq (hi : IndexedAs family chains rules decls index) {name : String} {d : Decl} {s : ParsedSet}
    {sc : SetChange} (hd : decls.get? name = some d) (ht : declTarget name d = .set name)
    (hsc : setStep name (current.sets.get? name) s = some sc) :
    emitSetChange current index family sc = .ok (fermLines family (setCommands name d (current.sets.get? name) s)) := by
  cases hc : current.sets.get? name with
  | none =>
    rw [hc] at hsc
    cases hsc
    simp only [emitSetChange, hi.setDecl name d hd ht, hi.setElements name d hd ht, setCommands]
    split <;> rfl
  | some c =>
    rw [hc] at hsc
    simp only [setStep] at hsc
    split at hsc
    · rename_i hm
      cases hsc
      simp only [emitSetChange, hc, setCommands, hm, if_true, fermLines, List.map_append]
      split <;> split <;> rfl
    · cases hsc

open RenderedAux in
/-- The set phase is the commands of each desired set. -/
theorem emitSetChanges_spec (hi : IndexedAs family chains rules decls index)
    (hr : ReadsAs form family chains rules decls desired)
    (hno : ∀ sc ∈ (fermDiff current desired).setChanges, sc.kind ≠ .remove) {sets : List ScriptLine}
    (hsets : emitSetChanges (fermDiff current desired) current index family = .ok sets) :
    (∀ line ∈ sets, line = deltaLine family line.command ∧ line.command.onCell ∧ ∃ name, line.command.target = .set name) ∧
      (∀ name d, decls.get? name = some d → declTarget name d = .set name →
        onKey Command.target (.set name) (sets.map ScriptLine.command) =
          setCommands name d (current.sets.get? name) (d.parsedSet form name)) ∧
      ∀ name, (∀ d, decls.get? name = some d → declTarget name d ≠ .set name) →
        onKey Command.target (.set name) (sets.map ScriptLine.command) = [] := by
  obtain ⟨_, _, hchanges⟩ := setChanges_of_noRemove hno
  -- a change is one step of a desired set, which is a declaration's
  have hstep : ∀ sc ∈ (fermDiff current desired).setChanges, ∃ d, decls.get? sc.name = some d ∧
      declTarget sc.name d = .set sc.name ∧
      setStep sc.name (current.sets.get? sc.name) (d.parsedSet form sc.name) = some sc := by
    intro sc hsc
    rw [hchanges] at hsc
    obtain ⟨e, he, hsc⟩ := List.mem_filterMap.1 hsc
    obtain ⟨d, hd, ht, hs⟩ := hr.set_decl (Dict.get?_eq_some_iff.2 he)
    have hname := name_of_setStep hsc
    rw [hname]
    exact ⟨d, hd, ht, hs ▸ hsc⟩
  have hnodup : ((fermDiff current desired).setChanges.map SetChange.name).Nodup := by
    rw [hchanges]
    exact desired.sets.nodup.sublist (map_filterMap_sublist (fun _ _ => name_of_setStep) _)
  let commands : SetChange → List Command := fun sc =>
    ((decls.get? sc.name).map fun d =>
      setCommands sc.name d (current.sets.get? sc.name) (d.parsedSet form sc.name)).getD []
  have hperm : ((fermDiff current desired).setChanges.insertionSort fun a b => a.name ≤ b.name).Perm
    (fermDiff current desired).setChanges := List.perm_insertionSort ..
  have hlines : sets = fermLines family
      (((fermDiff current desired).setChanges.insertionSort fun a b => a.name ≤ b.name).flatMap commands) := by
    unfold emitSetChanges at hsets
    cases hm : ((fermDiff current desired).setChanges.insertionSort fun a b => a.name ≤ b.name).mapM
        (emitSetChange current index family) with
    | error e => rw [hm] at hsets; cases hsets
    | ok lines =>
      rw [hm] at hsets
      cases hsets
      rw [eq_map_of_mapM_ok (g := fun sc => fermLines family (commands sc)) (fun sc hsc lines hl => ?_) hm]
      · simp only [fermLines, List.flatMap_def, List.map_flatten, List.map_map, Function.comp_def]
      · obtain ⟨d, hd, ht, hs⟩ := hstep sc (hperm.mem_iff.1 hsc)
        rw [emitSetChange_eq hi hd ht hs] at hl
        cases hl
        simp only [commands, hd, Option.map_some, Option.getD_some]
  have htarget : ∀ sc, ∀ x ∈ commands sc, x.target = .set sc.name ∧ x.onCell := by
    intro sc x hx
    simp only [commands] at hx
    cases hd : decls.get? sc.name with
    | none => rw [hd] at hx; cases hx
    | some d =>
      rw [hd] at hx
      exact target_setCommands x hx
  have hcommands : sets.map ScriptLine.command =
      ((fermDiff current desired).setChanges.insertionSort fun a b => a.name ≤ b.name).flatMap commands := by
    rw [hlines, fermLines, List.map_map]
    exact List.map_id _
  refine ⟨?_, ?_, ?_⟩
  · intro line hline
    rw [hlines] at hline
    obtain ⟨c, hc, rfl⟩ := List.mem_map.1 hline
    obtain ⟨sc, _, hc⟩ := List.mem_flatMap.1 hc
    exact ⟨rfl, (htarget sc c hc).2, sc.name, (htarget sc c hc).1⟩
  · intro name d hd ht
    rw [hcommands]
    cases hs : setStep name (current.sets.get? name) (d.parsedSet form name) with
    | some sc =>
      have hname := name_of_setStep hs
      have hsc : sc ∈ (fermDiff current desired).setChanges := by
        rw [hchanges]
        exact List.mem_filterMap.2 ⟨(name, d.parsedSet form name), Dict.get?_eq_some_iff.1 (hr.set name d hd ht), hs⟩
      have hn := (hperm.map SetChange.name).nodup_iff.2 hnodup
      have hone := onKey_flatMap (g := fun sc : SetChange => Target.set sc.name) hn.of_map
        (fun a ha b hb h => List.inj_on_of_nodup_map hn ha hb (Target.set.inj h)) (fun a _ x hx => (htarget a x hx).1)
        (hperm.mem_iff.2 hsc)
      rw [hname] at hone
      rw [hone]
      simp only [commands, hname, hd, Option.map_some, Option.getD_some]
    | none =>
      rw [setCommands_of_setStep_none hs]
      refine onKey_flatMap_of_ne fun sc hsc x hx h => ?_
      have hname := Target.set.inj ((htarget sc x hx).1.symm.trans h)
      obtain ⟨d', hd', _, hs'⟩ := hstep sc (hperm.mem_iff.1 hsc)
      rw [hname, hd] at hd'
      cases hd'
      rw [hname, hs] at hs'
      cases hs'
  · intro name hno
    rw [hcommands]
    refine onKey_flatMap_of_ne fun sc hsc x hx h => ?_
    have hname := Target.set.inj ((htarget sc x hx).1.symm.trans h)
    obtain ⟨d, hd, ht, _⟩ := hstep sc (hperm.mem_iff.1 hsc)
    rw [hname] at hd ht
    exact hno d hd ht

/-! ## The chain phase in order -/

/-- The chains of the configuration by name. -/
def sortedChains (chains : List NftChain) : List NftChain := chains.insertionSort fun a b => a.name ≤ b.name

theorem sortedChains_perm (chains : List NftChain) : (sortedChains chains).Perm chains := List.perm_insertionSort ..

theorem mem_sortedChains {c : NftChain} : c ∈ sortedChains chains ↔ c ∈ chains := (sortedChains_perm chains).mem_iff

/-- What a rendered chain is read as. -/
def parsedChain (form : NftForm) (family : String) (rules : Dict String (List NftRule)) (c : NftChain) : ParsedChain :=
  ⟨(ChainKind.ofHeader family (chainHeader c)).policyField, (ruleBodies rules c.name).map (form.canonicalizeNftRule family)⟩

/-- What the delta does with a chain of the configuration. -/
def deltaAction (form : NftForm) (family : String) (rules : Dict String (List NftRule)) (current : ParsedTable)
    (c : NftChain) : ChainAction :=
  chainAction (current.chains.get? c.name) (parsedChain form family rules c)

/-- The commands of the delta for a chain of the configuration. -/
def chainCommands (form : NftForm) (family : String) (rules : Dict String (List NftRule)) (current : ParsedTable)
    (c : NftChain) : List Command :=
  (deltaAction form family rules current c).commands c.name (chainHeader c) (ruleBodies rules c.name)

theorem target_chainCommands {c : NftChain} :
    ∀ x ∈ chainCommands form family rules current c, x.target = .chain c.name ∧ x.onCell :=
  ChainAction.target_commands _

/-- The names of the declared chains in the index are those of the configuration. -/
theorem sortedNames_index (hi : IndexedAs family chains rules decls index) (hn : (chains.map NftChain.name).Nodup) :
    sortedNames index.chainDecl.keys = (sortedChains chains).map NftChain.name := by
  have hperm : index.chainDecl.keys.Perm (chains.map NftChain.name) := by
    refine (List.perm_ext_iff_of_nodup index.chainDecl.nodup_keys hn).2 fun name => ?_
    rw [← Dict.mem_iff_mem_keys]
    constructor
    · intro h
      by_contra hno
      have hnone := hi.noChainDecl name fun c hc he => hno (List.mem_map.2 ⟨c, hc, he⟩)
      exact Dict.get?_eq_none_iff.1 hnone h
    · intro h
      obtain ⟨c, hc, rfl⟩ := List.mem_map.1 h
      exact Dict.mem_of_get? (hi.chainDecl c hc)
  rw [sortedChains, List.map_insertionSort _ (· ≤ ·) NftChain.name chains fun _ _ _ _ => Iff.rfl]
  exact insertionSort_eq_of_perm hperm fun _ _ _ _ => String.le_antisymm

/-- The chain phase: every chain of the configuration by name, then the deletions. -/
theorem emitChainChanges_eq (hi : IndexedAs family chains rules decls index) (hn : (chains.map NftChain.name).Nodup)
    (hr : ReadsAs form family chains rules decls desired) :
    emitChainChanges (fermDiff current desired) current index family =
      fermLines family ((sortedChains chains).flatMap (chainCommands form family rules current) ++
        (extraChains current desired).map .deleteChain) := by
  have hchains : (sortedNames index.chainDecl.keys).flatMap (emitChain (fermDiff current desired) current index family) =
      fermLines family ((sortedChains chains).flatMap (chainCommands form family rules current)) := by
    rw [sortedNames_index hi hn, List.flatMap_map, fermLines, List.map_flatMap]
    refine List.flatMap_congr fun c hc => ?_
    have hc := mem_sortedChains.1 hc
    exact emitChain_eq hi hc (hr.chain c hc)
  rw [emitChainChanges, hchains]
  simp only [fermLines, extraChains, List.map_append, List.map_map, Function.comp_def, List.append_assoc]

/-! ## The whole script -/

/-- What the script of a delta is: its phases in order, and its commands cell by cell. -/
structure Emits (form : NftForm) (family : String) (chains : List NftChain) (rules : Dict String (List NftRule))
    (decls : Dict String Decl) (current desired : ParsedTable) (script : List ScriptLine) : Prop where
  phases : ∃ sets : List Command, (∀ c ∈ sets, ∃ name, c.target = .set name) ∧
    script = fermLines family (.addTable :: (sets ++ ((sortedChains chains).flatMap
      (chainCommands form family rules current) ++ (extraChains current desired).map .deleteChain)))
  onCells : OnCells family script
  table : onKey Command.target .table (script.map ScriptLine.command) = [.addTable]
  chain : ∀ c ∈ chains, onKey Command.target (.chain c.name) (script.map ScriptLine.command) =
    chainCommands form family rules current c
  extraChain : ∀ name, (∀ c ∈ chains, c.name ≠ name) → onKey Command.target (.chain name) (script.map ScriptLine.command) =
    if name ∈ current.chains then [.deleteChain name] else []
  set : ∀ name d, decls.get? name = some d → declTarget name d = .set name →
    onKey Command.target (.set name) (script.map ScriptLine.command) =
      setCommands name d (current.sets.get? name) (d.parsedSet form name)
  noSet : ∀ name, (∀ d, decls.get? name = some d → declTarget name d ≠ .set name) →
    onKey Command.target (.set name) (script.map ScriptLine.command) = []
  object : ∀ name, onKey Command.target (.object name) (script.map ScriptLine.command) = []

/-- A rendered table has exactly the chains of the configuration. -/
theorem ReadsAs.mem_chains (hr : ReadsAs form family chains rules decls desired) {name : String} :
    name ∈ desired.chains ↔ ∃ c ∈ chains, c.name = name := by
  constructor
  · intro h
    by_contra hno
    have hnone := hr.noChain name fun c hc he => hno ⟨c, hc, he⟩
    exact Dict.get?_eq_none_iff.1 hnone h
  · rintro ⟨c, hc, rfl⟩
    exact Dict.mem_of_get? (hr.chain c hc)

/-- The commands of the chain phase for one chain. -/
theorem onKey_chainPhase (hn : (chains.map NftChain.name).Nodup) (hr : ReadsAs form family chains rules decls desired) :
    (∀ c ∈ chains, onKey Command.target (.chain c.name) ((sortedChains chains).flatMap
        (chainCommands form family rules current) ++ (extraChains current desired).map .deleteChain) =
      chainCommands form family rules current c) ∧
    ∀ name, (∀ c ∈ chains, c.name ≠ name) → onKey Command.target (.chain name) ((sortedChains chains).flatMap
        (chainCommands form family rules current) ++ (extraChains current desired).map .deleteChain) =
      if name ∈ current.chains then [.deleteChain name] else [] := by
  have hsorted := ((sortedChains_perm chains).map NftChain.name).nodup_iff.2 hn
  refine ⟨fun c hc => ?_, fun name hno => ?_⟩
  · have hextra : onKey Command.target (.chain c.name) ((extraChains current desired).map .deleteChain) = [] := by
      refine onKey_eq_nil fun x hx he => ?_
      obtain ⟨name, hname, rfl⟩ := List.mem_map.1 hx
      cases Target.chain.inj he
      exact (mem_extraChains.1 hname).2 (hr.mem_chains.2 ⟨c, hc, rfl⟩)
    rw [onKey_append, hextra, List.append_nil, onKey_flatMap hsorted.of_map
      (fun a ha b hb h => List.inj_on_of_nodup_map hsorted ha hb (Target.chain.inj h))
      (fun a _ x hx => (target_chainCommands x hx).1) (mem_sortedChains.2 hc)]
  · have hchains : onKey Command.target (.chain name) ((sortedChains chains).flatMap
        (chainCommands form family rules current)) = [] :=
      onKey_flatMap_of_ne fun c hc x hx h =>
        hno c (mem_sortedChains.1 hc) (Target.chain.inj ((target_chainCommands x hx).1.symm.trans h))
    rw [onKey_append, hchains, List.nil_append, List.map_eq_flatMap]
    split
    · rename_i hcur
      refine onKey_flatMap (g := Target.chain) (nodup_extraChains _ _) (fun _ _ _ _ h => Target.chain.inj h) ?_ (a := name) ?_
      · intro a _ x hx
        cases List.mem_singleton.1 hx
        rfl
      · refine mem_extraChains.2 ⟨hcur, fun h => ?_⟩
        obtain ⟨c, hc, he⟩ := hr.mem_chains.1 h
        exact hno c hc he
    · rename_i hcur
      refine onKey_flatMap_of_ne fun a ha x hx h => hcur ?_
      cases List.mem_singleton.1 hx
      cases Target.chain.inj h
      exact (mem_extraChains.1 ha).1

/-- A delta of a rendered table: the differ found nothing and the script is empty, or the script is known cell by cell. -/
structure DeltaSpec (form : NftForm) (family : String) (chains : List NftChain) (rules : Dict String (List NftRule))
    (decls : Dict String Decl) (current desired : ParsedTable) (script : List ScriptLine) : Prop where
  reads : ReadsAs form family chains rules decls desired
  noExtraSet : ∀ name ∈ current.sets, name ∈ desired.sets
  sameHeader : ∀ name c s, current.sets.get? name = some c → desired.sets.get? name = some s →
    c.type_ = s.type_ ∧ c.flags = s.flags
  sameObjects : ∀ name, name ∈ current.objects ↔ name ∈ desired.objects
  nothing : (fermDiff current desired).hasChanges = false → script = []
  emits : (fermDiff current desired).hasChanges = true → Emits form family chains rules decls current desired script

/-- The script of a plan with changes. -/
theorem emits_of_emitDeltaScript (hi : IndexedAs family chains rules decls index) (hn : (chains.map NftChain.name).Nodup)
    (hr : ReadsAs form family chains rules decls desired)
    (hno : ∀ sc ∈ (fermDiff current desired).setChanges, sc.kind ≠ .remove)
    (hch : (fermDiff current desired).hasChanges = true) {script : List ScriptLine}
    (hs : emitDeltaScript (fermDiff current desired) (fermTables (some current)) index family = .ok script) :
    Emits form family chains rules decls current desired script := by
  rw [emitDeltaScript, if_neg (by rw [hch]; simp)] at hs
  obtain ⟨lines, hlines, rfl⟩ : ∃ lines, emitSetChanges (fermDiff current desired) current index family = .ok lines ∧
      script = deltaLine family .addTable :: (lines ++ emitChainChanges (fermDiff current desired) current index family) := by
    change (emitSetChanges (fermDiff current desired) current index family).map _ = _ at hs
    cases hl : emitSetChanges (fermDiff current desired) current index family with
    | error e => rw [hl] at hs; cases hs
    | ok lines => rw [hl] at hs; exact ⟨lines, rfl, (Except.ok.inj hs).symm⟩
  obtain ⟨hcell, hset, hnoset⟩ := emitSetChanges_spec hi hr hno hlines
  obtain ⟨hchain, habsent⟩ := @onKey_chainPhase form family chains rules decls current desired hn hr
  have hfer : lines = fermLines family (lines.map ScriptLine.command) := by
    rw [fermLines, List.map_map]
    exact (List.map_id _).symm.trans (List.map_congr_left fun line hline => (hcell line hline).1)
  have htarget : ∀ c ∈ lines.map ScriptLine.command, ∃ name, c.target = .set name := by
    intro c hc
    obtain ⟨line, hline, rfl⟩ := List.mem_map.1 hc
    exact (hcell line hline).2.2
  rw [emitChainChanges_eq hi hn hr]
  generalize hphase : (sortedChains chains).flatMap (chainCommands form family rules current) ++
    (extraChains current desired).map .deleteChain = phase at hchain habsent
  have hphaseCell : ∀ c ∈ phase, c.onCell ∧ ∃ name, c.target = .chain name := by
    intro c hc
    rw [← hphase] at hc
    rcases List.mem_append.1 hc with hc | hc
    · obtain ⟨chain, _, hc⟩ := List.mem_flatMap.1 hc
      exact ⟨(target_chainCommands c hc).2, _, (target_chainCommands c hc).1⟩
    · obtain ⟨name, _, rfl⟩ := List.mem_map.1 hc
      exact ⟨⟨by simp, by simp⟩, _, rfl⟩
  have hcommands : (deltaLine family .addTable :: (lines ++ fermLines family phase)).map ScriptLine.command =
      .addTable :: (lines.map ScriptLine.command ++ phase) := by
    simp [fermLines, Function.comp_def]
  -- the commands for a cell come from the one phase that works on cells of its kind
  have hsets : ∀ k, (∀ name, k ≠ .set name) → onKey Command.target k (lines.map ScriptLine.command) = [] := by
    intro k hk
    refine onKey_eq_nil fun c hc he => ?_
    obtain ⟨name, hname⟩ := htarget c hc
    exact hk name (he.symm.trans hname)
  have hchains : ∀ k, (∀ name, k ≠ .chain name) → onKey Command.target k phase = [] := by
    intro k hk
    refine onKey_eq_nil fun c hc he => ?_
    obtain ⟨name, hname⟩ := (hphaseCell c hc).2
    exact hk name (he.symm.trans hname)
  have hcons : ∀ k, k ≠ .table → onKey Command.target k (.addTable :: (lines.map ScriptLine.command ++ phase)) =
      onKey Command.target k (lines.map ScriptLine.command) ++ onKey Command.target k phase := by
    intro k hk
    rw [onKey_cons, if_neg (show ¬ Command.addTable.target = k from fun h => hk h.symm), onKey_append]
  refine ⟨⟨_, htarget, ?_⟩, ?_, ?_, fun c hc => ?_, fun name hname => ?_, fun name d hd ht => ?_, fun name hname => ?_,
    fun name => ?_⟩
  · rw [hphase]
    conv_lhs => rw [hfer]
    simp [fermLines]
  · intro line hline
    rcases List.mem_cons.1 hline with rfl | hline
    · exact ⟨rfl, by simp, by simp⟩
    · rcases List.mem_append.1 hline with hline | hline
      · exact ⟨(hcell line hline).1, (hcell line hline).2.1⟩
      · obtain ⟨c, hc, rfl⟩ := List.mem_map.1 hline
        exact ⟨rfl, (hphaseCell c hc).1⟩
  · rw [hcommands, onKey_cons, if_pos (show Command.addTable.target = .table from rfl), onKey_append,
      hsets .table (by simp), hchains .table (by simp), List.append_nil]
  · rw [hcommands, hcons (.chain c.name) (by simp), hsets (.chain c.name) (by simp), List.nil_append, hchain c hc]
  · rw [hcommands, hcons (.chain name) (by simp), hsets (.chain name) (by simp), List.nil_append, habsent name hname]
  · rw [hcommands, hcons (.set name) (by simp), hchains (.set name) (by simp), List.append_nil, hset name d hd ht]
  · rw [hcommands, hcons (.set name) (by simp), hchains (.set name) (by simp), List.append_nil, hnoset name hname]
  · rw [hcommands, hcons (.object name) (by simp), hsets (.object name) (by simp), hchains (.object name) (by simp), List.append_nil]

/-- The plan of one table says whether an object is to be added or removed. -/
theorem sameObjects_of_noChange (h : (fermDiff current desired).objectChanges = []) (name : String) :
    name ∈ current.objects ↔ name ∈ desired.objects := by
  rw [fermDiff, diffTables_ferm, diffTable_objectChanges, List.append_eq_nil_iff, List.flatMap_eq_nil_iff,
    List.flatMap_eq_nil_iff] at h
  have hmem : ∀ {a b : ParsedTable} {added : Bool},
      (∀ e ∈ a.objects.entries, (diffObject NFT_TABLE_NAME b added e.1 e.2).objectChanges = []) →
        name ∈ a.objects → name ∈ b.objects := by
    intro a b added hall hname
    obtain ⟨o, ho⟩ := Dict.mem_iff_exists.1 hname
    by_contra hb
    have := hall _ (Dict.get?_eq_some_iff.1 ho)
    simp [diffObject, hb] at this
  exact ⟨hmem h.2, hmem h.1⟩

end

open RenderedAux in
/-- What `buildNftDelta` makes of a rendered script. -/
theorem buildNftDelta_spec {chains : List NftChain} {rules : Dict String (List NftRule)} {decls : Dict String Decl}
    {noflush : Bool} {current : ParsedTable} {save script : List ScriptLine} (hn : (chains.map NftChain.name).Nodup)
    (hsave : serializeTable ⟨family, NFT_TABLE_NAME⟩ chains rules decls noflush = .ok save)
    (hdelta : buildNftDelta form (fermTables (some current)) save family = .ok (some script)) :
    ∃ desired, parseNftScript form save = .ok (fermTables (some desired)) ∧
      DeltaSpec form family chains rules decls current desired script := by
  unfold serializeTable at hsave
  cases hcommands : tableCommands chains rules decls noflush with
  | error e => rw [hcommands] at hsave; cases hsave
  | ok commands =>
    rw [hcommands] at hsave
    cases hsave
    change buildNftDelta form _ (fermLines family commands) family = _ at hdelta
    change ∃ desired, parseNftScript form (fermLines family commands) = _ ∧ _
    unfold buildNftDelta at hdelta
    cases hparse : parseNftScript form (fermLines family commands) with
    | error e => rw [hparse] at hdelta; cases hdelta
    | ok tables =>
      obtain ⟨desired, rfl, hr⟩ := readsAs_of_parse hcommands hn hparse
      refine ⟨desired, rfl, ?_⟩
      rw [hparse] at hdelta
      change (do
        if (fermDiff current desired).setChanges.any fun sc => sc.kind = .remove then return none
        if (fermDiff current desired).objectChanges ≠ [] then return none
        let index ← buildDesiredIndex (fermLines family commands)
        let script ← emitDeltaScript (fermDiff current desired) (fermTables (some current)) index family
        return some script : Except FermError (Option (List ScriptLine))) = _ at hdelta
      have hno : ¬ ((fermDiff current desired).setChanges.any fun sc => sc.kind = .remove) = true := by
        intro h
        rw [if_pos h] at hdelta
        cases hdelta
      have hobj : (fermDiff current desired).objectChanges = [] := by
        by_contra h
        rw [if_neg hno, if_pos h] at hdelta
        cases hdelta
      rw [if_neg hno, if_neg (not_not.2 hobj)] at hdelta
      cases hindex : buildDesiredIndex (fermLines family commands) with
      | error e => rw [hindex] at hdelta; cases hdelta
      | ok index =>
        have hi := indexedAs_of_build hcommands hn hindex
        rw [hindex] at hdelta
        simp only [bind, Except.bind] at hdelta
        have hscript : emitDeltaScript (fermDiff current desired) (fermTables (some current)) index family = .ok script := by
          cases he : emitDeltaScript (fermDiff current desired) (fermTables (some current)) index family with
          | error e => rw [he] at hdelta; cases hdelta
          | ok s => rw [he] at hdelta; cases hdelta; rfl
        have hremove : ∀ sc ∈ (fermDiff current desired).setChanges, sc.kind ≠ .remove := by
          intro sc hsc hk
          exact hno (List.any_eq_true.2 ⟨sc, hsc, by simp [hk]⟩)
        obtain ⟨hextra, hheader, _⟩ := setChanges_of_noRemove hremove
        refine ⟨hr, hextra, hheader, sameObjects_of_noChange hobj, fun hch => ?_, ?_⟩
        · rw [emitDeltaScript, if_pos hch] at hscript
          exact (Except.ok.inj hscript).symm
        · intro hch
          exact emits_of_emitDeltaScript hi hn hr hremove hch hscript

end Ferm
