import Ferm.Plan.Emitted

/-!
# Committing a family

Which script a commit hands to nft: the delta against the captured snapshot, or the rendered table for a full reload. With
`--noflush` a commit should only add; the delta does not know of the option.
-/

namespace Ferm

open Keyed

variable {form : NftForm} {family : String}

/-! ## The script of a commit -/

/-- The options a commit looks at. -/
structure CommitOptions where
  fullReload : Bool
  noflush : Bool
  deriving DecidableEq, Repr

/-- `needs_full_reload`: there was no table to take a snapshot of. -/
def needsFullReload (previous : Option (KernelTable form)) : Bool := previous.isNone

/-- `_full_reload_text`: the first line that flushes the table becomes its deletion and a new one. -/
def fullReloadText (family : String) : List ScriptLine → List ScriptLine
  | [] => []
  | line :: lines =>
    if line = deltaLine family .flushTable then deltaLine family .deleteTable :: deltaLine family .addTable :: lines
    else line :: fullReloadText family lines

/-- The delta `commit` tries: none on a full reload, and none when the change is not safe inside a transaction. -/
def commitDelta (form : NftForm) (options : CommitOptions) (previous : Option (KernelTable form)) (save : List ScriptLine)
    (family : String) : Except FermError (Option (List ScriptLine)) :=
  if options.fullReload || needsFullReload previous then .ok none
  else buildNftDelta form (fermTables (previous.map KernelTable.parsed)) save family

/-- The script `commit` hands to nft. -/
def applyText (form : NftForm) (options : CommitOptions) (previous : Option (KernelTable form)) (save : List ScriptLine)
    (family : String) : Except FermError (List ScriptLine) :=
  (commitDelta form options previous save family).map fun delta =>
    delta.getD (if options.noflush then save else fullReloadText family save)

/-! ## Adding only -/

/-- A command that adds: it takes nothing out of the table. -/
def Command.adds : Command → Bool
  | addTable => true
  | addChain _ _ => true
  | addRule _ _ => true
  | addSet _ _ => true
  | addElement _ _ => true
  | addObject _ _ _ => true
  | flushTable => false
  | deleteTable => false
  | flushChain _ => false
  | deleteChain _ => false
  | deleteElement _ _ => false

/-- The table has everything another one has, every chain's rules and every set's elements first and in their order. -/
structure KernelTable.Keeps (t t' : KernelTable form) : Prop where
  chains : ∀ name c, t.chains.get? name = some c → ∃ c', t'.chains.get? name = some c' ∧ c.rules <+: c'.rules
  sets : ∀ name s, t.sets.get? name = some s → ∃ s', t'.sets.get? name = some s' ∧ s.elements <+: s'.elements
  objects : ∀ name, name ∈ t.objects → name ∈ t'.objects

/-- A script that only adds, and that leaves what the snapshot has in the kernel. -/
structure AppendOnly (family : String) (previous : Option (KernelTable form)) (script : List ScriptLine) : Prop where
  adds : ∀ line ∈ script, line.command.adds = true
  keeps : ∀ t kernel, previous = some t → execScript family script previous = some kernel →
    ∃ t', kernel = some t' ∧ t.Keeps t'

namespace KernelTable

theorem Keeps.refl (t : KernelTable form) : t.Keeps t :=
  ⟨fun _ c h => ⟨c, h, List.prefix_refl _⟩, fun _ s h => ⟨s, h, List.prefix_refl _⟩, fun _ h => h⟩

theorem Keeps.trans {a b c : KernelTable form} (h : a.Keeps b) (h' : b.Keeps c) : a.Keeps c := by
  refine ⟨fun name x hx => ?_, fun name x hx => ?_, fun name hx => h'.objects name (h.objects name hx)⟩
  · obtain ⟨y, hy, hxy⟩ := h.chains name x hx
    obtain ⟨z, hz, hyz⟩ := h'.chains name y hy
    exact ⟨z, hz, hxy.trans hyz⟩
  · obtain ⟨y, hy, hxy⟩ := h.sets name x hx
    obtain ⟨z, hz, hyz⟩ := h'.sets name y hy
    exact ⟨z, hz, hxy.trans hyz⟩

/-- A chain written in place of one that has its rules first, or of none. -/
theorem keeps_setChain (t : KernelTable form) {name : String} {c : KernelChain}
    (h : ∀ x, t.chains.get? name = some x → x.rules <+: c.rules) : t.Keeps { t with chains := t.chains.set name c } := by
  refine ⟨fun name' x hx => ?_, (Keeps.refl t).sets, (Keeps.refl t).objects⟩
  rw [Dict.get?_set]
  by_cases hn : name' = name
  · subst hn
    exact ⟨c, if_pos rfl, h x hx⟩
  · exact ⟨x, by rw [if_neg hn, hx], List.prefix_refl _⟩

/-- A set written in place of one that has its elements first, or of none. -/
theorem keeps_setSet (t : KernelTable form) {name : String} {s : KernelSet form}
    (h : ∀ x, t.sets.get? name = some x → x.elements <+: s.elements) : t.Keeps { t with sets := t.sets.set name s } := by
  refine ⟨(Keeps.refl t).chains, fun name' x hx => ?_, (Keeps.refl t).objects⟩
  rw [Dict.get?_set]
  by_cases hn : name' = name
  · subst hn
    exact ⟨s, if_pos rfl, h x hx⟩
  · exact ⟨x, by rw [if_neg hn, hx], List.prefix_refl _⟩

/-- A command that adds keeps what is there. -/
theorem keeps_exec {c : Command} {t t' : KernelTable form} (hadds : c.adds = true) (h : t.exec family c = some t') :
    t.Keeps t' := by
  obtain ⟨cell, hcell, rfl⟩ := Option.map_eq_some_iff.1 h
  cases c <;> simp only [Command.adds, Bool.false_eq_true] at hadds <;> simp only [Command.target, view] at hcell ⊢
  case addTable =>
    cases hcell
    exact .refl t
  case addChain name header =>
    cases hc : t.chains.get? name with
    | none =>
      rw [hc] at hcell
      cases hcell
      exact t.keeps_setChain fun x hx => absurd (hc.symm.trans hx) (by simp)
    | some c =>
      rw [hc] at hcell
      cases hcell
      exact t.keeps_setChain fun x hx => by
        rw [hc] at hx
        cases hx
        exact List.prefix_refl _
  case addRule name body =>
    cases hc : t.chains.get? name with
    | none =>
      rw [hc] at hcell
      cases hcell
    | some c =>
      rw [hc] at hcell
      cases hcell
      exact t.keeps_setChain fun x hx => by
        rw [hc] at hx
        cases hx
        exact List.prefix_append ..
  case addSet name statements =>
    cases hs : t.sets.get? name with
    | none =>
      rw [hs] at hcell
      cases hcell
      exact t.keeps_setSet fun x hx => absurd (hs.symm.trans hx) (by simp)
    | some s =>
      rw [hs] at hcell
      cases hcell
      exact t.keeps_setSet fun x hx => by
        rw [hs] at hx
        cases hx
        exact List.prefix_refl _
  case addElement name elements =>
    cases hs : t.sets.get? name with
    | none =>
      rw [hs] at hcell
      cases hcell
    | some s =>
      rw [hs] at hcell
      cases hcell
      exact t.keeps_setSet fun x hx => by
        rw [hs] at hx
        cases hx
        exact List.prefix_append ..
  case addObject kind name body =>
    have hset (o : ParsedObject) : t.Keeps { t with objects := t.objects.set name o } :=
      ⟨(Keeps.refl t).chains, (Keeps.refl t).sets, fun name' hx => Dict.mem_set.2 (.inr hx)⟩
    cases ho : t.objects.get? name with
    | none =>
      rw [ho] at hcell
      cases hcell
      exact hset _
    | some o =>
      rw [ho] at hcell
      cases hcell
      exact hset _

end KernelTable

/-- A line that adds keeps what is there. -/
theorem keeps_execLine {line : ScriptLine} (hadds : line.command.adds = true) (t : KernelTable form)
    {kernel : Option (KernelTable form)} (h : execLine family line (some t) = some kernel) :
    ∃ t', kernel = some t' ∧ t.Keeps t' := by
  unfold execLine at h
  split at h
  · cases h
  · have hexec (hcell : (t.exec family line.command).map some = some kernel) : ∃ t', kernel = some t' ∧ t.Keeps t' := by
      obtain ⟨t', ht', rfl⟩ := Option.map_eq_some_iff.1 hcell
      exact ⟨t', rfl, KernelTable.keeps_exec hadds ht'⟩
    cases hc : line.command <;> simp only [hc] at h hexec hadds
    case addTable =>
      cases h
      exact ⟨t, rfl, .refl t⟩
    case flushTable => cases hadds
    case deleteTable => cases hadds
    all_goals exact hexec h

/-- A script of adding lines keeps what is there. -/
theorem keeps_execScript {script : List ScriptLine} (hadds : ∀ line ∈ script, line.command.adds = true) (t : KernelTable form)
    {kernel : Option (KernelTable form)} (h : execScript family script (some t) = some kernel) :
    ∃ t', kernel = some t' ∧ t.Keeps t' := by
  induction script generalizing t with
  | nil =>
    cases h
    exact ⟨t, rfl, .refl t⟩
  | cons line script ih =>
    obtain ⟨hline, hscript⟩ := List.forall_mem_cons.1 hadds
    obtain ⟨mid, hmid, hrest⟩ := Option.bind_eq_some_iff.1 h
    obtain ⟨t₁, rfl, hkeeps⟩ := keeps_execLine hline t hmid
    obtain ⟨t', hk, hkeeps'⟩ := ih hscript t₁ hrest
    exact ⟨t', hk, hkeeps.trans hkeeps'⟩

/-- A script that only adds is all there is to show: what it runs on is kept. -/
theorem appendOnly_iff_adds (family : String) (previous : Option (KernelTable form)) (script : List ScriptLine) :
    AppendOnly family previous script ↔ ∀ line ∈ script, line.command.adds = true := by
  refine ⟨AppendOnly.adds, fun h => ⟨h, ?_⟩⟩
  rintro t kernel rfl hrun
  exact keeps_execScript h t hrun

/-! ## When a delta only adds -/

/-- A change that a delta does not make: a set that goes or gets another type or flags, an object that comes or goes. -/
inductive Diverts (current desired : ParsedTable) : Prop where
  | set {name : String} (hc : name ∈ current.sets) (hd : name ∉ desired.sets)
  | header {name : String} {c d : ParsedSet} (hc : current.sets.get? name = some c) (hd : desired.sets.get? name = some d)
      (h : (c.type_, c.flags) ≠ (d.type_, d.flags))
  | object {name : String} (h : ¬ (name ∈ current.objects ↔ name ∈ desired.objects))

/-- The configuration takes nothing away: every chain of the kernel is configured with the rules it has, and with its priority if
it is a base chain, and every static set with the elements it has. -/
structure TakesNothing (current desired : ParsedTable) : Prop where
  chains : ∀ name ∈ current.chains, name ∈ desired.chains
  rules : ∀ name c d, current.chains.get? name = some c → desired.chains.get? name = some d → c.rules = d.rules
  priority : ∀ name c d, current.chains.get? name = some c → desired.chains.get? name = some d → isBuiltin c = true →
    headerPriority c.policy = headerPriority d.policy
  elements : ∀ name c d, current.sets.get? name = some c → desired.sets.get? name = some d → d.isDynamic = false →
    ∀ e ∈ c.elements, e ∈ d.elements

section

variable {chains : List NftChain} {rules : Dict String (List NftRule)} {decls : Dict String Decl}
  {current desired : ParsedTable} {script : List ScriptLine}

/-- The commands of an action only add unless it rebuilds or refills. -/
theorem adds_commands_iff (action : ChainAction) (name : String) (header : Option ChainHeader) (bodies : List String) :
    (∀ c ∈ action.commands name header bodies, c.adds = true) ↔ action ≠ .rebuild ∧ action ≠ .refill := by
  cases action <;> simp [ChainAction.commands, Command.adds]

/-- A chain that is there is neither rebuilt nor refilled when it has its rules and its priority. -/
theorem chainAction_adds_iff (c d : ParsedChain) :
    (chainAction (some c) d ≠ .rebuild ∧ chainAction (some c) d ≠ .refill) ↔
      c.rules = d.rules ∧ (isBuiltin c = true → headerPriority c.policy = headerPriority d.policy) := by
  have hpriority : (isBuiltin c = true ∧ d.policy ≠ c.policy ∧ headerPriority c.policy ≠ headerPriority d.policy) ↔
      ¬ (isBuiltin c = true → headerPriority c.policy = headerPriority d.policy) := by
    rw [Classical.not_imp]
    exact ⟨fun h => ⟨h.1, h.2.2⟩, fun h => ⟨h.1, fun he => h.2 (by rw [he]), h.2⟩⟩
  by_cases hb : isBuiltin c = true → headerPriority c.policy = headerPriority d.policy
  · have hno := fun h => hpriority.1 h hb
    by_cases hr : c.rules = d.rules
    · simp only [chainAction, if_neg hno, hr, ne_eq, not_true_eq_false, if_false]
      split <;> simp_all
    · simp only [chainAction, if_neg hno, ne_eq, hr, not_false_eq_true, if_true]
      simp
  · simp only [chainAction, if_pos (hpriority.2 hb), hb]
    simp

/-- The commands for a set only add unless a static set loses an element. -/
theorem adds_setCommands_iff (name : String) (d : Decl) (c : Option ParsedSet) (s : ParsedSet) :
    (∀ x ∈ setCommands name d c s, x.adds = true) ↔
      ∀ c', c = some c' → s.isDynamic = false → ∀ e ∈ c'.elements, e ∈ s.elements := by
  cases c with
  | none =>
    simp only [setCommands, reduceCtorEq, false_implies, implies_true, iff_true]
    split <;> simp [Command.adds]
  | some c =>
    have hfilter : c.elements.filter (· ∉ s.elements) = [] ↔ ∀ e ∈ c.elements, e ∈ s.elements := by
      simp [List.filter_eq_nil_iff]
    simp only [setCommands, Option.some.injEq, forall_eq']
    cases hdyn : s.isDynamic with
    | true => simp
    | false =>
      by_cases he : c.elements = s.elements
      · simp [he]
      · by_cases hloss : c.elements.filter (· ∉ s.elements) = []
        · have hall := hfilter.1 hloss
          rw [if_pos (by simpa using he), if_pos hloss, List.nil_append]
          split <;> simpa [Command.adds] using hall
        · rw [if_pos (by simpa using he), if_neg hloss]
          constructor
          · intro h
            have := h (.deleteElement name (c.elements.filter (· ∉ s.elements))) (by simp)
            cases this
          · intro h
            exact absurd (hfilter.2 (h rfl)) hloss

/-- The script of a plan with changes only adds when the configuration takes nothing away. -/
theorem adds_emits_iff (hr : ReadsAs form family chains rules decls desired)
    (he : Emits form family chains rules decls current desired script) :
    (∀ line ∈ script, line.command.adds = true) ↔ TakesNothing current desired := by
  have hkey : ∀ k : Target, (∀ line ∈ script, line.command.adds = true) →
      ∀ c ∈ onKey Command.target k (script.map ScriptLine.command), c.adds = true := by
    intro k h c hc
    obtain ⟨line, hline, rfl⟩ := List.mem_map.1 (List.mem_of_mem_filter hc)
    exact h line hline
  have haction : ∀ c ∈ chains, ∀ k, current.chains.get? c.name = some k →
      ((∀ x ∈ chainCommands form family rules current c, x.adds = true) ↔
        k.rules = (parsedChain form family rules c).rules ∧
          (isBuiltin k = true → headerPriority k.policy = headerPriority (parsedChain form family rules c).policy)) := by
    intro c _ k hk
    rw [chainCommands, adds_commands_iff, deltaAction, hk, chainAction_adds_iff]
  -- a chain of the two sides is a configured one
  have hchain : ∀ name d, desired.chains.get? name = some d →
      ∃ c ∈ chains, c.name = name ∧ d = parsedChain form family rules c := by
    intro name d hd
    obtain ⟨c, hc, rfl⟩ := hr.mem_chains.1 (Dict.mem_of_get? hd)
    exact ⟨c, hc, rfl, Option.some.inj (hd.symm.trans (hr.chain c hc))⟩
  constructor
  · intro h
    refine ⟨fun name hname => ?_, fun name c d hc hd => ?_, fun name c d hc hd hb => ?_, fun name c d hc hd hdyn => ?_⟩
    · by_contra hd
      have hextra := he.extraChain name fun c hc hn => hd (hr.mem_chains.2 ⟨c, hc, hn⟩)
      rw [if_pos hname] at hextra
      have := hkey (.chain name) h (.deleteChain name) (by rw [hextra]; exact List.mem_singleton.2 rfl)
      cases this
    · obtain ⟨chain, hchain, rfl, rfl⟩ := hchain name d hd
      exact ((haction chain hchain c hc).1 (he.chain chain hchain ▸ hkey (.chain chain.name) h)).1
    · obtain ⟨chain, hchain, rfl, rfl⟩ := hchain name d hd
      exact ((haction chain hchain c hc).1 (he.chain chain hchain ▸ hkey (.chain chain.name) h)).2 hb
    · obtain ⟨decl, hdecl, ht, rfl⟩ := hr.set_decl hd
      exact (adds_setCommands_iff name decl (current.sets.get? name) _).1
        (he.set name decl hdecl ht ▸ hkey (.set name) h) c hc hdyn
  · intro h line hline
    obtain ⟨sets, htarget, hphases⟩ := he.phases
    rw [hphases] at hline
    obtain ⟨x, hx, rfl⟩ := List.mem_map.1 hline
    rw [deltaLine_command]
    rcases List.mem_cons.1 hx with rfl | hx
    · rfl
    rcases List.mem_append.1 hx with hx | hx
    · obtain ⟨name, hname⟩ := htarget x hx
      have hmem : x ∈ onKey Command.target (.set name) (script.map ScriptLine.command) := by
        refine List.mem_filter.2 ⟨?_, by simpa using hname⟩
        rw [hphases]
        simp [fermLines, hx]
      by_cases hdecl : ∃ d, decls.get? name = some d ∧ declTarget name d = .set name
      · obtain ⟨d, hd, ht⟩ := hdecl
        rw [he.set name d hd ht] at hmem
        exact (adds_setCommands_iff name d (current.sets.get? name) (d.parsedSet form name)).2
          (fun c hc hdyn => h.elements name c _ hc (hr.set name d hd ht) hdyn) x hmem
      · rw [he.noSet name fun d hd ht => hdecl ⟨d, hd, ht⟩] at hmem
        cases hmem
    rcases List.mem_append.1 hx with hx | hx
    · obtain ⟨c, hc, hx⟩ := List.mem_flatMap.1 hx
      have hc := mem_sortedChains.1 hc
      cases hk : current.chains.get? c.name with
      | none =>
        rw [chainCommands, deltaAction, hk] at hx
        exact (adds_commands_iff .add _ _ _).2 ⟨by simp, by simp⟩ x hx
      | some k =>
        have hd := hr.chain c hc
        exact (haction c hc k hk).2 ⟨h.rules c.name k _ hk hd, h.priority c.name k _ hk hd⟩ x hx
    · obtain ⟨name, hname, rfl⟩ := List.mem_map.1 hx
      obtain ⟨hc, hd⟩ := mem_extraChains.1 hname
      exact absurd (h.chains name hc) hd

/-- A plan without changes takes nothing away. -/
theorem takesNothing_of_not_seen (h : ¬ TableSeen current desired) : TakesNothing current desired := by
  refine ⟨fun name hc => ?_, fun name c d hc hd => ?_, fun name c d hc hd hb => ?_, fun name c d hc hd hdyn e he => ?_⟩
  · by_contra hd
    exact h (.extraChain hc hd)
  · by_contra hr
    exact h (.chain hd (.inl (by rw [hc]; exact hr)))
  · by_contra hp
    exact h (.chain hd (.inr ⟨c, hc, of_decide_eq_true hb, fun he => hp (by rw [he])⟩))
  · have hs : SameSet (current.sets.get? name) d := by
      by_contra hs
      exact h (.set hd hs)
    obtain ⟨c', hc', -, -, helements⟩ := hs
    rw [hc] at hc'
    cases hc'
    exact helements hdyn ▸ he

/-- A rendered table without the flush only adds. -/
theorem adds_save {save : List ScriptLine}
    (hsave : serializeTable ⟨family, NFT_TABLE_NAME⟩ chains rules decls true = .ok save) :
    ∀ line ∈ save, line.command.adds = true := by
  unfold serializeTable at hsave
  cases hcommands : tableCommands chains rules decls true with
  | error e =>
    rw [hcommands] at hsave
    cases hsave
  | ok commands =>
    rw [hcommands] at hsave
    cases hsave
    intro line hline
    obtain ⟨c, hc, rfl⟩ := List.mem_map.1 hline
    change c.adds = true
    rw [tableCommands_eq hcommands] at hc
    simp only [List.mem_append, List.mem_flatMap, declarationCommands, envelopeCommands] at hc
    rcases hc with ((hc | ⟨name, -, hc⟩) | ⟨chain, -, hc⟩) | ⟨chain, -, hc⟩
    · simp at hc
      rw [hc]
      rfl
    · cases hd : decls.get? name with
      | none =>
        rw [hd] at hc
        cases hc
      | some d =>
        rw [hd] at hc
        cases d with
        | object d => simp [declCommands] at hc; rw [hc]; rfl
        | dyn d => simp [declCommands] at hc; rw [hc]; rfl
        | static d =>
          simp only [declCommands, List.mem_cons] at hc
          rcases hc with rfl | hc
          · rfl
          · split at hc
            · cases hc
            · rw [List.mem_singleton.1 hc]
              rfl
    · rw [List.mem_singleton.1 hc]
      rfl
    · obtain ⟨body, -, rfl⟩ := List.mem_map.1 hc
      rfl

/-- Without a change that diverts the delta, the differ removes no set and changes no object. -/
theorem noRemove_of_not_diverts (h : ¬ Diverts current desired) :
    (∀ sc ∈ (fermDiff current desired).setChanges, sc.kind ≠ .remove) ∧ (fermDiff current desired).objectChanges = [] := by
  rw [fermDiff, diffTables_ferm, diffTable_setChanges, diffTable_objectChanges]
  constructor
  · intro sc hsc hkind
    rcases List.mem_append.1 hsc with hsc | hsc
    · obtain ⟨e, he, hsc⟩ := List.mem_flatMap.1 hsc
      cases hc : current.sets.get? e.1 with
      | none =>
        rw [hc, diffSet, List.mem_singleton] at hsc
        rw [hsc] at hkind
        cases hkind
      | some c =>
        have hheader : ¬ (c.type_, c.flags) ≠ (e.2.type_, e.2.flags) :=
          fun hne => h (.header hc (Dict.get?_eq_some_iff.2 he) hne)
        rw [hc] at hsc
        simp only [diffSet, if_neg hheader] at hsc
        split at hsc
        · rw [List.mem_singleton] at hsc
          rw [hsc] at hkind
          cases hkind
        · cases hsc
    · obtain ⟨e, he, hsc⟩ := List.mem_flatMap.1 hsc
      have hd : e.1 ∈ desired.sets := by
        by_contra hd
        exact h (.set (Dict.mem_of_mem_entries he) hd)
      rw [diffExtraSet, if_pos hd] at hsc
      cases hsc
  · have hobject : ∀ name, name ∈ current.objects ↔ name ∈ desired.objects := fun name => by
      by_contra hne
      exact h (.object hne)
    rw [List.append_eq_nil_iff, List.flatMap_eq_nil_iff, List.flatMap_eq_nil_iff]
    refine ⟨fun e he => ?_, fun e he => ?_⟩
    · rw [diffObject, if_pos ((hobject _).2 (Dict.mem_of_mem_entries he))]
    · rw [diffObject, if_pos ((hobject _).1 (Dict.mem_of_mem_entries he))]

/-- A delta is diverted to the rendered table only by a change it does not make. -/
theorem diverts_of_buildNftDelta_none {save : List ScriptLine}
    (hparse : parseNftScript form save = .ok (fermTables (some desired)))
    (hdelta : buildNftDelta form (fermTables (some current)) save family = .ok none) : Diverts current desired := by
  by_contra hdiverts
  obtain ⟨hremove, hobject⟩ := noRemove_of_not_diverts hdiverts
  have hno : ¬ ((fermDiff current desired).setChanges.any fun sc => sc.kind = .remove) = true := by
    intro hany
    obtain ⟨sc, hsc, hkind⟩ := List.any_eq_true.1 hany
    exact hremove sc hsc (of_decide_eq_true hkind)
  unfold buildNftDelta at hdelta
  rw [hparse] at hdelta
  change (do
    if (fermDiff current desired).setChanges.any fun sc => sc.kind = .remove then return none
    if (fermDiff current desired).objectChanges ≠ [] then return none
    let index ← buildDesiredIndex save
    let script ← emitDeltaScript (fermDiff current desired) (fermTables (some current)) index family
    return some script : Except FermError (Option (List ScriptLine))) = _ at hdelta
  rw [if_neg hno, if_neg (not_not.2 hobject)] at hdelta
  cases hindex : buildDesiredIndex save with
  | error e =>
    rw [hindex] at hdelta
    cases hdelta
  | ok index =>
    rw [hindex] at hdelta
    simp only [bind, Except.bind] at hdelta
    cases he : emitDeltaScript (fermDiff current desired) (fermTables (some current)) index family with
    | error e =>
      rw [he] at hdelta
      cases hdelta
    | ok script =>
      rw [he] at hdelta
      cases hdelta

/-- A delta that is not diverted makes every change there is. -/
theorem DeltaSpec.not_diverts (hd : DeltaSpec form family chains rules decls current desired script) :
    ¬ Diverts current desired := by
  rintro (⟨hc, hn⟩ | ⟨hc, hn, hne⟩ | hne)
  · exact hn (hd.noExtraSet _ hc)
  · obtain ⟨htype, hflags⟩ := hd.sameHeader _ _ _ hc hn
    exact hne (by rw [htype, hflags])
  · exact hne (hd.sameObjects _)

/-- Under `--noflush` a commit hands nft an append-only script exactly when it is a full reload, or there is no snapshot, or the
delta is diverted to the rendered table, or the configuration takes nothing away from the snapshot. -/
theorem noflush_appendOnly_iff {fullReload : Bool} {previous : Option (KernelTable form)} {save : List ScriptLine}
    (hn : (chains.map NftChain.name).Nodup)
    (hsave : serializeTable ⟨family, NFT_TABLE_NAME⟩ chains rules decls true = .ok save)
    (hscript : applyText form ⟨fullReload, true⟩ previous save family = .ok script) :
    AppendOnly family previous script ↔
      fullReload = true ∨ ∀ t desired, previous = some t → parseNftScript form save = .ok (fermTables (some desired)) →
        Diverts t.parsed desired ∨ TakesNothing t.parsed desired := by
  rw [appendOnly_iff_adds]
  have hadds := adds_save hsave
  unfold applyText commitDelta at hscript
  cases hfull : fullReload with
  | true =>
    rw [hfull] at hscript
    cases hscript
    simpa using hadds
  | false =>
    rcases previous with _ | t
    · rw [hfull] at hscript
      cases hscript
      simpa using hadds
    · rw [hfull] at hscript
      change (buildNftDelta form (fermTables (some t.parsed)) save family).map _ = _ at hscript
      simp only [Bool.false_eq_true, false_or, Option.some.injEq]
      cases hdelta : buildNftDelta form (fermTables (some t.parsed)) save family with
      | error e =>
        rw [hdelta] at hscript
        cases hscript
      | ok delta =>
        rw [hdelta] at hscript
        rcases delta with _ | delta
        · cases hscript
          refine ⟨fun _ t' desired ht hparse => ?_, fun _ => hadds⟩
          subst ht
          exact .inl (diverts_of_buildNftDelta_none hparse hdelta)
        · cases hscript
          obtain ⟨desired, hparse, hd⟩ := buildNftDelta_spec hn hsave hdelta
          have hdelta_iff : (∀ line ∈ delta, line.command.adds = true) ↔ TakesNothing t.parsed desired := by
            cases hc : (fermDiff t.parsed desired).hasChanges with
            | true => exact adds_emits_iff hd.reads (hd.emits hc)
            | false =>
              have hseen : ¬ SeenDifference (fermTables (some t.parsed)) (fermTables (some desired)) := by
                intro hseen
                have : (fermDiff t.parsed desired).hasChanges = true := (hasChanges_iff_seen _ _).2 hseen
                rw [hc] at this
                cases this
              rw [hd.nothing hc]
              exact ⟨fun _ => takesNothing_of_not_seen fun hs => hseen ⟨NFT_TABLE_NAME, desired, rfl, hs⟩, by simp⟩
          change (∀ line ∈ delta, line.command.adds = true) ↔ _
          rw [hdelta_iff]
          constructor
          · intro h t' desired' ht hparse'
            subst ht
            rw [hparse] at hparse'
            cases hparse'
            exact .inr h
          · intro h
            exact (h t desired rfl hparse).resolve_left hd.not_diverts

end

/-- A user chain gets a second chain beside it. -/
theorem noflush_appends_chain :
    AppendOnly "ip" (some { chains := Dict.empty.set "a" ⟨.user, ["accept"]⟩ } : Option (KernelTable .verbatim))
        [deltaLine "ip" .addTable, deltaLine "ip" (.addChain "b" none), deltaLine "ip" (.addRule "b" "drop")] ↔
      false = true ∨ ∀ (t : KernelTable .verbatim) desired, some { chains := Dict.empty.set "a" ⟨.user, ["accept"]⟩ } = some t →
        parseNftScript .verbatim (fermLines "ip" [.addTable, .addChain "a" none, .addChain "b" none, .addRule "a" "accept",
          .addRule "b" "drop"]) = .ok (fermTables (some desired)) →
        Diverts t.parsed desired ∨ TakesNothing t.parsed desired :=
  noflush_appendOnly_iff (by decide)
    (show serializeTable ⟨"ip", NFT_TABLE_NAME⟩ [.regular "a", .regular "b"]
      ((Dict.empty.set "a" [{ statements := [.nftVerdict "accept"] }]).set "b" [{ statements := [.nftVerdict "drop"] }])
      Dict.empty true = .ok _ from rfl)
    rfl

/-- The snapshot has a user chain with the rule `accept`, the configuration has the chain with the rule `drop`: under `--noflush`
the delta flushes the chain. -/
theorem noflush_flushes_chain :
    ∃ (previous : KernelTable .verbatim) (chains : List NftChain) (rules : Dict String (List NftRule))
      (save script : List ScriptLine),
      (chains.map NftChain.name).Nodup ∧
      serializeTable ⟨"ip", NFT_TABLE_NAME⟩ chains rules Dict.empty true = .ok save ∧
      applyText .verbatim ⟨false, true⟩ (some previous) save "ip" = .ok script ∧
      ¬ AppendOnly "ip" (some previous) script := by
  refine ⟨{ chains := Dict.empty.set "a" ⟨.user, ["accept"]⟩ }, [.regular "a"],
    Dict.empty.set "a" [{ statements := [.nftVerdict "drop"] }], _, _, by decide, rfl, rfl, fun h => ?_⟩
  have := h.adds (deltaLine "ip" (.flushChain "a")) (by decide)
  cases this

end Ferm
