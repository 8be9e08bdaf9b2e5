import Ferm.Iptables.Declared
import Ferm.Lib.Monadic

/-!
# Slow and fast mode

The slow command list and the fast save of the same configuration, run from the same kernel state. A table is looked at chain by
chain: what is declared, then the rules that are appended. A run over all tables is one run for each table.
-/

namespace Ferm

variable {ρ : Type}

/-! ## Appending the rules -/

/-- A rule for a chain that is there, with the names of all chains known. -/
def appendTo (read : String → Option ρ) (text : String) (c : Option (LiveChain ρ)) : Option (LiveChain ρ) :=
  c.bind fun c => (read text).map fun rule => c.addRules [rule]

/-- The rules of a chain, all of them read. -/
def appended (read : String → Option ρ) (texts : List String) : Option (LiveChain ρ) → Option (Option (LiveChain ρ))
  | some c => (texts.mapM read).map fun rules => some (c.addRules rules)
  | none => if texts = [] then some none else none

/-- The texts of a table's rules with their chains. -/
def rulePairs (texts : ChainInfo → List String) (chains : Dict String ChainInfo) : List (String × String) :=
  chains.entries.flatMap fun e => (texts e.2).map fun text => (e.1, text)

/-- Appending a rule makes no chain. -/
theorem has_of_appendTo {read : String → Option ρ} {text name : String} {t t' : LiveTable ρ}
    (h : t.onChain (appendTo read text) name = some t') : t'.has = t.has := by
  obtain ⟨c, hc, rfl⟩ := Option.map_eq_some_iff.1 h
  obtain ⟨c', hc', -⟩ := Option.bind_eq_some_iff.1 hc
  funext n
  simp only [LiveTable.has, Dict.mem_set, decide_eq_decide]
  refine ⟨fun hn => hn.elim (fun hn => hn ▸ Dict.mem_of_get? hc') id, .inr⟩

/-- The names of the chains stay the same, so that every rule is read with those of the beginning. -/
theorem runScript_fixedNames (read : (String → Bool) → String → Option ρ) (pairs : List (String × String)) {t : LiveTable ρ}
    {names : String → Bool} (ht : t.has = names) :
    runScript (fun p t => LiveTable.appendRule read p.1 p.2 t) pairs t =
      runScript (fun p t => LiveTable.onChain (appendTo (read names) p.2) p.1 t) pairs t := by
  induction pairs generalizing t with
  | nil => rfl
  | cons p pairs ih =>
    have hstep : LiveTable.appendRule read p.1 p.2 t = t.onChain (appendTo (read names) p.2) p.1 := by
      rw [← ht]
      rfl
    rw [runScript_cons, runScript_cons, hstep]
    cases hs : t.onChain (appendTo (read names) p.2) p.1 with
    | none => rfl
    | some t' => exact ih ((has_of_appendTo hs).trans ht)

theorem pointwise_append (read : String → Option ρ) :
    Pointwise (fun _ => True) (fun (p : String × String) t => LiveTable.onChain (appendTo read p.2) p.1 t)
      (fun t name => t.get? name) (fun name p c => onlyAt p.1 (appendTo read p.2) name c) where
  sound _ _ _ _ h name := onChain_sound h name
  complete _ _ _ h := onChain_complete h

/-- The rules of one chain, from its own point of view. -/
theorem runScript_ownPairs (read : String → Option ρ) (name : String) (texts : List String) (c : Option (LiveChain ρ)) :
    runScript (fun p c => onlyAt p.1 (appendTo read p.2) name c) (texts.map fun text => (name, text)) c =
      appended read texts c := by
  induction texts generalizing c with
  | nil =>
    rcases c with _ | c
    · rfl
    · simp [appended, LiveChain.addRules]
  | cons text texts ih =>
    rw [List.map_cons, runScript_cons, onlyAt, if_pos rfl]
    rcases c with _ | c
    · rfl
    · simp only [appendTo, Option.bind_some, appended, List.mapM_cons]
      cases read text with
      | none => rfl
      | some rule =>
        simp only [Option.map_some, Option.bind_some, ih, appended, Option.bind_eq_bind, Option.pure_def]
        cases texts.mapM read with
        | none => rfl
        | some rules => simp [LiveChain.addRules]

/-- The rules of a table from the point of view of one chain. -/
theorem runScript_rulePairs (read : String → Option ρ) (texts : ChainInfo → List String) (chains : Dict String ChainInfo)
    (name : String) (c : Option (LiveChain ρ)) :
    runScript (fun p c => onlyAt p.1 (appendTo read p.2) name c) (rulePairs texts chains) c =
      appended read (((chains.get? name).map texts).getD []) c := by
  rw [rulePairs, runScript_walk]
  · cases chains.get? name with
    | none => exact runScript_ownPairs read name [] c
    | some ci => exact runScript_ownPairs read name (texts ci) c
  · intro e he p hp v
    obtain ⟨text, -, rfl⟩ := List.mem_map.1 hp
    exact if_neg he

/-! ## One table -/

/-- The texts of a chain's rules. -/
def ruleTexts (domain : Family) (fast : Bool) (ci : ChainInfo) : List String :=
  ci.rules.map fun rule => Except.getD (formatRule domain rule fast) ""

/-- Every rule of a table can be formatted. -/
def Formats (domain : Family) (fast : Bool) (info : TableInfo) : Prop :=
  ∀ e ∈ info.chains.entries, ∀ rule ∈ e.2.rules, ∃ text, formatRule domain rule fast = .ok text

/-- The rules that are appended, none when they are flushed. -/
def tablePairs (domain : Family) (fast flush : Bool) (chains : Dict String ChainInfo) : List (String × String) :=
  if flush then [] else rulePairs (ruleTexts domain fast) chains

/-- Nothing of a table is to be preserved. -/
structure TableInfo.NoPreserve (info : TableInfo) : Prop where
  regexes : info.preserveRegexes = []
  chains : ∀ e ∈ info.chains.entries, e.2.preserve = false

theorem appendCommands_ok (domain : Family) (name : String) (ci : ChainInfo) (r : List TableCommand) :
    appendCommands domain name ci = .ok r ↔ (∀ rule ∈ ci.rules, ∃ text, formatRule domain rule false = .ok text) ∧
      r = (ruleTexts domain false ci).map (.append name) :=
  mapM_spec_ok_iff fun _ _ _ => Except.eq_ok_iff_getD ""

theorem ruleEntries_ok (domain : Family) (tableSave : List Char) (name : String) {ci : ChainInfo} (hci : ci.preserve = false)
    (r : List SaveEntry) :
    ruleEntries domain tableSave name ci false = .ok r ↔ (∀ rule ∈ ci.rules, ∃ text, formatRule domain rule true = .ok text) ∧
      r = (ruleTexts domain true ci).map (.rule name) := by
  rw [ruleEntries, hci]
  exact mapM_spec_ok_iff fun _ _ _ => Except.eq_ok_iff_getD ""

theorem map_rulePairs {β : Type} (texts : ChainInfo → List String) (chains : Dict String ChainInfo) (g : String → String → β) :
    (rulePairs texts chains).map (fun p => g p.1 p.2) = (chains.entries.map fun e => (texts e.2).map (g e.1)).flatten := by
  rw [rulePairs, List.map_flatMap, List.flatMap_def]
  simp only [List.map_map]
  rfl

theorem slowTableCommands_ok (domain : Family) (options : IptablesOptions) (table : String) (info : TableInfo)
    (commands : List TableCommand) :
    slowTableCommands domain options table info = .ok commands ↔ (options.flush = false → Formats domain false info) ∧
      commands = slowDeclarations options table info ++
        (tablePairs domain false options.flush info.chains).map fun p => .append p.1 p.2 := by
  unfold slowTableCommands
  cases hflush : options.flush with
  | true =>
    simp only [if_true, slowDeclarations, hflush, tablePairs, List.map_nil, List.append_nil, reduceCtorEq, false_implies, true_and]
    exact ⟨fun h => (Except.ok.inj h).symm, fun h => congrArg Except.ok h.symm⟩
  | false =>
    simp only [Bool.false_eq_true, if_false, slowDeclarations, hflush, tablePairs, true_implies, map_rulePairs]
    exact mapM_spec_ok_iff fun e _ r => appendCommands_ok domain e.1 e.2 r

/-- The section of a table without preserved chains: its header, its chains and its rules. -/
theorem tableSection_ok (domain : Family) (info : DomainInfo) (options : IptablesOptions) (table : String)
    {tableInfo : TableInfo} (hno : tableInfo.NoPreserve) (entries : List SaveEntry) :
    tableSection domain info options table tableInfo = .ok entries ↔
      (options.flush = false → Formats domain true tableInfo) ∧
        entries = .table table :: (fastDeclarations options table tableInfo ++
          (tablePairs domain true options.flush tableInfo.chains.sorted).map (fun p => .rule p.1 p.2) ++ [.commit]) := by
  have hpreserve : (tableInfo.chains.entries.any fun e => e.2.preserve) = false :=
    List.any_eq_false.2 fun e he => by rw [hno.chains e he]; exact Bool.false_ne_true
  have hsorted : ∀ e ∈ tableInfo.chains.sorted.entries, e ∈ tableInfo.chains.entries := by
    intro e he
    have := Dict.get?_eq_some_iff.2 he
    rw [Dict.get?_sorted] at this
    exact Dict.get?_eq_some_iff.1 this
  have hentry : ∀ e ∈ tableInfo.chains.sorted.entries,
      (chainEntry table [] e.1 e.2 options.flush).toList = (policyEntry table e.1 e.2 options.flush).toList := by
    intro e he
    rw [chainEntry, hno.chains e (hsorted e he)]
    rfl
  have hmerge : Dict.merge (fun v _ => v) Dict.empty tableInfo.chains = tableInfo.chains := rfl
  have hdeclarations : (tableInfo.chains.sorted.entries.flatMap fun e => (chainEntry table [] e.1 e.2 options.flush).toList) =
      fastDeclarations options table tableInfo := List.flatMap_congr hentry
  unfold tableSection
  simp only [hno.regexes, hpreserve, ne_eq, not_true_eq_false, Bool.false_eq_true, or_self, if_false, if_true, hmerge,
    pure_bind, hdeclarations]
  cases hflush : options.flush with
  | true =>
    have hnone : ∀ e ∈ tableInfo.chains.sorted.entries, ruleEntries domain [] e.1 e.2 true = .ok [] := by
      intro e he
      rw [ruleEntries, hno.chains e (hsorted e he)]
      rfl
    rw [mapM_spec_ok_iff (P := fun _ => True) (g := fun _ => []) fun e he r => by rw [hnone e he]; simp [eq_comm]]
    simp [tablePairs]
  | false =>
    have hformats : Formats domain true tableInfo ↔
        ∀ e ∈ tableInfo.chains.sorted.entries, ∀ rule ∈ e.2.rules, ∃ text, formatRule domain rule true = .ok text := by
      refine ⟨fun h e he => h e (hsorted e he), fun h e he => h e ?_⟩
      have := Dict.get?_eq_some_iff.2 he
      rw [← Dict.get?_sorted] at this
      exact Dict.get?_eq_some_iff.1 this
    simp only [true_implies, hformats, tablePairs, Bool.false_eq_true, if_false, map_rulePairs]
    exact mapM_spec_ok_iff fun e he r => ruleEntries_ok domain [] e.1 (hno.chains e (hsorted e he)) r

/-- The slow commands of a table. -/
def slowTable (reader : RuleReader ρ) (domain : Family) (options : IptablesOptions) (table : String) (info : TableInfo)
    (t : LiveTable ρ) : Option (LiveTable ρ) :=
  (runScript (TableCommand.run reader) (slowDeclarations options table info) t).bind
    (runScript (fun p t => LiveTable.appendRule reader.command p.1 p.2 t) (tablePairs domain false options.flush info.chains))

/-- The lines of a table's section. -/
def fastTable (reader : RuleReader ρ) (domain : Family) (options : IptablesOptions) (table : String) (info : TableInfo)
    (t : LiveTable ρ) : Option (LiveTable ρ) :=
  (runScript (SaveEntry.read reader) (fastDeclarations options table info) (enterTable options.noflush t)).bind
    (runScript (fun p t => LiveTable.appendRule reader.save p.1 p.2 t)
      (tablePairs domain true options.flush info.chains.sorted))

/-- The texts of the rules that are appended to a chain. -/
def textsAt (domain : Family) (fast flush : Bool) (chains : Dict String ChainInfo) (name : String) : List String :=
  if flush then [] else ((chains.get? name).map (ruleTexts domain fast)).getD []

section TwoPhases

variable {C : Type} {P : C → Prop} {step : C → LiveTable ρ → Option (LiveTable ρ)}
  {localStep : String → C → Option (LiveChain ρ) → Option (Option (LiveChain ρ))} {declarations : List C}
  {read : (String → Bool) → String → Option ρ} {domain : Family} {fast flush : Bool} {chains : Dict String ChainInfo}
  {t : LiveTable ρ}

theorem runScript_tablePairs (read : String → Option ρ) (domain : Family) (fast flush : Bool) (chains : Dict String ChainInfo)
    (name : String) (c : Option (LiveChain ρ)) :
    runScript (fun p c => onlyAt p.1 (appendTo read p.2) name c) (tablePairs domain fast flush chains) c =
      appended read (textsAt domain fast flush chains name) c := by
  unfold tablePairs textsAt
  split
  · rcases c with _ | c
    · rfl
    · simp [appended, LiveChain.addRules]
  · exact runScript_rulePairs read (ruleTexts domain fast) chains name c

/-- A run of declarations and rules, from the point of view of every chain. -/
theorem twoPhases_sound (h : Pointwise P step (fun t name => t.get? name) localStep) (hP : ∀ c ∈ declarations, P c)
    {t' : LiveTable ρ}
    (hrun : (runScript step declarations t).bind
      (runScript (fun p t => LiveTable.appendRule read p.1 p.2 t) (tablePairs domain fast flush chains)) = some t') :
    ∃ declared : String → Option (LiveChain ρ),
      (∀ name, runScript (localStep name) declarations (t.get? name) = some (declared name)) ∧
        ∀ name, appended (read fun n => (declared n).isSome) (textsAt domain fast flush chains name) (declared name) =
          some (t'.get? name) := by
  obtain ⟨d, hd, hrules⟩ := Option.bind_eq_some_iff.1 hrun
  refine ⟨fun name => d.get? name, fun name => h.run_sound hP hd name, fun name => ?_⟩
  have hnames : (fun n => (d.get? n).isSome) = d.has := by
    funext n
    rw [LiveTable.has, Bool.eq_iff_iff, decide_eq_true_iff, Dict.mem_iff_isSome]
  rw [runScript_fixedNames read _ hnames.symm] at hrules
  have := (pointwise_append (read fun n => (d.get? n).isSome)).run_sound (fun _ _ => trivial) hrules name
  rwa [runScript_tablePairs] at this

theorem twoPhases_complete (domain : Family) (fast flush : Bool) (chains : Dict String ChainInfo)
    (read : (String → Bool) → String → Option ρ) (h : Pointwise P step (fun t name => t.get? name) localStep) (hP : ∀ c ∈ declarations, P c)
    {declared : String → Option (LiveChain ρ)}
    (hdeclared : ∀ name, runScript (localStep name) declarations (t.get? name) = some (declared name))
    (hrules : ∀ name, (appended (read fun n => (declared n).isSome) (textsAt domain fast flush chains name)
      (declared name)).isSome = true) :
    ∃ t', (runScript step declarations t).bind
      (runScript (fun p t => LiveTable.appendRule read p.1 p.2 t) (tablePairs domain fast flush chains)) = some t' ∧
        ∀ name, appended (read fun n => (declared n).isSome) (textsAt domain fast flush chains name) (declared name) =
          some (t'.get? name) := by
  obtain ⟨d, hd⟩ := Option.isSome_iff_exists.1 (h.run_complete (s := t) hP fun name => by rw [hdeclared name]; rfl)
  have hget : ∀ name, d.get? name = declared name := fun name =>
    Option.some.inj ((h.run_sound hP hd name).symm.trans (hdeclared name))
  have hnames : d.has = fun n => (declared n).isSome := by
    funext n
    rw [LiveTable.has, Bool.eq_iff_iff, decide_eq_true_iff, Dict.mem_iff_isSome, hget]
  rw [hd, Option.bind_some, runScript_fixedNames read _ hnames]
  obtain ⟨t', ht'⟩ := Option.isSome_iff_exists.1 ((pointwise_append (read fun n => (declared n).isSome)).run_complete
    (s := d) (fun _ _ => trivial) fun name => by
      rw [runScript_tablePairs, hget]
      exact hrules name)
  refine ⟨t', ht', fun name => ?_⟩
  have := (pointwise_append (read fun n => (declared n).isSome)).run_sound (fun _ _ => trivial) ht' name
  rwa [runScript_tablePairs, hget] at this

end TwoPhases

/-- Two ways to append as many rules that end in the same chain begin with the same chain and read the same rules. -/
theorem appended_eq {read read' : String → Option ρ} {texts texts' : List String} {c c' v : Option (LiveChain ρ)}
    (h : appended read texts c = some v) (h' : appended read' texts' c' = some v) (hlen : texts.length = texts'.length) :
    c = c' ∧ (c.isSome = true → ∃ rules, texts.mapM read = some rules ∧ texts'.mapM read' = some rules) := by
  rcases c with _ | c <;> rcases c' with _ | c'
  · exact ⟨rfl, fun h => by cases h⟩
  · simp only [appended] at h h'
    split at h
    · cases h
      obtain ⟨rules, -, h'⟩ := Option.map_eq_some_iff.1 h'
      cases h'
    · cases h
  · simp only [appended] at h h'
    split at h'
    · cases h'
      obtain ⟨rules, -, h⟩ := Option.map_eq_some_iff.1 h
      cases h
    · cases h'
  · obtain ⟨rules, hrules, h⟩ := Option.map_eq_some_iff.1 h
    obtain ⟨rules', hrules', h'⟩ := Option.map_eq_some_iff.1 h'
    have hv : some (c.addRules rules) = some (c'.addRules rules') := h.trans h'.symm
    rw [Option.some.injEq, LiveChain.addRules, LiveChain.addRules, LiveChain.mk.injEq] at hv
    have hlength : rules.length = rules'.length := by
      rw [mapM_some_length hrules, mapM_some_length hrules', hlen]
    obtain ⟨hfirst, rfl⟩ := List.append_inj' hv.2 hlength
    obtain ⟨policy, old⟩ := c
    obtain ⟨policy', old'⟩ := c'
    simp only at hv hfirst
    rw [hv.1, hfirst]
    exact ⟨rfl, fun _ => ⟨rules, hrules, hrules'⟩⟩

/-- The names of the chains that are there when the rules are appended. -/
def liveNames (options : IptablesOptions) (info : TableInfo) (t : LiveTable ρ) (name : String) : Bool :=
  decide (name ∈ info.chains) || (t.get? name).any fun c => options.noflush || c.policy.isSome

theorem isSome_fastDeclared {options : IptablesOptions} (hflush : options.flush = false) {table : String} {info : TableInfo}
    {t : LiveTable ρ} {name : String} {v : Option (LiveChain ρ)}
    (h : fastDeclared options table info name (t.get? name) = some v) : v.isSome = liveNames options info t name := by
  unfold fastDeclared at h
  cases hci : info.chains.get? name with
  | none =>
    have hmem : name ∉ info.chains := Dict.get?_eq_none_iff.1 hci
    simp only [hci, Option.some.injEq] at h
    rw [← h, liveNames, decide_eq_false hmem, Bool.false_or]
    cases t.get? name with
    | none => cases options.noflush <;> rfl
    | some c => cases options.noflush <;> cases hp : c.policy <;> simp [LiveChain.cleared, hp]
  | some ci =>
    have hmem : name ∈ info.chains := Dict.mem_of_get? hci
    rw [liveNames, decide_eq_true hmem, Bool.true_or]
    have hentry : ∃ policy, policyEntry table name ci options.flush = some (.chain name policy) := by
      unfold policyEntry
      rw [hflush]
      cases ci.policy with
      | some policy => exact ⟨policy, rfl⟩
      | none => cases isNetfilterBuiltinChain table name <;> exact ⟨_, rfl⟩
    obtain ⟨policy, hentry⟩ := hentry
    simp only [hci, hentry] at h
    obtain ⟨c, -, rfl⟩ := Option.map_eq_some_iff.1 h
    rfl

theorem append_not_mem_slowDeclarations (options : IptablesOptions) (table : String) (info : TableInfo) :
    ∀ c ∈ slowDeclarations options table info, ∀ chain text, c ≠ TableCommand.append chain text := by
  have hcreate : ∀ name ci, ∀ c ∈ createCommands table name ci, ∀ chain text, c ≠ TableCommand.append chain text := by
    intro name ci c hc chain text
    unfold createCommands at hc
    split at hc
    · split at hc
      · split at hc
        · rw [List.mem_singleton.1 hc]
          exact TableCommand.noConfusion
        · cases hc
      · cases hc
    · rw [List.mem_singleton.1 hc]
      exact TableCommand.noConfusion
  intro c hc chain text
  rcases List.mem_append.1 hc with hc | hc
  · unfold resetCommands at hc
    split at hc
    · cases hc
    · rcases List.mem_append.1 hc with hc | hc
      · obtain ⟨e, -, hc⟩ := List.mem_flatMap.1 hc
        split at hc
        · rw [List.mem_singleton.1 hc]
          exact TableCommand.noConfusion
        · cases hc
      · rcases List.mem_pair.1 hc with rfl | rfl <;> exact TableCommand.noConfusion
  · split at hc
    · cases hc
    · obtain ⟨e, -, hc⟩ := List.mem_flatMap.1 hc
      exact hcreate e.1 e.2 c hc chain text

theorem chain_of_mem_fastDeclarations (options : IptablesOptions) (table : String) (info : TableInfo) :
    ∀ e ∈ fastDeclarations options table info, ∃ n policy, e = SaveEntry.chain n policy := by
  intro x hx
  obtain ⟨e, -, hx⟩ := List.mem_flatMap.1 hx
  rw [Option.mem_toList] at hx
  obtain ⟨policy, rfl⟩ := chain_of_policyEntry hx
  exact ⟨e.1, policy, rfl⟩

theorem get?_enterTable (noflush : Bool) (t : LiveTable ρ) (name : String) :
    (enterTable noflush t).get? name = if noflush then t.get? name else LiveChain.cleared (t.get? name) := by
  unfold enterTable
  split
  · rfl
  · rw [LiveTable.builtinOnly, Dict.get?_filterValues, LiveTable.flush, Dict.get?_mapValues]
    cases t.get? name with
    | none => rfl
    | some c => cases hp : c.policy <;> simp [LiveChain.cleared, LiveChain.flushed, hp, Option.filter]

theorem textsAt_sorted (domain : Family) (fast flush : Bool) (chains : Dict String ChainInfo) (name : String) :
    textsAt domain fast flush chains.sorted name = textsAt domain fast flush chains name := by
  rw [textsAt, textsAt, Dict.get?_sorted]

theorem length_textsAt (domain : Family) (flush : Bool) (chains : Dict String ChainInfo) (name : String) :
    (textsAt domain false flush chains name).length = (textsAt domain true flush chains name).length := by
  unfold textsAt
  split
  · rfl
  · cases chains.get? name with
    | none => rfl
    | some ci => simp [ruleTexts]

/-- The rules of a chain are read the same in both modes. -/
def RulesAlike (reader : RuleReader ρ) (domain : Family) (names : String → Bool) (ci : ChainInfo) : Prop :=
  ∃ rules, (ruleTexts domain false ci).mapM (reader.command names) = some rules ∧
    (ruleTexts domain true ci).mapM (reader.save names) = some rules

/-- Rules that are read the same end in the same chain. -/
theorem appended_alike (reader : RuleReader ρ) (domain : Family) (flush : Bool) (chains : Dict String ChainInfo)
    {names : String → Bool} {name : String} {c : Option (LiveChain ρ)}
    (h : ∀ ci, chains.get? name = some ci → flush = false → c.isSome = true ∧ RulesAlike reader domain names ci) :
    ∃ v, appended (reader.command names) (textsAt domain false flush chains name) c = some v ∧
      appended (reader.save names) (textsAt domain true flush chains name) c = some v := by
  have hnone : ∀ read : String → Option ρ, appended read [] c = some (c.map fun c => c.addRules []) := by
    intro read
    cases c <;> rfl
  unfold textsAt
  cases flush with
  | true =>
    rw [if_pos rfl, if_pos rfl, hnone, hnone]
    exact ⟨_, rfl, rfl⟩
  | false =>
    simp only [Bool.false_eq_true, if_false]
    cases hci : chains.get? name with
    | none =>
      simp only [Option.map_none, Option.getD_none, hnone]
      exact ⟨_, rfl, rfl⟩
    | some ci =>
      obtain ⟨hc, rules, hcommand, hsave⟩ := h ci hci rfl
      obtain ⟨c, rfl⟩ := Option.isSome_iff_exists.1 hc
      simp only [Option.map_some, Option.getD_some, appended, hcommand, hsave]
      exact ⟨_, rfl, rfl⟩

/-- Both modes run and end in the same table exactly when they do on every configured chain. -/
theorem tables_agree_iff (reader : RuleReader ρ) (domain : Family) (options : IptablesOptions) (table : String)
    (info : TableInfo) (t : LiveTable ρ) :
    (∃ slow fast, slowTable reader domain options table info t = some slow ∧
        fastTable reader domain options table info t = some fast ∧ slow.Agree fast) ↔
      ∀ name ci, info.chains.get? name = some ci → DeclaredAlike options table info name ci (t.get? name) ∧
        (options.flush = false → RulesAlike reader domain (liveNames options info t) ci) := by
  have hslowLocal : ∀ name, runScript (TableCommand.onChain name) (slowDeclarations options table info) (t.get? name) =
      slowDeclared options table info name (t.get? name) := fun name => runScript_slowDeclarations options table info name _
  have hfastLocal : ∀ name, runScript (SaveEntry.onChain name) (fastDeclarations options table info)
      ((enterTable options.noflush t).get? name) = fastDeclared options table info name (t.get? name) := by
    intro name
    rw [get?_enterTable]
    exact runScript_fastDeclarations options table info name _
  constructor
  · rintro ⟨slow, fast, hslow, hfast, hagree⟩
    obtain ⟨ds, hds, hslow⟩ := twoPhases_sound (pointwise_command reader) (append_not_mem_slowDeclarations options table info) hslow
    obtain ⟨df, hdf, hfast⟩ := twoPhases_sound (pointwise_entry reader) (chain_of_mem_fastDeclarations options table info) hfast
    have hboth := fun name => appended_eq (hslow name) ((hfast name).trans (congrArg some (hagree name).symm))
      ((length_textsAt domain options.flush info.chains name).trans
        (congrArg List.length (textsAt_sorted domain true options.flush info.chains name)).symm)
    obtain rfl : ds = df := funext fun name => (hboth name).1
    intro name ci hci
    refine ⟨(declared_alike_iff options table info hci _).1
      ⟨ds name, (hslowLocal name).symm.trans (hds name), (hfastLocal name).symm.trans (hdf name)⟩, fun hflush => ?_⟩
    have hnames : (fun n => (ds n).isSome) = liveNames options info t :=
      funext fun n => isSome_fastDeclared hflush ((hfastLocal n).symm.trans (hdf n))
    have hthere : (ds name).isSome = true := by
      rw [congrFun hnames name, liveNames, decide_eq_true (Dict.mem_of_get? hci), Bool.true_or]
    have hrules := (hboth name).2 hthere
    rw [hnames, textsAt_sorted, textsAt, textsAt, hflush, hci] at hrules
    exact hrules
  · intro h
    have hdeclared : ∀ name, ∃ v, slowDeclared options table info name (t.get? name) = some v ∧
        fastDeclared options table info name (t.get? name) = some v := by
      intro name
      cases hci : info.chains.get? name with
      | none =>
        rw [declared_unconfigured options table hci]
        simp only [and_self, fastDeclared, hci]
        exact ⟨_, rfl⟩
      | some ci => exact (declared_alike_iff options table info hci _).2 (h name ci hci).1
    choose declared hslow hfast using hdeclared
    have hrules : ∀ name, ∃ v, appended (reader.command fun n => (declared n).isSome)
          (textsAt domain false options.flush info.chains name) (declared name) = some v ∧
        appended (reader.save fun n => (declared n).isSome) (textsAt domain true options.flush info.chains name)
          (declared name) = some v := by
      intro name
      refine appended_alike reader domain options.flush info.chains fun ci hci hflush => ?_
      have hnames : (fun n => (declared n).isSome) = liveNames options info t :=
        funext fun n => isSome_fastDeclared hflush (hfast n)
      refine ⟨?_, ?_⟩
      · rw [congrFun hnames name, liveNames, decide_eq_true (Dict.mem_of_get? hci), Bool.true_or]
      · rw [hnames]
        exact (h name ci hci).2 hflush
    choose result hslowRules hfastRules using hrules
    obtain ⟨slow, hslowRun, hslowGet⟩ := twoPhases_complete domain false options.flush info.chains reader.command
      (pointwise_command reader) (append_not_mem_slowDeclarations options table info)
      (fun name => (hslowLocal name).trans (hslow name)) fun name => by rw [hslowRules name]; rfl
    obtain ⟨fast, hfastRun, hfastGet⟩ := twoPhases_complete domain true options.flush info.chains.sorted reader.save
      (pointwise_entry reader) (chain_of_mem_fastDeclarations options table info)
      (fun name => (hfastLocal name).trans (hfast name)) fun name => by rw [textsAt_sorted, hfastRules name]; rfl
    refine ⟨slow, fast, hslowRun, hfastRun, fun name => Option.some.inj ?_⟩
    rw [← hslowGet name, ← hfastGet name, textsAt_sorted, hslowRules, hfastRules]

/-! ## All tables -/

/-- Work on one table, from the point of view of the table `name`. -/
def onlyTable (table : String) (f : LiveTable ρ → Option (LiveTable ρ)) (name : String) (t : Option (LiveTable ρ)) :
    Option (Option (LiveTable ρ)) :=
  if table = name then (t.bind f).map some else some t

/-- Steps that each work on one table. -/
theorem pointwise_onTable {C : Type} (table : C → String) (f : C → LiveTable ρ → Option (LiveTable ρ)) :
    Pointwise (fun _ => True) (fun c k => onTable (f c) (table c) k) (fun k name => k name)
      (fun name c t => onlyTable (table c) (f c) name t) where
  sound := by
    intro c k k' _ h name
    obtain ⟨t, ht, rfl⟩ := Option.map_eq_some_iff.1 h
    rw [onlyTable]
    by_cases hn : table c = name
    · subst hn
      simp [ht]
    · simp [hn, Ne.symm hn]
  complete := by
    intro c k _ h
    have := h (table c)
    rw [onlyTable, if_pos rfl, Option.isSome_map] at this
    rw [onTable, Option.isSome_map]
    exact this

/-- The section of a table between its header and its commit. -/
def sectionBody (domain : Family) (options : IptablesOptions) (table : String) (info : TableInfo) : List SaveEntry :=
  fastDeclarations options table info ++
    (tablePairs domain true options.flush info.chains.sorted).map fun p => .rule p.1 p.2

/-- The slow commands of a table whose rules can be formatted. -/
def tableScript (domain : Family) (options : IptablesOptions) (table : String) (info : TableInfo) : List TableCommand :=
  slowDeclarations options table info ++ (tablePairs domain false options.flush info.chains).map fun p => .append p.1 p.2

theorem runScript_tableScript (reader : RuleReader ρ) (domain : Family) (options : IptablesOptions) (table : String)
    (info : TableInfo) (t : LiveTable ρ) :
    runScript (TableCommand.run reader) (tableScript domain options table info) t =
      slowTable reader domain options table info t := by
  rw [tableScript, runScript_append, slowTable]
  congr 1
  funext d
  exact runScript_map _ _ d

theorem runScript_sectionBody (reader : RuleReader ρ) (domain : Family) (options : IptablesOptions) (table : String)
    (info : TableInfo) (t : LiveTable ρ) :
    runScript (SaveEntry.read reader) (sectionBody domain options table info) (enterTable options.noflush t) =
      fastTable reader domain options table info t := by
  rw [sectionBody, runScript_append, fastTable]
  congr 1
  funext d
  exact runScript_map _ _ d

/-- A section's entries are read into its table. -/
theorem restore_body (reader : RuleReader ρ) (noflush : Bool) {body : List SaveEntry}
    (hbody : ∀ e ∈ body, (∃ n p, e = .chain n p) ∨ ∃ n x, e = .rule n x) (table : String) (k : LiveTables ρ) {t : LiveTable ρ}
    (ht : k table = some t) :
    runScript (restoreEntry reader noflush) body (some table, k) =
      (runScript (SaveEntry.read reader) body t).map fun t' => (some table, fun name => if name = table then some t' else k name) := by
  induction body generalizing k t with
  | nil =>
    have hk : (fun name => if name = table then some t else k name) = k := by
      funext name
      split
      · rename_i hn
        rw [hn, ht]
      · rfl
    rw [runScript_nil, runScript_nil, Option.map_some, hk]
  | cons e body ih =>
    obtain ⟨he, hbody⟩ := List.forall_mem_cons.1 hbody
    have hstep : restoreEntry reader noflush e (some table, k) = (onTable (e.read reader) table k).map fun k => (some table, k) := by
      rcases he with ⟨n, p, rfl⟩ | ⟨n, x, rfl⟩ <;> rfl
    rw [runScript_cons, runScript_cons, hstep, onTable, ht, Option.bind_some]
    cases hread : e.read reader t with
    | none => rfl
    | some t' =>
      rw [Option.map_some, Option.map_some, Option.bind_some, ih hbody _ (if_pos rfl), Option.bind_some]
      congr 1
      funext t''
      refine Prod.ext rfl (funext fun name => ?_)
      by_cases hn : name = table <;> simp [hn]

/-- The lines between a table's header and its commit work on the table only. -/
theorem restore_table (reader : RuleReader ρ) (noflush : Bool) {body : List SaveEntry}
    (hbody : ∀ e ∈ body, (∃ n p, e = .chain n p) ∨ ∃ n x, e = .rule n x) (table : String) (k : LiveTables ρ) :
    runScript (restoreEntry reader noflush) (.table table :: (body ++ [.commit])) (none, k) =
      (onTable (fun t => runScript (SaveEntry.read reader) body (enterTable noflush t)) table k).map fun k => (none, k) := by
  simp only [runScript_cons, restoreEntry, onTable]
  cases hk : k table with
  | none => rfl
  | some t =>
    rw [Option.bind_some, Option.map_some, Option.map_some, Option.bind_some, runScript_append,
      restore_body reader noflush hbody table _ (if_pos rfl), Option.bind_some]
    cases runScript (SaveEntry.read reader) body (enterTable noflush t) with
    | none => rfl
    | some t' =>
      simp only [Option.map_some, Option.bind_some, runScript_cons, restoreEntry, runScript_nil]
      congr 2
      funext name
      by_cases hn : name = table <;> simp [hn]

/-- The lines of a section declare chains and add rules. -/
theorem chain_or_rule_of_mem_sectionBody (domain : Family) (options : IptablesOptions) (table : String) (info : TableInfo) :
    ∀ e ∈ sectionBody domain options table info, (∃ n p, e = .chain n p) ∨ ∃ n x, e = .rule n x := by
  intro e he
  rcases List.mem_append.1 he with he | he
  · exact .inl (chain_of_mem_fastDeclarations options table info e he)
  · obtain ⟨p, -, rfl⟩ := List.mem_map.1 he
    exact .inr ⟨_, _, rfl⟩

theorem renderSlow_ok (domain : Family) (info : DomainInfo) (options : IptablesOptions) (commands : List SlowCommand) :
    renderSlow domain info options = .ok commands ↔
      (∀ e ∈ info.tables.entries, options.flush = false → Formats domain false e.2) ∧
        commands = info.tables.entries.flatMap fun e => (tableScript domain options e.1 e.2).map fun c => ⟨e.1, c⟩ := by
  rw [List.flatMap_def]
  refine mapM_spec_ok_iff fun e _ r => ?_
  have hspec := slowTableCommands_ok domain options e.1 e.2
  cases hc : slowTableCommands domain options e.1 e.2 with
  | error err =>
    refine iff_of_false (fun h => by cases h) fun h => ?_
    have := (hspec _).2 ⟨h.1, rfl⟩
    rw [hc] at this
    cases this
  | ok c =>
    obtain ⟨hformats, rfl⟩ := (hspec c).1 hc
    exact ⟨fun h => ⟨hformats, (Except.ok.inj h).symm⟩, fun h => congrArg Except.ok h.2.symm⟩

theorem rulesToSave_ok (domain : Family) (info : DomainInfo) (options : IptablesOptions) (version now : String)
    (hno : ∀ e ∈ info.tables.entries, e.2.NoPreserve) (entries : List SaveEntry) :
    rulesToSave domain info options version now = .ok entries ↔
      (∀ e ∈ info.tables.sorted.entries, options.flush = false → Formats domain true e.2) ∧
        entries = .comment (version ++ " (" ++ toolName info.saveTool ++ ") on " ++ now) ::
          info.tables.sorted.entries.flatMap fun e => .table e.1 :: (sectionBody domain options e.1 e.2 ++ [.commit]) := by
  have hsorted : ∀ e ∈ info.tables.sorted.entries, e ∈ info.tables.entries := by
    intro e he
    have := Dict.get?_eq_some_iff.2 he
    rw [Dict.get?_sorted] at this
    exact Dict.get?_eq_some_iff.1 this
  rw [List.flatMap_def]
  exact mapM_spec_ok_iff fun e he r => tableSection_ok domain info options e.1 (hno e (hsorted e he)) r


/-! ## Both runs, table by table -/

/-- The slow commands, from the point of view of the table `name`. -/
theorem runScript_slowCommands (reader : RuleReader ρ) (domain : Family) (options : IptablesOptions)
    (tables : Dict String TableInfo) (name : String) {t : Option (LiveTable ρ)}
    (ht : ∀ info, tables.get? name = some info → t.isSome = true) :
    runScript (fun c t => onlyTable (SlowCommand.table c) (c.command.run reader) name t)
        (tables.entries.flatMap fun e => (tableScript domain options e.1 e.2).map fun c => (⟨e.1, c⟩ : SlowCommand)) t =
      match tables.get? name with
      | some info => (t.bind (slowTable reader domain options name info)).map some
      | none => some t := by
  rw [runScript_walk]
  · cases hinfo : tables.get? name with
    | none => rfl
    | some info =>
      obtain ⟨t, rfl⟩ := Option.isSome_iff_exists.1 (ht info hinfo)
      simp only [Option.map_some, Option.getD_some, runScript_map, Option.bind_some, ← runScript_tableScript]
      generalize tableScript domain options name info = script
      clear ht
      induction script generalizing t with
      | nil => rfl
      | cons c script ih =>
        rw [runScript_cons, runScript_cons, onlyTable, if_pos rfl, Option.bind_some]
        cases c.run reader t with
        | none => rfl
        | some t' => exact ih t'
  · intro e he c hc v
    obtain ⟨c, -, rfl⟩ := List.mem_map.1 hc
    exact if_neg he

/-- Sections, one table after the other. -/
theorem restore_tables (reader : RuleReader ρ) (noflush : Bool) {bodies : List (String × List SaveEntry)}
    (hbodies : ∀ b ∈ bodies, ∀ e ∈ b.2, (∃ n p, e = .chain n p) ∨ ∃ n x, e = .rule n x) (k : LiveTables ρ) :
    runScript (restoreEntry reader noflush) (bodies.flatMap fun b => .table b.1 :: (b.2 ++ [.commit])) (none, k) =
      (runScript (fun b k => onTable (fun t => runScript (SaveEntry.read reader) b.2 (enterTable noflush t)) b.1 k) bodies k).map
        fun k => (none, k) := by
  induction bodies generalizing k with
  | nil => rfl
  | cons b bodies ih =>
    obtain ⟨hb, hbodies⟩ := List.forall_mem_cons.1 hbodies
    rw [List.flatMap_cons, runScript_append, restore_table reader noflush hb, runScript_cons]
    cases onTable (fun t => runScript (SaveEntry.read reader) b.2 (enterTable noflush t)) b.1 k with
    | none => rfl
    | some k' => exact ih hbodies k'

/-- The sections of a save, one table after the other. -/
theorem runScript_sections (reader : RuleReader ρ) (domain : Family) (options : IptablesOptions)
    (es : List (String × TableInfo)) (k : LiveTables ρ) :
    runScript (restoreEntry reader options.noflush)
        (es.flatMap fun e => .table e.1 :: (sectionBody domain options e.1 e.2 ++ [.commit])) (none, k) =
      (runScript (fun e k => onTable (fastTable reader domain options e.1 e.2) e.1 k) es k).map fun k => (none, k) := by
  have hbodies : ∀ b ∈ es.map fun e => (e.1, sectionBody domain options e.1 e.2),
      ∀ e ∈ b.2, (∃ n p, e = .chain n p) ∨ ∃ n x, e = .rule n x := by
    intro b hb
    obtain ⟨e, -, rfl⟩ := List.mem_map.1 hb
    exact chain_or_rule_of_mem_sectionBody domain options e.1 e.2
  have htables := restore_tables reader options.noflush hbodies k
  simp only [runScript_map, List.flatMap_map, runScript_sectionBody] at htables
  exact htables

/-- The sections, from the point of view of the table `name`. -/
theorem runScript_fastTables (reader : RuleReader ρ) (domain : Family) (options : IptablesOptions)
    (tables : Dict String TableInfo) (name : String) (t : Option (LiveTable ρ)) :
    runScript (fun (e : String × TableInfo) t => onlyTable e.1 (fastTable reader domain options e.1 e.2) name t)
        tables.sorted.entries t =
      match tables.get? name with
      | some info => (t.bind (fastTable reader domain options name info)).map some
      | none => some t := by
  have hwalk : runScript (fun (e : String × TableInfo) t => onlyTable e.1 (fastTable reader domain options e.1 e.2) name t)
      (tables.sorted.entries.flatMap fun e => [e]) t = _ :=
    runScript_walk tables.sorted (k := name) (fun e he c hc v => by
      obtain rfl := List.mem_singleton.1 hc
      exact if_neg he) t
  rw [List.flatMap_singleton'] at hwalk
  rw [hwalk, Dict.get?_sorted]
  cases tables.get? name with
  | none => rfl
  | some info =>
    simp only [Option.map_some, Option.getD_some, runScript_cons, onlyTable, if_true, runScript_nil]
    exact Option.bind_fun_some _

/-- The same tables, each with the same chains, policies and rules. -/
def SameTables (k k' : LiveTables ρ) : Prop := ∀ name, Option.Rel Dict.Agree (k name) (k' name)

/-- What the two modes do to the tables: each configured table is there, and both end in the same. -/
theorem runs_agree_iff (reader : RuleReader ρ) (domain : Family) (options : IptablesOptions) (tables : Dict String TableInfo)
    (k : LiveTables ρ) :
    (∃ slow fast,
        runScript (SlowCommand.step reader)
            (tables.entries.flatMap fun e => (tableScript domain options e.1 e.2).map fun c => ⟨e.1, c⟩) k = some slow ∧
          runScript (fun e k => onTable (fastTable reader domain options e.1 e.2) e.1 k) tables.sorted.entries k = some fast ∧
            SameTables slow fast) ↔
      ∀ name info, tables.get? name = some info → ∃ t, k name = some t ∧
        ∃ slow fast, slowTable reader domain options name info t = some slow ∧
          fastTable reader domain options name info t = some fast ∧ slow.Agree fast := by
  have hslowPoint := pointwise_onTable SlowCommand.table fun c => c.command.run reader
  have hfastPoint := pointwise_onTable (ρ := ρ) Prod.fst fun (e : String × TableInfo) =>
    fastTable reader domain options e.1 e.2
  constructor
  · rintro ⟨slow, fast, hslow, hfast, hsame⟩ name info hinfo
    have hf := hfastPoint.run_sound (fun _ _ => trivial) hfast name
    rw [runScript_fastTables, hinfo] at hf
    obtain ⟨fast', hf, hfast'⟩ := Option.map_eq_some_iff.1 hf
    obtain ⟨t, ht, hf⟩ := Option.bind_eq_some_iff.1 hf
    have hs := hslowPoint.run_sound (fun _ _ => trivial) hslow name
    rw [ht, runScript_slowCommands reader domain options tables name fun _ _ => rfl, hinfo] at hs
    obtain ⟨slow', hs, hslow'⟩ := Option.map_eq_some_iff.1 hs
    have hagree := hsame name
    rw [← hslow', ← hfast'] at hagree
    cases hagree with
    | some hagree => exact ⟨t, ht, slow', fast', hs, hf, hagree⟩
  · intro h
    have hthere : ∀ name info, tables.get? name = some info → (k name).isSome = true := by
      intro name info hinfo
      obtain ⟨t, ht, -⟩ := h name info hinfo
      rw [ht]
      rfl
    have hslowLocal := fun name => runScript_slowCommands reader domain options tables name (hthere name)
    have hfastLocal := fun name => runScript_fastTables reader domain options tables name (k name)
    obtain ⟨slow, hslow⟩ := Option.isSome_iff_exists.1 (hslowPoint.run_complete (s := k) (fun _ _ => trivial) fun name => by
      rw [hslowLocal]
      cases hinfo : tables.get? name with
      | none => rfl
      | some info =>
        obtain ⟨t, ht, slow, fast, hs, -⟩ := h name info hinfo
        simp only [ht, Option.bind_some, hs, Option.map_some, Option.isSome_some])
    obtain ⟨fast, hfast⟩ := Option.isSome_iff_exists.1 (hfastPoint.run_complete (s := k) (fun _ _ => trivial) fun name => by
      rw [hfastLocal]
      cases hinfo : tables.get? name with
      | none => rfl
      | some info =>
        obtain ⟨t, ht, slow, fast, -, hf, -⟩ := h name info hinfo
        simp only [ht, Option.bind_some, hf, Option.map_some, Option.isSome_some])
    refine ⟨slow, fast, hslow, hfast, fun name => ?_⟩
    have hs := (hslowLocal name).symm.trans (hslowPoint.run_sound (fun _ _ => trivial) hslow name)
    have hf := (hfastLocal name).symm.trans (hfastPoint.run_sound (fun _ _ => trivial) hfast name)
    cases hinfo : tables.get? name with
    | none =>
      simp only [hinfo, Option.some.injEq] at hs hf
      rw [← hs, ← hf]
      cases k name with
      | none => exact .none
      | some t => exact .some (Dict.Agree.refl t)
    | some info =>
      obtain ⟨t, ht, slow', fast', hs', hf', hagree⟩ := h name info hinfo
      simp only [hinfo, ht, Option.bind_some, hs', hf', Option.map_some, Option.some.injEq] at hs hf
      rw [← hs, ← hf]
      exact .some hagree

/-- Both modes can be rendered and run from a kernel state, and end in the same tables. -/
def ModesAgree (reader : RuleReader ρ) (domain : Family) (info : DomainInfo) (options : IptablesOptions)
    (version now : String) (k : LiveTables ρ) : Prop :=
  ∃ commands entries slow fast,
    renderSlow domain info options = .ok commands ∧ rulesToSave domain info options version now = .ok entries ∧
      runScript (SlowCommand.step reader) commands k = some slow ∧
        restoreSave reader options.noflush entries k = some fast ∧ SameTables slow fast

/-- A rule can be formatted for both modes and is read the same. -/
def RuleAlike (reader : RuleReader ρ) (domain : Family) (names : String → Bool) (rule : RenderedRule) : Prop :=
  ∃ command save r, formatRule domain rule false = .ok command ∧ formatRule domain rule true = .ok save ∧
    reader.command names command = some r ∧ reader.save names save = some r

/-- When both modes make the same of a configured chain of a table that is there. -/
structure ChainAlike (reader : RuleReader ρ) (domain : Family) (options : IptablesOptions) (table : String) (info : TableInfo)
    (name : String) (ci : ChainInfo) (t : LiveTable ρ) : Prop where
  declared : DeclaredAlike options table info name ci (t.get? name)
  rules : options.flush = false → ∀ rule ∈ ci.rules, RuleAlike reader domain (liveNames options info t) rule

/-- The rules of a chain, one by one. -/
theorem rules_alike_iff (reader : RuleReader ρ) (domain : Family) (names : String → Bool) (ci : ChainInfo) :
    ((∀ rule ∈ ci.rules, ∃ text, formatRule domain rule false = .ok text) ∧
        (∀ rule ∈ ci.rules, ∃ text, formatRule domain rule true = .ok text) ∧ RulesAlike reader domain names ci) ↔
      ∀ rule ∈ ci.rules, RuleAlike reader domain names rule := by
  rw [RulesAlike, ruleTexts, ruleTexts, List.mapM_map, List.mapM_map, exists_mapM_both_iff]
  constructor
  · rintro ⟨hslow, hfast, h⟩ rule hrule
    obtain ⟨command, hcommand⟩ := hslow rule hrule
    obtain ⟨save, hsave⟩ := hfast rule hrule
    obtain ⟨r, hr, hr'⟩ := h rule hrule
    simp only [Function.comp, hcommand, hsave, Except.getD] at hr hr'
    exact ⟨command, save, r, hcommand, hsave, hr, hr'⟩
  · intro h
    refine ⟨fun rule hrule => ?_, fun rule hrule => ?_, fun rule hrule => ?_⟩ <;>
      obtain ⟨command, save, r, hcommand, hsave, hr, hr'⟩ := h rule hrule
    · exact ⟨command, hcommand⟩
    · exact ⟨save, hsave⟩
    · simp only [Function.comp, hcommand, hsave, Except.getD]
      exact ⟨r, hr, hr'⟩

/-- Both modes can be rendered and run exactly when all rules can be formatted and the runs of the tables succeed. -/
theorem modes_agree_iff_runs (reader : RuleReader ρ) (domain : Family) (info : DomainInfo) (options : IptablesOptions)
    (version now : String) (k : LiveTables ρ) (hno : ∀ e ∈ info.tables.entries, e.2.NoPreserve) :
    ModesAgree reader domain info options version now k ↔
      ((∀ e ∈ info.tables.entries, options.flush = false → Formats domain false e.2) ∧
        ∀ e ∈ info.tables.sorted.entries, options.flush = false → Formats domain true e.2) ∧
      ∃ slow fast,
        runScript (SlowCommand.step reader)
            (info.tables.entries.flatMap fun e => (tableScript domain options e.1 e.2).map fun c => ⟨e.1, c⟩) k = some slow ∧
          runScript (fun e k => onTable (fastTable reader domain options e.1 e.2) e.1 k) info.tables.sorted.entries k =
            some fast ∧ SameTables slow fast := by
  have hrestore : restoreSave reader options.noflush
        (.comment (version ++ " (" ++ toolName info.saveTool ++ ") on " ++ now) :: info.tables.sorted.entries.flatMap fun e =>
          .table e.1 :: (sectionBody domain options e.1 e.2 ++ [.commit])) k =
      runScript (fun e k => onTable (fastTable reader domain options e.1 e.2) e.1 k) info.tables.sorted.entries k := by
    rw [restoreSave, runScript_cons, restoreEntry, Option.bind_some, runScript_sections, Option.map_map]
    exact congrFun Option.map_id _
  constructor
  · rintro ⟨commands, entries, slow, fast, hcommands, hentries, hslow, hfast, hsame⟩
    obtain ⟨hformats, rfl⟩ := (renderSlow_ok domain info options commands).1 hcommands
    obtain ⟨hformats', rfl⟩ := (rulesToSave_ok domain info options version now hno entries).1 hentries
    rw [hrestore] at hfast
    exact ⟨⟨hformats, hformats'⟩, slow, fast, hslow, hfast, hsame⟩
  · rintro ⟨⟨hformats, hformats'⟩, slow, fast, hslow, hfast, hsame⟩
    refine ⟨_, _, slow, fast, (renderSlow_ok domain info options _).2 ⟨hformats, rfl⟩,
      (rulesToSave_ok domain info options version now hno _).2 ⟨hformats', rfl⟩, hslow, ?_, hsame⟩
    rw [hrestore]
    exact hfast

/-- One table that is there: its rules can be formatted and both modes end in the same, exactly when they do on each chain. -/
theorem table_alike_iff (reader : RuleReader ρ) (domain : Family) (options : IptablesOptions) (table : String)
    (info : TableInfo) (t : LiveTable ρ) :
    ((options.flush = false → Formats domain false info) ∧ (options.flush = false → Formats domain true info) ∧
        ∃ slow fast, slowTable reader domain options table info t = some slow ∧
          fastTable reader domain options table info t = some fast ∧ slow.Agree fast) ↔
      ∀ name ci, info.chains.get? name = some ci → ChainAlike reader domain options table info name ci t := by
  have hformats : ∀ fast, Formats domain fast info ↔ ∀ name ci, info.chains.get? name = some ci →
      ∀ rule ∈ ci.rules, ∃ text, formatRule domain rule fast = .ok text := fun fast =>
    Dict.forall_entries_iff (P := fun _ (ci : ChainInfo) => ∀ rule ∈ ci.rules, ∃ text, formatRule domain rule fast = .ok text)
  rw [tables_agree_iff, hformats, hformats]
  constructor
  · rintro ⟨hslow, hfast, h⟩ name ci hci
    refine ⟨(h name ci hci).1, fun hflush => (rules_alike_iff reader domain _ ci).1 ?_⟩
    exact ⟨hslow hflush name ci hci, hfast hflush name ci hci, (h name ci hci).2 hflush⟩
  · intro h
    have hrules := fun hflush name ci hci => (rules_alike_iff reader domain _ ci).2 ((h name ci hci).rules hflush)
    exact ⟨fun hflush name ci hci => (hrules hflush name ci hci).1, fun hflush name ci hci => (hrules hflush name ci hci).2.1,
      fun name ci hci => ⟨(h name ci hci).declared, fun hflush => (hrules hflush name ci hci).2.2⟩⟩

/-- Slow and fast mode end in the same tables exactly when every configured table is there and both modes make the same of each of
its configured chains. -/
theorem modes_agree_iff (reader : RuleReader ρ) (domain : Family) (info : DomainInfo) (options : IptablesOptions)
    (version now : String) (k : LiveTables ρ) (hno : ∀ e ∈ info.tables.entries, e.2.NoPreserve) :
    ModesAgree reader domain info options version now k ↔
      ∀ table tableInfo, info.tables.get? table = some tableInfo → ∃ t, k table = some t ∧
        ∀ name ci, tableInfo.chains.get? name = some ci → ChainAlike reader domain options table tableInfo name ci t := by
  rw [modes_agree_iff_runs reader domain info options version now k hno, runs_agree_iff,
    Dict.forall_entries_iff (P := fun _ t => options.flush = false → Formats domain false t),
    Dict.forall_entries_iff (P := fun _ t => options.flush = false → Formats domain true t)]
  simp only [Dict.get?_sorted]
  constructor
  · rintro ⟨⟨hslow, hfast⟩, h⟩ table tableInfo hinfo
    obtain ⟨t, ht, hagree⟩ := h table tableInfo hinfo
    exact ⟨t, ht, (table_alike_iff reader domain options table tableInfo t).1
      ⟨hslow table tableInfo hinfo, hfast table tableInfo hinfo, hagree⟩⟩
  · intro h
    have htable := fun table tableInfo hinfo =>
      (h table tableInfo hinfo).imp fun t ht => And.imp_right (table_alike_iff reader domain options table tableInfo t).2 ht
    refine ⟨⟨fun table tableInfo hinfo => ?_, fun table tableInfo hinfo => ?_⟩, fun table tableInfo hinfo => ?_⟩ <;>
      obtain ⟨t, ht, hslow, hfast, hagree⟩ := htable table tableInfo hinfo
    · exact hslow
    · exact hfast
    · exact ⟨t, ht, hagree⟩

section OneChain

/-- A reader that keeps the text. -/
private def keepText : RuleReader String := ⟨fun _ text => some text, fun _ text => some text⟩

/-- The table `filter` with the chain `INPUT`. -/
private def inputOnly (policy : Option String) (rules : List RenderedRule) : DomainInfo where
  tables := Dict.empty.set "filter"
    { hasBuiltin := true, chains := Dict.empty.set "INPUT" { builtin := true, policy := policy, rules := rules } }

/-- A kernel whose table `filter` has the chain `INPUT` only, which drops packets. -/
private def droppingInput : LiveTables String := fun name =>
  if name = "filter" then some (Dict.empty.set "INPUT" ⟨some "DROP", []⟩) else none

private theorem inputOnly_noPreserve (policy : Option String) (rules : List RenderedRule) :
    ∀ e ∈ (inputOnly policy rules).tables.entries, e.2.NoPreserve := by
  intro e he
  obtain rfl := List.mem_singleton.1 he
  refine ⟨rfl, fun c hc => ?_⟩
  obtain rfl := List.mem_singleton.1 hc
  rfl

theorem modes_agree_reset :
    ModesAgree keepText .ip (inputOnly none [⟨[⟨"jump", .scalar "RETURN"⟩]⟩]) {} "2.7" "now" droppingInput := by
  refine (modes_agree_iff keepText .ip _ {} "2.7" "now" droppingInput (inputOnly_noPreserve _ _)).2 fun table info hinfo => ?_
  obtain ⟨rfl, rfl⟩ : table = "filter" ∧ _ = info := by simpa [inputOnly, Dict.get?_set] using hinfo
  refine ⟨_, rfl, fun name ci hci => ?_⟩
  obtain ⟨rfl, rfl⟩ : name = "INPUT" ∧ _ = ci := by simpa [Dict.get?_set] using hci
  have hconfigured : ∀ q, (none : Option String) = some q → q ∈ LIVE_POLICIES := fun q hq => by cases hq
  refine ⟨?_, fun _ rule hrule => ?_⟩
  · unfold DeclaredAlike
    exact ⟨"DROP", [], rfl, hconfigured, .inr (.inr rfl)⟩
  · obtain rfl := List.mem_singleton.1 hrule
    exact ⟨" --jump RETURN", " --jump RETURN", _, by decide, by decide, rfl, rfl⟩

/-- Without the reset, slow mode leaves the policy of a built-in chain that has none configured; the save states `ACCEPT`. -/
theorem modes_differ_noflush :
    ∃ commands entries slow fast,
      renderSlow .ip (inputOnly none []) { noflush := true } = .ok commands ∧
        rulesToSave .ip (inputOnly none []) { noflush := true } "2.7" "now" = .ok entries ∧
          runScript (SlowCommand.step keepText) commands droppingInput = some slow ∧
            restoreSave keepText true entries droppingInput = some fast ∧
              (slow "filter").bind (·.get? "INPUT") = some ⟨some "DROP", []⟩ ∧
                (fast "filter").bind (·.get? "INPUT") = some ⟨some "ACCEPT", []⟩ ∧ ¬ SameTables slow fast := by
  refine ⟨_, _, _, _, rfl, rfl, rfl, rfl, rfl, rfl, fun h => ?_⟩
  have hfilter := h "filter"
  cases hfilter with
  | some hagree => exact absurd (hagree "INPUT") (by decide)

end OneChain

end Ferm
