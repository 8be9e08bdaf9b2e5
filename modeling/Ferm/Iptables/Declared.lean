import Ferm.Iptables.Kernel

/-!
# Declarations, chain by chain

What the slow commands before the rules, and the lines of a save before the rules, make of a chain. It depends on the chain and on
its configuration only.
-/

namespace Ferm

variable {ρ : Type}

/-! ## Single commands -/

/-- Work on one chain of a table, from the point of view of the chain `name`. -/
def onlyAt (chain : String) (f : Option (LiveChain ρ) → Option (LiveChain ρ)) (name : String) (c : Option (LiveChain ρ)) :
    Option (Option (LiveChain ρ)) :=
  if chain = name then (f c).map some else some c

/-- What a command that appends no rule does to the chain `name`. -/
def TableCommand.onChain (name : String) : TableCommand → Option (LiveChain ρ) → Option (Option (LiveChain ρ))
  | setPolicy chain policy, c => onlyAt chain (LiveChain.withPolicy policy) name c
  | flush, c => some (c.map LiveChain.flushed)
  | deleteChains, some c => if c.policy.isSome then some (some c) else if c.rules = [] then some none else none
  | deleteChains, none => some none
  | newChain chain policy, c => onlyAt chain (LiveChain.make policy) name c
  | append _ _, c => some c

/-- What a chain's line in a save does to the chain `name`. -/
def SaveEntry.onChain (name : String) : SaveEntry → Option (LiveChain ρ) → Option (Option (LiveChain ρ))
  | chain n policy, c => onlyAt n (LiveChain.declare policy) name c
  | _, c => some c

/-- Work on one chain is what it is on that chain, and nothing on the others. -/
theorem onChain_sound {f : Option (LiveChain ρ) → Option (LiveChain ρ)} {chain : String} {t t' : LiveTable ρ}
    (h : t.onChain f chain = some t') (name : String) : onlyAt chain f name (t.get? name) = some (t'.get? name) := by
  obtain ⟨c, hc, rfl⟩ := Option.map_eq_some_iff.1 h
  rw [onlyAt]
  by_cases hn : chain = name
  · subst hn
    rw [if_pos rfl, hc, Dict.get?_set_self, Option.map_some]
  · rw [if_neg hn, Dict.get?_set_of_ne _ _ (Ne.symm hn)]

theorem onChain_complete {f : Option (LiveChain ρ) → Option (LiveChain ρ)} {chain : String} {t : LiveTable ρ}
    (h : ∀ name, (onlyAt chain f name (t.get? name)).isSome = true) : (t.onChain f chain).isSome = true := by
  have := h chain
  rw [onlyAt, if_pos rfl, Option.isSome_map] at this
  rw [LiveTable.onChain, Option.isSome_map]
  exact this

theorem pointwise_command (reader : RuleReader ρ) :
    Pointwise (fun c => ∀ chain text, c ≠ TableCommand.append chain text) (TableCommand.run reader)
      (fun t name => t.get? name) TableCommand.onChain where
  sound := by
    intro c t t' hc hrun name
    cases c with
    | append chain text => exact absurd rfl (hc chain text)
    | setPolicy chain policy => exact onChain_sound hrun name
    | newChain chain policy => exact onChain_sound hrun name
    | flush =>
      cases hrun
      simp [TableCommand.onChain, LiveTable.flush]
    | deleteChains =>
      rw [TableCommand.run] at hrun
      split at hrun
      · rename_i hall
        cases hrun
        simp only [LiveTable.builtinOnly, Dict.get?_filterValues]
        cases hget : t.get? name with
        | none => rfl
        | some c =>
          have hc := List.all_eq_true.1 hall _ (Dict.get?_eq_some_iff.1 hget)
          rw [TableCommand.onChain]
          by_cases hp : c.policy.isSome = true
          · rw [if_pos hp, Option.filter_some_pos (p := fun c : LiveChain ρ => c.policy.isSome) hp]
          · have hrules : c.rules = [] := by simpa [hp] using hc
            rw [if_neg hp, if_pos hrules,
              Option.filter_some_neg (p := fun c : LiveChain ρ => c.policy.isSome) (Bool.not_eq_true _ ▸ hp)]
      · cases hrun
  complete := by
    intro c t hc hall
    cases c with
    | append chain text => exact absurd rfl (hc chain text)
    | setPolicy chain policy => exact onChain_complete hall
    | newChain chain policy => exact onChain_complete hall
    | flush => rfl
    | deleteChains =>
      rw [TableCommand.run, if_pos]
      · rfl
      · refine List.all_eq_true.2 fun e he => ?_
        have := hall e.1
        rw [Dict.get?_eq_some_iff.2 he, TableCommand.onChain] at this
        by_cases hp : e.2.policy.isSome = true
        · simp [hp]
        · by_cases hrules : e.2.rules = []
          · simp [hrules]
          · simp [hp, hrules] at this

theorem pointwise_entry (reader : RuleReader ρ) :
    Pointwise (fun e => ∃ n policy, e = SaveEntry.chain n policy) (SaveEntry.read reader) (fun t name => t.get? name)
      SaveEntry.onChain where
  sound := by
    rintro _ t t' ⟨n, policy, rfl⟩ hread name
    exact onChain_sound hread name
  complete := by
    rintro _ t ⟨n, policy, rfl⟩ hall
    exact onChain_complete hall

/-! ## What each mode makes of a chain before the rules -/

namespace LiveChain

/-- A chain of a table that is emptied and loses its user chains. -/
def cleared (c : Option (LiveChain ρ)) : Option (LiveChain ρ) :=
  c.bind fun c => if c.policy.isSome then some c.flushed else none

end LiveChain

/-- The reset and the clearing. -/
def slowReset (noflush reset : Bool) (c : Option (LiveChain ρ)) : Option (Option (LiveChain ρ)) :=
  if noflush then some c
  else if reset then (LiveChain.withPolicy "ACCEPT" c).map fun c => LiveChain.cleared (some c)
  else some (LiveChain.cleared c)

/-- The command that makes a chain or sets its policy. -/
def slowCreate (builtinName : Bool) (policy : Option String) (c : Option (LiveChain ρ)) : Option (Option (LiveChain ρ)) :=
  if builtinName then
    match policy with
    | some p => if p ≠ "ACCEPT" then (LiveChain.withPolicy p c).map some else some c
    | none => some c
  else (LiveChain.make policy c).map some

/-- What the slow commands before the rules make of a chain. -/
def slowDeclared (options : IptablesOptions) (table : String) (info : TableInfo) (name : String) (c : Option (LiveChain ρ)) :
    Option (Option (LiveChain ρ)) :=
  match info.chains.get? name with
  | some ci =>
    (slowReset options.noflush (isResetChain table info name ci) c).bind fun c =>
      if options.flush then some c else slowCreate (isNetfilterBuiltinChain table name) ci.policy c
  | none => slowReset options.noflush false c

/-- What the lines of the save before the rules make of a chain. -/
def fastDeclared (options : IptablesOptions) (table : String) (info : TableInfo) (name : String) (c : Option (LiveChain ρ)) :
    Option (Option (LiveChain ρ)) :=
  let c := if options.noflush then c else LiveChain.cleared c
  match info.chains.get? name with
  | some ci =>
    match policyEntry table name ci options.flush with
    | some (.chain _ policy) => (LiveChain.declare policy c).map some
    | _ => some c
  | none => some c

/-- The slow commands before the rules. -/
def slowDeclarations (options : IptablesOptions) (table : String) (info : TableInfo) : List TableCommand :=
  resetCommands table info options.noflush ++
    if options.flush then [] else info.chains.entries.flatMap fun e => createCommands table e.1 e.2

/-- The lines before the rules in a table's section. -/
def fastDeclarations (options : IptablesOptions) (table : String) (info : TableInfo) : List SaveEntry :=
  info.chains.sorted.entries.flatMap fun e => (policyEntry table e.1 e.2 options.flush).toList

theorem onChain_createCommands {table name chain : String} (hne : chain ≠ name) (ci : ChainInfo) :
    ∀ c ∈ createCommands table chain ci, ∀ v : Option (LiveChain ρ), c.onChain name v = some v := by
  intro c hc v
  have honly : ∀ f : Option (LiveChain ρ) → Option (LiveChain ρ), onlyAt chain f name v = some v := fun f => if_neg hne
  unfold createCommands at hc
  split at hc
  · split at hc
    · split at hc
      · obtain rfl := List.mem_singleton.1 hc
        exact honly _
      · cases hc
    · cases hc
  · obtain rfl := List.mem_singleton.1 hc
    exact honly _

/-- The reset of a table from the point of view of one chain. -/
theorem runScript_resetCommands (table : String) (info : TableInfo) (noflush : Bool) (name : String)
    (c : Option (LiveChain ρ)) :
    runScript (TableCommand.onChain name) (resetCommands table info noflush) c =
      slowReset noflush (((info.chains.get? name).map fun ci => isResetChain table info name ci).getD false) c := by
  have hclear : ∀ v : Option (LiveChain ρ),
      runScript (TableCommand.onChain name) [TableCommand.flush, .deleteChains] v = some (LiveChain.cleared v) := by
    intro v
    rcases v with _ | ⟨_ | q, rules⟩ <;> rfl
  unfold resetCommands slowReset
  split
  · rfl
  · rw [runScript_append, runScript_walk]
    · cases info.chains.get? name with
      | none => exact hclear c
      | some ci =>
        simp only [Option.map_some, Option.getD_some]
        split
        · rw [runScript_cons, TableCommand.onChain, onlyAt, if_pos rfl]
          cases LiveChain.withPolicy "ACCEPT" c with
          | none => rfl
          | some c => exact hclear (some c)
        · exact hclear c
    · intro e he c hc v
      split at hc
      · obtain rfl := List.mem_singleton.1 hc
        exact if_neg he
      · cases hc

theorem runScript_createCommands (table name : String) (ci : ChainInfo) (c : Option (LiveChain ρ)) :
    runScript (TableCommand.onChain name) (createCommands table name ci) c =
      slowCreate (isNetfilterBuiltinChain table name) ci.policy c := by
  have hone : ∀ f : Option (LiveChain ρ) → Option (LiveChain ρ),
      (onlyAt name f name c).bind (fun v => runScript (TableCommand.onChain name) [] v) = (f c).map some := by
    intro f
    rw [onlyAt, if_pos rfl]
    cases f c <;> rfl
  unfold createCommands slowCreate
  split
  · cases ci.policy with
    | none => rfl
    | some policy =>
      simp only
      split
      · exact hone _
      · rfl
  · exact hone _

theorem runScript_slowDeclarations (options : IptablesOptions) (table : String) (info : TableInfo) (name : String)
    (c : Option (LiveChain ρ)) :
    runScript (TableCommand.onChain name) (slowDeclarations options table info) c = slowDeclared options table info name c := by
  have hcreate : ∀ v : Option (LiveChain ρ),
      runScript (TableCommand.onChain name) (if options.flush then [] else
        info.chains.entries.flatMap fun e => createCommands table e.1 e.2) v =
        match info.chains.get? name with
        | some ci => if options.flush then some v else slowCreate (isNetfilterBuiltinChain table name) ci.policy v
        | none => some v := by
    intro v
    by_cases hflush : options.flush = true
    · rw [if_pos hflush]
      cases info.chains.get? name with
      | none => rfl
      | some ci => exact (if_pos hflush).symm
    · rw [if_neg hflush, runScript_walk _ fun e he => onChain_createCommands he e.2]
      cases info.chains.get? name with
      | none => rfl
      | some ci =>
        simp only [Option.map_some, Option.getD_some, if_neg hflush]
        exact runScript_createCommands table name ci v
  rw [slowDeclarations, runScript_append, runScript_resetCommands, slowDeclared]
  simp only [hcreate]
  cases info.chains.get? name with
  | none => exact Option.bind_fun_some _
  | some ci => rfl

/-- A chain's line names the chain. -/
theorem chain_of_policyEntry {table name : String} {ci : ChainInfo} {flush : Bool} {x : SaveEntry}
    (h : policyEntry table name ci flush = some x) : ∃ policy, x = .chain name policy := by
  unfold policyEntry at h
  split at h
  · cases h
    exact ⟨_, rfl⟩
  · split at h
    · cases h
      exact ⟨_, rfl⟩
    · split at h
      · cases h
      · cases h
        exact ⟨_, rfl⟩

theorem runScript_fastDeclarations (options : IptablesOptions) (table : String) (info : TableInfo) (name : String)
    (c : Option (LiveChain ρ)) :
    runScript (SaveEntry.onChain name) (fastDeclarations options table info)
      (if options.noflush then c else LiveChain.cleared c) = fastDeclared options table info name c := by
  rw [fastDeclarations, runScript_walk, Dict.get?_sorted, fastDeclared]
  · cases info.chains.get? name with
    | none => rfl
    | some ci =>
      simp only [Option.map_some, Option.getD_some]
      cases hx : policyEntry table name ci options.flush with
      | none => rfl
      | some x =>
        obtain ⟨policy, rfl⟩ := chain_of_policyEntry hx
        simp only [Option.toList_some, runScript_cons, SaveEntry.onChain, onlyAt, if_true]
        cases LiveChain.declare policy (if options.noflush = true then c else LiveChain.cleared c) <;> rfl
  · intro e he x hx v
    rw [Option.mem_toList] at hx
    obtain ⟨policy, rfl⟩ := chain_of_policyEntry hx
    exact if_neg he

/-! ## When the declarations agree -/

/-- When both modes make the same of a configured chain, before the rules. The policy of a built-in chain is stated as `DROP`, or
is `ACCEPT` already, or is reset. A user chain has no policy and is not there yet. -/
def DeclaredAlike (options : IptablesOptions) (table : String) (info : TableInfo) (name : String) (ci : ChainInfo)
    (c : Option (LiveChain ρ)) : Prop :=
  let reset := !options.noflush && isResetChain table info name ci
  let configured := if options.flush then none else ci.policy
  if isNetfilterBuiltinChain table name then
    ∃ p rules, c = some ⟨some p, rules⟩ ∧ (∀ q, configured = some q → q ∈ LIVE_POLICIES) ∧
      (configured = some "DROP" ∨ p = "ACCEPT" ∨ reset = true)
  else if options.flush then reset = true → ∃ rules, c = some ⟨some "ACCEPT", rules⟩
  else
    configured = none ∧ reset = false ∧ if options.noflush then c = none else ∀ p rules, c ≠ some ⟨some p, rules⟩

theorem declared_alike_iff (options : IptablesOptions) (table : String) (info : TableInfo) {name : String} {ci : ChainInfo}
    (hci : info.chains.get? name = some ci) (c : Option (LiveChain ρ)) :
    (∃ v, slowDeclared options table info name c = some v ∧ fastDeclared options table info name c = some v) ↔
      DeclaredAlike options table info name ci c := by
  obtain ⟨flush, noflush⟩ := options
  simp only [slowDeclared, fastDeclared, hci, DeclaredAlike, policyEntry]
  generalize isNetfilterBuiltinChain table name = builtinName
  generalize isResetChain table info name ci = reset
  generalize ci.policy = policy
  have hpolicy : policy = none ∨ policy = some "ACCEPT" ∨ policy = some "DROP" ∨
      ∃ q, policy = some q ∧ q ≠ "ACCEPT" ∧ q ≠ "DROP" := by
    rcases policy with _ | q
    · exact .inl rfl
    · by_cases haccept : q = "ACCEPT"
      · exact .inr (.inl (haccept ▸ rfl))
      · by_cases hdrop : q = "DROP"
        · exact .inr (.inr (.inl (hdrop ▸ rfl)))
        · exact .inr (.inr (.inr ⟨q, rfl, haccept, hdrop⟩))
  -- the chain is missing, a user chain, or a built-in one whose policy is ACCEPT or not; each case is computed
  rcases c with _ | ⟨_ | p, rules⟩
  · rcases hpolicy with rfl | rfl | rfl | ⟨q, rfl, haccept, hdrop⟩ <;>
      cases flush <;> cases noflush <;> cases builtinName <;> cases reset <;>
      simp [slowReset, slowCreate, LiveChain.withPolicy, LiveChain.declare, LiveChain.make, LiveChain.cleared, LIVE_POLICIES, *]
  · rcases hpolicy with rfl | rfl | rfl | ⟨q, rfl, haccept, hdrop⟩ <;>
      cases flush <;> cases noflush <;> cases builtinName <;> cases reset <;>
      simp [slowReset, slowCreate, LiveChain.withPolicy, LiveChain.declare, LiveChain.make, LiveChain.cleared, LIVE_POLICIES, *]
  · by_cases hp : p = "ACCEPT"
    · subst hp
      rcases hpolicy with rfl | rfl | rfl | ⟨q, rfl, haccept, hdrop⟩ <;>
        cases flush <;> cases noflush <;> cases builtinName <;> cases reset <;>
        simp [slowReset, slowCreate, LiveChain.withPolicy, LiveChain.declare, LiveChain.make, LiveChain.cleared,
          LiveChain.flushed, LIVE_POLICIES, *]
    · rcases hpolicy with rfl | rfl | rfl | ⟨q, rfl, haccept, hdrop⟩ <;>
        cases flush <;> cases noflush <;> cases builtinName <;> cases reset <;>
        simp [slowReset, slowCreate, LiveChain.withPolicy, LiveChain.declare, LiveChain.make, LiveChain.cleared,
          LiveChain.flushed, LIVE_POLICIES, Ne.symm hp, *]

/-- A chain that is not configured is cleared in both modes, or in none. -/
theorem declared_unconfigured (options : IptablesOptions) (table : String) {info : TableInfo} {name : String}
    (h : info.chains.get? name = none) (c : Option (LiveChain ρ)) :
    slowDeclared options table info name c = fastDeclared options table info name c := by
  simp only [slowDeclared, fastDeclared, h, slowReset]
  split <;> rfl

end Ferm
