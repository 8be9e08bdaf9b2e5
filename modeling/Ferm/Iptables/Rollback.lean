import Ferm.Iptables.Modes

/-!
# Rolling a family back

The save a rollback pipes to the restore tool: built-in chains that `ferm` knows of are set to `ACCEPT`, table by table, and behind
that stands the ruleset that was read before.
-/

namespace Ferm

/-- The reset of one table: a section with its built-in chains, or nothing. -/
def tableReset (table : String) (info : TableInfo) : List SaveEntry :=
  let chains := info.chains.keys.filter fun chain => isNetfilterBuiltinChain table chain
  if chains = [] then [] else .table table :: chains.map (fun chain => .chain chain "ACCEPT") ++ [.commit]

/-- The reset that stands before the ruleset of before. -/
def resetEntries (tables : Dict String TableInfo) : List SaveEntry := tables.entries.flatMap fun e => tableReset e.1 e.2

/-- The save of `rollback`. -/
def rollbackText (tables : Dict String TableInfo) (previous : Option String) : String :=
  saveText (resetEntries tables) ++ previous.getD ""

variable {ρ : Type}

/-! ## The captured ruleset -/

/-- The listing of a table: its chains with their policies, then its rules. The counters of a listing are not restored, and stand
as those of a new chain. -/
def listedTable (print : ρ → String) (t : LiveTable ρ) : List SaveEntry :=
  (t.entries.map fun e => .chain e.1 (e.2.policy.getD "-")) ++ t.entries.flatMap fun e => e.2.rules.map fun rule => .rule e.1 (print rule)

/-- The listing of the tables that are loaded. -/
def listedTables (print : ρ → String) (dump : Dict String (LiveTable ρ)) : List SaveEntry :=
  dump.entries.flatMap fun e => .table e.1 :: (listedTable print e.2 ++ [.commit])

/-- What a rollback restores, the ruleset of before being a listing. -/
def rollbackEntries (print : ρ → String) (tables : Dict String TableInfo) (dump : Dict String (LiveTable ρ)) : List SaveEntry :=
  resetEntries tables ++ listedTables print dump

/-- The text of these entries is the save of `rollback`. -/
theorem saveText_rollbackEntries (print : ρ → String) (tables : Dict String TableInfo) (dump : Dict String (LiveTable ρ)) :
    saveText (rollbackEntries print tables dump) = rollbackText tables (some (saveText (listedTables print dump))) := by
  simp [saveText, rollbackText, rollbackEntries, String.join_append]

namespace LiveTable

/-- The policy of a built-in chain. -/
def policyOf (t : LiveTable ρ) (chain : String) : Option String := (t.get? chain).bind LiveChain.policy

/-- A table as it is loaded: its built-in chains accept, and there is nothing else. -/
def Fresh (t : LiveTable ρ) : Prop := ∀ chain c, t.get? chain = some c → c = ⟨some "ACCEPT", []⟩

/-- No rule and no user chain is left in the table. -/
def Bare (t : LiveTable ρ) : Prop := ∀ chain c, t.get? chain = some c → c.policy.isSome = true ∧ c.rules = []

end LiveTable

/-- A listing of the kernel's tables: the loaded ones are listed, the others are as they would be loaded. A built-in chain has one
of the known names and a policy a chain can have. A rule of the listing is read as the rule it is, where the chains of its table
are there. -/
structure Captured (reader : RuleReader ρ) (print : ρ → String) (dump : Dict String (LiveTable ρ)) (k : LiveTables ρ) : Prop where
  listed : ∀ table t, dump.get? table = some t → k table = some t
  others : ∀ table t, table ∉ dump → k table = some t → t.Fresh
  builtin : ∀ table t chain policy, k table = some t → t.policyOf chain = some policy →
    isNetfilterBuiltinChain table chain = true ∧ policy ∈ LIVE_POLICIES
  read : ∀ table t chain c rule names, dump.get? table = some t → t.get? chain = some c → rule ∈ c.rules →
    (∀ name ∈ t, names name = true) → reader.save names (print rule) = some rule

/-- What `ferm` can have done to the tables since: the built-in chains stay, and only chains of its tables get other policies. -/
structure Since (tables : Dict String TableInfo) (k k' : LiveTables ρ) : Prop where
  known : ∀ table, (k' table).isSome = (k table).isSome
  builtin : ∀ table t t', k table = some t → k' table = some t' → ∀ chain, (t'.policyOf chain).isSome = (t.policyOf chain).isSome
  policy : ∀ table t t', k table = some t → k' table = some t' → ∀ chain,
    (∀ info, tables.get? table = some info → chain ∉ info.chains) → t'.policyOf chain = t.policyOf chain

/-- A table has its captured chains, policies and rules. -/
def TableRestored (k k' : LiveTables ρ) (table : String) : Prop := Option.Rel Dict.Agree (k' table) (k table)

/-- When a rollback restores a table. Without `--noflush` a listed table always is; with it only when nothing has been added to a
built-in chain and no user chain has been made. A table that was not loaded is emptied when a reset is written for it without
`--noflush`, and otherwise has to be bare. -/
def RestoresTable (noflush : Bool) (dump : Dict String (LiveTable ρ)) (table : String) (info : TableInfo) (t : LiveTable ρ) : Prop :=
  match dump.get? table with
  | some t₀ => noflush = true → ∀ chain c, t.get? chain = some c → chain ∈ t₀ ∧ (c.policy.isSome = true → c.rules = [])
  | none => noflush = true ∨ (∀ chain ∈ info.chains, isNetfilterBuiltinChain table chain = false) → t.Bare

/-! ## Restoring sections -/

/-- The chains that a reset sets to `ACCEPT`. -/
def resetChains (table : String) (info : TableInfo) : List SaveEntry :=
  info.chains.entries.flatMap fun e => if isNetfilterBuiltinChain table e.1 then [.chain e.1 "ACCEPT"] else []

theorem tableReset_eq (table : String) (info : TableInfo) :
    tableReset table info = if resetChains table info = [] then [] else .table table :: (resetChains table info ++ [.commit]) := by
  have hchains : (info.chains.keys.filter fun chain => isNetfilterBuiltinChain table chain).map (fun chain => SaveEntry.chain chain "ACCEPT") =
      resetChains table info := by
    unfold resetChains Dict.keys
    induction info.chains.entries with
    | nil => rfl
    | cons e es ih =>
      rw [List.map_cons, List.flatMap_cons, ← ih, List.filter_cons]
      split <;> rfl
  rw [tableReset, ← hchains]
  simp only [List.map_eq_nil_iff]
  split
  · rfl
  · rfl

/-- The bodies of the sections that a rollback restores. -/
def rollbackBodies (print : ρ → String) (tables : Dict String TableInfo) (dump : Dict String (LiveTable ρ)) :
    List (String × List SaveEntry) :=
  (tables.entries.flatMap fun e => if resetChains e.1 e.2 = [] then [] else [(e.1, resetChains e.1 e.2)]) ++
    dump.entries.flatMap fun e => [(e.1, listedTable print e.2)]

theorem rollbackEntries_eq (print : ρ → String) (tables : Dict String TableInfo) (dump : Dict String (LiveTable ρ)) :
    rollbackEntries print tables dump =
      (rollbackBodies print tables dump).flatMap fun b => .table b.1 :: (b.2 ++ [.commit]) := by
  rw [rollbackEntries, resetEntries, listedTables, rollbackBodies, List.flatMap_append, List.flatMap_assoc, List.flatMap_assoc]
  congr 1
  · refine List.flatMap_congr fun e _ => ?_
    rw [tableReset_eq]
    split <;> simp
  · refine List.flatMap_congr fun e _ => ?_
    simp

theorem chain_or_rule_of_mem_rollbackBodies (print : ρ → String) (tables : Dict String TableInfo)
    (dump : Dict String (LiveTable ρ)) :
    ∀ b ∈ rollbackBodies print tables dump, ∀ e ∈ b.2, (∃ n p, e = .chain n p) ∨ ∃ n x, e = .rule n x := by
  intro b hb e he
  rcases List.mem_append.1 hb with hb | hb
  · obtain ⟨x, -, hb⟩ := List.mem_flatMap.1 hb
    split at hb
    · cases hb
    · rw [List.mem_singleton.1 hb] at he
      obtain ⟨y, -, he⟩ := List.mem_flatMap.1 he
      split at he
      · exact .inl ⟨_, _, List.mem_singleton.1 he⟩
      · cases he
  · obtain ⟨x, -, hb⟩ := List.mem_flatMap.1 hb
    rw [List.mem_singleton.1 hb] at he
    rcases List.mem_append.1 he with he | he
    · obtain ⟨y, -, rfl⟩ := List.mem_map.1 he
      exact .inl ⟨_, _, rfl⟩
    · obtain ⟨y, -, he⟩ := List.mem_flatMap.1 he
      obtain ⟨rule, -, rfl⟩ := List.mem_map.1 he
      exact .inr ⟨_, _, rfl⟩

section

variable {reader : RuleReader ρ} {print : ρ → String} {noflush : Bool} {tables : Dict String TableInfo}
  {dump : Dict String (LiveTable ρ)} {k k' : LiveTables ρ} {table : String} {info : TableInfo}

/-- A rollback from the point of view of one table: first its reset, if one is written for it, then its listing, if it is
listed. -/
theorem rollback_table (hrestore : restoreSave reader noflush (rollbackEntries print tables dump) k = some k')
    (hinfo : tables.get? table = some info) :
    ∃ mid, (if resetChains table info = [] then some (k table) else
        ((k table).bind fun t => runScript (SaveEntry.read reader) (resetChains table info) (enterTable noflush t)).map some) =
          some mid ∧
      (match dump.get? table with
        | some t₀ => (mid.bind fun t => runScript (SaveEntry.read reader) (listedTable print t₀) (enterTable noflush t)).map some
        | none => some mid) = some (k' table) := by
  rw [restoreSave, rollbackEntries_eq,
    restore_tables reader noflush (chain_or_rule_of_mem_rollbackBodies print tables dump), Option.map_map] at hrestore
  obtain ⟨k₂, hrun, hk₂⟩ := Option.map_eq_some_iff.1 hrestore
  obtain rfl : k₂ = k' := hk₂
  have hlocal := (pointwise_onTable Prod.fst fun (b : String × List SaveEntry) t =>
    runScript (SaveEntry.read reader) b.2 (enterTable noflush t)).run_sound (fun _ _ => trivial) hrun table
  rw [rollbackBodies, runScript_append] at hlocal
  obtain ⟨mid, hmid, hlocal⟩ := Option.bind_eq_some_iff.1 hlocal
  refine ⟨mid, ?_, ?_⟩
  · rw [runScript_walk, hinfo] at hmid
    · simp only [Option.map_some, Option.getD_some] at hmid
      split at hmid
      · rename_i hnil
        rw [if_pos hnil]
        exact hmid
      · rename_i hnil
        rw [if_neg hnil]
        rw [runScript_cons, onlyTable, if_pos rfl] at hmid
        exact (Option.bind_fun_some _).symm.trans hmid
    · intro e he b hb v
      split at hb
      · cases hb
      · rw [List.mem_singleton.1 hb]
        exact if_neg he
  · rw [runScript_walk] at hlocal
    · cases hdump : dump.get? table with
      | none =>
        rw [hdump] at hlocal
        exact hlocal
      | some t₀ =>
        rw [hdump] at hlocal
        rw [Option.map_some, Option.getD_some, runScript_cons, onlyTable, if_pos rfl] at hlocal
        exact (Option.bind_fun_some _).symm.trans hlocal
    · intro e he b hb v
      rw [List.mem_singleton.1 hb]
      exact if_neg he

/-! ## Restoring chains -/

/-- The reset gives every chain it names the policy `ACCEPT`, and leaves the others. -/
theorem reset_chain {t t' : LiveTable ρ} (hrun : runScript (SaveEntry.read reader) (resetChains table info) t = some t')
    (chain : String) :
    if chain ∈ info.chains ∧ isNetfilterBuiltinChain table chain = true then
      ∃ policy rules, t.get? chain = some ⟨some policy, rules⟩ ∧ t'.get? chain = some ⟨some "ACCEPT", rules⟩
    else t'.get? chain = t.get? chain := by
  have hP : ∀ e ∈ resetChains table info, ∃ n policy, e = SaveEntry.chain n policy := by
    intro e he
    obtain ⟨x, -, he⟩ := List.mem_flatMap.1 he
    split at he
    · exact ⟨_, _, List.mem_singleton.1 he⟩
    · cases he
  have hlocal := (pointwise_entry reader).run_sound hP hrun chain
  rw [resetChains, runScript_walk] at hlocal
  · cases hinfo : info.chains.get? chain with
    | none =>
      rw [hinfo] at hlocal
      rw [if_neg fun h => absurd h.1 (Dict.get?_eq_none_iff.1 hinfo)]
      exact (Option.some.inj hlocal).symm
    | some ci =>
      rw [hinfo] at hlocal
      simp only [Option.map_some, Option.getD_some] at hlocal
      by_cases hbuiltin : isNetfilterBuiltinChain table chain = true
      · rw [if_pos ⟨Dict.mem_of_get? hinfo, hbuiltin⟩]
        rw [if_pos hbuiltin, runScript_cons, SaveEntry.onChain, onlyAt, if_pos rfl] at hlocal
        obtain ⟨v, hv, hlocal⟩ := Option.bind_eq_some_iff.1 hlocal
        obtain ⟨c, hc, rfl⟩ := Option.map_eq_some_iff.1 hv
        cases hget : t.get? chain with
        | none =>
          rw [hget] at hc
          cases hc
        | some c₀ =>
          obtain ⟨_ | policy, rules⟩ := c₀
          · rw [hget] at hc
            cases hc
          · rw [hget] at hc
            refine ⟨policy, rules, rfl, (Option.some.inj hlocal).symm.trans ?_⟩
            cases hc
            rfl
      · rw [if_neg fun h => hbuiltin h.2]
        rw [if_neg hbuiltin] at hlocal
        exact (Option.some.inj hlocal).symm
  · intro e he x hx v
    split at hx
    · rw [List.mem_singleton.1 hx]
      exact if_neg he
    · cases hx

/-- The listing of a table declares each of its chains and appends its rules to it, and leaves the other chains. -/
theorem listed_chain {t₀ t t' : LiveTable ρ}
    (hread : ∀ chain c rule names, t₀.get? chain = some c → rule ∈ c.rules → (∀ name ∈ t₀, names name = true) →
      reader.save names (print rule) = some rule)
    (hrun : runScript (SaveEntry.read reader) (listedTable print t₀) t = some t') (chain : String) :
    match t₀.get? chain with
    | some c₀ => ∃ c, LiveChain.declare (c₀.policy.getD "-") (t.get? chain) = some c ∧ t'.get? chain = some (c.addRules c₀.rules)
    | none => t'.get? chain = t.get? chain := by
  rw [listedTable, runScript_append] at hrun
  obtain ⟨d, hd, hrules⟩ := Option.bind_eq_some_iff.1 hrun
  have hdeclared : ∀ name, runScript (SaveEntry.onChain name) (t₀.entries.map fun e => SaveEntry.chain e.1 (e.2.policy.getD "-"))
      (t.get? name) = some (d.get? name) :=
    (pointwise_entry reader).run_sound (fun e he => by
      obtain ⟨x, -, rfl⟩ := List.mem_map.1 he
      exact ⟨_, _, rfl⟩) hd
  have hwalk : ∀ name, (match t₀.get? name with
      | some c₀ => (LiveChain.declare (c₀.policy.getD "-") (t.get? name)).map some
      | none => some (t.get? name)) = some (d.get? name) := by
    intro name
    rw [← hdeclared name, List.map_eq_flatMap, runScript_walk]
    · cases t₀.get? name with
      | none => rfl
      | some c₀ =>
        rw [Option.map_some, Option.getD_some, runScript_cons, SaveEntry.onChain, onlyAt, if_pos rfl]
        exact (Option.bind_fun_some _).symm
    · intro e he x hx v
      rw [List.mem_singleton.1 hx]
      exact if_neg he
  -- the names of the listing are there when its rules are read
  have hnames : ∀ name ∈ t₀, d.has name = true := by
    intro name hname
    obtain ⟨c₀, hc₀⟩ := Dict.mem_iff_exists.1 hname
    have := hwalk name
    rw [hc₀] at this
    obtain ⟨c, -, hc⟩ := Option.map_eq_some_iff.1 this
    exact decide_eq_true (Dict.mem_of_get? hc.symm)
  have hpairs : (t₀.entries.flatMap fun e => e.2.rules.map fun rule => SaveEntry.rule e.1 (print rule)) =
      (t₀.entries.flatMap fun e => e.2.rules.map fun rule => (e.1, print rule)).map fun p => SaveEntry.rule p.1 p.2 := by
    simp only [List.map_flatMap, List.map_map]
    rfl
  rw [hpairs, runScript_map] at hrules
  have hrules : runScript (fun p t => LiveTable.onChain (appendTo (reader.save d.has) p.2) p.1 t)
      (t₀.entries.flatMap fun e => e.2.rules.map fun rule => (e.1, print rule)) d = some t' :=
    (runScript_fixedNames reader.save _ rfl).symm.trans hrules
  have hlocal := (pointwise_append (reader.save d.has)).run_sound (fun _ _ => trivial) hrules chain
  rw [runScript_walk] at hlocal
  · have hchain := hwalk chain
    cases hc₀ : t₀.get? chain with
    | none =>
      rw [hc₀] at hlocal hchain
      exact (Option.some.inj hlocal).symm.trans (Option.some.inj hchain).symm
    | some c₀ =>
      rw [hc₀] at hlocal hchain
      obtain ⟨c, hc, hd⟩ := Option.map_eq_some_iff.1 hchain
      have hown : (c₀.rules.map fun rule => (chain, print rule)) = (c₀.rules.map print).map fun text => (chain, text) := by
        rw [List.map_map]
        rfl
      have hmapM : (c₀.rules.map print).mapM (reader.save d.has) = some c₀.rules := by
        rw [List.mapM_map]
        have := mapM_some_of_forall (g := id) fun rule hrule => hread chain c₀ rule d.has hc₀ hrule hnames
        rwa [List.map_id] at this
      simp only [Option.map_some, Option.getD_some] at hlocal
      rw [hown, runScript_ownPairs, ← hd, appended, hmapM] at hlocal
      exact ⟨c, hc, (Option.some.inj hlocal).symm⟩
  · intro e he p hp v
    obtain ⟨rule, -, rfl⟩ := List.mem_map.1 hp
    exact if_neg he

/-! ## One table -/

/-- Whether a chain is built in, and its rules. -/
def LiveChain.shape (c : LiveChain ρ) : Bool × List ρ := (c.policy.isSome, c.rules)

/-- What the header of a section makes of a chain, apart from its policy. -/
def enterShape (noflush : Bool) (shape : Option (Bool × List ρ)) : Option (Bool × List ρ) :=
  if noflush then shape else shape.bind fun s => if s.1 then some (true, []) else none

theorem enterShape_enterShape (noflush : Bool) (shape : Option (Bool × List ρ)) :
    enterShape noflush (enterShape noflush shape) = enterShape noflush shape := by
  cases noflush
  · rcases shape with _ | ⟨_ | _, rules⟩ <;> rfl
  · rfl

theorem shape_enterTable (noflush : Bool) (t : LiveTable ρ) (chain : String) :
    ((enterTable noflush t).get? chain).map LiveChain.shape = enterShape noflush ((t.get? chain).map LiveChain.shape) := by
  rw [get?_enterTable]
  cases noflush
  · rcases t.get? chain with _ | ⟨_ | policy, rules⟩ <;> rfl
  · rfl

theorem policyOf_enterTable (noflush : Bool) (t : LiveTable ρ) (chain : String) :
    (enterTable noflush t).policyOf chain = t.policyOf chain := by
  rw [LiveTable.policyOf, LiveTable.policyOf, get?_enterTable]
  cases noflush
  · rcases t.get? chain with _ | ⟨_ | policy, rules⟩ <;> rfl
  · rfl

/-- A chain is built in when it has a policy. -/
theorem isSome_policyOf (t : LiveTable ρ) (chain : String) :
    (t.policyOf chain).isSome = ((t.get? chain).map LiveChain.shape).any Prod.fst := by
  rw [LiveTable.policyOf]
  cases t.get? chain <;> rfl

theorem shape_reset {t t' : LiveTable ρ} (hrun : runScript (SaveEntry.read reader) (resetChains table info) t = some t')
    (chain : String) : (t'.get? chain).map LiveChain.shape = (t.get? chain).map LiveChain.shape := by
  have hchain := reset_chain hrun chain
  split at hchain
  · obtain ⟨policy, rules, ht, ht'⟩ := hchain
    rw [ht, ht']
    rfl
  · rw [hchain]

theorem resetChains_eq_nil_iff (table : String) (info : TableInfo) :
    resetChains table info = [] ↔ ∀ chain ∈ info.chains, isNetfilterBuiltinChain table chain = false := by
  rw [resetChains, List.flatMap_eq_nil_iff]
  constructor
  · intro h chain hchain
    obtain ⟨ci, hci⟩ := Dict.mem_iff_exists.1 hchain
    have := h _ (Dict.get?_eq_some_iff.1 hci)
    split at this
    · cases this
    · rename_i hno
      exact Bool.eq_false_iff.2 hno
  · intro h e he
    rw [if_neg (by rw [h e.1 (Dict.mem_of_mem_entries he)]; exact Bool.false_ne_true)]

/-- A table with the policies of a fresh one is the fresh one when it is bare. -/
theorem agree_fresh_iff {t t₀ : LiveTable ρ} (hfresh : t₀.Fresh) (hpolicy : ∀ chain, t.policyOf chain = t₀.policyOf chain) :
    t.Agree t₀ ↔ t.Bare := by
  constructor
  · intro h chain c hc
    rw [hfresh chain c ((h chain).symm.trans hc)]
    exact ⟨rfl, rfl⟩
  · intro h chain
    have hsame := hpolicy chain
    rw [LiveTable.policyOf, LiveTable.policyOf] at hsame
    cases hc : t.get? chain with
    | none =>
      rw [hc] at hsame
      cases hc₀ : t₀.get? chain with
      | none => rfl
      | some c₀ =>
        rw [hc₀, hfresh chain c₀ hc₀] at hsame
        cases hsame
    | some c =>
      obtain ⟨hsome, hrules⟩ := h chain c hc
      rw [hc] at hsame
      cases hc₀ : t₀.get? chain with
      | none =>
        rw [hc₀] at hsame
        rw [show c.policy = none from hsame] at hsome
        cases hsome
      | some c₀ =>
        rw [hc₀, hfresh chain c₀ hc₀] at hsame
        obtain ⟨policy, rules⟩ := c
        obtain rfl : policy = some "ACCEPT" := hsame
        obtain rfl : rules = [] := hrules
        rw [hfresh chain c₀ hc₀]

/-- Whether a table is bare is a matter of its chains' shapes. -/
theorem bare_iff (t : LiveTable ρ) : t.Bare ↔ ∀ chain s, (t.get? chain).map LiveChain.shape = some s → s = (true, []) := by
  constructor
  · intro h chain s hs
    obtain ⟨c, hc, rfl⟩ := Option.map_eq_some_iff.1 hs
    obtain ⟨hsome, hrules⟩ := h chain c hc
    rw [LiveChain.shape, hsome, hrules]
  · intro h chain c hc
    have := h chain c.shape (by rw [hc]; rfl)
    exact ⟨(Prod.mk.inj this).1, (Prod.mk.inj this).2⟩

/-- A rollback leaves a table that was not loaded as it would be loaded exactly when the table is bare, unless it is reset. -/
theorem fresh_restored_iff {t₀ t₁ t₂ : LiveTable ρ} (hfresh : t₀.Fresh)
    (hbuiltin : ∀ chain, (t₁.policyOf chain).isSome = (t₀.policyOf chain).isSome)
    (hpolicy : ∀ chain, ¬ (chain ∈ info.chains ∧ isNetfilterBuiltinChain table chain = true) → t₁.policyOf chain = t₀.policyOf chain)
    (hreset : if resetChains table info = [] then t₂ = t₁ else
      runScript (SaveEntry.read reader) (resetChains table info) (enterTable noflush t₁) = some t₂) :
    t₂.Agree t₀ ↔ (noflush = true ∨ (∀ chain ∈ info.chains, isNetfilterBuiltinChain table chain = false) → t₁.Bare) := by
  rw [← resetChains_eq_nil_iff]
  by_cases hnil : resetChains table info = []
  · rw [if_pos hnil] at hreset
    rw [hreset, agree_fresh_iff hfresh fun chain => hpolicy chain fun h => ?_]
    · exact ⟨fun h _ => h, fun h => h (.inr hnil)⟩
    · rw [(resetChains_eq_nil_iff table info).1 hnil chain h.1] at h
      cases h.2
  · rw [if_neg hnil] at hreset
    have hpolicies : ∀ chain, t₂.policyOf chain = t₀.policyOf chain := by
      intro chain
      have hchain := reset_chain hreset chain
      split at hchain
      · obtain ⟨policy, rules, ht, ht'⟩ := hchain
        have hsome := hbuiltin chain
        rw [← policyOf_enterTable noflush, LiveTable.policyOf, ht] at hsome
        rw [LiveTable.policyOf, LiveTable.policyOf, ht']
        rw [LiveTable.policyOf] at hsome
        cases hc₀ : t₀.get? chain with
        | none =>
          rw [hc₀] at hsome
          cases hsome
        | some c₀ => rw [hfresh chain c₀ hc₀]; rfl
      · rename_i hno
        rw [← hpolicy chain hno, ← policyOf_enterTable noflush t₁, LiveTable.policyOf, hchain]
        rfl
    rw [agree_fresh_iff hfresh hpolicies, bare_iff, bare_iff]
    simp only [hnil, or_false, shape_reset hreset, shape_enterTable]
    cases noflush with
    | true => exact ⟨fun h _ => h, fun h => h rfl⟩
    | false =>
      refine iff_of_true (fun chain s hs => ?_) fun h => (by cases h)
      obtain ⟨s', -, hs⟩ := Option.bind_eq_some_iff.1 hs
      split at hs
      · exact (Option.some.inj hs).symm
      · cases hs

/-- A chain of a listing, declared where there is one of its kind: it gets its policy and its rules, behind the rules of a built-in
chain that was not emptied. -/
theorem declared_listed {c₀ : LiveChain ρ} {v : Option (LiveChain ρ)} {d : LiveChain ρ}
    (hpolicy : ∀ policy, c₀.policy = some policy → policy ∈ LIVE_POLICIES)
    (hkind : (v.map LiveChain.shape).any Prod.fst = c₀.policy.isSome)
    (hdeclare : LiveChain.declare (c₀.policy.getD "-") v = some d) :
    d.addRules c₀.rules = c₀ ↔ ∀ rules, v.map LiveChain.shape = some (true, rules) → rules = [] := by
  obtain ⟨_ | policy, rules⟩ := c₀
  · rcases v with _ | ⟨_ | q, rs⟩
    · cases hdeclare
      simp [LiveChain.addRules]
    · cases hdeclare
      simp [LiveChain.addRules, LiveChain.shape]
    · cases hkind
  · rcases v with _ | ⟨_ | q, rs⟩
    · cases hkind
    · cases hkind
    · have hmem := hpolicy policy rfl
      have hne : policy ≠ "-" := by
        rintro rfl
        revert hmem
        decide
      simp only [LiveChain.declare, Option.getD_some, if_neg hne, LiveChain.withPolicy, Option.isSome_some, true_and,
        if_pos hmem, Option.some.injEq] at hdeclare
      subst hdeclare
      simp [LiveChain.addRules, LiveChain.shape]

/-- A rollback gives a listed table its captured chains exactly when, with `--noflush`, no chain has been made and no rule has
been added to a built-in chain. -/
theorem listed_restored_iff {t₀ t₁ t t₂ : LiveTable ρ}
    (hread : ∀ chain c rule names, t₀.get? chain = some c → rule ∈ c.rules → (∀ name ∈ t₀, names name = true) →
      reader.save names (print rule) = some rule)
    (hpolicy : ∀ chain policy, t₀.policyOf chain = some policy → policy ∈ LIVE_POLICIES)
    (hbuiltin : ∀ chain, (t₁.policyOf chain).isSome = (t₀.policyOf chain).isSome)
    (hshape : ∀ chain, (t.get? chain).map LiveChain.shape = enterShape noflush ((t₁.get? chain).map LiveChain.shape))
    (hrun : runScript (SaveEntry.read reader) (listedTable print t₀) t = some t₂) :
    t₂.Agree t₀ ↔ (noflush = true → ∀ chain c, t₁.get? chain = some c → chain ∈ t₀ ∧ (c.policy.isSome = true → c.rules = [])) := by
  have hkind : ∀ chain, ((t.get? chain).map LiveChain.shape).any Prod.fst = (t₀.policyOf chain).isSome := by
    intro chain
    rw [hshape, ← hbuiltin, isSome_policyOf]
    cases noflush
    · rcases (t₁.get? chain).map LiveChain.shape with _ | ⟨_ | _, rules⟩ <;> rfl
    · rfl
  have hone : ∀ chain, t₂.get? chain = t₀.get? chain ↔
      (noflush = true → ∀ c, t₁.get? chain = some c → chain ∈ t₀ ∧ (c.policy.isSome = true → c.rules = [])) := by
    intro chain
    have hlisted := listed_chain hread hrun chain
    have hk := hkind chain
    rw [LiveTable.policyOf] at hk
    cases hc₀ : t₀.get? chain with
    | none =>
      rw [hc₀] at hlisted hk
      have hmem : chain ∉ t₀ := Dict.get?_eq_none_iff.1 hc₀
      rw [hlisted, ← Option.map_eq_none_iff (f := LiveChain.shape), hshape]
      rw [hshape] at hk
      cases noflush with
      | false =>
        refine iff_of_true ?_ fun h => (by cases h)
        rcases hs : (t₁.get? chain).map LiveChain.shape with _ | ⟨_ | _, rules⟩
        · rfl
        · rfl
        · rw [hs] at hk
          cases hk
      | true =>
        rw [enterShape, if_pos rfl, Option.map_eq_none_iff]
        constructor
        · intro hnone _ c hc
          rw [hnone] at hc
          cases hc
        · intro h
          by_contra hsome
          obtain ⟨c, hc⟩ := Option.ne_none_iff_exists'.1 hsome
          exact hmem (h rfl c hc).1
    | some c₀ =>
      rw [hc₀] at hlisted hk
      obtain ⟨d, hd, hd₂⟩ := hlisted
      have hmem : chain ∈ t₀ := Dict.mem_of_get? hc₀
      rw [hd₂, Option.some.injEq, declared_listed (fun policy hp => hpolicy chain policy (by rw [LiveTable.policyOf, hc₀]; exact hp))
        hk hd, hshape]
      cases noflush with
      | false =>
        refine iff_of_true (fun rules hrules => ?_) fun h => (by cases h)
        obtain ⟨s, -, hs⟩ := Option.bind_eq_some_iff.1 hrules
        split at hs
        · exact (Prod.mk.inj (Option.some.inj hs)).2.symm
        · cases hs
      | true =>
        rw [enterShape, if_pos rfl]
        constructor
        · intro h _ c hc
          refine ⟨hmem, fun hp => h c.rules ?_⟩
          rw [hc, Option.map_some, LiveChain.shape, hp]
        · intro h rules hrules
          obtain ⟨c, hc, hs⟩ := Option.map_eq_some_iff.1 hrules
          obtain ⟨hp, rfl⟩ := Prod.mk.inj hs
          exact (h rfl c hc).2 hp
  rw [Dict.Agree, forall_congr' hone]
  exact ⟨fun h hn chain => h chain hn, fun h chain hn => h hn chain⟩

/-- A rollback restores a table that `ferm` works on exactly under the condition on it. -/
theorem restoresTable_iff {k₀ k₁ k₂ : LiveTables ρ} (hcaptured : Captured reader print dump k₀) (hsince : Since tables k₀ k₁)
    (hrestore : restoreSave reader noflush (rollbackEntries print tables dump) k₁ = some k₂)
    (hinfo : tables.get? table = some info) :
    TableRestored k₀ k₂ table ↔ ∀ t, k₁ table = some t → RestoresTable noflush dump table info t := by
  obtain ⟨mid, hreset, hlisting⟩ := rollback_table hrestore hinfo
  have hknown := hsince.known table
  cases hk₁ : k₁ table with
  | none =>
    rw [hk₁] at hreset hknown
    have hk₀ : k₀ table = none := Option.isNone_iff_eq_none.1 (by rw [← Option.not_isSome, ← hknown]; rfl)
    have hmid : mid = none := by
      split at hreset
      · exact (Option.some.inj hreset).symm
      · cases hreset
    have hdump : dump.get? table = none := by
      by_contra hne
      obtain ⟨t₀, ht₀⟩ := Option.ne_none_iff_exists'.1 hne
      rw [hcaptured.listed table t₀ ht₀] at hk₀
      cases hk₀
    rw [hdump, hmid] at hlisting
    rw [TableRestored, hk₀, ← Option.some.inj hlisting]
    exact iff_of_true .none fun t h => (by cases h)
  | some t₁ =>
    rw [hk₁] at hknown
    obtain ⟨t₀, hk₀⟩ := Option.isSome_iff_exists.1 hknown.symm
    have hmid : ∃ tm, mid = some tm ∧ if resetChains table info = [] then tm = t₁ else
        runScript (SaveEntry.read reader) (resetChains table info) (enterTable noflush t₁) = some tm := by
      rw [hk₁] at hreset
      split at hreset
      · rename_i hnil
        exact ⟨t₁, (Option.some.inj hreset).symm, by rw [if_pos hnil]⟩
      · rename_i hnil
        obtain ⟨tm, htm, rfl⟩ := Option.map_eq_some_iff.1 hreset
        exact ⟨tm, rfl, by rw [if_neg hnil]; exact htm⟩
    obtain ⟨tm, rfl, htm⟩ := hmid
    have hbuiltin := hsince.builtin table t₀ t₁ hk₀ hk₁
    have hpolicy : ∀ chain, ¬ (chain ∈ info.chains ∧ isNetfilterBuiltinChain table chain = true) →
        t₁.policyOf chain = t₀.policyOf chain := by
      intro chain hno
      by_cases hmem : chain ∈ info.chains
      · -- a chain with another name has no policy
        have hnone : t₀.policyOf chain = none := by
          by_contra hsome
          obtain ⟨policy, hp⟩ := Option.ne_none_iff_exists'.1 hsome
          exact hno ⟨hmem, (hcaptured.builtin table t₀ chain policy hk₀ hp).1⟩
        have := hbuiltin chain
        rw [hnone] at this
        rw [hnone]
        exact Option.isNone_iff_eq_none.1 (by rw [← Option.not_isSome, this]; rfl)
      · refine hsince.policy table t₀ t₁ hk₀ hk₁ chain fun info' hinfo' => ?_
        rw [hinfo] at hinfo'
        cases hinfo'
        exact hmem
    have hall : (∀ t, some t₁ = some t → RestoresTable noflush dump table info t) ↔ RestoresTable noflush dump table info t₁ :=
      ⟨fun h => h t₁ rfl, fun h t ht => by cases ht; exact h⟩
    rw [hall, TableRestored, hk₀]
    cases hdump : dump.get? table with
    | none =>
      rw [hdump] at hlisting
      rw [← Option.some.inj hlisting, Option.rel_some_some, RestoresTable, hdump]
      exact fresh_restored_iff (hcaptured.others table t₀ (Dict.get?_eq_none_iff.1 hdump) hk₀) hbuiltin hpolicy htm
    | some t₀' =>
      have hsame : t₀' = t₀ := Option.some.inj ((hcaptured.listed table t₀' hdump).symm.trans hk₀)
      subst hsame
      rw [hdump] at hlisting
      obtain ⟨t₂, hrun, hk₂⟩ := Option.map_eq_some_iff.1 hlisting
      rw [← hk₂, Option.rel_some_some, RestoresTable, hdump]
      refine listed_restored_iff (fun chain c rule names hc hrule hnames =>
        hcaptured.read table t₀' chain c rule names hdump hc hrule hnames)
        (fun chain policy hp => (hcaptured.builtin table t₀' chain policy hk₀ hp).2) hbuiltin (fun chain => ?_) hrun
      rw [shape_enterTable]
      split at htm
      · rw [htm]
      · rw [shape_reset htm, shape_enterTable, enterShape_enterShape]

end

/-! ## What a commit can have done -/

/-- The built-in chains stay, and those that are not named keep their policies. -/
def KeepsPolicies (named : String → Prop) (t t' : LiveTable ρ) : Prop :=
  ∀ chain, (t'.policyOf chain).isSome = (t.policyOf chain).isSome ∧ (¬ named chain → t'.policyOf chain = t.policyOf chain)

section

variable {named : String → Prop} {reader : RuleReader ρ} {tables : Dict String TableInfo}

theorem KeepsPolicies.of_eq {t t' : LiveTable ρ} (h : ∀ chain, t'.policyOf chain = t.policyOf chain) : KeepsPolicies named t t' :=
  fun chain => ⟨by rw [h], fun _ => h chain⟩

theorem KeepsPolicies.trans {t t' t'' : LiveTable ρ} (h : KeepsPolicies named t t') (h' : KeepsPolicies named t' t'') :
    KeepsPolicies named t t'' :=
  fun chain => ⟨(h' chain).1.trans (h chain).1, fun hn => ((h' chain).2 hn).trans ((h chain).2 hn)⟩

/-- Work on a chain that leaves it built in, or not, and gives it another policy only if it is named. -/
theorem keepsPolicies_onChain {f : Option (LiveChain ρ) → Option (LiveChain ρ)} {chain : String} {t t' : LiveTable ρ}
    (h : t.onChain f chain = some t')
    (hf : ∀ v c, f v = some c → c.policy.isSome = (v.bind LiveChain.policy).isSome ∧ (¬ named chain → c.policy = v.bind LiveChain.policy)) :
    KeepsPolicies named t t' := by
  obtain ⟨c, hc, rfl⟩ := Option.map_eq_some_iff.1 h
  intro name
  rw [LiveTable.policyOf, LiveTable.policyOf, Dict.get?_set]
  by_cases hn : name = chain
  · subst hn
    rw [if_pos rfl]
    exact hf _ _ hc
  · rw [if_neg hn]
    exact ⟨rfl, fun _ => rfl⟩

theorem keepsPolicies_appendRule {read : (String → Bool) → String → Option ρ} {chain text : String} {t t' : LiveTable ρ}
    (h : t.appendRule read chain text = some t') : KeepsPolicies named t t' := by
  refine keepsPolicies_onChain h fun v c hc => ?_
  obtain ⟨c₀, rfl, hc⟩ := Option.bind_eq_some_iff.1 hc
  obtain ⟨rule, -, rfl⟩ := Option.map_eq_some_iff.1 hc
  exact ⟨rfl, fun _ => rfl⟩

/-- A command gives a policy only to the chain it names. -/
theorem keepsPolicies_command {c : TableCommand} (hc : ∀ chain policy, c = .setPolicy chain policy → named chain)
    {t t' : LiveTable ρ} (h : c.run reader t = some t') : KeepsPolicies named t t' := by
  cases c with
  | setPolicy chain policy =>
    refine keepsPolicies_onChain h fun v c hc' => ⟨?_, fun hn => absurd (hc chain policy rfl) hn⟩
    rcases v with _ | ⟨_ | q, rules⟩
    · cases hc'
    · cases hc'
    · simp only [LiveChain.withPolicy] at hc'
      split at hc'
      · cases hc'
        rfl
      · cases hc'
  | flush =>
    cases h
    refine .of_eq fun chain => ?_
    rw [LiveTable.policyOf, LiveTable.policyOf, LiveTable.flush, Dict.get?_mapValues]
    cases t.get? chain <;> rfl
  | deleteChains =>
    rw [TableCommand.run] at h
    split at h
    · cases h
      refine .of_eq fun chain => ?_
      rw [LiveTable.policyOf, LiveTable.policyOf, LiveTable.builtinOnly, Dict.get?_filterValues]
      rcases t.get? chain with _ | ⟨_ | policy, rules⟩ <;> rfl
    · cases h
  | newChain chain policy =>
    refine keepsPolicies_onChain h fun v c hc' => ?_
    rw [LiveChain.make] at hc'
    split at hc'
    · cases hc'
    · rename_i hnot
      cases hc'
      have hv : v = none := Option.not_isSome_iff_eq_none.1 fun hv => hnot (.inr hv)
      rw [hv]
      exact ⟨rfl, fun _ => rfl⟩
  | append chain text => exact keepsPolicies_appendRule h

/-- A line of a section gives a policy only to the chain it declares. -/
theorem keepsPolicies_entry {e : SaveEntry} (he : ∀ chain policy, e = .chain chain policy → named chain)
    {t t' : LiveTable ρ} (h : e.read reader t = some t') : KeepsPolicies named t t' := by
  cases e with
  | chain chain policy =>
    refine keepsPolicies_onChain h fun v c hc => ⟨?_, fun hn => absurd (he chain policy rfl) hn⟩
    rcases v with _ | ⟨_ | q, rules⟩
    · simp only [LiveChain.declare] at hc
      split at hc
      · cases hc
        rfl
      · cases hc
    · simp only [LiveChain.declare] at hc
      split at hc
      · cases hc
        rfl
      · cases hc
    · simp only [LiveChain.declare, LiveChain.withPolicy] at hc
      split at hc
      · cases hc
        rfl
      · split at hc
        · cases hc
          rfl
        · cases hc
  | rule chain text => exact keepsPolicies_appendRule h
  | comment text => cases h; exact .of_eq fun _ => rfl
  | commit => cases h; exact .of_eq fun _ => rfl
  | table name => cases h
  | saved line => cases h

theorem KeepsPolicies.run {C : Type} {step : C → LiveTable ρ → Option (LiveTable ρ)} {cs : List C}
    (hstep : ∀ c ∈ cs, ∀ t t', step c t = some t' → KeepsPolicies named t t') {t t' : LiveTable ρ}
    (h : runScript step cs t = some t') : KeepsPolicies named t t' := by
  induction cs generalizing t with
  | nil =>
    cases h
    exact .of_eq fun _ => rfl
  | cons c cs ih =>
    obtain ⟨hc, hcs⟩ := List.forall_mem_cons.1 hstep
    obtain ⟨mid, hmid, h⟩ := Option.bind_eq_some_iff.1 h
    exact (hc t mid hmid).trans (ih hcs h)

/-- A chain of the configured table. -/
def NamedIn (tables : Dict String TableInfo) (table chain : String) : Prop :=
  ∃ info, tables.get? table = some info ∧ chain ∈ info.chains

theorem Since.refl (tables : Dict String TableInfo) (k : LiveTables ρ) : Since tables k k :=
  ⟨fun _ => rfl, fun _ t t' h h' _ => by rw [Option.some.inj (h.symm.trans h')],
    fun _ t t' h h' _ _ => by rw [Option.some.inj (h.symm.trans h')]⟩

theorem Since.trans {k k' k'' : LiveTables ρ} (h : Since tables k k') (h' : Since tables k' k'') : Since tables k k'' := by
  have hmid : ∀ table t, k table = some t → ∃ t', k' table = some t' := fun table t ht =>
    Option.isSome_iff_exists.1 (by rw [h.known, ht]; rfl)
  refine ⟨fun table => (h'.known table).trans (h.known table), fun table t t'' ht ht'' chain => ?_,
    fun table t t'' ht ht'' chain hn => ?_⟩
  · obtain ⟨t', ht'⟩ := hmid table t ht
    exact (h'.builtin table t' t'' ht' ht'' chain).trans (h.builtin table t t' ht ht' chain)
  · obtain ⟨t', ht'⟩ := hmid table t ht
    exact (h'.policy table t' t'' ht' ht'' chain hn).trans (h.policy table t t' ht ht' chain hn)

/-- Work on one table that gives policies only to its configured chains. -/
theorem since_onTable {f : LiveTable ρ → Option (LiveTable ρ)} {table : String}
    (hf : ∀ t t', f t = some t' → KeepsPolicies (NamedIn tables table) t t') {k k' : LiveTables ρ}
    (h : onTable f table k = some k') : Since tables k k' := by
  obtain ⟨t', ht', rfl⟩ := Option.map_eq_some_iff.1 h
  obtain ⟨t, ht, hft⟩ := Option.bind_eq_some_iff.1 ht'
  have hcases : ∀ name s s', k name = some s → (if name = table then some t' else k name) = some s' →
      s' = s ∨ name = table ∧ s = t ∧ s' = t' := by
    intro name s s' hs hs'
    split at hs'
    · rename_i hn
      subst hn
      exact .inr ⟨rfl, Option.some.inj (hs.symm.trans ht), (Option.some.inj hs').symm⟩
    · exact .inl (Option.some.inj (hs'.symm.trans hs))
  refine ⟨fun name => ?_, fun name s s' hs hs' chain => ?_, fun name s s' hs hs' chain hn => ?_⟩
  · by_cases hn : name = table
    · simp [hn, ht]
    · simp [hn]
  · rcases hcases name s s' hs hs' with rfl | ⟨rfl, rfl, rfl⟩
    · rfl
    · exact (hf _ _ hft chain).1
  · rcases hcases name s s' hs hs' with rfl | ⟨rfl, rfl, rfl⟩
    · rfl
    · exact (hf _ _ hft chain).2 fun ⟨info, hinfo, hmem⟩ => hn info hinfo hmem

theorem Since.run {C : Type} {step : C → LiveTables ρ → Option (LiveTables ρ)} {cs : List C}
    (hstep : ∀ c ∈ cs, ∀ k k', step c k = some k' → Since tables k k') {k k' : LiveTables ρ}
    (h : runScript step cs k = some k') : Since tables k k' := by
  induction cs generalizing k with
  | nil =>
    rw [← Option.some.inj h]
    exact .refl tables k
  | cons c cs ih =>
    obtain ⟨hc, hcs⟩ := List.forall_mem_cons.1 hstep
    obtain ⟨mid, hmid, h⟩ := Option.bind_eq_some_iff.1 h
    exact (hc k mid hmid).trans (ih hcs h)

/-- The slow commands of a table set policies of its chains only. -/
theorem mem_of_setPolicy (options : IptablesOptions) {domain : Family} (table : String) (info : TableInfo) {chain policy : String}
    (h : .setPolicy chain policy ∈ tableScript domain options table info) : chain ∈ info.chains := by
  rcases List.mem_append.1 h with h | h
  · rcases List.mem_append.1 h with h | h
    · unfold resetCommands at h
      split at h
      · cases h
      · rcases List.mem_append.1 h with h | h
        · obtain ⟨e, he, h⟩ := List.mem_flatMap.1 h
          split at h
          · cases List.mem_singleton.1 h
            exact Dict.mem_of_mem_entries he
          · cases h
        · simp at h
    · split at h
      · cases h
      · obtain ⟨e, he, h⟩ := List.mem_flatMap.1 h
        unfold createCommands at h
        split at h
        · split at h
          · split at h
            · cases List.mem_singleton.1 h
              exact Dict.mem_of_mem_entries he
            · cases h
          · cases h
        · cases List.mem_singleton.1 h
  · obtain ⟨p, -, h⟩ := List.mem_map.1 h
    cases h

/-- The slow commands of a commit, or the first of them up to one that fails. -/
theorem since_of_slow {domain : Family} {info : DomainInfo} {options : IptablesOptions} {commands before : List SlowCommand}
    (hcommands : renderSlow domain info options = .ok commands) (hbefore : before <+: commands) {k k' : LiveTables ρ}
    (hrun : runScript (SlowCommand.step reader) before k = some k') : Since info.tables k k' := by
  obtain ⟨-, rfl⟩ := (renderSlow_ok domain info options commands).1 hcommands
  refine Since.run (fun c hc k k' hstep => since_onTable (fun t t' ht => keepsPolicies_command ?_ ht) hstep) hrun
  obtain ⟨e, he, hmem⟩ := List.mem_flatMap.1 (hbefore.subset hc)
  obtain ⟨command, hcommand, rfl⟩ := List.mem_map.1 hmem
  rintro chain policy hset
  obtain rfl : command = .setPolicy chain policy := hset
  exact ⟨e.2, Dict.get?_eq_some_iff.2 he, mem_of_setPolicy options e.1 e.2 hcommand⟩

/-- The sections of a commit, or the first of them up to one that fails. -/
theorem since_of_fast {domain : Family} {info : DomainInfo} {options : IptablesOptions}
    {sections : List (String × TableInfo)} (hsections : sections <+: info.tables.sorted.entries) {k k' : LiveTables ρ}
    (hrun : restoreSave reader options.noflush
      (sections.flatMap fun e => .table e.1 :: (sectionBody domain options e.1 e.2 ++ [.commit])) k = some k') :
    Since info.tables k k' := by
  rw [restoreSave, runScript_sections, Option.map_map] at hrun
  obtain ⟨k₂, htables, hk₂⟩ := Option.map_eq_some_iff.1 hrun
  obtain rfl : k₂ = k' := hk₂
  refine Since.run (fun e he k k' hstep => since_onTable (fun t t' ht => ?_) hstep) htables
  rw [← runScript_sectionBody] at ht
  refine KeepsPolicies.trans (.of_eq fun chain => policyOf_enterTable options.noflush t chain)
    (KeepsPolicies.run (fun x hx t t' hread => keepsPolicies_entry ?_ hread) ht)
  rintro chain policy rfl
  rcases List.mem_append.1 hx with hx | hx
  · obtain ⟨y, hy, hx⟩ := List.mem_flatMap.1 hx
    obtain ⟨policy', hsame⟩ := chain_of_policyEntry (Option.mem_toList.1 hx)
    cases hsame
    refine ⟨e.2, ?_, Dict.mem_of_mem_entries (Dict.mem_sorted_entries.1 hy)⟩
    exact Dict.get?_eq_some_iff.2 (Dict.mem_sorted_entries.1 (hsections.subset he))
  · obtain ⟨p, -, hx⟩ := List.mem_map.1 hx
    cases hx

end

/-! ## All tables -/

section

variable {reader : RuleReader ρ} {print : ρ → String} {noflush : Bool} {tables : Dict String TableInfo}
  {dump : Dict String (LiveTable ρ)}

/-- After a rollback every table that `ferm` works on has its captured chains, policies and rules exactly when the condition holds
of each of them. -/
theorem rollback_restores_iff {k₀ k₁ k₂ : LiveTables ρ} (hcaptured : Captured reader print dump k₀)
    (hsince : Since tables k₀ k₁) (hrestore : restoreSave reader noflush (rollbackEntries print tables dump) k₁ = some k₂) :
    (∀ table ∈ tables, TableRestored k₀ k₂ table) ↔
      ∀ table info t, tables.get? table = some info → k₁ table = some t → RestoresTable noflush dump table info t := by
  constructor
  · intro h table info t hinfo
    exact (restoresTable_iff hcaptured hsince hrestore hinfo).1 (h table (Dict.mem_of_get? hinfo)) t
  · intro h table hmem
    obtain ⟨info, hinfo⟩ := Dict.mem_iff_exists.1 hmem
    exact (restoresTable_iff hcaptured hsince hrestore hinfo).2 fun t => h table info t hinfo

end

/-- The kernel with one table. -/
def oneTable (name : String) (t : LiveTable String) : LiveTables String := fun table => if table = name then some t else none

/-- Rules are read as they are written. -/
def plainReader : RuleReader String := ⟨fun _ text => some text, fun _ text => some text⟩

/-- A table whose chain `INPUT` has a policy and rules. -/
def inputTable (policy : String) (rules : List String) : LiveTable String := Dict.empty.set "INPUT" ⟨some policy, rules⟩

/-- A configuration with one chain of one table. -/
def soleChain (table chain : String) : Dict String TableInfo :=
  Dict.empty.set table { chains := Dict.empty.set chain {} }

/-- The table that is listed had a rule and the policy `DROP`; a commit has emptied it since. -/
theorem rollback_restores_input :
    ∃ k₂, restoreSave plainReader false
        (rollbackEntries id (soleChain "filter" "INPUT") (Dict.empty.set "filter" (inputTable "DROP" [" -j ACCEPT"])))
        (oneTable "filter" (inputTable "ACCEPT" [])) = some k₂ ∧
      ∀ table ∈ soleChain "filter" "INPUT", TableRestored (oneTable "filter" (inputTable "DROP" [" -j ACCEPT"])) k₂ table := by
  have honly : ∀ {table : String} {t t' : LiveTable String}, oneTable "filter" t table = some t' → table = "filter" ∧ t' = t := by
    intro table t t' h
    rw [oneTable] at h
    split at h
    · rename_i hn
      exact ⟨hn, (Option.some.inj h).symm⟩
    · cases h
  have hinput : ∀ {policy : String} {rules : List String} {chain : String} {c : LiveChain String},
      (inputTable policy rules).get? chain = some c → chain = "INPUT" ∧ c = ⟨some policy, rules⟩ := by
    intro policy rules chain c h
    rw [inputTable, Dict.get?_set] at h
    split at h
    · rename_i hn
      exact ⟨hn, (Option.some.inj h).symm⟩
    · cases h
  have hdump : ∀ {table : String} {t : LiveTable String},
      (Dict.empty.set "filter" (inputTable "DROP" [" -j ACCEPT"])).get? table = some t →
        table = "filter" ∧ t = inputTable "DROP" [" -j ACCEPT"] := by
    intro table t h
    rw [Dict.get?_set] at h
    split at h
    · rename_i hn
      exact ⟨hn, (Option.some.inj h).symm⟩
    · cases h
  have hpolicy : ∀ (policy : String) (rules : List String) (chain : String),
      ((inputTable policy rules).policyOf chain) = if chain = "INPUT" then some policy else none := by
    intro policy rules chain
    rw [LiveTable.policyOf, inputTable, Dict.get?_set]
    split <;> rfl
  have hcaptured : Captured plainReader id (Dict.empty.set "filter" (inputTable "DROP" [" -j ACCEPT"]))
      (oneTable "filter" (inputTable "DROP" [" -j ACCEPT"])) := by
    refine ⟨fun table t h => ?_, fun table t hno h => ?_, fun table t chain policy h hp => ?_, fun _ _ _ _ _ _ _ _ _ _ => rfl⟩
    · obtain ⟨rfl, rfl⟩ := hdump h
      rfl
    · obtain ⟨rfl, rfl⟩ := honly h
      exact absurd (Dict.mem_set.2 (.inl rfl)) hno
    · obtain ⟨rfl, rfl⟩ := honly h
      rw [hpolicy] at hp
      split at hp
      · rename_i hn
        rw [hn, ← Option.some.inj hp]
        decide
      · cases hp
  have hsince : Since (soleChain "filter" "INPUT") (oneTable "filter" (inputTable "DROP" [" -j ACCEPT"]))
      (oneTable "filter" (inputTable "ACCEPT" [])) := by
    refine ⟨fun table => ?_, fun table t t' h h' chain => ?_, fun table t t' h h' chain hno => ?_⟩
    · rw [oneTable, oneTable]
      split <;> rfl
    · obtain ⟨rfl, rfl⟩ := honly h
      obtain ⟨-, rfl⟩ := honly h'
      rw [hpolicy, hpolicy]
      split <;> rfl
    · obtain ⟨rfl, rfl⟩ := honly h
      obtain ⟨-, rfl⟩ := honly h'
      have hne : chain ≠ "INPUT" := by
        rintro rfl
        exact hno _ rfl (by decide)
      rw [hpolicy, hpolicy, if_neg hne, if_neg hne]
  obtain ⟨k₂, hk₂⟩ : ∃ k₂, restoreSave plainReader false
      (rollbackEntries id (soleChain "filter" "INPUT") (Dict.empty.set "filter" (inputTable "DROP" [" -j ACCEPT"])))
      (oneTable "filter" (inputTable "ACCEPT" [])) = some k₂ := ⟨_, rfl⟩
  refine ⟨k₂, hk₂, (rollback_restores_iff hcaptured hsince hk₂).2 fun table info t hinfo ht => ?_⟩
  obtain ⟨rfl, rfl⟩ := honly ht
  rw [RestoresTable, Dict.get?_set_self]
  exact fun h => (by cases h)

/-- A user chain made in a table that was not loaded is still there after the rollback. -/
theorem rollback_keeps_userChain :
    ∃ (info : DomainInfo) (entries : List SaveEntry) (k₀ k₁ k₂ : LiveTables String),
      Captured plainReader id Dict.empty k₀ ∧
      rulesToSave .ip info {} "" "" = .ok entries ∧ restoreSave plainReader false entries k₀ = some k₁ ∧
      restoreSave plainReader false (rollbackEntries id info.tables Dict.empty) k₁ = some k₂ ∧
      ∃ table ∈ info.tables, ¬ TableRestored k₀ k₂ table := by
  have hchain : ∀ {table : String} {t : LiveTable String} {chain : String} {c : LiveChain String},
      oneTable "nat" (Dict.empty.set "OUTPUT" ⟨some "ACCEPT", []⟩) table = some t → t.get? chain = some c →
        chain = "OUTPUT" ∧ c = ⟨some "ACCEPT", []⟩ := by
    intro table t chain c h hc
    rw [oneTable] at h
    split at h
    · cases h
      rw [Dict.get?_set] at hc
      split at hc
      · rename_i hn
        exact ⟨hn, (Option.some.inj hc).symm⟩
      · cases hc
    · cases h
  refine ⟨{ tables := soleChain "nat" "WEB" }, _, oneTable "nat" (Dict.empty.set "OUTPUT" ⟨some "ACCEPT", []⟩), _, _,
    ⟨fun _ _ h => (by cases h), fun table t _ h chain c hc => (hchain h hc).2, fun table t chain policy h hp => ?_,
      fun _ _ _ _ _ _ h => (by cases h)⟩, rfl, rfl, rfl, "nat", by decide, fun h => ?_⟩
  · obtain ⟨c, hc, hp⟩ := Option.bind_eq_some_iff.1 hp
    obtain ⟨rfl, rfl⟩ := hchain h hc
    cases hp
    exact ⟨rfl, by decide⟩
  · cases h with
    | some hagree =>
      have := hagree "WEB"
      revert this
      decide

end Ferm
