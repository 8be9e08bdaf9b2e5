import Ferm.Lib.Difflib
import Ferm.Plan.Readback

/-!
# The table differ

`diffTables` over the parsed current and desired state of one family, and what its answer "no changes" is worth: it reports
every difference except two, a desired chain without rules that the kernel does not have and a desired base chain that is a user
chain in the kernel.
-/

namespace Ferm

open SequenceMatcher

/-- `_is_builtin`: the chain carries a real policy. -/
def isBuiltin (chain : ParsedChain) : Bool := chain.policy ≠ ["-"]

/-- `_diff_rules`: the rules added and the rules removed, by position. -/
def diffRules (current desired : List String) : List String × List String :=
  let opcodes := getOpcodes current desired
  (opcodes.flatMap fun o => if o.tag = .replace ∨ o.tag = .insert then slice desired o.j1 o.j2 else [],
    opcodes.flatMap fun o => if o.tag = .replace ∨ o.tag = .delete then slice current o.i1 o.i2 else [])

/-- The rule changes of one chain. Under `--noflush` only a declared user chain is flushed, so other removals are left out. -/
def ruleChanges (noflush : Bool) (table name : String) (current : Option ParsedChain) (desired : ParsedChain) : Changes :=
  let currentRules := (current.map ParsedChain.rules).getD []
  let declaredUser := current.any fun c => !isBuiltin c
  let changes := diffRules currentRules desired.rules
  { rulesAdded := changes.1.map (⟨table, name, ·⟩)
    rulesRemoved := if !noflush || declaredUser then changes.2.map (⟨table, name, ·⟩) else [] }

/-- The changes of one desired chain. A changed priority rebuilds the chain, which takes its rule changes with it. -/
def diffChain (noflush : Bool) (table name : String) (current : Option ParsedChain) (desired : ParsedChain) : Changes :=
  match current with
  | some c =>
    if isBuiltin c ∧ desired.policy ≠ c.policy then
      let oldPriority := headerPriority c.policy
      let newPriority := headerPriority desired.policy
      if oldPriority ≠ newPriority then
        { chainRebuilds := [⟨table, name, oldPriority.getD "", newPriority.getD ""⟩] }
      else
        Changes.append { policyChanges := [⟨table, name, c.policy, desired.policy⟩] }
          (ruleChanges noflush table name current desired)
    else ruleChanges noflush table name current desired
  | none => ruleChanges noflush table name current desired

/-- The changes of one desired set: a changed type or flags drop the set and add it again. -/
def diffSet (table name : String) (current : Option ParsedSet) (desired : ParsedSet) : Changes :=
  match current with
  | none => { setChanges := [⟨table, name, .add, desired.elements, []⟩] }
  | some c =>
    if (c.type_, c.flags) ≠ (desired.type_, desired.flags) then
      { setChanges := [⟨table, name, .remove, [], []⟩, ⟨table, name, .add, desired.elements, []⟩] }
    else if !desired.isDynamic && c.elements ≠ desired.elements then
      { setChanges := [⟨table, name, .modify, desired.elements, c.elements⟩] }
    else {}

/-- The change of a set that only the kernel has. -/
def diffExtraSet (table : String) (desired : ParsedTable) (name : String) : Changes :=
  if name ∈ desired.sets then {} else { setChanges := [⟨table, name, .remove, [], []⟩] }

/-- The change of an object one side lacks: its name fixes its body. -/
def diffObject (table : String) (other : ParsedTable) (added : Bool) (name : String) (object : ParsedObject) : Changes :=
  if name ∈ other.objects then {} else { objectChanges := [⟨table, name, object.kind, added⟩] }

/-- The change of a chain that only the kernel has: a base chain is desuet, a user chain foreign. -/
def diffExtraChain (noflush : Bool) (table : String) (desired : ParsedTable) (name : String) (current : ParsedChain) :
    Changes :=
  if name ∈ desired.chains then {}
  else if isBuiltin current then { desuetChains := [⟨table, name⟩] }
  else if noflush then {}
  else { foreignChains := [⟨table, name⟩] }

/-- The changes of one desired table against the current one. -/
def diffTable (noflush : Bool) (table : String) (current desired : ParsedTable) : Changes :=
  Changes.concat
    (desired.chains.entries.map (fun e => diffChain noflush table e.1 (current.chains.get? e.1) e.2) ++
      desired.sets.entries.map (fun e => diffSet table e.1 (current.sets.get? e.1) e.2) ++
      current.sets.entries.map (fun e => diffExtraSet table desired e.1) ++
      desired.objects.entries.map (fun e => diffObject table current true e.1 e.2) ++
      current.objects.entries.map (fun e => diffObject table desired false e.1 e.2) ++
      current.chains.entries.map (fun e => diffExtraChain noflush table desired e.1 e.2))

/-- `diff_tables`: every desired table against the current one, which counts as empty where it is missing. -/
def diffTables (current desired : Dict String ParsedTable) (noflush : Bool) : PlanDiff where
  toChanges := Changes.concat (desired.entries.map fun e => diffTable noflush e.1 ((current.get? e.1).getD {}) e.2)
  noflush := noflush
  currentEmpty := current.keys.isEmpty

/-! ## Rule lists -/

/-- The opcodes that follow `(i, j)` add nothing and remove nothing only if the rest of the lists is the same. -/
theorem drop_eq_of_contract {current desired : List String} {i j : Nat} {os : List Opcode}
    (h : Contract current desired i j os)
    (hadd : ∀ o ∈ os, o.tag = .replace ∨ o.tag = .insert → slice desired o.j1 o.j2 = [])
    (hrem : ∀ o ∈ os, o.tag = .replace ∨ o.tag = .delete → slice current o.i1 o.i2 = []) :
    current.drop i = desired.drop j := by
  induction os generalizing i j with
  | nil =>
    obtain ⟨rfl, rfl⟩ := h
    rw [List.drop_length, List.drop_length]
  | cons o os ih =>
    obtain ⟨h1, h2, hi, hj, heq, hdel, hins, hrest⟩ := h
    obtain ⟨hadd, hadds⟩ := List.forall_mem_cons.1 hadd
    obtain ⟨hrem, hrems⟩ := List.forall_mem_cons.1 hrem
    rw [h1] at hrem
    rw [h2] at hadd
    rw [drop_eq_slice_append current hi, drop_eq_slice_append desired hj, ih hrest hadds hrems]
    congr 1
    cases ht : o.tag with
    | replace => rw [hrem (.inl ht), hadd (.inl ht)]
    | delete => rw [hrem (.inr ht), ← hdel ht, slice_self]
    | insert => rw [hadd (.inr ht), ← hins ht, slice_self]
    | equal => exact heq ht

/-- The positional diff is empty exactly for equal lists. -/
theorem diffRules_eq_nil_iff (current desired : List String) :
    diffRules current desired = ([], []) ↔ current = desired := by
  constructor
  · intro h
    obtain ⟨hadd, hrem⟩ := Prod.mk.inj h
    rw [List.flatMap_eq_nil_iff] at hadd hrem
    have := drop_eq_of_contract (getOpcodes_contract current desired)
      (fun o ho ht => by simpa [ht] using hadd o ho) (fun o ho ht => by simpa [ht] using hrem o ho)
    simpa using this
  · rintro rfl
    unfold diffRules
    rw [getOpcodes_self]
    split <;> simp

/-! ## Seeing a difference -/

namespace Changes

/-- A change in any of the lists. -/
def any (c : Changes) : Bool :=
  !c.policyChanges.isEmpty || !c.rulesAdded.isEmpty || !c.rulesRemoved.isEmpty || !c.foreignChains.isEmpty ||
    !c.desuetChains.isEmpty || !c.chainRebuilds.isEmpty || !c.setChanges.isEmpty || !c.objectChanges.isEmpty

@[simp] theorem any_empty : any {} = false := rfl

@[simp] theorem any_append (a b : Changes) : (a.append b).any = (a.any || b.any) := by
  have h {α : Type} (l m : List α) : (!(l ++ m).isEmpty) = (!l.isEmpty || !m.isEmpty) := by cases l <;> simp
  simp only [any, append, h]
  ac_rfl

/-- A walk finds a change when one of its steps does. -/
theorem any_concat (cs : List Changes) : (concat cs).any = true ↔ ∃ c ∈ cs, c.any = true := by
  induction cs with
  | nil => simp [concat]
  | cons c cs ih => simp [concat, ih]

end Changes

theorem PlanDiff.hasChanges_eq_any (d : PlanDiff) : d.hasChanges = d.toChanges.any := rfl

/-- The differ sees a difference of a desired chain: other rules, or another header of a base chain. -/
def ChainSeen (current : Option ParsedChain) (desired : ParsedChain) : Prop :=
  (current.map ParsedChain.rules).getD [] ≠ desired.rules ∨
    ∃ c, current = some c ∧ c.policy ≠ ["-"] ∧ desired.policy ≠ c.policy

/-- A difference of a desired chain that is not one of its rules and not one of a base chain's header. -/
def ChainUnseen (current : Option ParsedChain) (desired : ParsedChain) : Prop :=
  (current = none ∧ desired.rules = []) ∨ ∃ c, current = some c ∧ c.policy = ["-"] ∧ desired.policy ≠ ["-"]

/-- The chain is there with the same header and the same rules. -/
def SameChain (current : Option ParsedChain) (desired : ParsedChain) : Prop :=
  ∃ c, current = some c ∧ c.policy = desired.policy ∧ c.rules = desired.rules

/-- The set is there with the same type and flags and, unless it is dynamic, the same elements. -/
def SameSet (current : Option ParsedSet) (desired : ParsedSet) : Prop :=
  ∃ c, current = some c ∧ c.type_ = desired.type_ ∧ c.flags = desired.flags ∧
    (desired.isDynamic = false → c.elements = desired.elements)

/-- A difference of two tables that the differ sees. -/
inductive TableSeen (current desired : ParsedTable) : Prop where
  | chain {name : String} {c : ParsedChain} (h : desired.chains.get? name = some c)
      (hc : ChainSeen (current.chains.get? name) c)
  | set {name : String} {s : ParsedSet} (h : desired.sets.get? name = some s) (hs : ¬ SameSet (current.sets.get? name) s)
  | extraSet {name : String} (h : name ∈ current.sets) (hd : name ∉ desired.sets)
  | object {name : String} (h : name ∈ desired.objects) (hc : name ∉ current.objects)
  | extraObject {name : String} (h : name ∈ current.objects) (hd : name ∉ desired.objects)
  | extraChain {name : String} (h : name ∈ current.chains) (hd : name ∉ desired.chains)

/-- The current table holds exactly what the desired one does. -/
structure SameTable (current desired : ParsedTable) : Prop where
  chain : ∀ name c, desired.chains.get? name = some c → SameChain (current.chains.get? name) c
  set : ∀ name s, desired.sets.get? name = some s → SameSet (current.sets.get? name) s
  object : ∀ name, name ∈ desired.objects → name ∈ current.objects
  noExtraChain : ∀ name, name ∈ current.chains → name ∈ desired.chains
  noExtraSet : ∀ name, name ∈ current.sets → name ∈ desired.sets
  noExtraObject : ∀ name, name ∈ current.objects → name ∈ desired.objects

/-- The table of a name, empty where it is missing. -/
def tableOf (tables : Dict String ParsedTable) (name : String) : ParsedTable := (tables.get? name).getD {}

/-- Every desired table is in the kernel as the configuration has it. -/
def Same (current desired : Dict String ParsedTable) : Prop :=
  ∀ name t, desired.get? name = some t → SameTable (tableOf current name) t

/-- Some desired table differs in a way the differ sees. -/
def SeenDifference (current desired : Dict String ParsedTable) : Prop :=
  ∃ name t, desired.get? name = some t ∧ TableSeen (tableOf current name) t

/-- Some desired chain is missing in the kernel and has no rules, or is a base chain there only in the configuration. -/
def UnseenDifference (current desired : Dict String ParsedTable) : Prop :=
  ∃ name t, desired.get? name = some t ∧
    ∃ chain c, t.chains.get? chain = some c ∧ ChainUnseen ((tableOf current name).chains.get? chain) c

theorem sameChain_iff (current : Option ParsedChain) (desired : ParsedChain) :
    SameChain current desired ↔ ¬ ChainSeen current desired ∧ ¬ ChainUnseen current desired := by
  cases current with
  | none => simp [SameChain, ChainSeen, ChainUnseen, eq_comm]
  | some c =>
    by_cases hp : c.policy = ["-"]
    · simp [SameChain, ChainSeen, ChainUnseen, hp, and_comm, eq_comm]
    · simp [SameChain, ChainSeen, ChainUnseen, hp, and_comm, eq_comm]

/-- The differ sees every difference but those of `ChainUnseen`. -/
theorem sameTable_iff (current desired : ParsedTable) :
    SameTable current desired ↔ ¬ TableSeen current desired ∧
      ∀ name c, desired.chains.get? name = some c → ¬ ChainUnseen (current.chains.get? name) c := by
  constructor
  · intro h
    refine ⟨?_, fun name c hc => ((sameChain_iff _ _).1 (h.chain name c hc)).2⟩
    rintro (⟨hd, hc⟩ | ⟨hd, hs⟩ | ⟨hc, hd⟩ | ⟨hd, hc⟩ | ⟨hc, hd⟩ | ⟨hc, hd⟩)
    · exact ((sameChain_iff _ _).1 (h.chain _ _ hd)).1 hc
    · exact hs (h.set _ _ hd)
    · exact hd (h.noExtraSet _ hc)
    · exact hc (h.object _ hd)
    · exact hd (h.noExtraObject _ hc)
    · exact hd (h.noExtraChain _ hc)
  · rintro ⟨hseen, hunseen⟩
    refine ⟨fun name c hc => (sameChain_iff _ _).2 ⟨fun hs => hseen (.chain hc hs), hunseen name c hc⟩, ?_, ?_, ?_, ?_, ?_⟩
    · exact fun name s hs => by_contra fun hn => hseen (.set hs hn)
    · exact fun name hd => by_contra fun hn => hseen (.object hd hn)
    · exact fun name hc => by_contra fun hn => hseen (.extraChain hc hn)
    · exact fun name hc => by_contra fun hn => hseen (.extraSet hc hn)
    · exact fun name hc => by_contra fun hn => hseen (.extraObject hc hn)

/-! ## What each step of the differ sees -/

theorem any_ruleChanges (table name : String) (current : Option ParsedChain) (desired : ParsedChain) :
    (ruleChanges false table name current desired).any = true ↔
      (current.map ParsedChain.rules).getD [] ≠ desired.rules := by
  rw [Ne, ← diffRules_eq_nil_iff, Prod.ext_iff]
  simp only [ruleChanges, Changes.any, Bool.not_false, Bool.true_or, if_true, List.isEmpty_map, List.isEmpty_nil,
    Bool.not_true, Bool.or_false, Bool.false_or, Bool.or_eq_true, Bool.not_eq_true', List.isEmpty_eq_false_iff]
  tauto

theorem any_diffChain (table name : String) (current : Option ParsedChain) (desired : ParsedChain) :
    (diffChain false table name current desired).any = true ↔ ChainSeen current desired := by
  unfold ChainSeen
  cases current with
  | none => simp [diffChain, any_ruleChanges]
  | some c =>
    simp only [diffChain, isBuiltin, decide_eq_true_eq]
    split
    · rename_i h
      -- a base chain with another header is rebuilt or gets a policy change
      split
      · simp [Changes.any, h.1, h.2]
      · rw [Changes.any_append]
        simp [Changes.any, h.1, h.2]
    · rename_i h
      rw [any_ruleChanges]
      simp only [not_and] at h
      simp only [Option.some.injEq, exists_eq_left', iff_self_or]
      exact fun hc => absurd hc.2 (h hc.1)

theorem any_diffSet (table name : String) (current : Option ParsedSet) (desired : ParsedSet) :
    (diffSet table name current desired).any = true ↔ ¬ SameSet current desired := by
  cases current with
  | none => simp [diffSet, Changes.any, SameSet]
  | some c =>
    simp only [diffSet, SameSet, Option.some.injEq, exists_eq_left', ne_eq, Prod.mk.injEq]
    split
    · rename_i h
      exact iff_of_true rfl fun hs => h ⟨hs.1, hs.2.1⟩
    · rename_i h
      rw [not_not] at h
      split
      · rename_i he
        simp only [Bool.and_eq_true, Bool.not_eq_true', decide_eq_true_eq] at he
        exact iff_of_true rfl fun hs => he.2 (hs.2.2 he.1)
      · rename_i he
        simp only [Bool.and_eq_true, Bool.not_eq_true', decide_eq_true_eq, not_and, not_not] at he
        exact iff_of_false (by simp) (not_not.2 ⟨h.1, h.2, he⟩)

theorem any_diffExtraSet (table : String) (desired : ParsedTable) (name : String) :
    (diffExtraSet table desired name).any = true ↔ name ∉ desired.sets := by
  by_cases h : name ∈ desired.sets <;> simp [diffExtraSet, h, Changes.any]

theorem any_diffObject (table : String) (other : ParsedTable) (added : Bool) (name : String) (object : ParsedObject) :
    (diffObject table other added name object).any = true ↔ name ∉ other.objects := by
  by_cases h : name ∈ other.objects <;> simp [diffObject, h, Changes.any]

theorem any_diffExtraChain (table : String) (desired : ParsedTable) (name : String) (current : ParsedChain) :
    (diffExtraChain false table desired name current).any = true ↔ name ∉ desired.chains := by
  by_cases h : name ∈ desired.chains
  · simp [diffExtraChain, h]
  · cases hb : isBuiltin current <;> simp [diffExtraChain, h, hb, Changes.any]

/-- The differ finds a change in a table exactly when the tables differ in a way it sees. -/
theorem any_diffTable (table : String) (current desired : ParsedTable) :
    (diffTable false table current desired).any = true ↔ TableSeen current desired := by
  rw [diffTable, Changes.any_concat]
  constructor
  · rintro ⟨changes, hm, h⟩
    simp only [List.mem_append, List.mem_map] at hm
    obtain ((((⟨e, he, rfl⟩ | ⟨e, he, rfl⟩) | ⟨e, he, rfl⟩) | ⟨e, he, rfl⟩) | ⟨e, he, rfl⟩) | ⟨e, he, rfl⟩ := hm
    · exact .chain (Dict.get?_eq_some_iff.2 he) ((any_diffChain _ _ _ _).1 h)
    · exact .set (Dict.get?_eq_some_iff.2 he) ((any_diffSet _ _ _ _).1 h)
    · exact .extraSet (Dict.mem_of_mem_entries he) ((any_diffExtraSet _ _ _).1 h)
    · exact .object (Dict.mem_of_mem_entries he) ((any_diffObject _ _ _ _ _).1 h)
    · exact .extraObject (Dict.mem_of_mem_entries he) ((any_diffObject _ _ _ _ _).1 h)
    · exact .extraChain (Dict.mem_of_mem_entries he) ((any_diffExtraChain _ _ _ _).1 h)
  · have entry {α : Type} {d : Dict String α} {name : String} (h : name ∈ d) : ∃ v, (name, v) ∈ d.entries := by
      obtain ⟨v, hv⟩ := Dict.mem_iff_exists.1 h
      exact ⟨v, Dict.get?_eq_some_iff.1 hv⟩
    simp only [List.mem_append, List.mem_map]
    rintro (⟨hd, hc⟩ | ⟨hd, hs⟩ | ⟨hc, hd⟩ | ⟨hd, hc⟩ | ⟨hc, hd⟩ | ⟨hc, hd⟩)
    · exact ⟨_, .inl (.inl (.inl (.inl (.inl ⟨_, Dict.get?_eq_some_iff.1 hd, rfl⟩)))), (any_diffChain _ _ _ _).2 hc⟩
    · exact ⟨_, .inl (.inl (.inl (.inl (.inr ⟨_, Dict.get?_eq_some_iff.1 hd, rfl⟩)))), (any_diffSet _ _ _ _).2 hs⟩
    · obtain ⟨v, hv⟩ := entry hc
      exact ⟨_, .inl (.inl (.inl (.inr ⟨_, hv, rfl⟩))), (any_diffExtraSet _ _ _).2 hd⟩
    · obtain ⟨v, hv⟩ := entry hd
      exact ⟨_, .inl (.inl (.inr ⟨_, hv, rfl⟩)), (any_diffObject _ _ _ _ _).2 hc⟩
    · obtain ⟨v, hv⟩ := entry hc
      exact ⟨_, .inl (.inr ⟨_, hv, rfl⟩), (any_diffObject _ _ _ _ _).2 hd⟩
    · obtain ⟨v, hv⟩ := entry hc
      exact ⟨_, .inr ⟨_, hv, rfl⟩, (any_diffExtraChain _ _ _ _).2 hd⟩

/-! ## The plan -/

/-- The plan has changes exactly when some desired table differs in a way the differ sees. -/
theorem hasChanges_iff_seen (current desired : Dict String ParsedTable) :
    (diffTables current desired false).hasChanges = true ↔ SeenDifference current desired := by
  rw [PlanDiff.hasChanges_eq_any, diffTables, Changes.any_concat]
  constructor
  · rintro ⟨changes, hm, h⟩
    obtain ⟨e, he, rfl⟩ := List.mem_map.1 hm
    exact ⟨e.1, e.2, Dict.get?_eq_some_iff.2 he, (any_diffTable _ _ _).1 h⟩
  · rintro ⟨name, t, ht, h⟩
    exact ⟨_, List.mem_map.2 ⟨(name, t), Dict.get?_eq_some_iff.1 ht, rfl⟩, (any_diffTable _ _ _).2 h⟩

theorem same_iff (current desired : Dict String ParsedTable) :
    Same current desired ↔ ¬ SeenDifference current desired ∧ ¬ UnseenDifference current desired := by
  unfold Same SeenDifference UnseenDifference
  constructor
  · intro h
    refine ⟨?_, ?_⟩
    · rintro ⟨name, t, ht, hs⟩
      exact ((sameTable_iff _ _).1 (h name t ht)).1 hs
    · rintro ⟨name, t, ht, chain, c, hc, hu⟩
      exact ((sameTable_iff _ _).1 (h name t ht)).2 chain c hc hu
  · rintro ⟨hs, hu⟩ name t ht
    exact (sameTable_iff _ _).2 ⟨fun h => hs ⟨name, t, ht, h⟩, fun chain c hc h => hu ⟨name, t, ht, chain, c, hc, h⟩⟩

/-- The plan's "no changes" is exact unless a difference the differ does not see is the only one there is. -/
theorem plan_honest_iff (current desired : Dict String ParsedTable) :
    ((diffTables current desired false).hasChanges = false ↔ Same current desired) ↔
      (UnseenDifference current desired → SeenDifference current desired) := by
  rw [← Bool.not_eq_true, hasChanges_iff_seen, same_iff]
  tauto

/-- The kernel has no table and the configuration wants one user chain without rules: the plan says "no changes". -/
theorem plan_not_honest :
    ¬ ∀ current desired : Dict String ParsedTable,
      (diffTables current desired false).hasChanges = false ↔ Same current desired := by
  intro h
  have hno : (diffTables Dict.empty
      (fermTables (some { chains := Dict.empty.set "c" { policy := ["-"] } })) false).hasChanges = false := by decide
  obtain ⟨c, hc, _⟩ := ((h _ _).1 hno NFT_TABLE_NAME _ rfl).chain "c" { policy := ["-"] } rfl
  cases hc

end Ferm
