import Ferm.Plan.Diff

/-!
# What a plan names

The lists of the plan of one table, and for every desired chain the one thing they say is to be done with it.
-/

namespace Ferm

/-! ## Actions -/

/-- What the plan of a table makes of a desired chain. -/
inductive ChainAction where
  | add
  | rebuild
  | refill
  | redeclare
  | keep
  deriving DecidableEq, Repr

/-- A chain that is not there is added; another priority rebuilds a base chain; other rules refill the chain; another header of
a base chain redeclares it. -/
def chainAction (current : Option ParsedChain) (desired : ParsedChain) : ChainAction :=
  match current with
  | none => .add
  | some c =>
    if isBuiltin c ∧ desired.policy ≠ c.policy ∧ headerPriority c.policy ≠ headerPriority desired.policy then .rebuild
    else if c.rules ≠ desired.rules then .refill
    else if isBuiltin c ∧ desired.policy ≠ c.policy then .redeclare
    else .keep

/-! ## The lists of a table -/

/-- A walk none of whose steps adds to a list adds nothing to it. -/
theorem flatMap_nil {α β : Type} {l : List α} {f : α → List β} (h : ∀ a, f a = []) : l.flatMap f = [] :=
  List.flatMap_eq_nil_iff.2 fun a _ => h a

/-- The walk over the desired chains fills four lists. -/
theorem diffChain_fields (noflush : Bool) (table name : String) (current : Option ParsedChain) (desired : ParsedChain) :
    (diffChain noflush table name current desired).foreignChains = [] ∧
      (diffChain noflush table name current desired).desuetChains = [] ∧
      (diffChain noflush table name current desired).setChanges = [] ∧
      (diffChain noflush table name current desired).objectChanges = [] := by
  cases current with
  | none => simp [diffChain, ruleChanges]
  | some c =>
    simp only [diffChain]
    split
    · split <;> simp [Changes.append, ruleChanges]
    · simp [ruleChanges]

/-- The walks over the sets fill one list. -/
theorem diffSet_fields (table name : String) (current : Option ParsedSet) (desired : ParsedSet) :
    diffSet table name current desired = { setChanges := (diffSet table name current desired).setChanges } := by
  cases current with
  | none => rfl
  | some c =>
    simp only [diffSet]
    split
    · rfl
    · split <;> rfl

theorem diffExtraSet_fields (table : String) (desired : ParsedTable) (name : String) :
    diffExtraSet table desired name = { setChanges := (diffExtraSet table desired name).setChanges } := by
  unfold diffExtraSet
  split <;> rfl

/-- The walks over the objects fill one list. -/
theorem diffObject_fields (table : String) (other : ParsedTable) (added : Bool) (name : String) (object : ParsedObject) :
    diffObject table other added name object =
      { objectChanges := (diffObject table other added name object).objectChanges } := by
  unfold diffObject
  split <;> rfl

/-- The walk over the current chains fills two lists. -/
theorem diffExtraChain_fields (noflush : Bool) (table : String) (desired : ParsedTable) (name : String)
    (current : ParsedChain) :
    diffExtraChain noflush table desired name current =
      { foreignChains := (diffExtraChain noflush table desired name current).foreignChains
        desuetChains := (diffExtraChain noflush table desired name current).desuetChains } := by
  unfold diffExtraChain
  split
  · rfl
  · split
    · rfl
    · split <;> rfl

section

variable (noflush : Bool) (table : String) (current desired : ParsedTable)

/-- A list that only the walk over the desired chains fills. -/
theorem diffTable_chainField {α : Type} (field : Changes → List α) (hnil : field {} = [])
    (happend : ∀ a b : Changes, field (a.append b) = field a ++ field b) (hset : ∀ s, field { setChanges := s } = [])
    (hobj : ∀ o, field { objectChanges := o } = []) (hextra : ∀ f d, field { foreignChains := f, desuetChains := d } = []) :
    field (diffTable noflush table current desired) =
      desired.chains.entries.flatMap fun e => field (diffChain noflush table e.1 (current.chains.get? e.1) e.2) := by
  have hchains : (current.chains.entries.flatMap fun e => field (diffExtraChain noflush table desired e.1 e.2)) = [] :=
    flatMap_nil fun e => by rw [diffExtraChain_fields, hextra]
  rw [diffTable, Changes.concat_field field hnil happend]
  simp only [List.flatMap_append, List.flatMap_map]
  rw [flatMap_nil fun e : String × ParsedSet => by rw [diffSet_fields, hset],
    flatMap_nil fun e : String × ParsedSet => by rw [diffExtraSet_fields, hset],
    flatMap_nil fun e : String × ParsedObject => by rw [diffObject_fields, hobj],
    flatMap_nil fun e : String × ParsedObject => by rw [diffObject_fields, hobj], hchains]
  simp only [List.append_nil]

/-- A list that only the walk over the current chains fills. -/
theorem diffTable_extraChainField {α : Type} (field : Changes → List α) (hnil : field {} = [])
    (happend : ∀ a b : Changes, field (a.append b) = field a ++ field b) (hset : ∀ s, field { setChanges := s } = [])
    (hobj : ∀ o, field { objectChanges := o } = [])
    (hchain : ∀ name c d, field (diffChain noflush table name c d) = []) :
    field (diffTable noflush table current desired) =
      current.chains.entries.flatMap fun e => field (diffExtraChain noflush table desired e.1 e.2) := by
  rw [diffTable, Changes.concat_field field hnil happend]
  simp only [List.flatMap_append, List.flatMap_map]
  rw [flatMap_nil fun e : String × ParsedChain => hchain _ _ _,
    flatMap_nil fun e : String × ParsedSet => by rw [diffSet_fields, hset],
    flatMap_nil fun e : String × ParsedSet => by rw [diffExtraSet_fields, hset],
    flatMap_nil fun e : String × ParsedObject => by rw [diffObject_fields, hobj],
    flatMap_nil fun e : String × ParsedObject => by rw [diffObject_fields, hobj]]
  simp only [List.nil_append]

theorem diffTable_desuetChains :
    (diffTable noflush table current desired).desuetChains =
      current.chains.entries.flatMap fun e => (diffExtraChain noflush table desired e.1 e.2).desuetChains :=
  diffTable_extraChainField _ _ _ _ Changes.desuetChains rfl (fun _ _ => rfl) (fun _ => rfl) (fun _ => rfl)
    fun _ _ _ => (diffChain_fields _ _ _ _ _).2.1

theorem diffTable_foreignChains :
    (diffTable noflush table current desired).foreignChains =
      current.chains.entries.flatMap fun e => (diffExtraChain noflush table desired e.1 e.2).foreignChains :=
  diffTable_extraChainField _ _ _ _ Changes.foreignChains rfl (fun _ _ => rfl) (fun _ => rfl) (fun _ => rfl)
    fun _ _ _ => (diffChain_fields _ _ _ _ _).1

theorem diffTable_setChanges :
    (diffTable noflush table current desired).setChanges =
      (desired.sets.entries.flatMap fun e => (diffSet table e.1 (current.sets.get? e.1) e.2).setChanges) ++
        current.sets.entries.flatMap fun e => (diffExtraSet table desired e.1).setChanges := by
  rw [diffTable, Changes.concat_setChanges]
  simp only [List.flatMap_append, List.flatMap_map]
  rw [flatMap_nil fun e : String × ParsedChain => (diffChain_fields noflush table e.1 _ e.2).2.2.1,
    flatMap_nil fun e : String × ParsedObject => by rw [diffObject_fields],
    flatMap_nil fun e : String × ParsedObject => by rw [diffObject_fields],
    flatMap_nil fun e : String × ParsedChain => by rw [diffExtraChain_fields]]
  simp only [List.nil_append, List.append_nil]

theorem diffTable_objectChanges :
    (diffTable noflush table current desired).objectChanges =
      (desired.objects.entries.flatMap fun e => (diffObject table current true e.1 e.2).objectChanges) ++
        current.objects.entries.flatMap fun e => (diffObject table desired false e.1 e.2).objectChanges := by
  rw [diffTable, Changes.concat_objectChanges]
  simp only [List.flatMap_append, List.flatMap_map]
  rw [flatMap_nil fun e : String × ParsedChain => (diffChain_fields noflush table e.1 _ e.2).2.2.2,
    flatMap_nil fun e : String × ParsedSet => by rw [diffSet_fields],
    flatMap_nil fun e : String × ParsedSet => by rw [diffExtraSet_fields],
    flatMap_nil fun e : String × ParsedChain => by rw [diffExtraChain_fields]]
  simp only [List.nil_append, List.append_nil]

/-! ## The names in the lists -/

/-- A walk over the desired chains that names each of its changes after its chain names a chain when its step does. -/
theorem mem_map_flatMap {α : Type} {chains : Dict String ParsedChain} {f : String × ParsedChain → List α}
    {chain : α → String} (hf : ∀ e, ∀ x ∈ f e, chain x = e.1) {name : String} {d : ParsedChain}
    (hd : chains.get? name = some d) : name ∈ (chains.entries.flatMap f).map chain ↔ f (name, d) ≠ [] := by
  constructor
  · intro h
    obtain ⟨x, hx, hname⟩ := List.mem_map.1 h
    obtain ⟨e, he, hx⟩ := List.mem_flatMap.1 hx
    have hk : e.1 = name := (hf e x hx).symm.trans hname
    have hv : chains.get? e.1 = some e.2 := Dict.get?_eq_some_iff.2 he
    rw [hk, hd] at hv
    have : e = (name, d) := Prod.ext hk (Option.some.inj hv).symm
    rw [← this]
    exact List.ne_nil_of_mem hx
  · intro h
    obtain ⟨x, hx⟩ := List.exists_mem_of_ne_nil _ h
    exact List.mem_map.2 ⟨x, List.mem_flatMap.2 ⟨_, Dict.get?_eq_some_iff.1 hd, hx⟩, hf _ x hx⟩

/-- Every change of a chain names the chain. -/
theorem diffChain_names (name : String) (c : Option ParsedChain) (d : ParsedChain) :
    (∀ x ∈ (diffChain noflush table name c d).chainRebuilds, x.chain = name) ∧
      (∀ x ∈ (diffChain noflush table name c d).rulesAdded, x.chain = name) ∧
      (∀ x ∈ (diffChain noflush table name c d).rulesRemoved, x.chain = name) ∧
      ∀ x ∈ (diffChain noflush table name c d).policyChanges, x.chain = name := by
  have hrules : (∀ x ∈ (ruleChanges noflush table name c d).rulesAdded, x.chain = name) ∧
      ∀ x ∈ (ruleChanges noflush table name c d).rulesRemoved, x.chain = name := by
    constructor
    · intro x hx
      obtain ⟨_, _, rfl⟩ := List.mem_map.1 hx
      rfl
    · intro x hx
      simp only [ruleChanges] at hx
      split at hx
      · obtain ⟨_, _, rfl⟩ := List.mem_map.1 hx
        rfl
      · cases hx
  cases c with
  | none => exact ⟨by simp [diffChain, ruleChanges], hrules.1, hrules.2, by simp [diffChain, ruleChanges]⟩
  | some c =>
    simp only [diffChain]
    split
    · split
      · simp
      · simpa [Changes.append, ruleChanges] using hrules
    · exact ⟨by simp [ruleChanges], hrules.1, hrules.2, by simp [ruleChanges]⟩

end

/-- What the lists of a plan say about a chain that both sides have. -/
theorem chainAction_iff (table name : String) (c d : ParsedChain) :
    ((diffChain false table name (some c) d).chainRebuilds ≠ [] ↔ chainAction (some c) d = .rebuild) ∧
      (chainAction (some c) d ≠ .rebuild →
        ((diffChain false table name (some c) d).rulesAdded ≠ [] ∨ (diffChain false table name (some c) d).rulesRemoved ≠ [] ↔
          chainAction (some c) d = .refill)) ∧
      (chainAction (some c) d ≠ .rebuild → chainAction (some c) d ≠ .refill →
        ((diffChain false table name (some c) d).policyChanges ≠ [] ↔ chainAction (some c) d = .redeclare)) := by
  have hrules := diffRules_eq_nil_iff c.rules d.rules
  rw [Prod.ext_iff] at hrules
  simp only at hrules
  have hsame : diffRules d.rules d.rules = ([], []) := (diffRules_eq_nil_iff _ _).2 rfl
  have hchanged : ((diffRules c.rules d.rules).1 ≠ [] ∨ (diffRules c.rules d.rules).2 ≠ []) ↔ c.rules ≠ d.rules := by
    rw [Ne, Ne, Ne, ← hrules]
    tauto
  by_cases hb : isBuiltin c = true ∧ d.policy ≠ c.policy
  · by_cases hp : headerPriority c.policy ≠ headerPriority d.policy
    · simp [diffChain, chainAction, hb.1, hb.2, hp]
    · by_cases hr : c.rules = d.rules
      · simp [diffChain, chainAction, hb.1, hb.2, hp, hr, ruleChanges, Changes.append, hsame]
      · simp [diffChain, chainAction, hb.1, hb.2, hp, hr, ruleChanges, Changes.append, hchanged]
  · have hb' : ¬ (isBuiltin c = true ∧ d.policy ≠ c.policy ∧ headerPriority c.policy ≠ headerPriority d.policy) :=
      fun h => hb ⟨h.1, h.2.1⟩
    by_cases hr : c.rules = d.rules
    · simp [diffChain, chainAction, hb, hb', hr, ruleChanges, hsame]
    · simp [diffChain, chainAction, hb, hb', hr, ruleChanges, hchanged]

/-- What the action on a chain that is there says of the chain. -/
theorem chainAction_cases (c d : ParsedChain) :
    (chainAction (some c) d = .rebuild ∧
        isBuiltin c ∧ d.policy ≠ c.policy ∧ headerPriority c.policy ≠ headerPriority d.policy) ∨
      (¬ (isBuiltin c ∧ d.policy ≠ c.policy ∧ headerPriority c.policy ≠ headerPriority d.policy) ∧
        (chainAction (some c) d = .refill ∨ (chainAction (some c) d = .redeclare ∧ c.rules = d.rules) ∨
          (chainAction (some c) d = .keep ∧ c.rules = d.rules ∧ ¬ (isBuiltin c ∧ d.policy ≠ c.policy)))) := by
  by_cases hb : isBuiltin c = true ∧ d.policy ≠ c.policy ∧ headerPriority c.policy ≠ headerPriority d.policy
  · exact .inl ⟨by rw [chainAction, if_pos hb], hb⟩
  · refine .inr ⟨hb, ?_⟩
    rw [chainAction, if_neg hb]
    by_cases hr : c.rules = d.rules
    · rw [if_neg (not_not.2 hr)]
      by_cases hp : isBuiltin c = true ∧ d.policy ≠ c.policy
      · exact .inr (.inl ⟨if_pos hp, hr⟩)
      · exact .inr (.inr ⟨if_neg hp, hr, hp⟩)
    · exact .inl (if_pos hr)

/-- A chain whose rules and header show no difference is kept. -/
theorem chainAction_of_not_seen {c d : ParsedChain} (h : ¬ ChainSeen (some c) d) : chainAction (some c) d = .keep := by
  have hrules : c.rules = d.rules := by_contra fun hr => h (.inl hr)
  have hpolicy : ¬ (isBuiltin c = true ∧ d.policy ≠ c.policy) :=
    fun hp => h (.inr ⟨c, rfl, decide_eq_true_iff.1 hp.1, hp.2⟩)
  rw [chainAction, if_neg fun hb => hpolicy ⟨hb.1, hb.2.1⟩, if_neg (not_not.2 hrules), if_neg hpolicy]

end Ferm
