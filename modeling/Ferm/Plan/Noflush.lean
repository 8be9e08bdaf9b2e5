import Ferm.Lib.KeyedRun
import Ferm.Plan.Actions
import Mathlib.Data.List.Count

/-!
# Plans under --noflush

What a plan says will become of the kernel's chains, and what `iptables-restore --noflush` makes of them: it empties the
declared user chains, keeps the rules of the built-in and of the undeclared chains, and appends every rule of the save. The two
agree on a chain when it is a user chain, or a built-in one none of whose configured rules is already there; a configured rule
that is there already is appended again and not counted, which the plan's own notes say.
-/

namespace Ferm

open SequenceMatcher Keyed

/-- The chains of a family, by table and name. -/
abbrev LiveChains : Type := String × String → Option ParsedChain

/-- The chains of a parsed model. -/
def liveChains (tables : Dict String ParsedTable) : LiveChains := fun k => (tableOf tables k.1).chains.get? k.2

/-! ## Applying a plan -/

/-- One change of a plan. -/
inductive PlanEdit where
  | policy (change : PolicyChange)
  | remove (rule : RuleChange)
  | add (rule : RuleChange)
  | drop (chain : ForeignChain)
  deriving DecidableEq, Repr

namespace PlanEdit

/-- The chain a change is about. -/
def target : PlanEdit → String × String
  | policy c => (c.table, c.chain)
  | remove r => (r.table, r.chain)
  | add r => (r.table, r.chain)
  | drop f => (f.table, f.chain)

/-- What a change makes of its chain. A rule that is added to a chain which is not there makes it a user chain. -/
def onChain : PlanEdit → Option ParsedChain → Option ParsedChain
  | policy c, chain => chain.map fun p => { p with policy := c.new }
  | remove r, chain => chain.map fun p => { p with rules := p.rules.erase r.rule }
  | add r, chain => some ((chain.getD ⟨["-"], []⟩).addRule r.rule)
  | drop _, _ => none

end PlanEdit

/-- The changes of a plan: the policies, then the rules it removes and adds, then the chains it drops. -/
def Changes.edits (d : Changes) : List PlanEdit :=
  d.policyChanges.map .policy ++ d.rulesRemoved.map .remove ++ d.rulesAdded.map .add ++ d.foreignChains.map .drop

/-- Work on one chain. -/
def editChain (f : Option ParsedChain → Option ParsedChain) (k : String × String) (s : LiveChains) : LiveChains :=
  fun k' => if k' = k then f (s k) else s k'

/-- The chains after the changes of a plan. -/
def PlanDiff.applyTo (d : PlanDiff) (s : LiveChains) : LiveChains :=
  d.toChanges.edits.foldl (fun s e => editChain e.onChain e.target s) s

/-! ## Restoring a save without flushing -/

/-- One line of a save. -/
inductive SaveLine where
  | declare (table chain : String) (policy : List String)
  | append (table chain rule : String)
  deriving DecidableEq, Repr

namespace SaveLine

/-- The chain a line is about. -/
def target : SaveLine → String × String
  | declare t c _ => (t, c)
  | append t c _ => (t, c)

/-- What a line makes of its chain. A declared user chain is emptied, a built-in one keeps its rules and takes the policy that
is given; a rule is appended. -/
def onChain : SaveLine → Option ParsedChain → Option (Option ParsedChain)
  | declare _ _ policy, none => some (some ⟨policy, []⟩)
  | declare _ _ policy, some c =>
    if isBuiltin c then some (some (if policy = ["-"] then c else { c with policy := policy })) else some (some ⟨policy, []⟩)
  | append _ _ rule, some c => some (some (c.addRule rule))
  | append _ _ _, none => none

/-- Read one line; a rule for a chain that is not there is refused. -/
def step (line : SaveLine) (s : LiveChains) : Option LiveChains :=
  (line.onChain (s line.target)).map fun chain => editChain (fun _ => chain) line.target s

end SaveLine

/-- The lines of the save that a desired model is read from. -/
def saveLines (desired : Dict String ParsedTable) : List SaveLine :=
  desired.entries.flatMap fun t =>
    (t.2.chains.entries.map fun e => .declare t.1 e.1 e.2.policy) ++
      t.2.chains.entries.flatMap fun e => e.2.rules.map (.append t.1 e.1)

/-- `iptables-restore --noflush` of the desired save. -/
def restoreNoflush (desired : Dict String ParsedTable) (s : LiveChains) : Option LiveChains :=
  runScript SaveLine.step (saveLines desired) s

/-- The same policy and the same rules, each as often. -/
def SameRules (a b : ParsedChain) : Prop := a.policy = b.policy ∧ a.rules.Perm b.rules

/-- The plan tells what restoring does: the same chains, each with the same policy and the same rules. -/
def NoflushFaithful (current desired : Dict String ParsedTable) : Prop :=
  ∃ restored, restoreNoflush desired (liveChains current) = some restored ∧
    ∀ k, Option.Rel SameRules ((diffTables current desired true).applyTo (liveChains current) k) (restored k)

/-- When the plan of a desired chain is right: a chain that the kernel lacks is a user chain with rules; a user chain of the
kernel is one in the configuration too; a built-in chain gets a policy change if its policy differs, and none of its configured
rules is there already. -/
def ChainFaithful : Option ParsedChain → ParsedChain → Prop
  | none, desired => desired.policy = ["-"] ∧ desired.rules ≠ []
  | some c, desired =>
    if isBuiltin c then
      (desired.policy = c.policy ∨ (desired.policy ≠ ["-"] ∧ headerPriority c.policy = headerPriority desired.policy) ∨
        (desired.policy = ["-"] ∧ headerPriority c.policy ≠ headerPriority desired.policy ∧ desired.rules = [])) ∧
        ∀ r ∈ c.rules, r ∉ desired.rules
    else desired.policy = ["-"]

/-- A desired chain with no more wrong in its plan than rules that are there already: a chain that the kernel lacks is a user chain
with rules, a user chain of the kernel is one in the configuration too, and a built-in chain gets a policy change if its policy
differs. -/
def ChainPlanned : Option ParsedChain → ParsedChain → Prop
  | none, desired => desired.policy = ["-"] ∧ desired.rules ≠ []
  | some c, desired =>
    if isBuiltin c then
      desired.policy = c.policy ∨ (desired.policy ≠ ["-"] ∧ headerPriority c.policy = headerPriority desired.policy) ∨
        (desired.policy = ["-"] ∧ headerPriority c.policy ≠ headerPriority desired.policy ∧ desired.rules = [])
    else desired.policy = ["-"]

/-- The configured rules of a chain that keeps its rules which the differ matches with rules that are there already. -/
def overlap : Option ParsedChain → ParsedChain → List String
  | none, _ => []
  | some c, desired => if isBuiltin c then keptBy c.rules (getOpcodes c.rules desired.rules) else []

/-- The same policy and the same rules, each as often, but for rules that one of the two has in addition. -/
def SameRulesBut (extra : List String) (a b : ParsedChain) : Prop := a.policy = b.policy ∧ (a.rules ++ extra).Perm b.rules

/-! ## One chain at a time -/

/-- A plan's changes of one chain do to it what they do in the whole plan. -/
theorem foldl_editChain (edits : List PlanEdit) (s : LiveChains) (k : String × String) :
    edits.foldl (fun s e => editChain e.onChain e.target s) s k =
      (onKey PlanEdit.target k edits).foldl (fun chain e => e.onChain chain) (s k) := by
  induction edits generalizing s with
  | nil => rfl
  | cons e edits ih =>
    rw [List.foldl_cons, ih, onKey_cons]
    by_cases hk : e.target = k
    · rw [if_pos hk, List.foldl_cons, editChain, if_pos hk.symm, hk]
    · rw [if_neg hk, editChain, if_neg (Ne.symm hk)]

/-- Every change of a chain is about the chain. -/
theorem diffChain_target (t c : String) (p : Option ParsedChain) (d : ParsedChain) :
    (∀ x ∈ (diffChain true t c p d).policyChanges, (PlanEdit.policy x).target = (t, c)) ∧
      (∀ x ∈ (diffChain true t c p d).rulesRemoved, (PlanEdit.remove x).target = (t, c)) ∧
      ∀ x ∈ (diffChain true t c p d).rulesAdded, (PlanEdit.add x).target = (t, c) := by
  have hrules : (∀ x ∈ (ruleChanges true t c p d).rulesRemoved, (PlanEdit.remove x).target = (t, c)) ∧
      ∀ x ∈ (ruleChanges true t c p d).rulesAdded, (PlanEdit.add x).target = (t, c) := by
    refine ⟨fun x hx => ?_, fun x hx => ?_⟩
    · simp only [ruleChanges] at hx
      split at hx
      · obtain ⟨_, -, rfl⟩ := List.mem_map.1 hx
        rfl
      · cases hx
    · obtain ⟨_, -, rfl⟩ := List.mem_map.1 hx
      rfl
  have hnone : ∀ x ∈ (ruleChanges true t c p d).policyChanges, (PlanEdit.policy x).target = (t, c) := by
    simp [ruleChanges]
  rcases p with _ | p
  · exact ⟨hnone, hrules⟩
  · simp only [diffChain]
    split
    · split
      · simp
      · simpa [Changes.append, ruleChanges, PlanEdit.target] using hrules
    · exact ⟨hnone, hrules⟩

/-- A plan's changes of a desired chain are those that the differ finds for it, and it changes no other chain. -/
theorem onKey_edits (current desired : Dict String ParsedTable) (t c : String) :
    onKey PlanEdit.target (t, c) (diffTables current desired true).toChanges.edits =
      (((desired.get? t).bind fun T => T.chains.get? c).map fun d =>
        (diffChain true t c (liveChains current (t, c)) d).edits).getD [] := by
  have hfield : ∀ {α : Type} (field : Changes → List α) (edit : α → PlanEdit), field {} = [] →
      (∀ a b : Changes, field (a.append b) = field a ++ field b) → (∀ s, field { setChanges := s } = []) →
      (∀ o, field { objectChanges := o } = []) → (∀ f d, field { foreignChains := f, desuetChains := d } = []) →
      (∀ t c p d, ∀ x ∈ field (diffChain true t c p d), (edit x).target = (t, c)) →
      onKey PlanEdit.target (t, c) ((field (diffTables current desired true).toChanges).map edit) =
        (((desired.get? t).bind fun T => T.chains.get? c).map fun d =>
          (field (diffChain true t c (liveChains current (t, c)) d)).map edit).getD [] := by
    intro α field edit hnil happend hset hobj hextra htarget
    rw [diffTables, Changes.concat_field field hnil happend, List.flatMap_map, List.map_flatMap, onKey,
      Dict.filter_flatMap_entries desired t]
    · cases desired.get? t with
      | none => rfl
      | some T =>
        rw [Option.map_some, Option.getD_some, diffTable_chainField true t _ T field hnil happend hset hobj hextra,
          List.map_flatMap, Dict.filter_flatMap_entries T.chains c, Option.bind_some]
        · cases T.chains.get? c with
          | none => rfl
          | some d =>
            refine onKey_eq_self fun e he => ?_
            obtain ⟨x, hx, rfl⟩ := List.mem_map.1 he
            exact htarget _ _ _ _ x hx
        · intro e _ he x hx
          obtain ⟨y, hy, rfl⟩ := List.mem_map.1 hx
          simp [htarget _ _ _ _ y hy, he]
    · intro e _ he x hx
      obtain ⟨y, hy, rfl⟩ := List.mem_map.1 hx
      rw [diffTable_chainField true e.1 _ e.2 field hnil happend hset hobj hextra] at hy
      obtain ⟨p, -, hy⟩ := List.mem_flatMap.1 hy
      simp [htarget _ _ _ _ y hy, he]
  have hforeign : (diffTables current desired true).foreignChains = [] := by
    rw [diffTables, Changes.concat_foreignChains, List.flatMap_map]
    refine flatMap_nil fun e => ?_
    rw [diffTable_foreignChains]
    refine flatMap_nil fun p => ?_
    unfold diffExtraChain
    split
    · rfl
    · split <;> rfl
  rw [Changes.edits, hforeign, List.map_nil, List.append_nil, onKey_append, onKey_append,
    hfield Changes.policyChanges .policy rfl (fun _ _ => rfl) (fun _ => rfl) (fun _ => rfl) (fun _ _ => rfl) fun t c p d => (diffChain_target t c p d).1,
    hfield Changes.rulesRemoved .remove rfl (fun _ _ => rfl) (fun _ => rfl) (fun _ => rfl) (fun _ _ => rfl) fun t c p d => (diffChain_target t c p d).2.1,
    hfield Changes.rulesAdded .add rfl (fun _ _ => rfl) (fun _ => rfl) (fun _ => rfl) (fun _ _ => rfl) fun t c p d => (diffChain_target t c p d).2.2]
  cases (desired.get? t).bind fun T => T.chains.get? c with
  | none => rfl
  | some d =>
    simp only [Option.map_some, Option.getD_some, Changes.edits, (diffChain_fields true t c _ d).1, List.map_nil, List.append_nil]

/-- Removing rules from a chain one by one removes as many of each. -/
theorem foldl_remove (t n : String) (rules : List String) (c : ParsedChain) :
    ((rules.map fun r => ⟨t, n, r⟩).map PlanEdit.remove).foldl (fun chain e => e.onChain chain) (some c) =
      some { c with rules := c.rules.diff rules } := by
  induction rules generalizing c with
  | nil => rfl
  | cons r rules ih =>
    rw [List.map_cons, List.map_cons, List.foldl_cons, PlanEdit.onChain, Option.map_some, ih, List.diff_cons]

/-- Rules that are added come after those of the chain; without a chain they make one. -/
theorem foldl_add (t n : String) (rules : List String) (chain : Option ParsedChain) :
    ((rules.map fun r => ⟨t, n, r⟩).map PlanEdit.add).foldl (fun chain e => e.onChain chain) chain =
      if rules = [] then chain
      else some { chain.getD ⟨["-"], []⟩ with rules := (chain.getD ⟨["-"], []⟩).rules ++ rules } := by
  induction rules generalizing chain with
  | nil => rfl
  | cons r rules ih =>
    rw [List.map_cons, List.map_cons, List.foldl_cons, ih, if_neg (List.cons_ne_nil r rules)]
    simp only [PlanEdit.onChain, Option.getD_some, ParsedChain.addRule]
    split
    · rename_i hnil
      rw [hnil]
    · rw [List.append_assoc, List.singleton_append]

/-- Rules that are added to a chain that is there come after its own. -/
theorem foldl_add_some (t n : String) (rules : List String) (p : ParsedChain) :
    ((rules.map fun r => ⟨t, n, r⟩).map PlanEdit.add).foldl (fun chain e => e.onChain chain) (some p) =
      some { p with rules := p.rules ++ rules } := by
  rw [foldl_add]
  split
  · rename_i hnil
    rw [hnil, List.append_nil]
  · rfl

/-- What restoring makes of a declared chain. -/
def restoredChain : Option ParsedChain → ParsedChain → ParsedChain
  | none, desired => desired
  | some c, desired =>
    if isBuiltin c then
      { policy := if desired.policy = ["-"] then c.policy else desired.policy, rules := c.rules ++ desired.rules }
    else desired

theorem runScript_append_rules (t n : String) (rules : List String) (c : ParsedChain) :
    runScript SaveLine.onChain (rules.map (.append t n)) (some c) = some (some { c with rules := c.rules ++ rules }) := by
  induction rules generalizing c with
  | nil => simp
  | cons r rules ih =>
    rw [List.map_cons, runScript_cons, SaveLine.onChain, Option.bind_some, ih]
    simp [ParsedChain.addRule]

theorem keyed_saveLine : Keyed (fun _ => True) SaveLine.step (fun s k => s k) SaveLine.target SaveLine.onChain where
  here := by
    intro line s s' _ h
    obtain ⟨chain, hchain, rfl⟩ := Option.map_eq_some_iff.1 h
    rw [hchain, editChain, if_pos rfl]
  frame := by
    intro line s s' _ h k hk
    obtain ⟨chain, -, rfl⟩ := Option.map_eq_some_iff.1 h
    rw [editChain, if_neg hk]
  total := by
    intro line s _ h
    rw [SaveLine.step, Option.isSome_map]
    exact h

/-- The lines of the save about a chain: its declaration and its rules. -/
theorem onKey_saveLines (desired : Dict String ParsedTable) (t c : String) :
    onKey SaveLine.target (t, c) (saveLines desired) =
      (((desired.get? t).bind fun T => T.chains.get? c).map fun d =>
        .declare t c d.policy :: d.rules.map (.append t c)).getD [] := by
  have hwalk : ∀ (T : ParsedTable) (f : String × ParsedChain → List SaveLine), (∀ e, ∀ x ∈ f e, x.target = (t, e.1)) →
      (T.chains.entries.flatMap f).filter (fun x => x.target = (t, c)) =
        ((T.chains.get? c).map fun d => f (c, d)).getD [] := by
    intro T f hf
    rw [Dict.filter_flatMap_entries T.chains c]
    · cases T.chains.get? c with
      | none => rfl
      | some d => exact onKey_eq_self fun x hx => hf _ x hx
    · intro e _ he x hx
      simp [hf e x hx, he]
  rw [onKey, saveLines, Dict.filter_flatMap_entries desired t]
  · cases desired.get? t with
    | none => rfl
    | some T =>
      rw [Option.map_some, Option.getD_some, List.filter_append, Option.bind_some, List.map_eq_flatMap, hwalk, hwalk]
      · cases T.chains.get? c <;> rfl
      · intro e x hx
        obtain ⟨r, -, rfl⟩ := List.mem_map.1 hx
        rfl
      · intro e x hx
        rw [List.mem_singleton.1 hx]
        rfl
  · intro e _ he x hx
    have htarget : x.target.1 = e.1 := by
      rcases List.mem_append.1 hx with hx | hx
      · obtain ⟨p, -, rfl⟩ := List.mem_map.1 hx
        rfl
      · obtain ⟨p, -, hx⟩ := List.mem_flatMap.1 hx
        obtain ⟨r, -, rfl⟩ := List.mem_map.1 hx
        rfl
    refine decide_eq_false fun hk => he ?_
    rw [← htarget, hk]

/-- A declared chain and its rules, wherever their lines stand. -/
theorem runScript_declared (t n : String) (current : Option ParsedChain) (d : ParsedChain) :
    runScript SaveLine.onChain (.declare t n d.policy :: d.rules.map (.append t n)) current =
      some (some (restoredChain current d)) := by
  rw [runScript_cons]
  rcases current with _ | c
  · rw [SaveLine.onChain, Option.bind_some, runScript_append_rules]
    rfl
  · rw [SaveLine.onChain, restoredChain]
    split
    · rw [Option.bind_some]
      split <;> rw [runScript_append_rules]
    · rw [Option.bind_some, runScript_append_rules]
      rfl

/-- Restoring always succeeds, and works on the declared chains only. -/
theorem restoreNoflush_spec (desired : Dict String ParsedTable) (s : LiveChains) :
    ∃ restored, restoreNoflush desired s = some restored ∧
      ∀ t c, restored (t, c) =
        match (desired.get? t).bind fun T => T.chains.get? c with
        | some d => some (restoredChain (s (t, c)) d)
        | none => s (t, c) := by
  have hlocal : ∀ t c, runScript SaveLine.onChain (onKey SaveLine.target (t, c) (saveLines desired)) (s (t, c)) =
      some (match (desired.get? t).bind fun T => T.chains.get? c with
        | some d => some (restoredChain (s (t, c)) d)
        | none => s (t, c)) := by
    intro t c
    rw [onKey_saveLines]
    cases (desired.get? t).bind fun T => T.chains.get? c with
    | none => rfl
    | some d => exact runScript_declared t c _ d
  obtain ⟨restored, hrestored⟩ := Option.isSome_iff_exists.1
    (keyed_saveLine.run_isSome s (fun _ _ => trivial) fun k => by
      rw [hlocal k.1 k.2]
      rfl)
  refine ⟨restored, hrestored, fun t c => ?_⟩
  have hview := keyed_saveLine.view_run (fun _ _ => trivial) hrestored (t, c)
  rw [hlocal t c] at hview
  exact (Option.some.inj hview).symm

/-- The kept elements of two lists, with what is taken off the first. -/
theorem perm_diff {kept removed rules : List String} (h : rules.Perm (kept ++ removed)) : (rules.diff removed).Perm kept := by
  rw [List.perm_iff_count]
  intro r
  rw [List.count_diff, h.count_eq, List.count_append, Nat.add_sub_cancel]

theorem rel_some_iff {a b : ParsedChain} : Option.Rel SameRules (some a) (some b) ↔ SameRules a b :=
  ⟨fun h => by cases h; assumption, .some⟩

/-- What a plan's changes make of a chain that the kernel lacks, next to what restoring makes of it. -/
theorem rel_missing_iff (t n : String) (d : ParsedChain) :
    Option.Rel SameRules ((diffChain true t n none d).edits.foldl (fun chain e => e.onChain chain) none)
      (some (restoredChain none d)) ↔ ChainFaithful none d := by
  have hedits : (diffChain true t n none d).edits =
      ((addedBy d.rules (getOpcodes [] d.rules)).map fun r => ⟨t, n, r⟩).map PlanEdit.add := by
    simp [diffChain, ruleChanges, Changes.edits, diffRules, addedBy]
  have hperm := (perm_of_contract (getOpcodes_contract [] d.rules)).2
  rw [keptBy_getOpcodes_eq_nil_iff.2 (by simp), List.nil_append, List.drop_zero] at hperm
  rw [hedits, foldl_add]
  generalize addedBy d.rules (getOpcodes [] d.rules) = added at hperm
  split
  · rename_i hnil
    rw [hnil, List.perm_nil] at hperm
    refine iff_of_false (fun h => by cases h) ?_
    simp [ChainFaithful, hperm]
  · rename_i hne
    have hrules : d.rules ≠ [] := fun hnil => hne (List.nil_perm.1 (hnil ▸ hperm))
    rw [rel_some_iff]
    simp [SameRules, ChainFaithful, restoredChain, hrules, hperm.symm, eq_comm]

/-- What a plan's changes make of a user chain of the kernel. -/
theorem rel_user_iff (t n : String) {c : ParsedChain} (hb : isBuiltin c = false) (d : ParsedChain) :
    Option.Rel SameRules ((diffChain true t n (some c) d).edits.foldl (fun chain e => e.onChain chain) (some c))
      (some (restoredChain (some c) d)) ↔ ChainFaithful (some c) d := by
  have hedits : (diffChain true t n (some c) d).edits =
      ((removedBy c.rules (getOpcodes c.rules d.rules)).map fun r => ⟨t, n, r⟩).map PlanEdit.remove ++
        ((addedBy d.rules (getOpcodes c.rules d.rules)).map fun r => ⟨t, n, r⟩).map PlanEdit.add := by
    simp [diffChain, hb, ruleChanges, Changes.edits, diffRules, addedBy, removedBy]
  obtain ⟨hcurrent, hdesired⟩ := perm_of_contract (getOpcodes_contract c.rules d.rules)
  rw [List.drop_zero] at hcurrent hdesired
  have hpolicy : c.policy = ["-"] := by simpa [isBuiltin] using hb
  rw [hedits, List.foldl_append, foldl_remove, foldl_add]
  generalize addedBy d.rules (getOpcodes c.rules d.rules) = added at hdesired
  generalize removedBy c.rules (getOpcodes c.rules d.rules) = removed at hcurrent
  have hperm : (c.rules.diff removed ++ added).Perm d.rules := ((perm_diff hcurrent).append_right _).trans hdesired.symm
  split
  · rename_i hnil
    rw [hnil, List.append_nil] at hperm
    rw [rel_some_iff]
    simp [SameRules, ChainFaithful, restoredChain, hb, hpolicy, hperm, eq_comm]
  · rw [rel_some_iff]
    simp [SameRules, ChainFaithful, restoredChain, hb, hpolicy, hperm, eq_comm]

/-- What a plan's changes make of a built-in chain of the kernel. -/
theorem rel_builtin_iff (t n : String) {c : ParsedChain} (hb : isBuiltin c = true) (d : ParsedChain) :
    Option.Rel SameRules ((diffChain true t n (some c) d).edits.foldl (fun chain e => e.onChain chain) (some c))
      (some (restoredChain (some c) d)) ↔ ChainFaithful (some c) d := by
  have hpolicy : c.policy ≠ ["-"] := by simpa [isBuiltin] using hb
  have hadded : (addedBy d.rules (getOpcodes c.rules d.rules)).Perm d.rules ↔ ∀ r ∈ c.rules, r ∉ d.rules := by
    have hdesired := (perm_of_contract (getOpcodes_contract c.rules d.rules)).2
    rw [List.drop_zero] at hdesired
    rw [← keptBy_getOpcodes_eq_nil_iff]
    constructor
    · intro hperm
      have hlength := (hperm.trans hdesired).length_eq
      rw [List.length_append] at hlength
      exact List.eq_nil_of_length_eq_zero (by omega)
    · intro hnil
      rw [hnil] at hdesired
      exact hdesired.symm
  by_cases hsame : d.policy = c.policy
  · have hedits : (diffChain true t n (some c) d).edits =
        ((addedBy d.rules (getOpcodes c.rules d.rules)).map fun r => ⟨t, n, r⟩).map PlanEdit.add := by
      simp [diffChain, hb, hsame, ruleChanges, Changes.edits, diffRules, addedBy]
    rw [hedits, foldl_add_some, rel_some_iff]
    simp only [SameRules, restoredChain, ChainFaithful, hb, if_true, hsame, hpolicy, if_false, true_and, true_or,
      List.perm_append_left_iff, hadded]
  · by_cases hpriority : headerPriority c.policy = headerPriority d.policy
    · have hedits : (diffChain true t n (some c) d).edits = .policy ⟨t, n, c.policy, d.policy⟩ ::
          ((addedBy d.rules (getOpcodes c.rules d.rules)).map fun r => ⟨t, n, r⟩).map PlanEdit.add := by
        simp [diffChain, hb, hsame, hpriority, ruleChanges, Changes.edits, Changes.append, diffRules, addedBy]
      rw [hedits, List.foldl_cons, PlanEdit.onChain, Option.map_some, foldl_add_some, rel_some_iff]
      simp only [SameRules, restoredChain, ChainFaithful, hb, if_true, hsame, hpriority, List.perm_append_left_iff, hadded]
      by_cases huser : d.policy = ["-"]
      · simp [huser, Ne.symm hpolicy]
      · simp [huser]
    · have hedits : (diffChain true t n (some c) d).edits = [] := by
        simp [diffChain, hb, hsame, hpriority, Changes.edits]
      rw [hedits, List.foldl_nil, rel_some_iff]
      simp only [SameRules, restoredChain, ChainFaithful, hb, if_true, hsame, hpriority, and_false, false_or]
      by_cases hrules : d.rules = []
      · by_cases huser : d.policy = ["-"]
        · rw [huser] at hpriority
          simp [hrules, huser, hpriority]
        · simp [hrules, huser, Ne.symm hsame]
      · have hperm : ¬ c.rules.Perm (c.rules ++ d.rules) := by
          intro h
          have hlength := h.length_eq
          rw [List.length_append] at hlength
          exact hrules (List.eq_nil_of_length_eq_zero (by omega))
        simp [hrules, hperm]

/-- What a plan's changes make of a desired chain, next to what restoring makes of it. -/
theorem rel_edits_iff (t n : String) (current : Option ParsedChain) (d : ParsedChain) :
    Option.Rel SameRules ((diffChain true t n current d).edits.foldl (fun chain e => e.onChain chain) current)
      (some (restoredChain current d)) ↔ ChainFaithful current d := by
  rcases current with _ | c
  · exact rel_missing_iff t n d
  · rcases hb : isBuiltin c
    · exact rel_user_iff t n hb d
    · exact rel_builtin_iff t n hb d

theorem rel_some_but_iff {extra : List String} {a b : ParsedChain} :
    Option.Rel (SameRulesBut extra) (some a) (some b) ↔ SameRulesBut extra a b :=
  ⟨fun h => by cases h; assumption, .some⟩

theorem sameRulesBut_nil : SameRulesBut [] = SameRules := by
  funext a b
  rw [SameRulesBut, List.append_nil, SameRules]

/-- What a plan's changes make of a built-in chain of the kernel lacks the configured rules that are there already. -/
theorem rel_builtin_overlap (t n : String) {c : ParsedChain} (hb : isBuiltin c = true) {d : ParsedChain} (h : ChainPlanned (some c) d) :
    Option.Rel (SameRulesBut (overlap (some c) d))
      ((diffChain true t n (some c) d).edits.foldl (fun chain e => e.onChain chain) (some c)) (some (restoredChain (some c) d)) := by
  have hpolicy : c.policy ≠ ["-"] := by simpa [isBuiltin] using hb
  have hadded : (c.rules ++ addedBy d.rules (getOpcodes c.rules d.rules) ++ keptBy c.rules (getOpcodes c.rules d.rules)).Perm
      (c.rules ++ d.rules) := by
    have hdesired := (perm_of_contract (getOpcodes_contract c.rules d.rules)).2
    rw [List.drop_zero] at hdesired
    rw [List.append_assoc]
    exact (List.perm_append_comm.trans hdesired.symm).append_left c.rules
  rw [ChainPlanned, if_pos hb] at h
  have hrestored : restoredChain (some c) d =
      ⟨if d.policy = ["-"] then c.policy else d.policy, c.rules ++ d.rules⟩ := if_pos hb
  rw [overlap, if_pos hb, hrestored]
  by_cases hsame : d.policy = c.policy
  · have hplan : (diffChain true t n (some c) d).edits =
        ((addedBy d.rules (getOpcodes c.rules d.rules)).map fun r => ⟨t, n, r⟩).map PlanEdit.add := by
      simp [diffChain, hb, hsame, ruleChanges, Changes.edits, diffRules, addedBy]
    rw [hplan, foldl_add_some, hsame, if_neg hpolicy]
    exact rel_some_but_iff.2 ⟨rfl, hadded⟩
  · rcases h with h | ⟨huser, hpriority⟩ | ⟨huser, hpriority, hrules⟩
    · exact absurd h hsame
    · have hplan : (diffChain true t n (some c) d).edits = .policy ⟨t, n, c.policy, d.policy⟩ ::
          ((addedBy d.rules (getOpcodes c.rules d.rules)).map fun r => ⟨t, n, r⟩).map PlanEdit.add := by
        simp [diffChain, hb, hsame, hpriority, ruleChanges, Changes.edits, Changes.append, diffRules, addedBy]
      rw [hplan, List.foldl_cons, PlanEdit.onChain, Option.map_some, foldl_add_some, if_neg huser]
      exact rel_some_but_iff.2 ⟨rfl, hadded⟩
    · have hplan : (diffChain true t n (some c) d).edits = [] := by
        simp [diffChain, hb, hsame, hpriority, Changes.edits]
      have hkept : keptBy c.rules (getOpcodes c.rules d.rules) = [] :=
        keptBy_getOpcodes_eq_nil_iff.2 fun r _ hr => absurd hr (by rw [hrules]; exact List.not_mem_nil)
      rw [hplan, List.foldl_nil, hkept, if_pos huser, hrules]
      exact rel_some_but_iff.2 ⟨rfl, .refl _⟩

/-- What a plan's changes make of a desired chain lacks the configured rules that are there already, and nothing else. -/
theorem rel_edits_overlap (t n : String) {current : Option ParsedChain} {d : ParsedChain} (h : ChainPlanned current d) :
    Option.Rel (SameRulesBut (overlap current d))
      ((diffChain true t n current d).edits.foldl (fun chain e => e.onChain chain) current) (some (restoredChain current d)) := by
  rcases current with _ | c
  · rw [overlap, sameRulesBut_nil]
    exact (rel_missing_iff t n d).2 h
  · cases hb : isBuiltin c with
    | true => exact rel_builtin_overlap t n hb h
    | false =>
      have hnil : overlap (some c) d = [] := by rw [overlap, hb, if_neg Bool.false_ne_true]
      rw [hnil, sameRulesBut_nil]
      refine (rel_user_iff t n hb d).2 ?_
      rw [ChainPlanned, hb, if_neg Bool.false_ne_true] at h
      rw [ChainFaithful, hb, if_neg Bool.false_ne_true]
      exact h

/-- The chains after a plan's changes, one by one. -/
theorem applyTo_eq (current desired : Dict String ParsedTable) (t c : String) :
    (diffTables current desired true).applyTo (liveChains current) (t, c) =
      match (desired.get? t).bind fun T => T.chains.get? c with
      | some d => (diffChain true t c (liveChains current (t, c)) d).edits.foldl (fun chain e => e.onChain chain)
          (liveChains current (t, c))
      | none => liveChains current (t, c) := by
  rw [PlanDiff.applyTo, foldl_editChain, onKey_edits]
  cases (desired.get? t).bind fun T => T.chains.get? c <;> rfl

/-- The plan under --noflush is right but for one thing: a configured rule that is in a chain already which keeps its rules is
appended again, and the plan does not count it. -/
theorem noflush_appends_overlap (current desired : Dict String ParsedTable) :
    ∃ restored, restoreNoflush desired (liveChains current) = some restored ∧
      (∀ t c, ((desired.get? t).bind fun T => T.chains.get? c) = none →
        (diffTables current desired true).applyTo (liveChains current) (t, c) = restored (t, c)) ∧
      ∀ t c d, ((desired.get? t).bind fun T => T.chains.get? c) = some d → ChainPlanned (liveChains current (t, c)) d →
        Option.Rel (SameRulesBut (overlap (liveChains current (t, c)) d))
          ((diffTables current desired true).applyTo (liveChains current) (t, c)) (restored (t, c)) ∧
        (overlap (liveChains current (t, c)) d = [] ↔
          ∀ p, liveChains current (t, c) = some p → isBuiltin p = true → ∀ r ∈ p.rules, r ∉ d.rules) := by
  obtain ⟨restored, hrestored, hspec⟩ := restoreNoflush_spec desired (liveChains current)
  refine ⟨restored, hrestored, fun t c hnone => ?_, fun t c d hd hplanned => ⟨?_, ?_⟩⟩
  · rw [applyTo_eq, hspec, hnone]
  · rw [applyTo_eq, hspec, hd]
    exact rel_edits_overlap t c hplanned
  · cases liveChains current (t, c) with
    | none => simp [overlap]
    | some p =>
      cases hb : isBuiltin p with
      | true => simp only [overlap, hb, if_true, keptBy_getOpcodes_eq_nil_iff, Option.some.injEq, forall_eq', forall_const]
      | false => simp [overlap, hb]

/-- A table with a rule in `INPUT` and a rule in a user chain, and the configuration that has both and one rule more. -/
theorem noflush_appends_overlap_input :
    let current : Dict String ParsedTable := Dict.empty.set "filter"
      { chains := (Dict.empty.set "INPUT" ⟨["DROP"], ["-j ACCEPT"]⟩).set "web" ⟨["-"], ["-j RETURN"]⟩ }
    let desired : Dict String ParsedTable := Dict.empty.set "filter"
      { chains := (Dict.empty.set "INPUT" ⟨["DROP"], ["-j ACCEPT", "-j LOG"]⟩).set "web" ⟨["-"], ["-j RETURN"]⟩ }
    ∃ restored, restoreNoflush desired (liveChains current) = some restored ∧
      Option.Rel (SameRulesBut ["-j ACCEPT"]) (some ⟨["DROP"], ["-j ACCEPT", "-j LOG"]⟩) (restored ("filter", "INPUT")) ∧
      Option.Rel (SameRulesBut []) (some ⟨["-"], ["-j RETURN"]⟩) (restored ("filter", "web")) := by
  intro current desired
  obtain ⟨restored, hrestored, -, hchains⟩ := noflush_appends_overlap current desired
  have hinput := (hchains "filter" "INPUT" ⟨["DROP"], ["-j ACCEPT", "-j LOG"]⟩ (by decide) (.inl rfl)).1
  have hweb := (hchains "filter" "web" ⟨["-"], ["-j RETURN"]⟩ (by decide) rfl).1
  have hplan : (diffTables current desired true).applyTo (liveChains current) ("filter", "INPUT") =
      some ⟨["DROP"], ["-j ACCEPT", "-j LOG"]⟩ := by decide
  have hplanWeb : (diffTables current desired true).applyTo (liveChains current) ("filter", "web") = some ⟨["-"], ["-j RETURN"]⟩ := by
    decide
  have hoverlap : overlap (liveChains current ("filter", "INPUT")) ⟨["DROP"], ["-j ACCEPT", "-j LOG"]⟩ = ["-j ACCEPT"] := by decide
  have hnone : overlap (liveChains current ("filter", "web")) ⟨["-"], ["-j RETURN"]⟩ = [] := by decide
  rw [hplan, hoverlap] at hinput
  rw [hplanWeb, hnone] at hweb
  exact ⟨restored, hrestored, hinput, hweb⟩

/-- The plan under --noflush is right exactly when it is for every configured chain. -/
theorem noflush_faithful_iff (current desired : Dict String ParsedTable) :
    NoflushFaithful current desired ↔ ∀ t T, desired.get? t = some T → ∀ c d, T.chains.get? c = some d →
      ChainFaithful ((tableOf current t).chains.get? c) d := by
  obtain ⟨restored, hrestored, hspec⟩ := restoreNoflush_spec desired (liveChains current)
  have hchain : ∀ t c, Option.Rel SameRules ((diffTables current desired true).applyTo (liveChains current) (t, c)) (restored (t, c)) ↔
      ∀ d, ((desired.get? t).bind fun T => T.chains.get? c) = some d → ChainFaithful (liveChains current (t, c)) d := by
    intro t c
    rw [applyTo_eq, hspec]
    cases (desired.get? t).bind fun T => T.chains.get? c with
    | none =>
      simp only [reduceCtorEq, false_implies, implies_true, iff_true]
      cases liveChains current (t, c) with
      | none => exact .none
      | some p => exact .some ⟨rfl, List.Perm.refl _⟩
    | some d =>
      simp only [Option.some.injEq, forall_eq']
      exact rel_edits_iff t c _ d
  constructor
  · rintro ⟨restored', hrestored', hrel⟩ t T hT c d hd
    obtain rfl : restored = restored' := Option.some.inj (hrestored.symm.trans hrestored')
    exact (hchain t c).1 (hrel (t, c)) d (by rw [hT, Option.bind_some, hd])
  · intro hfaithful
    refine ⟨restored, hrestored, fun k => (hchain k.1 k.2).2 fun d hd => ?_⟩
    obtain ⟨T, hT, hd⟩ := Option.bind_eq_some_iff.1 hd
    exact hfaithful k.1 T hT k.2 d hd

/-- A rule that is there already: the plan adds nothing, restoring appends it again. -/
theorem noflush_duplicates : ¬ ∀ current desired : Dict String ParsedTable, NoflushFaithful current desired := by
  intro h
  let tables : Dict String ParsedTable := Dict.empty.set "filter" { chains := Dict.empty.set "INPUT" ⟨["ACCEPT"], ["-j DROP"]⟩ }
  obtain ⟨restored, hrestored, hrel⟩ := h tables tables
  obtain ⟨restored', hrestored', hspec⟩ := restoreNoflush_spec tables (liveChains tables)
  obtain rfl : restored = restored' := Option.some.inj (hrestored.symm.trans hrestored')
  have hplan : (diffTables tables tables true).applyTo (liveChains tables) ("filter", "INPUT") =
      some ⟨["ACCEPT"], ["-j DROP"]⟩ := by decide
  have hkernel : restored ("filter", "INPUT") = some ⟨["ACCEPT"], ["-j DROP", "-j DROP"]⟩ := hspec "filter" "INPUT"
  have hrules := hrel ("filter", "INPUT")
  rw [hplan, hkernel, rel_some_iff] at hrules
  exact absurd hrules.2.length_eq (by decide)

end Ferm
