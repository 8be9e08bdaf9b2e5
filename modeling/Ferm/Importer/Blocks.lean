import Mathlib.Data.Multiset.Bind
import Ferm.Importer.Harm
import Ferm.Importer.Writer
import Ferm.Lib.Monadic

/-!
# The blocks of an imported configuration

A written configuration is read back as its blocks: which rules and policies it holds, and in which domain, table and chain each of
them is. An array stands for its elements here, so that the reading does not depend on how the rules of a chain are grouped.
-/

namespace Ferm.Importer

/-! ## Rules without arrays -/

/-- The options an option stands for, one for each element of an array. -/
def MatchEntry.alternatives (e : MatchEntry) : Multiset MatchEntry :=
  ((elementsOf e.value).map fun v => (⟨e.name, v⟩ : MatchEntry) : List MatchEntry)

/-- A choice for each option. -/
def combinations : List MatchEntry → Multiset (List MatchEntry)
  | [] => {[]}
  | e :: es => e.alternatives.bind fun c => (combinations es).map (c :: ·)

/-- A rule with more matches in front. -/
def SingleRule.behind (shared : List MatchEntry) (r : SingleRule) : SingleRule := ⟨shared ++ r.entries, r.data⟩

mutual

/-- The rules without arrays that a rule stands for. -/
def Rule.singles : Rule → Multiset SingleRule
  | .line es d => (combinations es).map fun cs => ⟨cs, d⟩
  | .block es members => (combinations es).bind fun cs => (singlesAll members).map (SingleRule.behind cs)

/-- The rules without arrays of a list of rules. -/
def singlesAll : List Rule → Multiset SingleRule
  | [] => 0
  | r :: rs => r.singles + singlesAll rs

end

theorem combinations_append (es es' : List MatchEntry) :
    combinations (es ++ es') = (combinations es).bind fun cs => (combinations es').map (cs ++ ·) := by
  induction es with
  | nil => simp [combinations]
  | cons e es ih =>
    rw [List.cons_append, combinations, combinations, ih]
    simp only [Multiset.map_bind, Multiset.map_map, Multiset.bind_assoc, Multiset.bind_map, Function.comp_def, List.cons_append]

@[simp] theorem SingleRule.behind_nil : SingleRule.behind [] = id := rfl

theorem SingleRule.behind_behind (shared shared' : List MatchEntry) (r : SingleRule) :
    (r.behind shared').behind shared = r.behind (shared ++ shared') := by
  rw [behind, behind, behind, List.append_assoc]

theorem singlesAll_append (rs rs' : List Rule) : singlesAll (rs ++ rs') = singlesAll rs + singlesAll rs' := by
  induction rs with
  | nil => simp [singlesAll]
  | cons r rs ih => rw [List.cons_append, singlesAll, singlesAll, ih, add_assoc]

theorem singlesAll_flatMap {α : Type} {f g : α → List Rule} {l : List α} (h : ∀ a ∈ l, singlesAll (f a) = singlesAll (g a)) :
    singlesAll (l.flatMap f) = singlesAll (l.flatMap g) := by
  induction l with
  | nil => rfl
  | cons a l ih =>
    obtain ⟨ha, hl⟩ := List.forall_mem_cons.1 h
    rw [List.flatMap_cons, List.flatMap_cons, singlesAll_append, singlesAll_append, ha, ih hl]

/-- A rule's first option is chosen, and then the others. -/
theorem Rule.singles_withEntries_cons (e : MatchEntry) (es : List MatchEntry) (r : Rule) :
    (r.withEntries (e :: es)).singles =
      e.alternatives.bind fun c => (r.withEntries es).singles.map (SingleRule.behind [c]) := by
  cases r with
  | line =>
    simp only [withEntries, singles, combinations, Multiset.map_bind, Multiset.map_map, Function.comp_def, SingleRule.behind,
      List.singleton_append]
  | block =>
    simp only [withEntries, singles, combinations, Multiset.bind_assoc, Multiset.bind_map, Multiset.map_bind, Multiset.map_map,
      Function.comp_def, SingleRule.behind_behind, List.singleton_append]

theorem Rule.singles_of_entries {r : Rule} {e : MatchEntry} {es : List MatchEntry} (h : r.entries = e :: es) :
    r.singles = e.alternatives.bind fun c => r.tail.singles.map (SingleRule.behind [c]) := by
  rw [tail, h, List.tail_cons, ← singles_withEntries_cons, ← h, withEntries_self]

/-! ## Optimizing keeps the rules without arrays -/

/-- Rules behind one common option. -/
theorem singlesAll_common {e : MatchEntry} {run : List Rule} (h : ∀ r ∈ run, ∃ es, r.entries = e :: es) :
    singlesAll run = e.alternatives.bind fun c => (singlesAll (run.map Rule.tail)).map (SingleRule.behind [c]) := by
  induction run with
  | nil => simp [singlesAll]
  | cons r run ih =>
    obtain ⟨⟨es, hr⟩, hrun⟩ := List.forall_mem_cons.1 h
    rw [List.map_cons, singlesAll, singlesAll, ih hrun, Rule.singles_of_entries hr]
    simp only [Multiset.map_add, Multiset.bind_add]

theorem singlesAll_factorRun {opt : List Rule → List Rule} {run : List Rule} (hrun : IsRun (headJoins prefixMatches) run)
    (hopt : ∀ rules, singlesAll (opt rules) = singlesAll rules) : singlesAll (factorRun opt run) = singlesAll run := by
  match run, hrun with
  | [], _ => rfl
  | [_], _ => rfl
  | first :: second :: rest, hrun =>
    obtain ⟨e, es, hfirst, hall⟩ := isRun_prefixMatches hrun
    rw [singlesAll_common hall, ← hopt ((first :: second :: rest).map Rule.tail)]
    simp only [factorRun, hfirst]
    split
    · rename_i rule hone
      rw [hone, singlesAll, singlesAll, add_zero, singlesAll, singlesAll, add_zero, Rule.singles_withEntries_cons,
        Rule.withEntries_self]
    · rw [singlesAll, singlesAll, add_zero, Rule.singles, combinations, combinations]
      simp only [Multiset.map_singleton, Multiset.bind_assoc, Multiset.singleton_bind]

/-- Rules that differ in the value of their first option. -/
theorem singlesAll_values (r : Rule) (name : String) (es : List MatchEntry) (vs : List Value) :
    singlesAll (vs.map fun v => r.withEntries (⟨name, v⟩ :: es)) = (r.withEntries (⟨name, joined vs⟩ :: es)).singles := by
  induction vs with
  | nil =>
    rw [Rule.singles_withEntries_cons]
    rfl
  | cons v vs ih =>
    have halternatives : MatchEntry.alternatives ⟨name, joined (v :: vs)⟩ =
        MatchEntry.alternatives ⟨name, v⟩ + MatchEntry.alternatives ⟨name, joined vs⟩ := by
      simp only [MatchEntry.alternatives, joined, elementsOf, List.flatMap_cons, List.map_append, Multiset.coe_add]
    rw [List.map_cons, singlesAll, ih, Rule.singles_withEntries_cons, Rule.singles_withEntries_cons,
      Rule.singles_withEntries_cons, halternatives, Multiset.add_bind]

theorem singlesAll_mergeRun {run : List Rule} (hrun : IsRun (headJoins arrayJoins) run) :
    singlesAll (mergeRun run) = singlesAll run := by
  match run, hrun with
  | [], _ => rfl
  | [_], _ => rfl
  | first :: second :: rest, hrun =>
    obtain ⟨e, es, vs, _, _, hvalues, hmerged⟩ := isRun_arrayJoins_values hrun
    rw [hmerged, hvalues, singlesAll_values, singlesAll, singlesAll, add_zero]

theorem singlesAll_runs {joins : List Rule → Rule → Bool} {f : List Rule → List Rule}
    (h : ∀ run, IsRun joins run → singlesAll (f run) = singlesAll run) (rules : List Rule) :
    singlesAll ((greedyRuns joins rules).flatMap f) = singlesAll rules := by
  have hflatten : (greedyRuns joins rules).flatMap id = rules := by
    rw [List.flatMap_id, flatten_greedyRuns]
  have hrules := congrArg singlesAll hflatten
  rw [← hrules]
  exact singlesAll_flatMap fun run hrun => h run (isRun_of_mem hrun)

theorem singlesAll_optimizeWithin (depth : Nat) (rules : List Rule) :
    singlesAll (optimizeWithin depth rules) = singlesAll rules := by
  induction depth generalizing rules with
  | zero => rfl
  | succ depth ih =>
    rw [optimizeWithin, mergePass, singlesAll_runs fun run => singlesAll_mergeRun, factorPass,
      singlesAll_runs fun run hrun => singlesAll_factorRun hrun ih]

/-- Flushing keeps the rules without arrays, down to any level. -/
theorem singlesAll_flush (levels : Nat) (rules : List Rule) : singlesAll (flush levels rules) = singlesAll rules := by
  induction levels generalizing rules with
  | zero => exact singlesAll_optimizeWithin _ rules
  | succ levels ih =>
    have hmembers : ∀ rules, singlesAll (rules.map (flushMember levels)) = singlesAll rules := by
      intro rules
      induction rules with
      | nil => rfl
      | cons r rules ihr =>
        rw [List.map_cons, singlesAll, singlesAll, ihr]
        cases r with
        | line es d => rfl
        | block es members => rw [flushMember, Rule.singles, Rule.singles, ih]
    rw [flush_succ, hmembers]
    exact singlesAll_optimizeWithin _ rules

/-! ## Reading blocks back -/

/-- The domain, the table and the chain of something, as far as they are known. -/
structure Place where
  domain : Option String
  table : Option String
  chain : String
  deriving DecidableEq

/-- A chain's policy, or a rule without arrays of a chain. -/
inductive Item where
  | policy (place : Place) (policy : String)
  | rule (place : Place) (single : SingleRule)
  deriving DecidableEq

/-- The matches of the blocks of rules around a line; none if one of the blocks is something else. -/
def sharedEntries : List Header → Option (List MatchEntry)
  | [] => some []
  | .rules es :: headers => (sharedEntries headers).map (es ++ ·)
  | _ => none

/-- What a line says inside of the blocks of `path`; none if it does not belong there. -/
def Leaf.items (path : List Header) : Leaf → Option (Multiset Item)
  | chain _ => some 0
  | chainPolicy name value =>
    match path with
    | [.domain d, .table t] => some {.policy ⟨some d, some t, name⟩ value}
    | _ => none
  | policy value =>
    match path with
    | [.domain d, .table t, .chain c] => some {.policy ⟨some d, some t, c⟩ value}
    | _ => none
  | rule es data =>
    match path with
    | .domain d :: .table t :: .chain c :: headers =>
      (sharedEntries headers).map fun shared =>
        (combinations (shared ++ es)).map fun cs => .rule ⟨some d, some t, c⟩ ⟨cs, data⟩
    | _ => none

/-- The blocks that are open, and what was said so far. -/
structure Reading where
  path : List Header := []
  items : Multiset Item := 0
  deriving DecidableEq

/-- One more line: a block that is opened or closed, or something said inside of the open ones. -/
def Reading.read (r : Reading) : Written → Option Reading
  | .comment _ => some r
  | .opening header => some { r with path := r.path ++ [header] }
  | .closing => if r.path.isEmpty then none else some { r with path := r.path.dropLast }
  | .leaf l => (l.items r.path).map fun items => { r with items := r.items + items }

/-- More lines. -/
def Reading.readAll (r : Reading) (lines : List Written) : Option Reading := lines.foldlM Reading.read r

/-- A configuration read from its start. -/
def readBack (lines : List Written) : Option Reading := Reading.readAll {} lines

namespace Reading

@[simp] theorem readAll_nil (r : Reading) : r.readAll [] = some r := rfl

theorem readAll_cons (r : Reading) (w : Written) (ws : List Written) :
    r.readAll (w :: ws) = (r.read w).bind fun r' => r'.readAll ws := rfl

theorem readAll_append (r : Reading) (ws ws' : List Written) :
    r.readAll (ws ++ ws') = (r.readAll ws).bind fun r' => r'.readAll ws' := by
  simp only [readAll, List.foldlM_append]
  rfl

theorem readAll_singleton (r : Reading) (w : Written) : r.readAll [w] = r.read w := by
  rw [readAll_cons]
  cases r.read w <;> rfl

end Reading

theorem sharedEntries_append (headers : List Header) (es : List MatchEntry) :
    sharedEntries (headers ++ [.rules es]) = (sharedEntries headers).map (· ++ es) := by
  induction headers with
  | nil => simp [sharedEntries]
  | cons h headers ih =>
    cases h with
    | rules es' =>
      rw [List.cons_append, sharedEntries, sharedEntries, ih]
      cases sharedEntries headers <;> simp
    | _ => rfl

section Rules

variable {d t c : String}

mutual

/-- Inside of a chain, the lines of a rule say the rules without arrays it stands for. -/
theorem readAll_written (headers : List Header) {shared : List MatchEntry} (hshared : sharedEntries headers = some shared)
    (items : Multiset Item) : (r : Rule) →
      (Reading.mk (.domain d :: .table t :: .chain c :: headers) items).readAll r.written =
        some ⟨.domain d :: .table t :: .chain c :: headers,
          items + ((combinations shared).bind fun cs => r.singles.map (SingleRule.behind cs)).map (.rule ⟨some d, some t, c⟩)⟩
  | .line es data => by
    rw [Rule.written, Reading.readAll_singleton, Reading.read, Leaf.items, hshared, Rule.singles]
    simp only [Option.map_some, combinations_append, Multiset.map_bind, Multiset.map_map, Function.comp_def, SingleRule.behind]
  | .block es members => by
    have hinner : sharedEntries (headers ++ [.rules es]) = some (shared ++ es) := by
      rw [sharedEntries_append, hshared]
      rfl
    have hmembers := readAll_writtenAll (headers ++ [.rules es]) hinner items members
    have hclosed : (Header.domain d :: .table t :: .chain c :: (headers ++ [.rules es])).dropLast =
        .domain d :: .table t :: .chain c :: headers := by
      rw [← List.cons_append, ← List.cons_append, ← List.cons_append, List.dropLast_concat]
    rw [Rule.written, Reading.readAll_cons, Reading.read, Option.bind_some, Reading.readAll_append]
    simp only [List.cons_append, hmembers, Option.bind_some, Reading.readAll_singleton, Reading.read, hclosed]
    simp [Rule.singles, combinations_append, Multiset.map_bind, Multiset.bind_assoc, Multiset.bind_map,
      SingleRule.behind_behind]

/-- The lines of rules, likewise. -/
theorem readAll_writtenAll (headers : List Header) {shared : List MatchEntry} (hshared : sharedEntries headers = some shared)
    (items : Multiset Item) : (rs : List Rule) →
      (Reading.mk (.domain d :: .table t :: .chain c :: headers) items).readAll (writtenAll rs) =
        some ⟨.domain d :: .table t :: .chain c :: headers,
          items + ((combinations shared).bind fun cs => (singlesAll rs).map (SingleRule.behind cs)).map (.rule ⟨some d, some t, c⟩)⟩
  | [] => by simp [writtenAll, singlesAll]
  | r :: rs => by
    rw [writtenAll, Reading.readAll_append, readAll_written headers hshared items r, Option.bind_some,
      readAll_writtenAll headers hshared _ rs, singlesAll, add_assoc]
    simp only [Multiset.map_add, Multiset.bind_add]

end

/-- The lines of a chain's rules. -/
theorem readAll_rules (items : Multiset Item) (rs : List Rule) :
    (Reading.mk [.domain d, .table t, .chain c] items).readAll (writtenAll rs) =
      some ⟨[.domain d, .table t, .chain c], items + (singlesAll rs).map (.rule ⟨some d, some t, c⟩)⟩ := by
  rw [readAll_writtenAll [] rfl]
  simp [combinations]

end Rules

/-! ## Rules outside of chains -/

/-- What is said of a policy. -/
def Item.isPolicy : Item → Bool
  | policy .. => true
  | rule .. => false

/-- The number of policies that are said. -/
def policyCount (items : Multiset Item) : Nat := items.countP fun item => item.isPolicy = true

@[simp] theorem policyCount_zero : policyCount 0 = 0 := Multiset.countP_zero _

@[simp] theorem policyCount_add (items items' : Multiset Item) :
    policyCount (items + items') = policyCount items + policyCount items' := Multiset.countP_add ..

@[simp] theorem policyCount_policy (place : Place) (value : String) : policyCount {.policy place value} = 1 := by
  rw [policyCount, ← Multiset.cons_zero, Multiset.countP_cons_of_pos, Multiset.countP_zero]
  rfl

theorem policyCount_rules {α : Type} (place : α → Place) (single : α → SingleRule) (s : Multiset α) :
    policyCount (s.map fun a => .rule (place a) (single a)) = 0 := by
  rw [policyCount, Multiset.countP_eq_zero]
  intro item hitem
  obtain ⟨a, _, rfl⟩ := Multiset.mem_map.1 hitem
  exact Bool.false_ne_true

/-- A line of a rule says no policy. -/
theorem policyCount_items_rule {path : List Header} {es : List MatchEntry} {data : RuleData} {items : Multiset Item}
    (h : (Leaf.rule es data).items path = some items) : policyCount items = 0 := by
  unfold Leaf.items at h
  dsimp only at h
  split at h
  · obtain ⟨shared, _, rfl⟩ := Option.map_eq_some_iff.1 h
    exact policyCount_rules ..
  · cases h

mutual

/-- Wherever a rule is written, its lines close the blocks they open, and say no policy. -/
theorem written_keeps : (r : Rule) → (s s' : Reading) → s.readAll r.written = some s' →
    s'.path = s.path ∧ policyCount s'.items = policyCount s.items
  | .line es data, s, s', h => by
    rw [Rule.written, Reading.readAll_singleton, Reading.read] at h
    obtain ⟨items, hitems, rfl⟩ := Option.map_eq_some_iff.1 h
    exact ⟨rfl, by rw [policyCount_add, policyCount_items_rule hitems, Nat.add_zero]⟩
  | .block es members, s, s', h => by
    rw [Rule.written, Reading.readAll_cons, Reading.read, Option.bind_some, Reading.readAll_append] at h
    obtain ⟨s₁, h₁, h⟩ := Option.bind_eq_some_iff.1 h
    obtain ⟨hpath, hcount⟩ := writtenAll_keeps members _ s₁ h₁
    rw [Reading.readAll_singleton, Reading.read, hpath] at h
    simp only [List.isEmpty_iff, List.append_eq_nil_iff, List.cons_ne_self, and_false, if_false, List.dropLast_concat,
      Option.some.injEq] at h
    subst h
    exact ⟨rfl, hcount⟩

/-- Likewise for a list of rules. -/
theorem writtenAll_keeps : (rs : List Rule) → (s s' : Reading) → s.readAll (writtenAll rs) = some s' →
    s'.path = s.path ∧ policyCount s'.items = policyCount s.items
  | [], s, s', h => by
    cases h
    exact ⟨rfl, rfl⟩
  | r :: rs, s, s', h => by
    rw [writtenAll, Reading.readAll_append] at h
    obtain ⟨s₁, h₁, h⟩ := Option.bind_eq_some_iff.1 h
    obtain ⟨hpath, hcount⟩ := written_keeps r s s₁ h₁
    obtain ⟨hpath', hcount'⟩ := writtenAll_keeps rs s₁ s' h
    exact ⟨hpath'.trans hpath, hcount'.trans hcount⟩

end

/-- The blocks are not those of a chain of a table of a domain. -/
def Stray (path : List Header) : Prop := ∀ d t c headers, path ≠ .domain d :: .table t :: .chain c :: headers

theorem Stray.append {path : List Header} (h : Stray path) (es : List MatchEntry) : Stray (path ++ [.rules es]) := by
  intro d t c headers he
  rcases List.eq_nil_or_concat headers with rfl | ⟨headers, last, rfl⟩
  · have := congrArg List.getLast? he
    simp at this
  · rw [List.concat_eq_append, ← List.cons_append, ← List.cons_append, ← List.cons_append] at he
    exact h d t c headers (List.append_inj_left' he rfl)

theorem Leaf.items_rule_stray {path : List Header} (h : Stray path) (es : List MatchEntry) (data : RuleData) :
    (Leaf.rule es data).items path = none := by
  unfold Leaf.items
  dsimp only
  split
  · rename_i d t c headers
    exact absurd rfl (h d t c headers)
  · rfl

mutual

/-- Outside of a chain a rule does not belong. -/
theorem readAll_written_stray : (r : Rule) → {s : Reading} → Stray s.path → r.singles ≠ 0 → s.readAll r.written = none
  | .line es data, s, h, _ => by
    rw [Rule.written, Reading.readAll_singleton, Reading.read, Leaf.items_rule_stray h]
    rfl
  | .block es members, s, h, hsingles => by
    have hmembers : singlesAll members ≠ 0 := by
      intro hzero
      rw [Rule.singles, hzero] at hsingles
      simp at hsingles
    rw [Rule.written, Reading.readAll_cons, Reading.read, Option.bind_some, Reading.readAll_append,
      readAll_writtenAll_stray members (h.append es) hmembers]
    rfl

/-- Likewise for a list of rules. -/
theorem readAll_writtenAll_stray : (rs : List Rule) → {s : Reading} → Stray s.path → singlesAll rs ≠ 0 →
    s.readAll (writtenAll rs) = none
  | [], _, _, hsingles => absurd rfl hsingles
  | r :: rs, s, h, hsingles => by
    rw [writtenAll, Reading.readAll_append]
    by_cases hr : r.singles = 0
    · rw [singlesAll, hr, zero_add] at hsingles
      cases hread : s.readAll r.written with
      | none => rfl
      | some s' =>
        have hpath := (written_keeps r s s' hread).1
        exact readAll_writtenAll_stray rs (hpath ▸ h) hsingles
    · rw [readAll_written_stray r h hr]
      rfl

end

end Ferm.Importer
