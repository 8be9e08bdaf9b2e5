import Mathlib.Data.Finmap
import Mathlib.Data.Finset.Basic
import Ferm.Iptables.Model
import Ferm.Lib.Runs

/-!
# Optimizing imported rules

The rules of a saved ruleset before they are written as a configuration: adjacent rules that begin with the same option are put into
a block, and adjacent rules that differ in their first option's value are merged into one rule with an array.
-/

namespace Ferm.Importer

/-- How an option takes its arguments: none, a number of values, a letter for each argument, or a reader of its own. -/
inductive KeywordParams where
  | flag
  | count (number : Nat)
  | codes (letters : String)
  | function (name : String)
  deriving DecidableEq, Repr

/-- One option of a module. -/
structure Keyword where
  name : String
  params : KeywordParams
  negation : Bool := false
  preNegation : Bool := false
  fermName : Option String := none
  deriving DecidableEq, Repr

/-- The keywords a rule knows, by option; in which order they were learned does not count when rules are compared. -/
abbrev Keywords := Finmap fun _ : String => Keyword

/-- One emitted option. -/
structure MatchEntry where
  name : String
  value : Value
  deriving DecidableEq, Repr

/-- What a parsed rule has besides its matches. -/
structure RuleData where
  keywords : Keywords := ∅
  mod : Finset String := ∅
  proto : Value := .undef
  jump : Option String := none
  goto : Option String := none
  target : Option (List MatchEntry) := none
  matchKeywords : Option Keywords := none
  deriving DecidableEq

/-- A parsed rule, or a block of rules behind the matches they share, which has no data of its own. -/
inductive Rule where
  | line (entries : List MatchEntry) (data : RuleData)
  | block (entries : List MatchEntry) (members : List Rule)

/-- The keywords that every imported rule knows: those of the options that need no module. -/
def baseKeywords : Keywords :=
  let source : Keyword := { name := "source", params := .function "address_magic", negation := true, fermName := some "saddr" }
  let destination : Keyword :=
    { name := "destination", params := .function "address_magic", negation := true, fermName := some "daddr" }
  let inInterface : Keyword := { name := "in-interface", params := .count 1, negation := true, fermName := some "interface" }
  let outInterface : Keyword := { name := "out-interface", params := .count 1, negation := true, fermName := some "outerface" }
  let fragment : Keyword := { name := "fragment", params := .flag, negation := true, preNegation := true }
  List.toFinmap [⟨"source", source⟩, ⟨"saddr", source⟩, ⟨"destination", destination⟩, ⟨"daddr", destination⟩,
    ⟨"in-interface", inInterface⟩, ⟨"interface", inInterface⟩, ⟨"if", inInterface⟩, ⟨"out-interface", outInterface⟩,
    ⟨"outerface", outInterface⟩, ⟨"of", outInterface⟩, ⟨"fragment", fragment⟩]

/-- What a rule with a jump and without modules has besides its matches. -/
def RuleData.jumpTo (target : String) : RuleData :=
  { jump := some target, target := some [], matchKeywords := some baseKeywords }

namespace Rule

mutual

/-- `==` of rules. -/
def beq : Rule → Rule → Bool
  | line es d, line es' d' => es = es' && d = d'
  | block es rs, block es' rs' => es = es' && beqList rs rs'
  | _, _ => false

/-- `==` of lists of rules. -/
def beqList : List Rule → List Rule → Bool
  | [], [] => true
  | r :: rs, r' :: rs' => r.beq r' && beqList rs rs'
  | _, _ => false

end

mutual

theorem beq_iff : (r r' : Rule) → (r.beq r' = true ↔ r = r')
  | line es d, r' => by cases r' <;> simp [beq]
  | block es rs, r' => by cases r' <;> simp [beq, beqList_iff rs]

theorem beqList_iff : (rs rs' : List Rule) → (beqList rs rs' = true ↔ rs = rs')
  | [], rs' => by cases rs' <;> simp [beqList]
  | r :: rs, rs' => by cases rs' <;> simp [beqList, beq_iff r, beqList_iff rs]

end

instance : DecidableEq Rule := fun r r' => decidable_of_iff _ (r.beq_iff r')

/-- `rule.match`. -/
def entries : Rule → List MatchEntry
  | line es _ => es
  | block es _ => es

/-- A rule with other matches. -/
def withEntries (es : List MatchEntry) : Rule → Rule
  | line _ d => line es d
  | block _ rs => block es rs

/-- `_tail`. -/
def tail (r : Rule) : Rule := r.withEntries r.entries.tail

/-- `rule.match_keywords`. -/
def matchKeywords : Rule → Option Keywords
  | line _ d => d.matchKeywords
  | block _ _ => none

@[simp] theorem entries_line (es : List MatchEntry) (d : RuleData) : (line es d).entries = es := rfl

@[simp] theorem entries_block (es : List MatchEntry) (rs : List Rule) : (block es rs).entries = es := rfl

@[simp] theorem entries_withEntries (es : List MatchEntry) (r : Rule) : (r.withEntries es).entries = es := by
  cases r <;> rfl

theorem entries_tail (r : Rule) : r.tail.entries = r.entries.tail := entries_withEntries _ r

end Rule

/-- `_prefix_matches`, when the first rule has a match. -/
def prefixMatches (first other : Rule) : Bool :=
  match first.entries, other.entries with
  | e :: _, e' :: _ => e = e'
  | _, _ => false

/-- `_is_merging_array_member`. -/
def isMergingArrayMember : Value → Bool
  | .scalar _ => true
  | .array _ => true
  | _ => false

/-- `_array_matches`. -/
def arrayMatches (r₁ r₂ : Rule) : Bool :=
  match r₁.entries, r₂.entries with
  | e₁ :: _, e₂ :: _ =>
    isMergingArrayMember e₁.value && isMergingArrayMember e₂.value && e₁.name = e₂.name && r₁.tail = r₂.tail
  | _, _ => false

/-- The keyword of the first option takes one string. -/
def takesOneString (r : Rule) : Bool :=
  match r.entries, r.matchKeywords with
  | e :: _, some keywords => (keywords.lookup e.name).map Keyword.params = some (.codes "s")
  | _, _ => false

/-- A rule that `_array_match_count` counts for a first rule. -/
def arrayJoins (first other : Rule) : Bool := !takesOneString first && arrayMatches first other

/-- The values that a rule brings to a merged array. -/
def headValues (r : Rule) : List Value :=
  match r.entries with
  | ⟨_, .array vs⟩ :: _ => vs
  | e :: _ => [e.value]
  | [] => []

/-- What the first pass makes of a run of rules with a common first match. -/
def factorRun (optimize : List Rule → List Rule) (run : List Rule) : List Rule :=
  match run with
  | first :: _ :: _ =>
    match first.entries with
    | e :: _ =>
      match optimize (run.map Rule.tail) with
      | [rule] => [rule.withEntries (e :: rule.entries)]
      | members => [.block [e] members]
    | [] => run
  | _ => run

/-- What the second pass makes of a run of rules that differ in their first match's value. -/
def mergeRun (run : List Rule) : List Rule :=
  match run with
  | first :: _ :: _ =>
    match first.entries with
    | e :: es => [first.withEntries (⟨e.name, .array (run.flatMap headValues)⟩ :: es)]
    | [] => run
  | _ => run

/-- The first pass of `_optimize`. -/
def factorPass (optimize : List Rule → List Rule) (rules : List Rule) : List Rule :=
  (greedyRuns (headJoins prefixMatches) rules).flatMap (factorRun optimize)

/-- The second pass of `_optimize`. -/
def mergePass (rules : List Rule) : List Rule := (greedyRuns (headJoins arrayJoins) rules).flatMap mergeRun

/-- `_optimize`, with a bound on its recursion. -/
def optimizeWithin : Nat → List Rule → List Rule
  | 0, rules => rules
  | depth + 1, rules => mergePass (factorPass (optimizeWithin depth) rules)

/-- The most matches that one of the rules has. -/
def mostEntries (rules : List Rule) : Nat := (rules.map fun r => r.entries.length).foldr max 0

/-- `_optimize`. Every recursion takes one match away from every rule, so that the most matches bound it. -/
def optimize (rules : List Rule) : List Rule := optimizeWithin (mostEntries rules + 1) rules

/-- The rules `Importer.flush` writes: optimized, with the members of every block flushed in turn, down to `levels` of blocks. -/
def flush : Nat → List Rule → List Rule
  | 0, rules => optimize rules
  | levels + 1, rules =>
    (optimize rules).map fun rule =>
      match rule with
      | .line es d => .line es d
      | .block es members => .block es (flush levels members)

/-! ## The bound on the recursion -/

/-- A run with a common first match: the match, and what is left of the rules. -/
theorem isRun_prefixMatches {first second : Rule} {rest : List Rule}
    (h : IsRun (headJoins prefixMatches) (first :: second :: rest)) :
    ∃ e es, first.entries = e :: es ∧ ∀ r ∈ first :: second :: rest, ∃ es', r.entries = e :: es' := by
  obtain ⟨_, _, heq, hall⟩ := isRun_headJoins h
  obtain ⟨rfl, rfl⟩ := List.cons.inj heq
  have hjoin : ∀ r ∈ second :: rest, ∃ e es es', first.entries = e :: es ∧ r.entries = e :: es' := by
    intro r hr
    have hr := hall r hr
    unfold prefixMatches at hr
    split at hr
    · rename_i e es e' es' hfirst hother
      obtain rfl := of_decide_eq_true hr
      exact ⟨e, es, es', hfirst, hother⟩
    · cases hr
  obtain ⟨e, es, _, hfirst, -⟩ := hjoin second List.mem_cons_self
  refine ⟨e, es, hfirst, fun r hr => ?_⟩
  rcases List.mem_cons.1 hr with rfl | hr
  · exact ⟨es, hfirst⟩
  · obtain ⟨_, _, es', hfirst', hr'⟩ := hjoin r hr
    obtain ⟨rfl, -⟩ := List.cons.inj (hfirst.symm.trans hfirst')
    exact ⟨es', hr'⟩

theorem length_le_mostEntries {rules : List Rule} {r : Rule} (h : r ∈ rules) : r.entries.length ≤ mostEntries rules := by
  induction rules with
  | nil => cases h
  | cons r' rules ih =>
    rw [mostEntries, List.map_cons, List.foldr_cons]
    rcases List.mem_cons.1 h with rfl | h
    · exact Nat.le_max_left _ _
    · exact (ih h).trans (Nat.le_max_right _ _)

theorem mostEntries_lt {rules : List Rule} {n : Nat} (hn : 0 < n) (h : ∀ r ∈ rules, r.entries.length < n) :
    mostEntries rules < n := by
  induction rules with
  | nil => exact hn
  | cons r rules ih =>
    obtain ⟨hr, hrules⟩ := List.forall_mem_cons.1 h
    exact Nat.max_lt.2 ⟨hr, ih hrules⟩

/-- The first pass recurs only on rules with fewer matches. -/
theorem factorPass_congr {opt opt' : List Rule → List Rule} {rules : List Rule}
    (h : ∀ tails, mostEntries tails < mostEntries rules → opt tails = opt' tails) : factorPass opt rules = factorPass opt' rules := by
  refine List.flatMap_congr fun run hrun => ?_
  match run, hrun with
  | [], _ => rfl
  | [_], _ => rfl
  | first :: second :: rest, hrun =>
    obtain ⟨e, es, hfirst, hall⟩ := isRun_prefixMatches (isRun_of_mem hrun)
    have hlength : ∀ r ∈ first :: second :: rest, r.entries.length ≤ mostEntries rules := fun r hr => by
      refine length_le_mostEntries ?_
      rw [← flatten_greedyRuns (headJoins prefixMatches) rules]
      exact List.mem_flatten_of_mem hrun hr
    have htails : mostEntries ((first :: second :: rest).map Rule.tail) < mostEntries rules := by
      refine mostEntries_lt ?_ fun r hr => ?_
      · have hpos := hlength first List.mem_cons_self
        rw [hfirst] at hpos
        exact Nat.lt_of_lt_of_le (Nat.succ_pos _) hpos
      · obtain ⟨r, hmem, rfl⟩ := List.mem_map.1 hr
        obtain ⟨es', hes'⟩ := hall r hmem
        have hle := hlength r hmem
        rw [Rule.entries_tail]
        rw [hes'] at hle ⊢
        exact hle
    simp only [factorRun, hfirst, h _ htails]

/-- A bound that is large enough does not show. -/
theorem optimizeWithin_eq {n m : Nat} {rules : List Rule} (hn : mostEntries rules < n) (hm : mostEntries rules < m) :
    optimizeWithin n rules = optimizeWithin m rules := by
  induction n generalizing m rules with
  | zero => exact absurd hn (Nat.not_lt_zero _)
  | succ n ih =>
    cases m with
    | zero => exact absurd hm (Nat.not_lt_zero _)
    | succ m => exact congrArg mergePass (factorPass_congr fun tails hlt => ih (by omega) (by omega))

/-- `_optimize` calls itself. -/
theorem optimize_eq (rules : List Rule) : optimize rules = mergePass (factorPass optimize rules) :=
  congrArg mergePass (factorPass_congr fun tails hlt => optimizeWithin_eq (by omega) (Nat.lt_succ_self _))

end Ferm.Importer
