import Ferm.Importer.Optimize

/-!
# What imported rules stand for

The rules that blocks and arrays are written for: a block puts its matches in front of each of its members, and an array that is
unfolded gives one rule for each element, the first option varying slowest. Optimizing keeps these rules, in their order, as long as
every merge is harmless: it joins rules and not blocks, at an option whose array is unfolded, where no option in front of it is an
array that is unfolded into several rules.
-/

namespace Ferm.Importer

/-! ## Arrays -/

/-- An array after the keyword gives one rule for each element; other arrays are joined in one value or refused. -/
def KeywordParams.unfolds : KeywordParams → Bool
  | .count number => number = 1
  | .function name => name ≠ "multiport_params"
  | _ => false

/-- The keywords of a rule's matches. They are put aside when a target is read. -/
def RuleData.optionKeywords (d : RuleData) : Keywords := d.matchKeywords.getD d.keywords

/-- An array that is the option's value gives one rule for each element. The modules of an array are loaded for one rule. -/
def RuleData.unfolds (d : RuleData) (name : String) : Bool :=
  if name = "mod" then false
  else
    match d.optionKeywords.lookup name with
    | some keyword => keyword.params.unfolds
    | none => true

/-- The options of single rules that an option stands for. -/
def RuleData.choices (d : RuleData) (e : MatchEntry) : List MatchEntry :=
  match e.value with
  | .array vs => if d.unfolds e.name then vs.map fun v => ⟨e.name, v⟩ else [e]
  | _ => [e]

/-- The matches of the single rules, the choice of the first option varying slowest. -/
def RuleData.unfold (d : RuleData) : List MatchEntry → List (List MatchEntry)
  | [] => [[]]
  | e :: es => (d.choices e).flatMap fun c => (d.unfold es).map (c :: ·)

theorem RuleData.unfold_append (d : RuleData) (es es' : List MatchEntry) :
    d.unfold (es ++ es') = (d.unfold es).flatMap fun cs => (d.unfold es').map (cs ++ ·) := by
  induction es with
  | nil => simp [unfold]
  | cons e es ih =>
    rw [List.cons_append, unfold, unfold, ih, List.flatMap_assoc]
    congr 1
    funext c
    rw [List.map_flatMap, List.flatMap_map]
    simp only [List.map_map]
    rfl

/-! ## Rules -/

/-- A rule as it is added to a chain. -/
structure SingleRule where
  entries : List MatchEntry
  data : RuleData
  deriving DecidableEq

mutual

/-- The single rules a rule stands for, behind the matches of the blocks around it. -/
def Rule.expand (shared : List MatchEntry) : Rule → List SingleRule
  | .line es d => (d.unfold (shared ++ es)).map fun cs => ⟨cs, d⟩
  | .block es members => expandAll (shared ++ es) members

/-- The single rules of a list of rules. -/
def expandAll (shared : List MatchEntry) : List Rule → List SingleRule
  | [] => []
  | r :: rs => r.expand shared ++ expandAll shared rs

end

theorem expandAll_eq (shared : List MatchEntry) (rules : List Rule) : expandAll shared rules = rules.flatMap (Rule.expand shared) := by
  induction rules with
  | nil => rfl
  | cons r rs ih => rw [expandAll, ih, List.flatMap_cons]

/-- A rule's first match may as well be shared. -/
theorem expand_withEntries_cons (shared : List MatchEntry) (e : MatchEntry) (es : List MatchEntry) (r : Rule) :
    (r.withEntries (e :: es)).expand shared = (r.withEntries es).expand (shared ++ [e]) := by
  cases r <;> simp only [Rule.withEntries, Rule.expand, List.append_assoc, List.singleton_append]

theorem Rule.withEntries_self (r : Rule) : r.withEntries r.entries = r := by
  cases r <;> rfl

theorem Rule.expand_of_entries {r : Rule} {e : MatchEntry} {es : List MatchEntry} (h : r.entries = e :: es)
    (shared : List MatchEntry) : r.expand shared = r.tail.expand (shared ++ [e]) := by
  rw [tail, h, List.tail_cons, ← expand_withEntries_cons, ← h, withEntries_self]

/-! ## The first pass -/

/-- The rules of a run stand for what their rests stand for behind the common match. -/
theorem expandAll_map_tail {e : MatchEntry} {run : List Rule} (h : ∀ r ∈ run, ∃ es, r.entries = e :: es)
    (shared : List MatchEntry) : expandAll (shared ++ [e]) (run.map Rule.tail) = expandAll shared run := by
  rw [expandAll_eq, expandAll_eq, List.flatMap_map]
  refine List.flatMap_congr fun r hr => ?_
  obtain ⟨es, hes⟩ := h r hr
  exact (Rule.expand_of_entries hes shared).symm

/-- A run is factored into what it stands for, if the recursion keeps what is left of its rules. -/
theorem expandAll_factorRun {opt : List Rule → List Rule} {run : List Rule} (hrun : IsRun (headJoins prefixMatches) run)
    {shared : List MatchEntry}
    (hopt : 2 ≤ run.length → ∀ e, (∀ r ∈ run, ∃ es, r.entries = e :: es) →
      expandAll (shared ++ [e]) (opt (run.map Rule.tail)) = expandAll (shared ++ [e]) (run.map Rule.tail)) :
    expandAll shared (factorRun opt run) = expandAll shared run := by
  match run, hrun with
  | [], _ => rfl
  | [_], _ => rfl
  | first :: second :: rest, hrun =>
    obtain ⟨e, es, hfirst, hall⟩ := isRun_prefixMatches hrun
    rw [← expandAll_map_tail hall, ← hopt (Nat.le_add_left 2 _) e hall]
    simp only [factorRun, hfirst]
    split
    · rename_i rule hone
      rw [hone, expandAll, expandAll, expand_withEntries_cons, Rule.withEntries_self]
      rfl
    · rw [expandAll, expandAll, List.append_nil, Rule.expand]

/-! ## The second pass -/

/-- One merge: the matches of the blocks around it, and the rules that become one. -/
structure Merge where
  shared : List MatchEntry
  run : List Rule

/-- The merge joins rules at an option whose array is unfolded, behind options that are not unfolded into several rules. -/
def Merge.harmless (m : Merge) : Bool :=
  match m.run with
  | .line (e :: _) d :: _ => d.unfolds e.name && m.shared.all fun e' => (d.choices e').length = 1
  | _ => false

/-- Options with one choice each stand for one list of options. -/
theorem RuleData.unfold_of_single {d : RuleData} {shared : List MatchEntry} (h : ∀ e ∈ shared, (d.choices e).length = 1) :
    ∃ cs, d.unfold shared = [cs] := by
  induction shared with
  | nil => exact ⟨[], rfl⟩
  | cons e es ih =>
    obtain ⟨hhead, htail⟩ := List.forall_mem_cons.1 h
    obtain ⟨c, hc⟩ := List.length_eq_one_iff.1 hhead
    obtain ⟨cs, hcs⟩ := ih htail
    exact ⟨c :: cs, by rw [unfold, hc, hcs]; rfl⟩

/-- Behind options with one choice, an option that is unfolded gives the rules of its values. -/
theorem RuleData.unfold_values {d : RuleData} {shared : List MatchEntry} {cs : List MatchEntry} (hshared : d.unfold shared = [cs])
    {e : MatchEntry} {vs : List Value} (hchoices : d.choices e = vs.map fun v => ⟨e.name, v⟩) (es : List MatchEntry) :
    d.unfold (shared ++ e :: es) = vs.flatMap fun v => (d.unfold es).map fun t => cs ++ ⟨e.name, v⟩ :: t := by
  rw [unfold_append, hshared, List.flatMap_singleton, unfold, hchoices, List.flatMap_map, List.map_flatMap]
  simp only [List.map_map]
  rfl

/-- The choices of an option that a merge unfolds. -/
theorem choices_headValues {d : RuleData} {e : MatchEntry} (es : List MatchEntry) (hunfolds : d.unfolds e.name = true)
    (hmember : isMergingArrayMember e.value = true) :
    d.choices e = (headValues (.line (e :: es) d)).map fun v => ⟨e.name, v⟩ := by
  obtain ⟨name, value⟩ := e
  cases value with
  | scalar text => rfl
  | array vs =>
    simp only [RuleData.choices]
    rw [if_pos hunfolds]
    rfl
  | _ => cases hmember

/-- A run that differs in its first match's value: the option and what is left of every rule. -/
theorem isRun_arrayJoins {first second : Rule} {rest : List Rule} (h : IsRun (headJoins arrayJoins) (first :: second :: rest)) :
    ∃ e es, first.entries = e :: es ∧
      ∀ r ∈ first :: second :: rest, ∃ v, isMergingArrayMember v = true ∧ r = first.withEntries (⟨e.name, v⟩ :: es) := by
  obtain ⟨_, _, heq, hall⟩ := isRun_headJoins h
  obtain ⟨rfl, rfl⟩ := List.cons.inj heq
  have hjoin : ∀ r ∈ second :: rest, ∃ e es, first.entries = e :: es ∧ isMergingArrayMember e.value = true ∧
      ∃ v, isMergingArrayMember v = true ∧ r = first.withEntries (⟨e.name, v⟩ :: es) := by
    intro r hr
    have hr := hall r hr
    simp only [arrayJoins, Bool.and_eq_true] at hr
    obtain ⟨-, hr⟩ := hr
    unfold arrayMatches at hr
    split at hr
    · rename_i e es e' es' hfirst hother
      simp only [Bool.and_eq_true, decide_eq_true_eq] at hr
      obtain ⟨⟨⟨hm, hm'⟩, hname⟩, htail⟩ := hr
      refine ⟨e, es, hfirst, hm, e'.value, hm', ?_⟩
      rw [Rule.tail, Rule.tail, hfirst, hother, List.tail_cons, List.tail_cons] at htail
      have hself := r.withEntries_self
      rw [hother] at hself
      rw [hname]
      cases first <;> cases r <;> simp_all [Rule.withEntries]
    · cases hr
  obtain ⟨e, es, hfirst, hm, -⟩ := hjoin second List.mem_cons_self
  refine ⟨e, es, hfirst, fun r hr => ?_⟩
  rcases List.mem_cons.1 hr with rfl | hr
  · refine ⟨e.value, hm, ?_⟩
    have hself := r.withEntries_self
    rw [hfirst] at hself
    exact hself.symm
  · obtain ⟨e', es', hfirst', -, v, hv, hr'⟩ := hjoin r hr
    obtain ⟨rfl, rfl⟩ := List.cons.inj (hfirst.symm.trans hfirst')
    exact ⟨v, hv, hr'⟩

/-- A run that is merged without harm stands for what its rules stand for. -/
theorem expandAll_mergeRun {run : List Rule} (hrun : IsRun (headJoins arrayJoins) run) {shared : List MatchEntry}
    (h : 2 ≤ run.length → (Merge.mk shared run).harmless = true) : expandAll shared (mergeRun run) = expandAll shared run := by
  match run, hrun with
  | [], _ => rfl
  | [_], _ => rfl
  | first :: second :: rest, hrun =>
    obtain ⟨e, es, hfirst, hall⟩ := isRun_arrayJoins hrun
    have h := h (Nat.le_add_left 2 _)
    cases first with
    | block _ _ => cases h
    | line _ d =>
      cases hfirst
      simp only [Merge.harmless, Bool.and_eq_true, List.all_eq_true, decide_eq_true_eq] at h
      obtain ⟨hunfolds, hsingle⟩ := h
      obtain ⟨cs, hcs⟩ := RuleData.unfold_of_single hsingle
      have hexpand : ∀ (v : Value) (vs : List Value), d.choices ⟨e.name, v⟩ = (vs.map fun v => ⟨e.name, v⟩) →
          (Rule.line (⟨e.name, v⟩ :: es) d).expand shared =
            vs.flatMap fun v => (d.unfold es).map fun t => ⟨cs ++ ⟨e.name, v⟩ :: t, d⟩ := by
        intro v vs hchoices
        rw [Rule.expand, RuleData.unfold_values hcs hchoices, List.map_flatMap]
        simp only [List.map_map]
        rfl
      generalize hall' : Rule.line (e :: es) d :: second :: rest = run at *
      have hmerged : mergeRun run = [.line (⟨e.name, .array (run.flatMap headValues)⟩ :: es) d] := by
        rw [← hall']
        rfl
      rw [hmerged, expandAll, expandAll, List.append_nil, expandAll_eq,
        hexpand _ (run.flatMap headValues) (by simp only [RuleData.choices]; rw [if_pos hunfolds]), List.flatMap_assoc]
      refine List.flatMap_congr fun r hr => ?_
      obtain ⟨v, hv, rfl⟩ := hall r hr
      exact (hexpand v _ (choices_headValues es (hunfolds : d.unfolds (⟨e.name, v⟩ : MatchEntry).name = true) hv)).symm

/-! ## Optimizing -/

/-- The match that a run has in common. -/
def commonEntry : List Rule → List MatchEntry
  | first :: _ => first.entries.take 1
  | [] => []

/-- The merges of `_optimize`, with a bound on its recursion. -/
def mergesWithin : Nat → List MatchEntry → List Rule → List Merge
  | 0, _, _ => []
  | depth + 1, shared, rules =>
    ((greedyRuns (headJoins prefixMatches) rules).filter fun run => 2 ≤ run.length).flatMap
        (fun run => mergesWithin depth (shared ++ commonEntry run) (run.map Rule.tail)) ++
      ((greedyRuns (headJoins arrayJoins) (factorPass (optimizeWithin depth) rules)).filter fun run => 2 ≤ run.length).map
        fun run => ⟨shared, run⟩

/-- The merges of `_optimize`. -/
def merges (shared : List MatchEntry) (rules : List Rule) : List Merge := mergesWithin (mostEntries rules + 1) shared rules

/-- The merges of `Importer.flush`, down to `levels` of blocks. -/
def flushMerges : Nat → List MatchEntry → List Rule → List Merge
  | 0, shared, rules => merges shared rules
  | levels + 1, shared, rules =>
    merges shared rules ++ (optimize rules).flatMap fun rule =>
      match rule with
      | .line _ _ => []
      | .block es members => flushMerges levels (shared ++ es) members

theorem expandAll_flatMap_runs {joins : List Rule → Rule → Bool} {f : List Rule → List Rule} {shared : List MatchEntry}
    {rules : List Rule} (h : ∀ run ∈ greedyRuns joins rules, expandAll shared (f run) = expandAll shared run) :
    expandAll shared ((greedyRuns joins rules).flatMap f) = expandAll shared rules := by
  have hrules : expandAll shared rules = expandAll shared (greedyRuns joins rules).flatten := by rw [flatten_greedyRuns]
  rw [hrules, expandAll_eq, expandAll_eq, List.flatMap_assoc, List.flatten_eq_flatMap, List.flatMap_assoc]
  refine List.flatMap_congr fun run hrun => ?_
  rw [← expandAll_eq, h run hrun, expandAll_eq]
  rfl

/-- What optimizing keeps. -/
theorem expandAll_optimizeWithin (depth : Nat) {shared : List MatchEntry} {rules : List Rule}
    (h : ∀ m ∈ mergesWithin depth shared rules, m.harmless = true) :
    expandAll shared (optimizeWithin depth rules) = expandAll shared rules := by
  induction depth generalizing shared rules with
  | zero => rfl
  | succ depth ih =>
    obtain ⟨hfactor, hmerge⟩ := List.forall_mem_append.1 h
    rw [optimizeWithin, mergePass, expandAll_flatMap_runs, factorPass, expandAll_flatMap_runs]
    · intro run hrun
      refine expandAll_factorRun (isRun_of_mem hrun) fun hlen e hall => ih fun m hm => ?_
      refine hfactor m (List.mem_flatMap.2 ⟨run, List.mem_filter.2 ⟨hrun, decide_eq_true hlen⟩, ?_⟩)
      have hcommon : commonEntry run = [e] := by
        cases run with
        | nil => cases hlen
        | cons first rest =>
          obtain ⟨es, hes⟩ := hall first List.mem_cons_self
          rw [commonEntry, hes]
          rfl
      rwa [hcommon]
    · intro run hrun
      refine expandAll_mergeRun (isRun_of_mem hrun) fun hlen => ?_
      exact hmerge _ (List.mem_map.2 ⟨run, List.mem_filter.2 ⟨hrun, decide_eq_true hlen⟩, rfl⟩)

theorem expandAll_optimize {shared : List MatchEntry} {rules : List Rule} (h : ∀ m ∈ merges shared rules, m.harmless = true) :
    expandAll shared (optimize rules) = expandAll shared rules := expandAll_optimizeWithin _ h

/-- Flushing keeps the rules when every merge it makes is harmless. -/
theorem expandAll_flush (levels : Nat) {shared : List MatchEntry} {rules : List Rule}
    (h : ∀ m ∈ flushMerges levels shared rules, m.harmless = true) :
    expandAll shared (flush levels rules) = expandAll shared rules := by
  induction levels generalizing shared rules with
  | zero => exact expandAll_optimize h
  | succ levels ih =>
    obtain ⟨hoptimize, hblocks⟩ := List.forall_mem_append.1 h
    rw [← expandAll_optimize hoptimize, flush, expandAll_eq, expandAll_eq, List.flatMap_map]
    refine List.flatMap_congr fun rule hrule => ?_
    cases rule with
    | line es d => rfl
    | block es members =>
      rw [Rule.expand, Rule.expand]
      exact ih fun m hm => hblocks m (List.mem_flatMap.2 ⟨_, hrule, hm⟩)

end Ferm.Importer
