import Ferm.Lib.Dict
import Ferm.Nft.Passes

/-!
# Packets on their way through a table

A packet enters a chain, meets its rules in order, and jumps to other chains and returns from them, until some verdict decides it.
Statements with kernel state of their own read and change that state, each its own part of it. Whatever such a kernel is, and
whatever packets it is sent one after the other, a table and its collapsed form decide them alike and leave the same state.
-/

namespace Ferm

/-! ## A kernel -/

/-- How a kernel with the state `σ` reads the texts of a table. A statement with state of its own acts on the part of the state that
belongs to its chain and its number among such statements of the chain. -/
structure Machine (σ P : Type) extends Reading P where
  act : P → String → Nat → String → σ → Step × σ

variable {σ P : Type} (A : ActionTexts) (M : Machine σ P) (p : P)

/-- What a verdict's text does, jumps included. -/
abbrev Verdicts (σ : Type) := String → σ → Step × σ

/-- One statement, which is the `k`-th with state of its own if it has any. -/
def NftStatement.runOn (chain : String) (V : Verdicts σ) (k : Nat) (stmt : NftStatement) (s : σ) : Step × σ :=
  if A.isAction stmt then M.act p chain k stmt.toText s
  else
    match stmt with
    | nftMatch m => (if m.holds M.toReading p then .next else .skip, s)
    | nftVerdict expr => V expr s
    | nftVmap setKey pairs =>
      match (orderVmapPairs pairs).find? fun pair => M.holds p (setKey ++ " " ++ pair.1) with
      | some pair => V pair.2 s
      | none => (.skip, s)
    | _ => (.next, s)

/-- The statements of a rule, until one does not let the packet go on. -/
def runStatements (chain : String) (V : Verdicts σ) : Nat → List NftStatement → σ → Step × σ
  | _, [], s => (.next, s)
  | k, stmt :: stmts, s =>
    match stmt.runOn A M p chain V k s with
    | (.next, s) => runStatements chain V (if A.isAction stmt then k + 1 else k) stmts s
    | (.skip, s) => (.skip, s)
    | (.done verdict, s) => (.done verdict, s)

/-- The rules of a chain, until one decides the packet. -/
def runRules (chain : String) (V : Verdicts σ) : Nat → List NftRule → σ → Option String × σ
  | _, [], s => (none, s)
  | k, r :: rules, s =>
    match runStatements A M p chain V k r.statements s with
    | (.done verdict, s) => (some verdict, s)
    | (_, s) => runRules chain V (k + r.statements.countP A.isAction) rules s

/-- The chain a verdict goes to, and whether it comes back. -/
def verdictTarget (verdict : String) : Option (Bool × String) :=
  if startsWith verdict "jump " then some (true, String.ofList (verdict.toList.drop 5))
  else if startsWith verdict "goto " then some (false, String.ofList (verdict.toList.drop 5))
  else none

/-- A verdict, where `call` is the way through another chain. -/
def runVerdict (call : String → σ → Option String × σ) : Verdicts σ := fun verdict s =>
  match verdictTarget verdict with
  | some (back, chain) =>
    match call chain s with
    | (some verdict, s) => (.done verdict, s)
    | (none, s) => (if back then .skip else .done "return", s)
  | none => (M.verdict p verdict, s)

/-- The way through a chain, with at most `depth` chains open; the kernel drops what jumps deeper. -/
def runChain (table : Dict String (List NftRule)) : Nat → String → σ → Option String × σ
  | 0, _, s => (some "drop", s)
  | depth + 1, chain, s =>
    match runRules A M p chain (runVerdict M p (runChain table depth)) 0 ((table.get? chain).getD []) s with
    | (some verdict, s) => (if verdict = "return" then none else some verdict, s)
    | (none, s) => (none, s)

/-- Packets one after the other, each through a chain: the verdicts, and the state they leave. -/
def runPackets (table : Dict String (List NftRule)) (depth : Nat) : List (P × String) → σ → List (Option String) × σ
  | [], s => ([], s)
  | (p, chain) :: packets, s =>
    let first := runChain A M p table depth chain s
    let rest := runPackets table depth packets first.2
    (first.1 :: rest.1, rest.2)

/-! ## Rules in a row -/

variable {A M p} {chain : String} {V : Verdicts σ}

theorem length_actions_cons (r : NftRule) (rules : List NftRule) :
    (A.actions (r :: rules)).length = r.statements.countP A.isAction + (A.actions rules).length := by
  rw [ActionTexts.actions, List.flatMap_cons, List.filter_append, List.length_append, List.countP_eq_length_filter]
  rfl

theorem runRules_append (k : Nat) (as bs : List NftRule) (s : σ) :
    runRules A M p chain V k (as ++ bs) s =
      match runRules A M p chain V k as s with
      | (some verdict, s) => (some verdict, s)
      | (none, s) => runRules A M p chain V (k + (A.actions as).length) bs s := by
  induction as generalizing k s with
  | nil => rfl
  | cons r as ih =>
    rw [List.cons_append, runRules, runRules, length_actions_cons, ← Nat.add_assoc]
    cases runStatements A M p chain V k r.statements s with
    | mk step s' =>
      cases step with
      | done verdict => rfl
      | next => exact ih _ _
      | skip => exact ih _ _

/-- Rules may be replaced run by run, as long as the numbers of the statements stay. -/
theorem runRules_flatMap {runs : List (List NftRule)} {f : List NftRule → List NftRule}
    (h : ∀ run ∈ runs, (A.actions (f run)).length = (A.actions run).length ∧
      ∀ k s, runRules A M p chain V k (f run) s = runRules A M p chain V k run s) (k : Nat) (s : σ) :
    runRules A M p chain V k (runs.flatMap f) s = runRules A M p chain V k runs.flatten s := by
  induction runs generalizing k s with
  | nil => rfl
  | cons run runs ih =>
    obtain ⟨⟨hcount, hrun⟩, hruns⟩ := List.forall_mem_cons.1 h
    rw [List.flatMap_cons, List.flatten_cons, runRules_append, runRules_append, hrun, hcount]
    simp only [ih hruns]

/-! ## Rules without state -/

/-- A verdict either decides the packet or leaves the state alone. -/
def Verdicts.Settled (V : Verdicts σ) (verdict : String) : Prop := ∀ s, (∃ v, (V verdict s).1 = .done v) ∨ (V verdict s).2 = s

/-- What the texts of a table mean in one state: a verdict that decides stands for itself. -/
def Verdicts.reading (M : Machine σ P) (V : Verdicts σ) (s : σ) : Reading P where
  holds := M.holds
  verdict := fun _ verdict =>
    match (V verdict s).1 with
    | .done _ => .done verdict
    | step => step

/-- Statements without state do what they do as a reading of the state says, and change it only when they decide. -/
theorem runStatements_of_stateless {stmts : List NftStatement} (hA : ∀ stmt ∈ stmts, A.isAction stmt = false)
    (hlin : ∀ setKey pairs, .nftVmap setKey pairs ∉ stmts) (hV : ∀ verdict, .nftVerdict verdict ∈ stmts → V.Settled verdict)
    (k : Nat) (s : σ) :
    (∃ verdict v s', runSteps (stmts.map (NftStatement.stepOn (V.reading M s) p)) = .done verdict ∧ V verdict s = (.done v, s') ∧
        runStatements A M p chain V k stmts s = (.done v, s')) ∨
      ((runSteps (stmts.map (NftStatement.stepOn (V.reading M s) p))).verdict? = none ∧
        runStatements A M p chain V k stmts s = (runSteps (stmts.map (NftStatement.stepOn (V.reading M s) p)), s)) := by
  induction stmts with
  | nil => exact .inr ⟨rfl, rfl⟩
  | cons stmt stmts ih =>
    obtain ⟨hstmt, hstmts⟩ := List.forall_mem_cons.1 hA
    have ih := ih hstmts (fun setKey pairs h => hlin setKey pairs (List.mem_cons_of_mem _ h))
      fun verdict h => hV verdict (List.mem_cons_of_mem _ h)
    have hnext : stmt.stepOn (V.reading M s) p = .next → stmt.runOn A M p chain V k s = (.next, s) →
        (∃ verdict v s', runSteps ((stmt :: stmts).map (NftStatement.stepOn (V.reading M s) p)) = .done verdict ∧
            V verdict s = (.done v, s') ∧ runStatements A M p chain V k (stmt :: stmts) s = (.done v, s')) ∨
          ((runSteps ((stmt :: stmts).map (NftStatement.stepOn (V.reading M s) p))).verdict? = none ∧
            runStatements A M p chain V k (stmt :: stmts) s =
              (runSteps ((stmt :: stmts).map (NftStatement.stepOn (V.reading M s) p)), s)) := by
      intro hstep hrun
      rw [List.map_cons, hstep, runStatements, hrun]
      simpa only [runSteps, hstmt, Bool.false_eq_true, if_false] using ih
    have hskip : stmt.stepOn (V.reading M s) p = .skip → stmt.runOn A M p chain V k s = (.skip, s) →
        (runSteps ((stmt :: stmts).map (NftStatement.stepOn (V.reading M s) p))).verdict? = none ∧
          runStatements A M p chain V k (stmt :: stmts) s =
            (runSteps ((stmt :: stmts).map (NftStatement.stepOn (V.reading M s) p)), s) := by
      intro hstep hrun
      rw [List.map_cons, hstep, runStatements, hrun]
      exact ⟨rfl, rfl⟩
    cases stmt with
    | nftMatch m =>
      cases hm : m.holds M.toReading p with
      | true => exact hnext (if_pos hm) (by simp [NftStatement.runOn, hstmt, hm])
      | false => exact .inr (hskip (if_neg (Bool.eq_false_iff.1 hm)) (by simp [NftStatement.runOn, hstmt, hm]))
    | nftVerdict verdict =>
      have hrun : (NftStatement.nftVerdict verdict).runOn A M p chain V k s = V verdict s := by simp [NftStatement.runOn, hstmt]
      have hstep : (NftStatement.nftVerdict verdict).stepOn (V.reading M s) p =
          match (V verdict s).1 with
          | .done _ => .done verdict
          | step => step := rfl
      cases hout : V verdict s with
      | mk step s' =>
        rw [hout] at hrun hstep
        have hkeeps : (∀ v, step ≠ .done v) → s' = s := by
          intro hdone
          rcases hV verdict List.mem_cons_self s with ⟨v, hv⟩ | hs
          · rw [hout] at hv
            exact absurd hv (hdone v)
          · rw [hout] at hs
            exact hs
        cases step with
        | done v =>
          refine .inl ⟨verdict, v, s', ?_, hout, ?_⟩
          · rw [List.map_cons, hstep]
            rfl
          · rw [runStatements, hrun]
        | next =>
          rw [hkeeps (by simp)] at hrun
          exact hnext hstep hrun
        | skip =>
          rw [hkeeps (by simp)] at hrun
          exact .inr (hskip hstep hrun)
    | nftVmap setKey pairs => exact absurd List.mem_cons_self (hlin setKey pairs)
    | nftReset expr => exact hnext rfl (by simp [NftStatement.runOn, hstmt])
    | nftSetUpdate u => exact hnext rfl (by simp [NftStatement.runOn, hstmt])
    | nftObjectRef o => exact hnext rfl (by simp [NftStatement.runOn, hstmt])
    | nftQuota expr => exact hnext rfl (by simp [NftStatement.runOn, hstmt])

/-- Rules without state, whose verdicts decide or leave the state alone. -/
structure Stateless (A : ActionTexts) (V : Verdicts σ) (rules : List NftRule) : Prop where
  actions : A.stateless rules = true
  linear : ∀ r ∈ rules, r.Linear
  settled : ∀ r ∈ rules, ∀ verdict, .nftVerdict verdict ∈ r.statements → V.Settled verdict

/-- Such rules are decided by the first match, as the state is when the packet comes. -/
theorem Stateless.runRules_eq {rules : List NftRule} (h : Stateless A V rules) (k : Nat) (s : σ) :
    runRules A M p chain V k rules s =
      match firstMatch (V.reading M s) rules p with
      | some verdict => ((V verdict s).1.verdict?, (V verdict s).2)
      | none => (none, s) := by
  induction rules generalizing k with
  | nil => rfl
  | cons r rules ih =>
    have hrest : Stateless A V rules := by
      refine ⟨?_, fun r hr => h.linear r (List.mem_cons_of_mem _ hr), fun r hr => h.settled r (List.mem_cons_of_mem _ hr)⟩
      have hactions := h.actions
      rw [ActionTexts.stateless, List.all_cons, Bool.and_eq_true] at hactions
      exact hactions.2
    have hfirst : firstMatch (V.reading M s) (r :: rules) p =
        (r.offer (V.reading M s) p).or (firstMatch (V.reading M s) rules p) := by
      rw [← List.singleton_append, firstMatch_append, firstMatch_singleton]
    rw [hfirst, NftRule.offer, NftRule.steps, runRules]
    rcases runStatements_of_stateless (M := M) (p := p) (ActionTexts.stateless_iff.1 h.actions r List.mem_cons_self)
      (h.linear r List.mem_cons_self) (h.settled r List.mem_cons_self) k s with ⟨verdict, v, s', hsteps, hout, hrun⟩ | ⟨hnone, hrun⟩
    · rw [hsteps, hrun]
      simp only [Step.verdict?, Option.some_or, hout]
    · rw [hnone, hrun, Option.none_or, ← ih hrest]
      cases hsteps : runSteps (r.statements.map (NftStatement.stepOn (V.reading M s) p)) with
      | done verdict =>
        rw [hsteps] at hnone
        cases hnone
      | next => rfl
      | skip => rfl

/-! ## One chain -/

theorem Stateless.closeRun {run : List NftRule} (h : Stateless A V run) : Stateless A V (closeRun run) := by
  refine ⟨ActionTexts.stateless_iff.2 fun r hr stmt hstmt => ?_, linear_closeRun h.linear, fun r hr verdict hverdict => ?_⟩
  · obtain ⟨r', hr', hstmt | ⟨m, es, hm, -, rfl⟩⟩ := mem_closeRun hr hstmt
    · exact ActionTexts.stateless_iff.1 h.actions r' hr' stmt hstmt
    · rw [ActionTexts.isAction_fold]
      exact ActionTexts.stateless_iff.1 h.actions r' hr' _ hm
  · obtain ⟨r', hr', hverdict | ⟨m, es, -, -, he⟩⟩ := mem_closeRun hr hverdict
    · exact h.settled r' hr' verdict hverdict
    · cases he

/-- The rule a run becomes does what the run does. -/
theorem runRules_closeRun {run : List NftRule} (hrun : IsRun joinsRun run) (h : Stateless A V run) (hs : runFaithful run = true)
    (k : Nat) (s : σ) : runRules A M p chain V k (closeRun run) s = runRules A M p chain V k run s := by
  rw [h.closeRun.runRules_eq, h.runRules_eq, firstMatch_closeRun _ p hrun h.linear hs]

/-- The jumps among the verdicts of a run go to chains of `quiet`. -/
def jumpsWithin (quiet : List String) (run : List NftRule) : Bool :=
  run.all fun r => r.statements.all fun stmt =>
    match stmt with
    | .nftVerdict verdict =>
      match verdictTarget verdict with
      | some (true, chain) => chain ∈ quiet
      | _ => true
    | _ => true

/-- A run of which the merged rule does what the run does: no statement has state of its own, the matches are equal by their operands,
and what is jumped to is quiet. -/
def mergeable (A : ActionTexts) (quiet : List String) (run : List NftRule) : Bool :=
  runFaithful run && A.stateless run && jumpsWithin quiet run

theorem settled_of_jumpsWithin {quiet : List String} {run : List NftRule} (h : jumpsWithin quiet run = true)
    (hV : ∀ verdict, (∀ chain, verdictTarget verdict = some (true, chain) → chain ∈ quiet) → V.Settled verdict) :
    ∀ r ∈ run, ∀ verdict, .nftVerdict verdict ∈ r.statements → V.Settled verdict := by
  intro r hr verdict hverdict
  refine hV verdict fun chain htarget => ?_
  have hall := List.all_eq_true.1 (List.all_eq_true.1 h r hr) _ hverdict
  simpa only [htarget, decide_eq_true_eq] using hall

/-- The set passes change nothing of what a chain does with a packet, as long as every run they merge is mergeable. -/
theorem runRules_collapseSets {quiet : List String}
    (hV : ∀ verdict, (∀ chain, verdictTarget verdict = some (true, chain) → chain ∈ quiet) → V.Settled verdict)
    {fuel : Nat} {rules : List NftRule} (hlin : ∀ r ∈ rules, r.Linear) (h : everyMerge (mergeable A quiet) fuel rules = true)
    (k : Nat) (s : σ) : runRules A M p chain V k (collapseSets fuel rules) s = runRules A M p chain V k rules s := by
  let rel (as bs : List NftRule) : Prop := (∀ r ∈ as, r.Linear) → (∀ r ∈ bs, r.Linear) ∧
    ∀ k s, runRules A M p chain V k bs s = runRules A M p chain V k as s
  have hrefl (rules : List NftRule) : rel rules rules := fun hlin => ⟨hlin, fun _ _ => rfl⟩
  have htrans {as bs cs : List NftRule} (hab : rel as bs) (hbc : rel bs cs) : rel as cs := by
    intro hlin
    obtain ⟨hlin', hsame⟩ := hab hlin
    obtain ⟨hlin'', hsame'⟩ := hbc hlin'
    exact ⟨hlin'', fun k s => (hsame' k s).trans (hsame k s)⟩
  refine (collapseSets_of_everyMerge rel hrefl htrans (fun rules hruns hlin => ⟨linear_collapseOnePass hlin, fun k s => ?_⟩) h hlin).2 k s
  -- one pass, run by run
  conv_rhs => rw [← flatten_greedyRuns joinsRun rules]
  refine runRules_flatMap (fun run hrun => ?_) k s
  have hisRun := isRun_of_mem hrun
  rcases Nat.lt_or_ge run.length 2 with hlength | hlength
  · rcases run_cases hisRun with ⟨r, rfl, hclose⟩ | ⟨base, rest, axis, hne, rfl, -, -⟩
    · rw [hclose]
      exact ⟨rfl, fun _ _ => rfl⟩
    · have := List.length_pos_of_ne_nil hne
      rw [List.length_cons] at hlength
      omega
  · have hok := hruns run hrun hlength
    rw [mergeable, Bool.and_eq_true, Bool.and_eq_true] at hok
    obtain ⟨⟨hs, hactions⟩, hjumps⟩ := hok
    have hstateless : Stateless A V run :=
      ⟨hactions, fun r hr => hlin r (mem_of_mem_greedyRuns hrun hr), settled_of_jumpsWithin hjumps hV⟩
    refine ⟨?_, runRules_closeRun hisRun hstateless hs⟩
    rw [ActionTexts.stateless_iff_actions.1 hactions, ActionTexts.stateless_iff_actions.1 hstateless.closeRun.actions]

/-! ## Verdict maps -/

/-- The packet meets the match of a leaf. -/
def Machine.meets (M : Machine σ P) (p : P) (leaf : VmapLeaf) : Bool := M.holds p (leaf.setKey ++ " " ++ leaf.key)

/-- A packet meets at most one of the keys of every verdict map that is built. -/
def Machine.Exclusive (M : Machine σ P) (rules : List NftRule) : Prop :=
  ∀ run ∈ greedyRuns joinsVmap rules, 2 ≤ run.length →
    (run.filterMap vmapCandidate).Pairwise fun a b => ∀ p, ¬ (M.meets p a = true ∧ M.meets p b = true)

/-- What a leaf does with a packet. -/
theorem runStatements_leaf {r : NftRule} {leaf : VmapLeaf} (h : vmapCandidate r = some leaf) (k : Nat) (s : σ) :
    runStatements A M p chain V k r.statements s =
      if M.meets p leaf then V leaf.verdict s else (.skip, s) := by
  have hactions := ActionTexts.stateless_iff.1 (ActionTexts.stateless_of_vmapCandidate (A := A) (h ▸ rfl)) r List.mem_cons_self
  obtain ⟨m, hstatements, -, helements, hexpr, -⟩ := statements_of_vmapCandidate h
  rw [hstatements] at hactions ⊢
  obtain ⟨hm, hverdict⟩ := List.forall_mem_cons.1 hactions
  have hverdict := hverdict _ List.mem_cons_self
  have hholds : m.holds M.toReading p = M.meets p leaf := by rw [NftMatch.holds, helements, hexpr, Machine.meets]
  cases hmeets : M.meets p leaf with
  | false => simp [runStatements, NftStatement.runOn, hm, hholds, hmeets]
  | true =>
    rw [if_pos rfl]
    cases hout : V leaf.verdict s with
    | mk step s' => cases step <;> simp [runStatements, NftStatement.runOn, hm, hholds, hmeets, hverdict, hout]

/-- Leaves of which a packet meets at most one: that one decides what happens. -/
theorem runRules_leaves {rules : List NftRule} (hleaf : ∀ r ∈ rules, (vmapCandidate r).isSome = true)
    (hone : (rules.filterMap vmapCandidate).Pairwise fun a b => ¬ (M.meets p a = true ∧ M.meets p b = true)) (k : Nat) (s : σ) :
    runRules A M p chain V k rules s =
      match (rules.filterMap vmapCandidate).find? (M.meets p) with
      | some leaf => ((V leaf.verdict s).1.verdict?, (V leaf.verdict s).2)
      | none => (none, s) := by
  induction rules generalizing k s with
  | nil => rfl
  | cons r rules ih =>
    obtain ⟨hr, hrules⟩ := List.forall_mem_cons.1 hleaf
    obtain ⟨leaf, hleaf⟩ := Option.isSome_iff_exists.1 hr
    rw [List.filterMap_cons_some hleaf] at hone ⊢
    obtain ⟨hfirst, hrest⟩ := List.pairwise_cons.1 hone
    rw [runRules, runStatements_leaf hleaf, List.find?_cons]
    cases hmeets : M.meets p leaf with
    | false => exact ih hrules hrest _ _
    | true =>
      -- no other leaf is met after this one
      have hothers : (rules.filterMap vmapCandidate).find? (M.meets p) = none :=
        List.find?_eq_none.2 fun leaf' hleaf' hmeets' => hfirst leaf' hleaf' ⟨hmeets, hmeets'⟩
      rw [if_pos rfl]
      cases hout : V leaf.verdict s with
      | mk step s' =>
        cases step with
        | done verdict => simp [hout, Step.verdict?]
        | next => simp [hout, ih hrules hrest, hothers, Step.verdict?]
        | skip => simp [hout, ih hrules hrest, hothers, Step.verdict?]

/-- The leaves of a run have one selector. -/
theorem setKey_of_isRun_vmap {run : List NftRule} (h : IsRun joinsVmap run) :
    ∀ leaf ∈ run.filterMap vmapCandidate, ∀ first, run.head?.bind vmapCandidate = some first → leaf.setKey = first.setKey := by
  induction h with
  | single a =>
    intro leaf hleaf first hfirst
    rw [List.filterMap_cons] at hleaf
    rw [List.head?_cons, Option.bind_some] at hfirst
    rw [hfirst] at hleaf
    rw [List.mem_singleton.1 hleaf]
  | @snoc run a hrun ha ih =>
    intro leaf hleaf first hfirst
    rw [List.head?_append_of_ne_nil _ hrun.ne_nil] at hfirst
    rw [List.filterMap_append, List.mem_append] at hleaf
    rcases hleaf with hleaf | hleaf
    · exact ih leaf hleaf first hfirst
    · unfold joinsVmap at ha
      rw [hfirst] at ha
      cases hlast : vmapCandidate a with
      | none => simp [hlast] at hleaf
      | some last =>
        rw [hlast] at ha
        simp only [Bool.and_eq_true, decide_eq_true_eq] at ha
        obtain rfl : leaf = last := by simpa [hlast] using hleaf
        exact ha.1

/-- A verdict map of keys of which a packet meets at most one does what the run does. -/
theorem runRules_closeVmap {run : List NftRule} (hrun : IsRun joinsVmap run)
    (hone : 2 ≤ run.length → (run.filterMap vmapCandidate).Pairwise fun a b => ¬ (M.meets p a = true ∧ M.meets p b = true))
    (k : Nat) (s : σ) : runRules A M p chain V k (closeVmap run) s = runRules A M p chain V k run s := by
  match run, hrun with
  | [], hrun => exact absurd rfl hrun.ne_nil
  | [r], _ => rfl
  | first :: second :: rest, hrun =>
    have hleaves := vmapCandidate_of_isRun hrun (by simp)
    have hone := hone (by simp)
    obtain ⟨leaf, hleaf⟩ := Option.isSome_iff_exists.1 (hleaves first List.mem_cons_self)
    rw [runRules_leaves hleaves hone]
    rw [closeVmap, hleaf]
    have hsame := setKey_of_isRun_vmap hrun
    generalize (first :: second :: rest).filterMap vmapCandidate = leaves at hone hsame
    have hkey : ∀ l ∈ leaves, l.setKey = leaf.setKey := fun l hl => hsame l hl leaf hleaf
    -- the lookup finds the leaf the run finds, in whatever order the keys are written
    have hfind : (orderVmapPairs (leaves.map fun l => (l.key, l.verdict))).find? (fun pair => M.holds p (leaf.setKey ++ " " ++ pair.1)) =
        (leaves.find? (M.meets p)).map fun l => (l.key, l.verdict) := by
      have hmeets : ∀ l ∈ leaves, M.holds p (leaf.setKey ++ " " ++ l.key) = M.meets p l := fun l hl => by rw [Machine.meets, hkey l hl]
      rw [find?_eq_of_perm (orderVmapPairs_perm _), List.find?_map]
      · congr 1
        rw [← List.head?_filter, ← List.head?_filter]
        exact congrArg List.head? (List.filter_congr hmeets)
      · intro a ha b hb hma hmb
        rw [mem_orderVmapPairs] at ha hb
        obtain ⟨la, hla, rfl⟩ := List.mem_map.1 ha
        obtain ⟨lb, hlb, rfl⟩ := List.mem_map.1 hb
        rw [hmeets la hla] at hma
        rw [hmeets lb hlb] at hmb
        have : Std.Symm fun a b : VmapLeaf => ¬ (M.meets p a = true ∧ M.meets p b = true) := ⟨fun a b h hab => h hab.symm⟩
        by_contra hne
        exact hone.forall hla hlb (fun heq => hne (heq ▸ rfl)) ⟨hma, hmb⟩
    rw [runRules]
    simp only [runStatements, NftStatement.runOn, ActionTexts.isAction, Bool.false_eq_true, if_false, hfind]
    cases leaves.find? (M.meets p) with
    | none => rfl
    | some l =>
      simp only [Option.map_some]
      cases hout : V l.verdict s with
      | mk step s' => cases step <;> rfl

/-- The collapse changes nothing of what a chain does with a packet. -/
theorem runRules_collapseChainRules {quiet : List String}
    (hV : ∀ verdict, (∀ chain, verdictTarget verdict = some (true, chain) → chain ∈ quiet) → V.Settled verdict)
    {rules : List NftRule} (hlin : ∀ r ∈ rules, r.Linear) (h : everyMerge (mergeable A quiet) rules.length rules = true)
    (hone : M.Exclusive (collapseSets rules.length rules)) (s : σ) :
    runRules A M p chain V 0 (collapseChainRules rules) s = runRules A M p chain V 0 rules s := by
  rw [← runRules_collapseSets hV hlin h, collapseChainRules, collapseVmap]
  conv_rhs => rw [← flatten_greedyRuns joinsVmap (collapseSets rules.length rules)]
  refine runRules_flatMap (fun run hrun => ⟨?_, fun k s => ?_⟩) 0 s
  · exact congrArg List.length (ActionTexts.actions_closeVmap (isRun_of_mem hrun))
  · exact runRules_closeVmap (isRun_of_mem hrun) (fun hlength => (hone run hrun hlength).imp fun hab => hab p) k s

/-! ## Tables -/

/-- Chains that leave the state alone: they have no state of their own, and jump to such chains only. -/
def QuietChains (A : ActionTexts) (table : Dict String (List NftRule)) (quiet : List String) : Prop :=
  ∀ chain ∈ quiet, ∀ r ∈ (table.get? chain).getD [], ∀ stmt ∈ r.statements, A.isAction stmt = false ∧
    ∀ verdict, stmt = .nftVerdict verdict → ∀ target, verdictTarget verdict = some target → target.2 ∈ quiet

/-- The chains of a table of translated rules, where every run that is merged is mergeable. -/
structure Collapsible (A : ActionTexts) (table : Dict String (List NftRule)) (quiet : List String) : Prop where
  linear : ∀ e ∈ table.entries, ∀ r ∈ e.2, r.Linear
  quietChains : QuietChains A table quiet
  merges : ∀ e ∈ table.entries, everyMerge (mergeable A quiet) e.2.length e.2 = true

variable {table : Dict String (List NftRule)} {quiet : List String}

theorem Collapsible.rules (h : Collapsible A table quiet) (chain : String) :
    (∀ r ∈ (table.get? chain).getD [], r.Linear) ∧
      everyMerge (mergeable A quiet) ((table.get? chain).getD []).length ((table.get? chain).getD []) = true := by
  cases hget : table.get? chain with
  | none => exact ⟨fun r hr => absurd hr List.not_mem_nil, rfl⟩
  | some rules =>
    have hmem := Dict.get?_eq_some_iff.1 hget
    exact ⟨h.linear _ hmem, h.merges _ hmem⟩

/-- Statements without state, whose verdicts leave the state alone, leave it alone. -/
theorem runStatements_quiet {stmts : List NftStatement} (hlin : ∀ setKey pairs, .nftVmap setKey pairs ∉ stmts)
    (h : ∀ stmt ∈ stmts, A.isAction stmt = false ∧ ∀ verdict, stmt = .nftVerdict verdict → ∀ s, (V verdict s).2 = s) (k : Nat) (s : σ) :
    (runStatements A M p chain V k stmts s).2 = s := by
  induction stmts with
  | nil => rfl
  | cons stmt stmts ih =>
    obtain ⟨⟨hstmt, hverdict⟩, hstmts⟩ := List.forall_mem_cons.1 h
    have hkeeps : (stmt.runOn A M p chain V k s).2 = s := by
      cases stmt with
      | nftVerdict verdict => simpa [NftStatement.runOn, hstmt] using hverdict verdict rfl s
      | nftVmap setKey pairs => exact absurd List.mem_cons_self (hlin setKey pairs)
      | _ => simp [NftStatement.runOn, hstmt]
    rw [runStatements]
    cases hout : stmt.runOn A M p chain V k s with
    | mk step s' =>
      rw [hout] at hkeeps
      cases step with
      | next =>
        simp only [hstmt, Bool.false_eq_true, if_false]
        rw [show s' = s from hkeeps]
        exact ih (fun setKey pairs hmem => hlin setKey pairs (List.mem_cons_of_mem _ hmem)) hstmts
      | skip => exact hkeeps
      | done verdict => exact hkeeps

theorem runRules_quiet {rules : List NftRule} (hlin : ∀ r ∈ rules, r.Linear)
    (h : ∀ r ∈ rules, ∀ stmt ∈ r.statements, A.isAction stmt = false ∧ ∀ verdict, stmt = .nftVerdict verdict → ∀ s, (V verdict s).2 = s)
    (k : Nat) (s : σ) : (runRules A M p chain V k rules s).2 = s := by
  induction rules generalizing k with
  | nil => rfl
  | cons r rules ih =>
    obtain ⟨hr, hrules⟩ := List.forall_mem_cons.1 h
    obtain ⟨hlinr, hlinrs⟩ := List.forall_mem_cons.1 hlin
    have hkeeps : (runStatements A M p chain V k r.statements s).2 = s := runStatements_quiet hlinr hr k s
    rw [runRules]
    cases hout : runStatements A M p chain V k r.statements s with
    | mk step s' =>
      rw [hout] at hkeeps
      obtain rfl : s' = s := hkeeps
      cases step with
      | done verdict => rfl
      | next => exact ih hlinrs hrules _
      | skip => exact ih hlinrs hrules _

/-- The way through a quiet chain leaves the state alone. -/
theorem runChain_quiet (h : Collapsible A table quiet) {depth : Nat} {chain : String} (hchain : chain ∈ quiet) (s : σ) :
    (runChain A M p table depth chain s).2 = s := by
  induction depth generalizing chain s with
  | zero => rfl
  | succ depth ih =>
    have hV : ∀ r ∈ (table.get? chain).getD [], ∀ stmt ∈ r.statements, A.isAction stmt = false ∧
        ∀ verdict, stmt = .nftVerdict verdict → ∀ s, (runVerdict M p (runChain A M p table depth) verdict s).2 = s := by
      intro r hr stmt hstmt
      obtain ⟨hactions, htargets⟩ := h.quietChains chain hchain r hr stmt hstmt
      refine ⟨hactions, fun verdict he s => ?_⟩
      rw [runVerdict]
      cases htarget : verdictTarget verdict with
      | none => rfl
      | some target =>
        obtain ⟨back, name⟩ := target
        have hcall := ih (htargets verdict he _ htarget) s
        simp only
        cases hout : runChain A M p table depth name s with
        | mk verdict? s' =>
          rw [hout] at hcall
          obtain rfl : s' = s := hcall
          cases verdict? <;> rfl
    have hrules : (runRules A M p chain (runVerdict M p (runChain A M p table depth)) 0 ((table.get? chain).getD []) s).2 = s :=
      runRules_quiet (h.rules chain).1 hV 0 s
    rw [runChain]
    cases hout : runRules A M p chain (runVerdict M p (runChain A M p table depth)) 0 ((table.get? chain).getD []) s with
    | mk verdict? s' =>
      rw [hout] at hrules
      cases verdict? <;> exact hrules

/-- A verdict that jumps to quiet chains only decides the packet or leaves the state alone. -/
theorem settled_runVerdict (h : Collapsible A table quiet) (depth : Nat) {verdict : String}
    (hjump : ∀ chain, verdictTarget verdict = some (true, chain) → chain ∈ quiet) :
    (runVerdict M p (runChain A M p table depth)).Settled verdict := by
  intro s
  rw [runVerdict]
  cases htarget : verdictTarget verdict with
  | none => exact .inr rfl
  | some target =>
    obtain ⟨back, name⟩ := target
    simp only
    cases hout : runChain A M p table depth name s with
    | mk verdict? s' =>
      cases verdict? with
      | some v => exact .inl ⟨v, rfl⟩
      | none =>
        cases back with
        | false => exact .inl ⟨"return", rfl⟩
        | true =>
          have hkeeps : (runChain A M p table depth name s).2 = s := runChain_quiet h (hjump name htarget) s
          rw [hout] at hkeeps
          exact .inr hkeeps

/-- A packet meets at most one of the keys of every verdict map of a table. -/
def Machine.ExclusiveIn (M : Machine σ P) (table : Dict String (List NftRule)) : Prop :=
  ∀ e ∈ table.entries, M.Exclusive (collapseSets e.2.length e.2)

/-- The way of a packet through the collapsed table is its way through the table. -/
theorem runChain_collapse (h : Collapsible A table quiet) (hM : M.ExclusiveIn table) (depth : Nat) (chain : String) (s : σ) :
    runChain A M p (table.mapValues collapseChainRules) depth chain s = runChain A M p table depth chain s := by
  induction depth generalizing chain s with
  | zero => rfl
  | succ depth ih =>
    have hcall : runChain A M p (table.mapValues collapseChainRules) depth = runChain A M p table depth :=
      funext fun chain => funext fun s => ih chain s
    have hrules : ((table.mapValues collapseChainRules).get? chain).getD [] = collapseChainRules ((table.get? chain).getD []) := by
      rw [Dict.get?_mapValues]
      cases table.get? chain <;> rfl
    obtain ⟨hlin, hmerges⟩ := h.rules chain
    have hone : M.Exclusive (collapseSets ((table.get? chain).getD []).length ((table.get? chain).getD [])) := by
      cases hget : table.get? chain with
      | none => exact fun run hrun => absurd hrun List.not_mem_nil
      | some rules => exact hM _ (Dict.get?_eq_some_iff.1 hget)
    rw [runChain, runChain, hcall, hrules,
      runRules_collapseChainRules (fun verdict hjump => settled_runVerdict h depth hjump) hlin hmerges hone]

/-- Whatever packets a kernel is sent one after the other, it decides them by the collapsed table as by the table, and is left in the
same state, statement for statement: when runs are merged only where no rule has state of its own, where the rules are equal by
operands and where jumps go to chains without state, and when no packet meets two keys of one verdict map. -/
theorem collapse_preserves_table (h : Collapsible A table quiet) (M : Machine σ P) (hM : M.ExclusiveIn table) (depth : Nat)
    (packets : List (P × String)) (s : σ) :
    runPackets A M (table.mapValues collapseChainRules) depth packets s = runPackets A M table depth packets s := by
  induction packets generalizing s with
  | nil => rfl
  | cons packet packets ih =>
    obtain ⟨p, chain⟩ := packet
    rw [runPackets, runPackets, runChain_collapse h hM, ih]

/-- Two ports of one host, a limit in front of a jump, and two ports with different verdicts. -/
def limitedTable : Dict String (List NftRule) :=
  let port (port verdict : String) : NftRule :=
    { statements := [.nftMatch (.single "tcp dport" port dport_mem_setSelectors), .nftVerdict verdict] }
  let hostPort (port : String) : NftRule :=
    { statements := [.nftMatch (.single "ip saddr" "10.0.0.1" saddr_mem_setSelectors), .nftMatch (.single "tcp dport" port dport_mem_setSelectors),
        .nftVerdict "accept"] }
  let limit : NftRule := { statements := [.nftMatch { expr := "limit rate 3/second burst 5 packets" }, .nftVerdict "jump SLOW"] }
  let quota : NftRule := { statements := [.nftQuota "quota 1000 bytes", .nftVerdict "accept"] }
  (Dict.empty.set "INPUT" [hostPort "22", hostPort "80", limit, port "443" "accept", port "25" "drop"]).set "SLOW" [quota]

/-- Packets to ports of one host. The limit and the quota write down that they are met. -/
def portMachine : Machine (List (String × Nat)) String where
  holds := fun port text => text = "ip saddr 10.0.0.1" || text = "tcp dport " ++ port
  verdict := fun _ verdict => .done verdict
  act := fun _ chain number text log => (if startsWith text "quota" then .skip else .next, log ++ [(chain, number)])

theorem collapse_preserves_limitedTable :
    (limitedTable.mapValues collapseChainRules).entries.map (fun e => (e.1, e.2.map fun r => r.statements.map NftStatement.toText)) =
        [("INPUT", [["ip saddr 10.0.0.1", "tcp dport \x7b 22, 80 \x7d", "accept"],
            ["limit rate 3/second burst 5 packets", "jump SLOW"], ["tcp dport vmap \x7b 25 : drop, 443 : accept \x7d"]]),
          ("SLOW", [["quota 1000 bytes", "accept"]])] ∧
      runPackets stateful portMachine (limitedTable.mapValues collapseChainRules) 16 [("80", "INPUT"), ("25", "INPUT"), ("443", "INPUT")] [] =
        ([some "accept", some "drop", some "accept"], [("INPUT", 0), ("SLOW", 0), ("INPUT", 0), ("SLOW", 0)]) := by
  have hcollapsible : Collapsible stateful limitedTable [] := by
    refine ⟨by decide +kernel, ?_, by decide +kernel⟩
    intro chain hchain
    cases hchain
  have hexclusive : portMachine.ExclusiveIn limitedTable := by
    have hleaves : ∀ e ∈ limitedTable.entries, ∀ run ∈ greedyRuns joinsVmap (collapseSets e.2.length e.2), 2 ≤ run.length →
        (run.filterMap vmapCandidate).Pairwise fun a b => a.setKey = "tcp dport" ∧ b.setKey = "tcp dport" ∧ a.key ≠ b.key := by
      decide +kernel
    have hport {port : String} {leaf : VmapLeaf} (hkey : leaf.setKey = "tcp dport") (hmeets : portMachine.meets port leaf = true) :
        leaf.key = port := by
      rw [Machine.meets, hkey] at hmeets
      simp only [portMachine, Bool.or_eq_true, decide_eq_true_eq] at hmeets
      rcases hmeets with htext | htext
      · have := congrArg String.toList htext
        simp [String.toList_append] at this
      · have := congrArg String.toList htext
        simpa [String.toList_append, String.toList_inj] using this
    refine fun e he run hrun hlength => (hleaves e he run hrun hlength).imp ?_
    rintro a b ⟨ha, hb, hne⟩ port ⟨hma, hmb⟩
    exact hne ((hport ha hma).trans (hport hb hmb).symm)
  rw [collapse_preserves_table hcollapsible portMachine hexclusive]
  exact ⟨by decide +kernel, by decide +kernel⟩

end Ferm
