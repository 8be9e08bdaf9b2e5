import Ferm.Nft.Stable
import Ferm.SetOrder

/-!
# The collapsed form is stable

The passes with what they raise: folded operands and verdict maps are compared in the order of the sort, and a number in them that is
too long for `int` is not caught. Where no pass compares one the passes come to an end, and what they leave is not changed by
collapsing it again.
-/

namespace Ferm

namespace Collapsing

/-! ## The passes and what they raise -/

/-- `_elements_equal`. -/
def elementsEqual (a b : Option (List String)) : Except Raised Bool :=
  match a, b with
  | some a, some b => do
    let sortedA ← SetOrder.sortSetElements a
    let sortedB ← SetOrder.sortSetElements b
    return sortedA = sortedB
  | none, none => return true
  | _, _ => return false

/-- The text of a verdict map. -/
def vmapText (setKey : String) (pairs : List (String × String)) : Except Raised String := do
  let sorted ← SetOrder.sortVmapPairs pairs
  return setKey ++ " vmap \x7b " ++ String.intercalate ", " (sorted.map fun p => p.1 ++ " : " ++ p.2) ++ " \x7d"

/-- `_stmt_equal`: two verdict maps are compared by their texts; no other statement that is not a match sorts anything for its own. -/
def stmtEqual (a b : NftStatement) : Except Raised Bool :=
  match a, b with
  | .nftMatch ma, .nftMatch mb =>
    if ma.setKey.isSome ∧ mb.setKey.isSome then
      if ma.setKey = mb.setKey ∧ ma.element = mb.element then elementsEqual ma.elements mb.elements else return false
    else return ma.expr = mb.expr
  | .nftVmap keyA pairsA, .nftVmap keyB pairsB => do
    let textA ← vmapText keyA pairsA
    let textB ← vmapText keyB pairsB
    return textA = textB
  | _, _ => return sameClass a b && a.toText = b.toText

/-- The positions, from `k` on, at which two rules' statements differ. -/
def differingFrom (k : Nat) : List NftStatement → List NftStatement → Except Raised (List Nat)
  | a :: as, b :: bs => do
    let equal ← stmtEqual a b
    let differing ← differingFrom (k + 1) as bs
    return if equal then differing else k :: differing
  | _, _ => return []

/-- `_collapse_axis`. -/
def collapseAxis (a b : NftRule) : Except Raised (Option Nat) :=
  if a.comment ≠ b.comment ∨ a.statements.length ≠ b.statements.length then return none
  else do
    match ← differingFrom 0 a.statements b.statements with
    | [k] => return if (selectorAt a k).isSome ∧ selectorAt a k = selectorAt b k then some k else none
    | _ => return none

/-- Whether a rule joins a run: the axis of a run is the one in which its second rule differs. -/
def joinsRun (run : List NftRule) (r : NftRule) : Except Raised Bool :=
  match run with
  | [] => return false
  | [base] => do
    let axis ← collapseAxis base r
    return axis.isSome
  | base :: second :: _ => do
    let axis ← collapseAxis base second
    let next ← collapseAxis base r
    return next = axis

/-- What a run becomes. -/
def closeRun (run : List NftRule) : Except Raised (List NftRule) :=
  match run with
  | base :: second :: rest => do
    match ← collapseAxis base second with
    | some axis => return [mergeRun base (second :: rest) axis]
    | none => return run
  | _ => return run

/-- `_collapse_one_pass`. -/
def collapseOnePass (rules : List NftRule) : Except Raised (List NftRule × Bool) := do
  let runs ← greedyRunsM joinsRun rules
  let merged ← runs.mapM closeRun
  return (merged.flatten, runs.any fun run => 2 ≤ run.length)

/-- The set passes, until one changes nothing; `fuel` bounds their number. -/
def collapseSets : Nat → List NftRule → Except Raised (List NftRule)
  | 0, rules => return rules
  | fuel + 1, rules => do
    let pass ← collapseOnePass rules
    if pass.2 then collapseSets fuel pass.1 else return pass.1

/-- `_collapse_chain_rules`; the fold into verdict maps sorts nothing. -/
def collapseChainRules (rules : List NftRule) : Except Raised (List NftRule) := do
  let settled ← collapseSets rules.length rules
  return collapseVmap settled

/-! ## What can be compared -/

/-- Comparing two statements sorts nothing that has a number too long to be read: folded operands of one selector, or the keys of
two verdict maps. -/
def StatementsComparable : NftStatement → NftStatement → Prop
  | .nftMatch a, .nftMatch b => a.setKey = b.setKey → ∀ es fs, a.elements = some es → b.elements = some fs →
      (∀ e ∈ es, SetOrder.Convertible e) ∧ ∀ e ∈ fs, SetOrder.Convertible e
  | .nftVmap _ pairsA, .nftVmap _ pairsB => (∀ p ∈ pairsA, SetOrder.Convertible p.1) ∧ ∀ p ∈ pairsB, SetOrder.Convertible p.1
  | _, _ => True

/-- The same of two rules: those with different comments or numbers of statements are not compared any further. -/
def Comparable (a b : NftRule) : Prop :=
  a.comment = b.comment → a.statements.length = b.statements.length →
    ∀ pair ∈ a.statements.zip b.statements, StatementsComparable pair.1 pair.2

/-- A pass over the rules compares nothing that it cannot: the first rule of each run is comparable with the rules of the run and
with the one after it. -/
def PassComparable (rules : List NftRule) : Prop := RunsCompared Comparable (greedyRuns Ferm.joinsRun rules)

/-- What the fold makes of runs next to each other is comparable. -/
def FoldComparable (rules : List NftRule) : Prop :=
  List.IsChain (fun run next => ∀ a ∈ closeVmap run, ∀ b ∈ closeVmap next, Comparable a b) (greedyRuns joinsVmap rules)

/-- No pass compares anything that it cannot, until one changes nothing. -/
def PassesComparable : Nat → List NftRule → Prop
  | 0, _ => True
  | fuel + 1, rules =>
    PassComparable rules ∧ ((Ferm.collapseOnePass rules).2 = true → PassesComparable fuel (Ferm.collapseOnePass rules).1)

/-! ## What a pass raises -/

theorem elementsEqual_eq_ok_iff {a b : Option (List String)} {r : Bool} : elementsEqual a b = .ok r ↔
    (∀ es fs, a = some es → b = some fs → (∀ e ∈ es, SetOrder.Convertible e) ∧ ∀ e ∈ fs, SetOrder.Convertible e) ∧
      r = Ferm.elementsEqual a b := by
  unfold elementsEqual Ferm.elementsEqual
  cases a with
  | none => cases b <;> exact Except.return_eq_ok_iff_of nofun
  | some es =>
    cases b with
    | none => exact Except.return_eq_ok_iff_of nofun
    | some fs =>
      rw [Except.bind_eq_ok_of_spec fun _ => SetOrder.sortSetElements_eq_ok_iff,
        Except.bind_eq_ok_of_spec fun _ => SetOrder.sortSetElements_eq_ok_iff, Except.return_eq_ok_iff, ← and_assoc]
      have hboth : (∀ es' fs', some es = some es' → some fs = some fs' →
          (∀ e ∈ es', SetOrder.Convertible e) ∧ ∀ e ∈ fs', SetOrder.Convertible e) ↔
          (∀ e ∈ es, SetOrder.Convertible e) ∧ ∀ e ∈ fs, SetOrder.Convertible e :=
        ⟨fun h => h es fs rfl rfl, fun h _ _ hes hfs => by cases hes; cases hfs; exact h⟩
      rw [hboth]

theorem vmapText_eq_ok_iff {setKey : String} {pairs : List (String × String)} {text : String} :
    vmapText setKey pairs = .ok text ↔ (∀ p ∈ pairs, SetOrder.Convertible p.1) ∧ text = Ferm.vmapText setKey pairs := by
  rw [vmapText, Except.bind_eq_ok_of_spec fun _ => SetOrder.sortVmapPairs_eq_ok_iff, Except.return_eq_ok_iff, Ferm.vmapText]

/-- A folded match has a selector and no operand of its own. -/
theorem folded {m : NftMatch} {es : List String} (h : m.elements = some es) : m.setKey.isSome ∧ m.element = none := by
  rcases m.keyed_cases with ⟨-, -, hes⟩ | ⟨_, _, -, -, hes, -⟩ | ⟨key, _, hkey, he, -⟩
  · cases hes.symm.trans h
  · cases hes.symm.trans h
  · exact ⟨Option.isSome_of_mem hkey, he⟩

/-- Two statements are compared when no number that is sorted for it is too long. -/
theorem stmtEqual_eq_ok_iff {a b : NftStatement} {r : Bool} :
    stmtEqual a b = .ok r ↔ StatementsComparable a b ∧ r = Ferm.stmtEqual a b := by
  cases a with
  | nftMatch ma =>
    cases b with
    | nftMatch mb =>
      unfold stmtEqual Ferm.stmtEqual StatementsComparable
      dsimp only
      by_cases hkeys : ma.setKey.isSome ∧ mb.setKey.isSome
      · rw [if_pos hkeys, if_pos hkeys]
        by_cases hsame : ma.setKey = mb.setKey ∧ ma.element = mb.element
        · rw [if_pos hsame, elementsEqual_eq_ok_iff, decide_eq_true hsame.1, decide_eq_true hsame.2, Bool.true_and, Bool.true_and]
          exact and_congr_left' (imp_iff_right hsame.1).symm
        · rw [if_neg hsame, ← Bool.decide_and, decide_eq_false hsame, Bool.false_and]
          exact Except.return_eq_ok_iff_of fun hkey es fs hes hfs => absurd ⟨hkey, (folded hes).2.trans (folded hfs).2.symm⟩ hsame
      · rw [if_neg hkeys, if_neg hkeys]
        exact Except.return_eq_ok_iff_of fun hkey es fs hes hfs => absurd ⟨(folded hes).1, (folded hfs).1⟩ hkeys
    | _ => exact Except.return_eq_ok_iff_of trivial
  | nftVmap keyA pairsA =>
    cases b with
    | nftVmap keyB pairsB =>
      simp only [stmtEqual, Except.bind_eq_ok_of_spec fun _ => vmapText_eq_ok_iff, Except.return_eq_ok_iff,
        StatementsComparable, and_assoc]
      rfl
    | _ => exact Except.return_eq_ok_iff_of trivial
  | _ => cases b <;> exact Except.return_eq_ok_iff_of trivial

theorem differingFrom_eq_ok_iff {k : Nat} {as bs : List NftStatement} {r : List Nat} : differingFrom k as bs = .ok r ↔
    (∀ pair ∈ as.zip bs, StatementsComparable pair.1 pair.2) ∧ r = Ferm.differingFrom k as bs := by
  induction as generalizing k bs r with
  | nil => exact Except.return_eq_ok_iff_of (List.forall_mem_nil _)
  | cons a as ih =>
    cases bs with
    | nil => exact Except.return_eq_ok_iff_of (List.forall_mem_nil _)
    | cons b bs =>
      rw [differingFrom, Except.bind_eq_ok_of_spec fun _ => stmtEqual_eq_ok_iff, Except.bind_eq_ok_of_spec fun _ => ih,
        Except.return_eq_ok_iff, List.zip_cons_cons, List.forall_mem_cons, and_assoc, Ferm.differingFrom]

theorem collapseAxis_eq_ok_iff {a b : NftRule} {axis : Option Nat} :
    collapseAxis a b = .ok axis ↔ Comparable a b ∧ axis = Ferm.collapseAxis a b := by
  unfold collapseAxis Ferm.collapseAxis
  by_cases hshape : a.comment ≠ b.comment ∨ a.statements.length ≠ b.statements.length
  · rw [if_pos hshape, if_pos hshape]
    exact Except.return_eq_ok_iff_of fun hcomment hlength => hshape.elim (absurd hcomment) (absurd hlength)
  · rw [if_neg hshape, if_neg hshape, Except.bind_eq_ok_of_spec fun _ => differingFrom_eq_ok_iff]
    obtain ⟨hcomment, hlength⟩ := not_or.1 hshape
    have hcomparable : Comparable a b ↔ ∀ pair ∈ a.statements.zip b.statements, StatementsComparable pair.1 pair.2 :=
      ⟨fun h => h (not_not.1 hcomment) (not_not.1 hlength), fun h _ _ => h⟩
    rw [hcomparable]
    refine and_congr_right fun _ => ?_
    rcases Ferm.differingFrom 0 a.statements b.statements with _ | ⟨k, _ | ⟨l, ls⟩⟩ <;> exact Except.return_eq_ok_iff

/-- A rule is asked for its axis with the first rule of the run once the others of the run have been. -/
theorem joinsRun_eq_ok_iff (first : NftRule) (rest : List NftRule) (r : NftRule) (joins : Bool) (hrest : ∀ c ∈ rest, Comparable first c) :
    joinsRun (first :: rest) r = .ok joins ↔ Comparable first r ∧ joins = Ferm.joinsRun (first :: rest) r := by
  cases rest with
  | nil => rw [joinsRun, Except.bind_eq_ok_of_spec fun _ => collapseAxis_eq_ok_iff, Except.return_eq_ok_iff, Ferm.joinsRun]
  | cons second rest =>
    have hsecond := hrest second List.mem_cons_self
    rw [joinsRun, Except.bind_eq_ok_of_spec fun _ => collapseAxis_eq_ok_iff, Except.bind_eq_ok_of_spec fun _ => collapseAxis_eq_ok_iff,
      Except.return_eq_ok_iff, and_iff_right hsecond, Ferm.joinsRun]

theorem closeRun_eq_ok_iff {run out : List NftRule} :
    closeRun run = .ok out ↔ (∀ first ∈ run.head?, ∀ second ∈ run.tail.head?, Comparable first second) ∧ out = Ferm.closeRun run := by
  rcases run with _ | ⟨first, _ | ⟨second, rest⟩⟩
  · exact Except.return_eq_ok_iff_of (by simp)
  · exact Except.return_eq_ok_iff_of (by simp)
  · rw [closeRun, Except.bind_eq_ok_of_spec fun _ => collapseAxis_eq_ok_iff, Ferm.closeRun]
    simp only [List.head?_cons, List.tail_cons, Option.mem_some_iff, forall_eq']
    refine and_congr_right fun _ => ?_
    cases Ferm.collapseAxis first second <;> exact Except.return_eq_ok_iff

/-- A pass returns when it compares nothing that it cannot. -/
theorem collapseOnePass_eq_ok_iff {rules : List NftRule} {pass : List NftRule × Bool} :
    collapseOnePass rules = .ok pass ↔ PassComparable rules ∧ pass = Ferm.collapseOnePass rules := by
  rw [collapseOnePass, Except.bind_eq_ok_of_spec fun _ => greedyRunsM_eq_ok_iff joinsRun_eq_ok_iff]
  refine and_congr_right fun hcompared => ?_
  have hclose : ∀ run ∈ greedyRuns Ferm.joinsRun rules, ∀ first ∈ run.head?, ∀ second ∈ run.tail.head?, Comparable first second :=
    fun run hrun first hfirst second hsecond => hcompared.1 run hrun first hfirst second (List.mem_of_mem_head? hsecond)
  rw [mapM_spec_ok_iff fun _ _ _ => closeRun_eq_ok_iff, and_iff_right hclose, ← List.flatMap_def, Ferm.collapseOnePass]

theorem length_collapseOnePass_lt {rules out : List NftRule} (h : collapseOnePass rules = .ok (out, true)) :
    out.length < rules.length := by
  obtain ⟨-, hpass⟩ := collapseOnePass_eq_ok_iff.1 h
  have hlt := @Ferm.length_collapseOnePass_lt rules
  rw [← hpass] at hlt
  exact hlt rfl

/-! ## The passes come to an end -/

theorem collapseSets_eq_ok_iff {fuel : Nat} {rules settled : List NftRule} :
    collapseSets fuel rules = .ok settled ↔ PassesComparable fuel rules ∧ settled = Ferm.collapseSets fuel rules := by
  induction fuel generalizing rules with
  | zero => exact Except.return_eq_ok_iff_of trivial
  | succ fuel ih =>
    rw [collapseSets, Except.bind_eq_ok_of_spec fun _ => collapseOnePass_eq_ok_iff, PassesComparable, Ferm.collapseSets, and_assoc]
    refine and_congr_right fun _ => ?_
    by_cases hchanged : (Ferm.collapseOnePass rules).2 = true
    · rw [if_pos hchanged, ih, imp_iff_right hchanged]
      simp only [hchanged, if_true]
    · rw [if_neg hchanged]
      simp only [hchanged]
      exact Except.return_eq_ok_iff_of fun h => absurd h Bool.false_ne_true

/-- More passes than there are rules change nothing: the loop has stopped, or raised, before. -/
theorem collapseSets_of_length_le {rules : List NftRule} {fuel : Nat} (h : rules.length ≤ fuel) :
    collapseSets fuel rules = collapseSets rules.length rules := by
  have hsucc : ∀ (fuel : Nat) (rules : List NftRule), rules.length ≤ fuel → collapseSets (fuel + 1) rules = collapseSets fuel rules := by
    intro fuel
    induction fuel with
    | zero =>
      intro rules hle
      obtain rfl : rules = [] := List.length_eq_zero_iff.1 (Nat.le_zero.1 hle)
      rfl
    | succ fuel ih =>
      intro rules hle
      rw [collapseSets.eq_2 rules (fuel + 1), collapseSets.eq_2 rules fuel]
      cases hpass : collapseOnePass rules with
      | error e => rfl
      | ok pass =>
        obtain ⟨out, changed⟩ := pass
        cases changed with
        | false => rfl
        | true =>
          have hlt := length_collapseOnePass_lt hpass
          exact ih out (by omega)
  obtain ⟨more, rfl⟩ := Nat.exists_eq_add_of_le h
  induction more with
  | zero => rfl
  | succ more ih => rw [← Nat.add_assoc, hsucc _ _ (Nat.le_add_right _ _), ih (Nat.le_add_right _ _)]

/-- The list the loop ends with was the last pass's, which compared nothing that it could not. -/
theorem PassesComparable.settled {fuel : Nat} {rules : List NftRule} (hfuel : rules.length ≤ fuel) (h : PassesComparable fuel rules) :
    PassComparable (Ferm.collapseSets fuel rules) := by
  induction fuel generalizing rules with
  | zero =>
    obtain rfl : rules = [] := List.length_eq_zero_iff.1 (Nat.le_zero.1 hfuel)
    exact ⟨List.forall_mem_nil _, List.isChain_nil⟩
  | succ fuel ih =>
    obtain ⟨hpass, hrest⟩ := h
    rw [Ferm.collapseSets]
    by_cases hchanged : (Ferm.collapseOnePass rules).2 = true
    · have hlt := Ferm.length_collapseOnePass_lt hchanged
      simp only [hchanged, if_true]
      exact ih (by omega) (hrest hchanged)
    · simp only [hchanged]
      rwa [if_neg Bool.false_ne_true, collapseOnePass_of_not_changed (by simpa using hchanged)]

/-! ## Collapsing again -/

theorem collapseChainRules_eq_ok_iff {rules collapsed : List NftRule} :
    collapseChainRules rules = .ok collapsed ↔ PassesComparable rules.length rules ∧ collapsed = Ferm.collapseChainRules rules := by
  rw [collapseChainRules, Except.bind_eq_ok_of_spec fun _ => collapseSets_eq_ok_iff, Except.return_eq_ok_iff, Ferm.collapseChainRules]

/-- The passes over a list that is not changed are one pass, which compares the rules next to each other. -/
theorem passesComparable_iff_of_unmerged {rules : List NftRule} (h : Unmerged rules) :
    PassesComparable rules.length rules ↔ List.IsChain Comparable rules := by
  have hpass : PassComparable rules ↔ List.IsChain Comparable rules := by
    rw [PassComparable, unmerged_iff_greedyRuns.1 h, runsCompared_singletons_iff]
  rw [← hpass]
  rcases rules with _ | ⟨r, rules⟩
  · exact iff_of_true trivial ⟨List.forall_mem_nil _, List.isChain_nil⟩
  · rw [List.length_cons, PassesComparable, unmerged_iff.1 h]
    exact and_iff_left nofun

/-- Collapsing a chain's rules comes to an end, a pass that changes the list leaving fewer rules; and it gives a list that is not
changed by collapsing it again exactly if no pass compares a number that is too long to be read. -/
theorem collapse_stable_iff (rules : List NftRule) :
    (∀ rules out, collapseOnePass rules = .ok (out, true) → out.length < rules.length) ∧
      (∀ fuel, rules.length ≤ fuel → collapseSets fuel rules = collapseSets rules.length rules ∧
        ∀ settled, collapseSets fuel rules = .ok settled → collapseOnePass settled = .ok (settled, false)) ∧
      ((∃ collapsed, collapseChainRules rules = .ok collapsed ∧ collapseChainRules collapsed = .ok collapsed) ↔
        PassesComparable rules.length rules ∧ FoldComparable (Ferm.collapseSets rules.length rules)) := by
  refine ⟨fun _ _ => length_collapseOnePass_lt, fun fuel hfuel => ⟨collapseSets_of_length_le hfuel, fun settled hsettled => ?_⟩, ?_⟩
  · obtain ⟨hcomparable, rfl⟩ := collapseSets_eq_ok_iff.1 hsettled
    have hsame := collapseSets_settled hfuel
    refine collapseOnePass_eq_ok_iff.2 ⟨hcomparable.settled hfuel, Prod.ext ?_ hsame.symm⟩
    exact (collapseOnePass_of_not_changed hsame).symm
  · have hunmerged : Unmerged (Ferm.collapseChainRules rules) :=
      (unmerged_iff.2 (collapseSets_settled (Nat.le_refl rules.length))).collapseVmap
    have hagain : (∃ collapsed, collapseChainRules rules = .ok collapsed ∧ collapseChainRules collapsed = .ok collapsed) ↔
        PassesComparable rules.length rules ∧
          PassesComparable (Ferm.collapseChainRules rules).length (Ferm.collapseChainRules rules) := by
      simp only [collapseChainRules_eq_ok_iff]
      constructor
      · rintro ⟨_, ⟨hfirst, rfl⟩, hsecond, -⟩
        exact ⟨hfirst, hsecond⟩
      · rintro ⟨hfirst, hsecond⟩
        exact ⟨_, ⟨hfirst, rfl⟩, hsecond, (collapseChainRules_collapseChainRules rules).symm⟩
    rw [hagain, passesComparable_iff_of_unmerged hunmerged, Ferm.collapseChainRules, isChain_collapseVmap_iff, FoldComparable]

/-- A rule for a port of a host. -/
def portRule (host port : String) : NftRule :=
  { statements := [.nftMatch (.single "ip saddr" host saddr_mem_setSelectors), .nftMatch (.single "tcp dport" port dport_mem_setSelectors),
      .nftVerdict "accept"] }

/-- The rules for the ports of two hosts, the first port being in the way of the sort. -/
def portRules (port : String) : List NftRule :=
  [portRule "10.0.0.1" port, portRule "10.0.0.1" "2", portRule "10.0.0.2" port, portRule "10.0.0.2" "2"]

/-- The first pass folds the ports of each host. -/
theorem collapseOnePass_portRules {port : String} (h : port ≠ "2") : Ferm.collapseOnePass (portRules port) =
    ([mergeRun (portRule "10.0.0.1" port) [portRule "10.0.0.1" "2"] 1, mergeRun (portRule "10.0.0.2" port) [portRule "10.0.0.2" "2"] 1],
      true) := by
  have haxis : ∀ host, Ferm.collapseAxis (portRule host port) (portRule host "2") = some 1 := by
    intro host
    simp [Ferm.collapseAxis, Ferm.differingFrom, Ferm.stmtEqual, Ferm.elementsEqual, selectorAt, portRule, NftMatch.single, h,
      sameClass, NftStatement.toText]
  have hnext : Ferm.collapseAxis (portRule "10.0.0.1" port) (portRule "10.0.0.2" port) = some 0 := by
    simp [Ferm.collapseAxis, Ferm.differingFrom, Ferm.stmtEqual, Ferm.elementsEqual, selectorAt, portRule, NftMatch.single,
      sameClass, NftStatement.toText]
  simp [Ferm.collapseOnePass, portRules, greedyRuns, greedyRunsFrom, Ferm.joinsRun, haxis, hnext, Ferm.closeRun]

theorem PassComparable.head {a b : NftRule} {rules : List NftRule} (h : PassComparable (a :: b :: rules)) : Comparable a b := by
  rw [PassComparable, greedyRuns, greedyRunsFrom] at h
  split at h
  · obtain ⟨more, runs, hruns⟩ := exists_greedyRunsFrom_eq_cons Ferm.joinsRun ([a] ++ [b]) rules
    rw [hruns] at h
    exact h.1 _ List.mem_cons_self a rfl b (by simp)
  · obtain ⟨more, runs, hruns⟩ := exists_greedyRunsFrom_eq_cons Ferm.joinsRun [b] rules
    rw [hruns] at h
    exact (runsCompared_cons_iff.1 h).2.1

/-- A port that is too long to be read is in the way of the second pass, which compares the ports of the two hosts. -/
theorem not_passesComparable_portRules {port : String} (h : port ≠ "2") (hport : ¬ SetOrder.Convertible port) :
    ¬ PassesComparable (portRules port).length (portRules port) := by
  rintro ⟨-, hrest⟩
  rw [collapseOnePass_portRules h] at hrest
  have hpair := (hrest rfl).1.head rfl rfl (_, _) (List.mem_cons_of_mem _ List.mem_cons_self)
  exact hport ((hpair rfl _ _ rfl rfl).1 port (List.mem_cons_self ..))

/-- Rules for a port of 4301 digits and another of two hosts are not collapsed at all. -/
theorem collapse_raises_on_long_port : ¬ ∀ rules : List NftRule,
    ∃ collapsed, collapseChainRules rules = .ok collapsed ∧ collapseChainRules collapsed = .ok collapsed := by
  intro h
  let port := String.ofList (List.replicate 4301 '1')
  obtain ⟨collapsed, hcollapsed, -⟩ := h (portRules port)
  have hport : ¬ SetOrder.Convertible port := SetOrder.not_convertible_replicate (by decide)
  have hdash : partitionAt '-' "2".toList = none := by decide
  have hne : port ≠ "2" := fun he => hport (he ▸ ⟨fun _ => by decide, fun _ _ hparts => by cases hdash.symm.trans hparts⟩)
  exact not_passesComparable_portRules hne hport (collapseChainRules_eq_ok_iff.1 hcollapsed).1

/-! ## Lists on which every pass can compare what it has to -/

/-- The operands of a match, and the keys of a verdict map. -/
def operands : NftStatement → List String
  | .nftMatch m => m.elements.getD m.element.toList
  | .nftVmap _ pairs => pairs.map Prod.fst
  | _ => []

/-- No operand has a number that is too long to be read. -/
def Readable (rules : List NftRule) : Prop := ∀ r ∈ rules, ∀ s ∈ r.statements, ∀ e ∈ operands s, SetOrder.Convertible e

theorem comparable_of_readable {rules : List NftRule} (h : Readable rules) {a b : NftRule} (ha : a ∈ rules) (hb : b ∈ rules) :
    Comparable a b := by
  rintro - - ⟨sa, sb⟩ hpair
  obtain ⟨hsa, hsb⟩ := List.of_mem_zip hpair
  have hsa := h a ha sa hsa
  have hsb := h b hb sb hsb
  cases sa with
  | nftMatch ma =>
    cases sb with
    | nftMatch mb =>
      intro _ es fs hes hfs
      rw [operands, hes, Option.getD_some] at hsa
      rw [operands, hfs, Option.getD_some] at hsb
      exact ⟨hsa, hsb⟩
    | _ => trivial
  | nftVmap _ pairsA =>
    cases sb with
    | nftVmap _ pairsB => exact ⟨List.forall_mem_map.1 hsa, List.forall_mem_map.1 hsb⟩
    | _ => trivial
  | _ => cases sb <;> trivial

/-- What a rule brings to a run are operands of it. -/
theorem operandsAt_readable {rules : List NftRule} (h : Readable rules) (axis : Nat) :
    ∀ r ∈ rules, ∀ e ∈ operandsAt axis r, SetOrder.Convertible e := by
  intro r hr e he
  unfold operandsAt at he
  split at he
  · rename_i m hm
    exact h r hr (.nftMatch m) (List.mem_of_getElem? hm) e he
  · cases he

/-- The operands of a folded run are those of its rules. -/
theorem mergeRun_readable {base : NftRule} {rest : List NftRule} {axis : Nat} (h : Readable (base :: rest)) :
    Readable [mergeRun base rest axis] := by
  rw [Readable, List.forall_mem_singleton, mergeRun]
  split
  · rename_i anchor hanchor
    intro s hs e he
    rcases List.mem_or_eq_of_mem_set hs with hs | rfl
    · exact h base List.mem_cons_self s hs e he
    · rcases anchor.fold_cases ((base :: rest).flatMap (operandsAt axis)) with hfold | hfold
      · rw [hfold] at he
        exact h base List.mem_cons_self _ (List.mem_of_getElem? hanchor) e he
      · rw [operands, hfold, Option.getD_some] at he
        obtain ⟨r, hr, he⟩ := List.mem_flatMap.1 he
        exact operandsAt_readable h axis r hr e he
  · exact h base List.mem_cons_self

theorem closeRun_readable {run : List NftRule} (h : Readable run) : Readable (Ferm.closeRun run) := by
  unfold Ferm.closeRun
  split
  · split
    · exact mergeRun_readable h
    · exact h
  · exact h

theorem collapseOnePass_readable {rules : List NftRule} (h : Readable rules) : Readable (Ferm.collapseOnePass rules).1 := by
  intro r hr
  obtain ⟨run, hrun, hr⟩ := List.mem_flatMap.1 hr
  exact closeRun_readable (fun r hr => h r (mem_of_mem_greedyRuns hrun hr)) r hr

theorem collapseSets_readable {fuel : Nat} {rules : List NftRule} (h : Readable rules) : Readable (Ferm.collapseSets fuel rules) := by
  induction fuel generalizing rules with
  | zero => exact h
  | succ fuel ih =>
    rw [Ferm.collapseSets]
    split
    · exact ih (collapseOnePass_readable h)
    · exact collapseOnePass_readable h

/-- The keys of a verdict map are operands of the rules of its run. -/
theorem closeVmap_readable {run : List NftRule} (h : Readable run) : Readable (closeVmap run) := by
  unfold closeVmap
  split
  · split
    · rintro r hr s hs e he
      rw [List.mem_singleton.1 hr, List.mem_singleton] at hs
      rw [hs, operands, List.map_map] at he
      obtain ⟨leaf, hleaf, rfl⟩ := List.mem_map.1 he
      obtain ⟨r', hr', hleaf⟩ := List.mem_filterMap.1 hleaf
      obtain ⟨m, hstatements, -, helements, -, -, helement⟩ := statements_of_vmapCandidate hleaf
      refine h r' hr' (.nftMatch m) (hstatements ▸ List.mem_cons_self) leaf.key ?_
      rw [operands, helements]
      exact Option.mem_toList.2 helement
    · exact h
  · exact h

theorem collapseVmap_readable {rules : List NftRule} (h : Readable rules) : Readable (collapseVmap rules) := by
  intro r hr
  obtain ⟨run, hrun, hr⟩ := List.mem_flatMap.1 hr
  exact closeVmap_readable (fun r hr => h r (mem_of_mem_greedyRuns hrun hr)) r hr

theorem passComparable_of_readable {rules : List NftRule} (h : Readable rules) : PassComparable rules := by
  refine ⟨fun run hrun first hfirst r hr => ?_, (List.pairwise_of_forall_mem_list fun run hrun next hnext first hfirst r hr => ?_).isChain⟩
  · exact comparable_of_readable h (mem_of_mem_greedyRuns hrun (List.mem_of_mem_head? hfirst))
      (mem_of_mem_greedyRuns hrun (List.mem_of_mem_tail hr))
  · exact comparable_of_readable h (mem_of_mem_greedyRuns hrun (List.mem_of_mem_head? hfirst))
      (mem_of_mem_greedyRuns hnext (List.mem_of_mem_head? hr))

/-- Where no operand has a number that is too long to be read, every pass can compare what it has to. -/
theorem passesComparable_of_readable {fuel : Nat} {rules : List NftRule} (h : Readable rules) :
    PassesComparable fuel rules ∧ FoldComparable (Ferm.collapseSets fuel rules) := by
  constructor
  · induction fuel generalizing rules with
    | zero => trivial
    | succ fuel ih => exact ⟨passComparable_of_readable h, fun _ => ih (collapseOnePass_readable h)⟩
  · have hfolded : Readable (collapseVmap (Ferm.collapseSets fuel rules)) := collapseVmap_readable (collapseSets_readable h)
    rw [FoldComparable, ← isChain_collapseVmap_iff]
    exact (List.pairwise_of_forall_mem_list fun a ha b hb => comparable_of_readable hfolded ha hb).isChain

end Collapsing

end Ferm
