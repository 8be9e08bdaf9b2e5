import Ferm.Lib.Runs
import Ferm.Nft.Model

/-!
# Collapsing rules

The passes over a chain's translated rules: runs of adjacent rules that differ in one operand are merged into one rule with an
anonymous set, again and again until nothing changes, and then runs of single matches with a verdict become verdict maps. Operands
are compared in the order of numbers of any length; what the sort raises on one that is too long is added in `Collapsing`.
-/

namespace Ferm

/-! ## Comparing statements -/

/-- `_elements_equal` where the sort returns: folded operands are compared in canonical order. -/
def elementsEqual (a b : Option (List String)) : Bool :=
  match a, b with
  | some a, some b => orderElements a = orderElements b
  | none, none => true
  | _, _ => false

/-- `type(a) is type(b)`. -/
def sameClass : NftStatement → NftStatement → Bool
  | .nftMatch _, .nftMatch _ => true
  | .nftVerdict _, .nftVerdict _ => true
  | .nftVmap _ _, .nftVmap _ _ => true
  | .nftReset _, .nftReset _ => true
  | .nftSetUpdate _, .nftSetUpdate _ => true
  | .nftObjectRef _, .nftObjectRef _ => true
  | .nftQuota _, .nftQuota _ => true
  | _, _ => false

/-- `_stmt_equal`: two matches with selectors are compared by selector and operands, other matches by their texts, which a folded
match still has from before it was folded. -/
def stmtEqual (a b : NftStatement) : Bool :=
  match a, b with
  | .nftMatch ma, .nftMatch mb =>
    if ma.setKey.isSome ∧ mb.setKey.isSome then
      ma.setKey = mb.setKey && ma.element = mb.element && elementsEqual ma.elements mb.elements
    else ma.expr = mb.expr
  | _, _ => sameClass a b && a.toText = b.toText

/-- The positions, from `k` on, at which two rules' statements differ. -/
def differingFrom (k : Nat) : List NftStatement → List NftStatement → List Nat
  | a :: as, b :: bs => if stmtEqual a b then differingFrom (k + 1) as bs else k :: differingFrom (k + 1) as bs
  | _, _ => []

/-- The selector of a match that can be folded. -/
def selectorAt (r : NftRule) (k : Nat) : Option String :=
  match r.statements[k]? with
  | some (.nftMatch m) => m.setKey
  | _ => none

/-- `_collapse_axis`: the one position at which two rules differ, when both have a match on one selector there. -/
def collapseAxis (a b : NftRule) : Option Nat :=
  if a.comment ≠ b.comment ∨ a.statements.length ≠ b.statements.length then none
  else
    match differingFrom 0 a.statements b.statements with
    | [k] => if (selectorAt a k).isSome ∧ selectorAt a k = selectorAt b k then some k else none
    | _ => none

/-! ## Merging runs -/

/-- The match with the operands of a whole run. -/
def NftMatch.fold (anchor : NftMatch) (elements : List String) : NftMatch :=
  match h : anchor.setKey with
  | some key =>
    { expr := anchor.expr, setKey := some key, element := none, elements := some elements, keyed := anchor.selector_expr h }
  | none => anchor

@[simp] theorem NftMatch.fold_setKey (anchor : NftMatch) (elements : List String) :
    (anchor.fold elements).setKey = anchor.setKey := by
  unfold fold
  split
  · rename_i h
    exact h.symm
  · rfl

@[simp] theorem NftMatch.fold_expr (anchor : NftMatch) (elements : List String) :
    (anchor.fold elements).expr = anchor.expr := by
  unfold fold
  split <;> rfl

/-- Only a match with a selector is folded. -/
theorem NftMatch.fold_cases (anchor : NftMatch) (elements : List String) :
    anchor.fold elements = anchor ∨ (anchor.fold elements).elements = some elements := by
  unfold fold
  split
  · exact .inr rfl
  · exact .inl rfl

/-- The operands a rule brings to a run. -/
def operandsAt (axis : Nat) (r : NftRule) : List String :=
  match r.statements[axis]? with
  | some (.nftMatch m) => m.elements.getD m.element.toList
  | _ => []

/-- `_merge_run`: the first rule with all operands of the run at `axis`. -/
def mergeRun (base : NftRule) (rest : List NftRule) (axis : Nat) : NftRule :=
  match base.statements[axis]? with
  | some (.nftMatch anchor) =>
    { statements := base.statements.set axis (.nftMatch (anchor.fold ((base :: rest).flatMap (operandsAt axis))))
      comment := base.comment }
  | _ => base

/-- A rule joins a run when it differs from the first rule in one operand, the one in which the second rule does. -/
def joinsRun (run : List NftRule) (r : NftRule) : Bool :=
  match run with
  | [] => false
  | [base] => (collapseAxis base r).isSome
  | base :: second :: _ => collapseAxis base r = collapseAxis base second

/-- What a run becomes. -/
def closeRun (run : List NftRule) : List NftRule :=
  match run with
  | base :: second :: rest =>
    match collapseAxis base second with
    | some axis => [mergeRun base (second :: rest) axis]
    | none => run
  | _ => run

/-- `_collapse_one_pass`: one pass from left to right, and whether it merged anything. -/
def collapseOnePass (rules : List NftRule) : List NftRule × Bool :=
  let runs := greedyRuns joinsRun rules
  (runs.flatMap closeRun, runs.any fun run => 2 ≤ run.length)

/-- The set passes, until one changes nothing; `fuel` bounds their number. -/
def collapseSets : Nat → List NftRule → List NftRule
  | 0, rules => rules
  | fuel + 1, rules =>
    let pass := collapseOnePass rules
    if pass.2 then collapseSets fuel pass.1 else pass.1

/-! ## Verdict maps -/

/-- `_VMAP_VERDICTS`. -/
def VMAP_VERDICTS : List String := ["accept", "drop", "return"]

/-- `_is_vmap_verdict`. -/
def isVmapVerdict : NftStatement → Bool
  | .nftVerdict expr => expr ∈ VMAP_VERDICTS || startsWith expr "jump " || startsWith expr "goto "
  | _ => false

/-- A rule that can become an entry of a verdict map. -/
structure VmapLeaf where
  setKey : String
  key : String
  verdict : String
  deriving DecidableEq, Repr

/-- `_vmap_candidate`: one match that can be folded and is not, and a verdict. -/
def vmapCandidate (r : NftRule) : Option VmapLeaf :=
  if r.comment ≠ none then none
  else
    match r.statements with
    | [.nftMatch m, .nftVerdict expr] =>
      match m.setKey, m.element, m.elements with
      | some setKey, some key, none => if isVmapVerdict (.nftVerdict expr) then some ⟨setKey, key, expr⟩ else none
      | _, _, _ => none
    | _ => none

/-- A rule joins a run of leaves on its selector that do not have its key. -/
def joinsVmap (run : List NftRule) (r : NftRule) : Bool :=
  match (run.head?.bind vmapCandidate), vmapCandidate r with
  | some first, some leaf => leaf.setKey = first.setKey && leaf.key ∉ (run.filterMap vmapCandidate).map VmapLeaf.key
  | _, _ => false

/-- What a run of leaves becomes: a verdict map, or the one rule it is. -/
def closeVmap (run : List NftRule) : List NftRule :=
  match run with
  | first :: _ :: _ =>
    match vmapCandidate first with
    | some leaf => [{ statements := [.nftVmap leaf.setKey ((run.filterMap vmapCandidate).map fun l => (l.key, l.verdict))] }]
    | none => run
  | _ => run

/-- `_collapse_vmap`. -/
def collapseVmap (rules : List NftRule) : List NftRule := (greedyRuns joinsVmap rules).flatMap closeVmap

/-- `_collapse_chain_rules`: every pass but the last one merges, so there are no more passes than rules. -/
def collapseChainRules (rules : List NftRule) : List NftRule := collapseVmap (collapseSets rules.length rules)

/-! ## What a run has in common -/

theorem mem_differingFrom {n k : Nat} {as bs : List NftStatement} :
    k ∈ differingFrom n as bs ↔
      ∃ j a b, k = n + j ∧ as[j]? = some a ∧ bs[j]? = some b ∧ stmtEqual a b = false := by
  induction as generalizing n bs with
  | nil => simp [differingFrom]
  | cons a as ih =>
    rcases bs with _ | ⟨b, bs⟩
    · simp [differingFrom]
    · have htail : (∃ j a' b', k = n + 1 + j ∧ as[j]? = some a' ∧ bs[j]? = some b' ∧ stmtEqual a' b' = false) ↔
          ∃ j a' b', 0 < j ∧ k = n + j ∧ (a :: as)[j]? = some a' ∧ (b :: bs)[j]? = some b' ∧
            stmtEqual a' b' = false := by
        constructor
        · rintro ⟨j, a', b', rfl, h⟩
          exact ⟨j + 1, a', b', by omega, by omega, h⟩
        · rintro ⟨j, a', b', hj, rfl, h⟩
          obtain ⟨j, rfl⟩ : ∃ i, j = i + 1 := ⟨j - 1, by omega⟩
          exact ⟨j, a', b', by omega, h⟩
      rw [differingFrom]
      split
      · rename_i heq
        rw [ih, htail]
        constructor
        · rintro ⟨j, a', b', -, h⟩
          exact ⟨j, a', b', h⟩
        · rintro ⟨j, a', b', hk, ha, hb, hne⟩
          refine ⟨j, a', b', ?_, hk, ha, hb, hne⟩
          rcases j with _ | j
          · cases ha
            cases hb
            rw [heq] at hne
            cases hne
          · omega
      · rename_i hne
        rw [List.mem_cons, ih, htail]
        constructor
        · rintro (rfl | ⟨j, a', b', -, h⟩)
          · exact ⟨0, a, b, rfl, rfl, rfl, by simpa using hne⟩
          · exact ⟨j, a', b', h⟩
        · rintro ⟨j, a', b', rfl, h⟩
          rcases j with _ | j
          · exact .inl rfl
          · exact .inr ⟨j + 1, a', b', by omega, rfl, h⟩

/-- What two rules that can be merged at `axis` have in common: everything but the operands of the matches there. -/
structure SameBut (axis : Nat) (a b : NftRule) : Prop where
  comment : a.comment = b.comment
  length : a.statements.length = b.statements.length
  selector : ∃ key ma mb, a.statements[axis]? = some (.nftMatch ma) ∧ b.statements[axis]? = some (.nftMatch mb) ∧
    ma.setKey = some key ∧ mb.setKey = some key
  others : ∀ k ≠ axis, ∀ sa sb, a.statements[k]? = some sa → b.statements[k]? = some sb → stmtEqual sa sb = true

/-- The selector at a position is the one of the match there. -/
theorem selectorAt_eq_some {r : NftRule} {k : Nat} {key : String} (h : selectorAt r k = some key) :
    ∃ m, r.statements[k]? = some (.nftMatch m) ∧ m.setKey = some key := by
  unfold selectorAt at h
  split at h
  · exact ⟨_, by assumption, h⟩
  · cases h

theorem sameBut_of_collapseAxis {a b : NftRule} {axis : Nat} (h : collapseAxis a b = some axis) : SameBut axis a b := by
  unfold collapseAxis at h
  split at h
  · cases h
  · rename_i hcond
    obtain ⟨hcomment, hlength⟩ := not_or.1 hcond
    split at h
    · rename_i k hdiff
      split at h
      · rename_i hsel
        cases h
        obtain ⟨hsome, heq⟩ := hsel
        obtain ⟨key, hkey⟩ := Option.isSome_iff_exists.1 hsome
        obtain ⟨ma, ha, hma⟩ := selectorAt_eq_some hkey
        obtain ⟨mb, hb, hmb⟩ := selectorAt_eq_some (heq ▸ hkey)
        refine ⟨not_not.1 hcomment, not_not.1 hlength, ⟨key, ma, mb, ha, hb, hma, hmb⟩, ?_⟩
        intro k hk sa sb hsa hsb
        by_contra hne
        have : k ∈ differingFrom 0 a.statements b.statements :=
          mem_differingFrom.2 ⟨k, sa, sb, by omega, hsa, hsb, by simpa using hne⟩
        rw [hdiff] at this
        exact hk (List.mem_singleton.1 this)
      · cases h
    · cases h

/-- The rules of a run of two or more all differ from the first one at one position. -/
theorem exists_axis_of_isRun {base second : NftRule} {rest : List NftRule}
    (h : IsRun joinsRun (base :: second :: rest)) : ∃ axis, ∀ r ∈ second :: rest, collapseAxis base r = some axis := by
  have hrun : ∀ run, IsRun joinsRun run → ∀ base second rest, run = base :: second :: rest →
      ∃ axis, ∀ r ∈ second :: rest, collapseAxis base r = some axis := by
    intro run hrun
    induction hrun with
    | single a => simp
    | @snoc run a hrun ha ih =>
      intro base second rest he
      match run, hrun.ne_nil, ha, ih, he with
      | [b], _, ha, _, he =>
        cases he
        obtain ⟨axis, haxis⟩ := Option.isSome_iff_exists.1 ha
        exact ⟨axis, by simpa using haxis⟩
      | b :: s :: rest', _, ha, ih, he =>
        cases he
        obtain ⟨axis, haxis⟩ := ih base second rest' rfl
        refine ⟨axis, ?_⟩
        have hlast : collapseAxis base a = collapseAxis base second := by simpa [joinsRun] using ha
        intro r hr
        rcases List.mem_append.1 (show r ∈ (second :: rest') ++ [a] from hr) with hr | hr
        · exact haxis r hr
        · cases List.mem_singleton.1 hr
          rw [hlast]
          exact haxis second (List.mem_cons_self ..)
  exact hrun _ h _ _ _ rfl

/-! ## The passes come to an end -/

/-- Every run becomes one rule. -/
theorem length_closeRun {run : List NftRule} (h : IsRun joinsRun run) : (closeRun run).length = 1 := by
  rcases run with _ | ⟨base, _ | ⟨second, rest⟩⟩
  · exact absurd rfl h.ne_nil
  · rfl
  · obtain ⟨axis, haxis⟩ := exists_axis_of_isRun h
    rw [closeRun, haxis second (List.mem_cons_self ..)]
    rfl

theorem length_collapseOnePass (rules : List NftRule) :
    (collapseOnePass rules).1.length = (greedyRuns joinsRun rules).length := by
  have hlen : ∀ runs : List (List NftRule), (∀ run ∈ runs, IsRun joinsRun run) →
      (runs.flatMap closeRun).length = runs.length := by
    intro runs
    induction runs with
    | nil => intro _; rfl
    | cons run runs ih =>
      intro h
      obtain ⟨hrun, hruns⟩ := List.forall_mem_cons.1 h
      rw [List.flatMap_cons, List.length_append, length_closeRun hrun, ih hruns, List.length_cons, Nat.add_comm]
  exact hlen _ fun run hrun => isRun_of_mem hrun

/-- A pass that merges something leaves fewer rules. -/
theorem length_collapseOnePass_lt {rules : List NftRule} (h : (collapseOnePass rules).2 = true) :
    (collapseOnePass rules).1.length < rules.length := by
  obtain ⟨run, hrun, hlen⟩ := List.any_eq_true.1 h
  rw [length_collapseOnePass]
  exact length_greedyRuns_lt ⟨run, hrun, of_decide_eq_true hlen⟩

/-- A pass that merges nothing leaves the rules as they are. -/
theorem collapseOnePass_of_not_changed {rules : List NftRule} (h : (collapseOnePass rules).2 = false) :
    (collapseOnePass rules).1 = rules := by
  have hshort : ∀ run ∈ greedyRuns joinsRun rules, run.length < 2 := by
    intro run hrun
    have := List.any_eq_false.1 h run hrun
    simp only [decide_eq_true_eq] at this
    omega
  rw [collapseOnePass, greedyRuns_eq_singletons hshort, List.flatMap_map]
  exact List.flatMap_singleton' rules

/-- With as many passes as rules, the last one changes nothing. -/
theorem collapseSets_settled {fuel : Nat} {rules : List NftRule} (h : rules.length ≤ fuel) :
    (collapseOnePass (collapseSets fuel rules)).2 = false := by
  induction fuel generalizing rules with
  | zero =>
    obtain rfl : rules = [] := List.length_eq_zero_iff.1 (by omega)
    rfl
  | succ fuel ih =>
    rw [collapseSets]
    split
    · rename_i hchanged
      have := length_collapseOnePass_lt hchanged
      exact ih (by omega)
    · rename_i hchanged
      have hsame : (collapseOnePass rules).2 = false := by simpa using hchanged
      rwa [collapseOnePass_of_not_changed hsame]

end Ferm
