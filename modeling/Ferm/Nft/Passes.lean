import Ferm.Nft.Merge
import Ferm.Nft.Stable

/-!
# What the passes keep

A pass of the collapse keeps the rules of a run of one, and of a longer run the statements of the first rule. `everyMerge` is a check
of the runs that are merged, pass after pass; what every checked run keeps, the collapse keeps.

Statements that act on kernel state of their own are the case in point: the collapse keeps each of them exactly when no run that is
merged has one.
-/

namespace Ferm

/-! ## Merged runs -/

/-- Every run of two rules or more is `ok`, in this pass and in those that follow it. -/
def everyMerge (ok : List NftRule → Bool) : Nat → List NftRule → Bool
  | 0, _ => true
  | fuel + 1, rules =>
    let pass := collapseOnePass rules
    ((greedyRuns joinsRun rules).all fun run => run.length < 2 || ok run) && (!pass.2 || everyMerge ok fuel pass.1)

theorem everyMerge_succ_iff {ok : List NftRule → Bool} {fuel : Nat} {rules : List NftRule} :
    everyMerge ok (fuel + 1) rules = true ↔
      (∀ run ∈ greedyRuns joinsRun rules, 2 ≤ run.length → ok run = true) ∧
        ((collapseOnePass rules).2 = true → everyMerge ok fuel (collapseOnePass rules).1 = true) := by
  rw [everyMerge, Bool.and_eq_true, List.all_eq_true]
  refine and_congr (forall₂_congr fun run _ => ?_) ?_
  · rw [Bool.or_eq_true, decide_eq_true_eq, ← not_le, or_iff_not_imp_left, not_not]
  · cases (collapseOnePass rules).2 <;> simp

/-- What one pass over checked runs keeps, the passes keep. -/
theorem collapseSets_of_everyMerge {ok : List NftRule → Bool} (rel : List NftRule → List NftRule → Prop)
    (hrefl : ∀ rules, rel rules rules) (htrans : ∀ {a b c}, rel a b → rel b c → rel a c)
    (hpass : ∀ rules, (∀ run ∈ greedyRuns joinsRun rules, 2 ≤ run.length → ok run = true) → rel rules (collapseOnePass rules).1)
    {fuel : Nat} {rules : List NftRule} (h : everyMerge ok fuel rules = true) : rel rules (collapseSets fuel rules) := by
  induction fuel generalizing rules with
  | zero => exact hrefl rules
  | succ fuel ih =>
    obtain ⟨hruns, hrest⟩ := everyMerge_succ_iff.1 h
    rw [collapseSets]
    split
    · rename_i hchanged
      exact htrans (hpass rules hruns) (ih (hrest hchanged))
    · exact hpass rules hruns

/-- A run is one rule, or rules that differ from the first one at one position. -/
theorem run_cases {run : List NftRule} (h : IsRun joinsRun run) :
    (∃ r, run = [r] ∧ closeRun run = [r]) ∨
      ∃ base rest axis, rest ≠ [] ∧ run = base :: rest ∧ closeRun run = [mergeRun base rest axis] ∧ ∀ r ∈ rest, SameBut axis base r := by
  match run, h with
  | [], h => exact absurd rfl h.ne_nil
  | [r], _ => exact .inl ⟨r, rfl, rfl⟩
  | base :: second :: rest, h =>
    obtain ⟨axis, haxis⟩ := exists_axis_of_isRun h
    refine .inr ⟨base, second :: rest, axis, List.cons_ne_nil _ _, rfl, ?_, fun r hr => sameBut_of_collapseAxis (haxis r hr)⟩
    rw [closeRun, haxis second List.mem_cons_self]

/-- Only matches with a selector are folded. -/
theorem NftMatch.fold_of_setKey_none {m : NftMatch} {es : List String} (h : m.setKey = none) : m.fold es = m := by
  unfold NftMatch.fold
  split
  · rename_i hkey
    rw [h] at hkey
    cases hkey
  · rfl

/-- The statements of a closed run are statements of the run, but for folded matches of it. -/
theorem mem_closeRun {run : List NftRule} {r : NftRule} {stmt : NftStatement} (hr : r ∈ closeRun run) (h : stmt ∈ r.statements) :
    ∃ r' ∈ run, stmt ∈ r'.statements ∨
      ∃ m es, .nftMatch m ∈ r'.statements ∧ m.setKey.isSome ∧ stmt = .nftMatch (m.fold es) := by
  unfold closeRun at hr
  split at hr
  · rename_i base second rest
    split at hr
    · rename_i axis _
      rw [List.mem_singleton.1 hr] at h
      refine ⟨base, List.mem_cons_self, ?_⟩
      cases hanchor : base.statements[axis]? with
      | none =>
        simp only [mergeRun, hanchor] at h
        exact .inl h
      | some anchor =>
        cases anchor with
        | nftMatch m =>
          rw [mergeRun_statements _ hanchor] at h
          rcases List.mem_or_eq_of_mem_set h with h | h
          · exact .inl h
          · cases hkey : m.setKey with
            | none => exact .inl (by rw [h, NftMatch.fold_of_setKey_none hkey]; exact List.mem_of_getElem? hanchor)
            | some key => exact .inr ⟨m, _, List.mem_of_getElem? hanchor, hkey ▸ rfl, h⟩
        | _ =>
          simp only [mergeRun, hanchor] at h
          exact .inl h
    · exact ⟨r, hr, .inl h⟩
  · exact ⟨r, hr, .inl h⟩

/-! ## Statements with state of their own -/

/-- The texts that act on kernel state which belongs to the statement: a limit, a quota, a counter, the update of a set. A match that
can be folded is none of them, and neither is a verdict that can stand in a verdict map. -/
structure ActionTexts where
  acts : String → Bool
  keyed : ∀ key ∈ setSelectors, ∀ text, startsWith text (key ++ " ") = true → acts text = false
  leaf : ∀ text, isVmapVerdict (.nftVerdict text) = true → acts text = false

/-- How the statements begin that a translated rule can have with state of their own. -/
def STATE_TEXTS : List String := ["limit rate ", "numgen inc ", "quota ", "add @", "update @", "log"]

/-- Two texts of which neither begins with the other do not begin one text. -/
theorem startsWith_of_apart {text a b : String} (hab : ¬ startsWith a b = true) (hba : ¬ startsWith b a = true)
    (h : startsWith text a = true) : startsWith text b = false := by
  rw [← Bool.not_eq_true]
  intro hb
  rw [startsWith, List.isPrefixOf_iff_prefix] at hab hba h hb
  rcases List.prefix_or_prefix_of_prefix h hb with hprefix | hprefix
  · exact hba hprefix
  · exact hab hprefix

/-- The statements of translated rules with state of their own. -/
def stateful : ActionTexts where
  acts := fun text => STATE_TEXTS.any (startsWith text)
  keyed := by
    intro key hkey text htext
    have hapart : ∀ key ∈ setSelectors, ∀ head ∈ STATE_TEXTS,
        ¬ startsWith (key ++ " ") head = true ∧ ¬ startsWith head (key ++ " ") = true := by decide +kernel
    exact List.any_eq_false.2 fun head hhead => by
      simp [startsWith_of_apart (hapart key hkey head hhead).1 (hapart key hkey head hhead).2 htext]
  leaf := by
    intro text htext
    simp only [isVmapVerdict, Bool.or_eq_true, decide_eq_true_eq] at htext
    have hwords : ∀ word ∈ VMAP_VERDICTS, STATE_TEXTS.any (startsWith word) = false := by decide +kernel
    have hapart : ∀ jump ∈ ["jump ", "goto "], ∀ head ∈ STATE_TEXTS, ¬ startsWith jump head = true ∧ ¬ startsWith head jump = true := by
      decide +kernel
    have hjump : ∀ jump ∈ ["jump ", "goto "], startsWith text jump = true → STATE_TEXTS.any (startsWith text) = false :=
      fun jump hmem htext => List.any_eq_false.2 fun head hhead => by
        simp [startsWith_of_apart (hapart jump hmem head hhead).1 (hapart jump hmem head hhead).2 htext]
    rcases htext with (hword | hjump') | hgoto
    · exact hwords text hword
    · exact hjump "jump " (by simp) hjump'
    · exact hjump "goto " (by simp) hgoto

variable (A : ActionTexts)

namespace ActionTexts

/-- The statement acts on state of its own. -/
def isAction : NftStatement → Bool
  | .nftMatch m => A.acts m.expr
  | .nftVmap _ _ => false
  | stmt => A.acts stmt.toText

/-- The statements of a list with state of their own, in order. -/
def actions (rules : List NftRule) : List NftStatement := (rules.flatMap NftRule.statements).filter A.isAction

/-- No rule of the run has state of its own. -/
def stateless (run : List NftRule) : Bool := run.all fun r => r.statements.all fun stmt => !A.isAction stmt

variable {A}

theorem stateless_iff {run : List NftRule} : A.stateless run = true ↔ ∀ r ∈ run, ∀ stmt ∈ r.statements, A.isAction stmt = false := by
  simp [stateless]

theorem stateless_iff_actions {run : List NftRule} : A.stateless run = true ↔ A.actions run = [] := by
  rw [stateless_iff, actions, List.filter_eq_nil_iff]
  simp only [List.mem_flatMap, Bool.not_eq_true]
  exact ⟨fun h stmt ⟨r, hr, hstmt⟩ => h r hr stmt hstmt, fun h r hr stmt hstmt => h stmt ⟨r, hr, hstmt⟩⟩

theorem actions_append (as bs : List NftRule) : A.actions (as ++ bs) = A.actions as ++ A.actions bs := by
  rw [actions, List.flatMap_append, List.filter_append, actions, actions]

theorem actions_flatMap {α : Type} (l : List α) (f : α → List NftRule) : A.actions (l.flatMap f) = l.flatMap fun a => A.actions (f a) := by
  rw [actions, List.flatMap_assoc, List.filter_flatMap]
  rfl

/-- A match that can be folded has no state. -/
theorem isAction_of_setKey {m : NftMatch} (h : m.setKey.isSome) : A.isAction (.nftMatch m) = false := by
  obtain ⟨key, hkey⟩ := Option.isSome_iff_exists.1 h
  obtain ⟨hmem, htext⟩ := m.selector_expr hkey
  exact A.keyed key hmem m.expr htext

@[simp] theorem isAction_fold (m : NftMatch) (es : List String) : A.isAction (.nftMatch (m.fold es)) = A.isAction (.nftMatch m) := by
  rw [isAction, isAction, NftMatch.fold_expr]

/-- Statements that are taken for equal both have state or both have none. -/
theorem isAction_of_stmtEqual {a b : NftStatement} (h : stmtEqual a b = true) : A.isAction a = A.isAction b := by
  rcases a with ma | va | ⟨ka, pa⟩ | ra | ua | oa | qa <;> rcases b with mb | vb | ⟨kb, pb⟩ | rb | ub | ob | qb
  case nftMatch.nftMatch =>
    rw [stmtEqual] at h
    split at h
    · rename_i hkeys
      rw [isAction_of_setKey hkeys.1, isAction_of_setKey hkeys.2]
    · exact congrArg A.acts (of_decide_eq_true h)
  case nftVmap.nftVmap => rfl
  all_goals first | exact congrArg A.acts (of_decide_eq_true h) | cases h

/-- Rules that differ in the operands of a match have as many statements with state. -/
theorem countP_of_sameBut {axis : Nat} {a b : NftRule} (h : SameBut axis a b) :
    a.statements.countP A.isAction = b.statements.countP A.isAction := by
  have hmap : a.statements.map A.isAction = b.statements.map A.isAction := by
    apply List.ext_getElem (by rw [List.length_map, List.length_map, h.length])
    intro k hka hkb
    rw [List.length_map] at hka hkb
    rw [List.getElem_map, List.getElem_map]
    have hka' := List.getElem?_eq_getElem hka
    have hkb' := List.getElem?_eq_getElem hkb
    by_cases hk : k = axis
    · obtain ⟨key, ma, mb, hma, hmb, hkeya, hkeyb⟩ := h.selector
      rw [← hk, hka', Option.some.injEq] at hma
      rw [← hk, hkb', Option.some.injEq] at hmb
      rw [hma, hmb, isAction_of_setKey (hkeya ▸ rfl), isAction_of_setKey (hkeyb ▸ rfl)]
    · exact isAction_of_stmtEqual (h.others k hk _ _ hka' hkb')
  have hcount (stmts : List NftStatement) : stmts.countP A.isAction = (stmts.map A.isAction).countP id := by
    rw [List.countP_map]
    rfl
  rw [hcount, hcount, hmap]

/-- A merged rule has the statements with state of its first rule. -/
theorem actions_mergeRun (base : NftRule) (rest : List NftRule) (axis : Nat) : A.actions [mergeRun base rest axis] = A.actions [base] := by
  cases hanchor : base.statements[axis]? with
  | none => simp only [mergeRun, hanchor]
  | some anchor =>
    cases anchor with
    | nftMatch m =>
      obtain ⟨hlt, hget⟩ := List.getElem?_eq_some_iff.1 hanchor
      simp only [actions, List.flatMap_singleton, mergeRun_statements _ hanchor]
      rw [List.set_eq_take_append_cons_drop, if_pos hlt, List.filter_append, List.filter_cons, isAction_fold]
      conv_rhs => rw [← List.take_append_drop axis base.statements, List.drop_eq_getElem_cons hlt, List.filter_append, List.filter_cons, hget]
      cases hkey : m.setKey with
      | none => rw [NftMatch.fold_of_setKey_none hkey]
      | some key => rw [isAction_of_setKey (hkey ▸ rfl), if_neg Bool.false_ne_true, if_neg Bool.false_ne_true]
    | _ => simp only [mergeRun, hanchor]

/-- A closed run has some of the statements with state of the run: all of them exactly when the run is one rule or has none. -/
theorem actions_closeRun {run : List NftRule} (h : IsRun joinsRun run) :
    (A.actions (closeRun run)).Sublist (A.actions run) ∧
      ((A.actions (closeRun run)).length = (A.actions run).length ↔ (2 ≤ run.length → A.stateless run = true)) := by
  rcases run_cases h with ⟨r, rfl, hclose⟩ | ⟨base, rest, axis, hne, rfl, hclose, hsame⟩
  · rw [hclose]
    exact ⟨.refl _, iff_of_true rfl fun hlength => absurd hlength (by simp)⟩
  · have hcons : A.actions (base :: rest) = A.actions [base] ++ A.actions rest := actions_append [base] rest
    rw [hclose, actions_mergeRun, hcons]
    refine ⟨List.sublist_append_left _ _, ?_⟩
    have hcount (r : NftRule) : (A.actions [r]).length = r.statements.countP A.isAction := by
      rw [actions, List.flatMap_singleton, List.countP_eq_length_filter]
    rw [List.length_append, Nat.left_eq_add, List.length_eq_zero_iff, stateless_iff_actions, hcons, List.append_eq_nil_iff]
    have hlength : 2 ≤ (base :: rest).length := by
      have := List.length_pos_of_ne_nil hne
      rw [List.length_cons]
      omega
    refine ⟨fun hrest _ => ⟨?_, hrest⟩, fun h => (h hlength).2⟩
    -- the first rule has as many as any other one
    obtain ⟨r, hr⟩ := List.exists_mem_of_ne_nil rest hne
    have hzero : r.statements.countP A.isAction = 0 := by
      rw [List.countP_eq_zero]
      rw [← stateless_iff_actions, stateless_iff] at hrest
      exact fun stmt hstmt => by simpa using hrest r hr stmt hstmt
    rw [← List.length_eq_zero_iff, hcount, countP_of_sameBut (hsame r hr), hzero]

/-- A pass keeps some of the statements with state: all of them exactly when no run that it merges has one. -/
theorem actions_collapseOnePass (rules : List NftRule) :
    (A.actions (collapseOnePass rules).1).Sublist (A.actions rules) ∧
      ((A.actions (collapseOnePass rules).1).length = (A.actions rules).length ↔
        ∀ run ∈ greedyRuns joinsRun rules, 2 ≤ run.length → A.stateless run = true) := by
  have hruns : ∀ runs : List (List NftRule), (∀ run ∈ runs, IsRun joinsRun run) →
      (A.actions (runs.flatMap closeRun)).Sublist (A.actions runs.flatten) ∧
        ((A.actions (runs.flatMap closeRun)).length = (A.actions runs.flatten).length ↔
          ∀ run ∈ runs, 2 ≤ run.length → A.stateless run = true) := by
    intro runs
    induction runs with
    | nil => exact fun _ => ⟨.refl _, by simp [actions]⟩
    | cons run runs ih =>
      intro hall
      obtain ⟨hrun, hruns⟩ := List.forall_mem_cons.1 hall
      obtain ⟨hsub, hiff⟩ := actions_closeRun (A := A) hrun
      obtain ⟨hsubs, hiffs⟩ := ih hruns
      rw [List.flatMap_cons, List.flatten_cons, actions_append, actions_append, List.length_append, List.length_append,
        List.forall_mem_cons, ← hiff, ← hiffs]
      refine ⟨hsub.append hsubs, ?_⟩
      have hle := hsub.length_le
      have hles := hsubs.length_le
      omega
  have h := hruns (greedyRuns joinsRun rules) fun run hrun => isRun_of_mem hrun
  rwa [flatten_greedyRuns] at h

theorem actions_collapseSets (fuel : Nat) (rules : List NftRule) :
    (A.actions (collapseSets fuel rules)).Sublist (A.actions rules) ∧
      ((A.actions (collapseSets fuel rules)).length = (A.actions rules).length ↔ everyMerge A.stateless fuel rules = true) := by
  induction fuel generalizing rules with
  | zero => exact ⟨.refl _, iff_of_true rfl rfl⟩
  | succ fuel ih =>
    obtain ⟨hsub, hiff⟩ := actions_collapseOnePass (A := A) rules
    rw [everyMerge_succ_iff, ← hiff, collapseSets]
    split
    · rename_i hchanged
      obtain ⟨hsubs, hiffs⟩ := ih (collapseOnePass rules).1
      refine ⟨hsubs.trans hsub, ?_⟩
      rw [← hiffs]
      have hle := hsub.length_le
      have hles := hsubs.length_le
      simp only [hchanged, true_implies]
      omega
    · rename_i hchanged
      exact ⟨hsub, (and_iff_left fun hchanged' => absurd hchanged' hchanged).symm⟩

/-- An entry of a verdict map has no state. -/
theorem stateless_of_vmapCandidate {r : NftRule} (h : (vmapCandidate r).isSome = true) : A.stateless [r] = true := by
  obtain ⟨leaf, hleaf⟩ := Option.isSome_iff_exists.1 h
  obtain ⟨m, hstatements, hkey, -, -, hverdict, -⟩ := statements_of_vmapCandidate hleaf
  rw [stateless_iff]
  intro r' hr stmt hstmt
  rw [List.mem_singleton.1 hr, hstatements] at hstmt
  rcases List.mem_cons.1 hstmt with rfl | hstmt
  · exact isAction_of_setKey (hkey ▸ rfl)
  · rw [List.mem_singleton.1 hstmt]
    exact A.leaf leaf.verdict hverdict

/-- A run of leaves has no state, whatever it becomes. -/
theorem actions_closeVmap {run : List NftRule} (h : IsRun joinsVmap run) : A.actions (closeVmap run) = A.actions run := by
  rcases Nat.lt_or_ge run.length 2 with hlength | hlength
  · match run, hlength with
    | [], _ => rfl
    | [_], _ => rfl
  · have hnone : A.stateless run = true := by
      rw [stateless_iff]
      intro r hr
      exact stateless_iff.1 (stateless_of_vmapCandidate (vmapCandidate_of_isRun h hlength r hr)) r List.mem_cons_self
    rw [stateless_iff_actions.1 hnone]
    rcases closeVmap_cases h with ⟨r, rfl, -⟩ | ⟨key, pairs, hclose⟩
    · exact absurd hlength (by simp)
    · rw [hclose]
      rfl

theorem actions_collapseVmap (rules : List NftRule) : A.actions (collapseVmap rules) = A.actions rules := by
  conv_rhs => rw [← flatten_greedyRuns joinsVmap rules, ← List.flatMap_id, actions_flatMap]
  rw [collapseVmap, actions_flatMap]
  exact List.flatMap_congr fun run hrun => actions_closeVmap (isRun_of_mem hrun)

end ActionTexts

/-- The collapse of a chain adds no statement with kernel state of its own and moves none. It keeps all of them exactly when no run that
some pass merges has one; otherwise rules come to share the state they had apart. -/
theorem collapse_keeps_actions_iff (rules : List NftRule) :
    (A.actions (collapseChainRules rules)).Sublist (A.actions rules) ∧
      (A.actions (collapseChainRules rules) = A.actions rules ↔ everyMerge A.stateless rules.length rules = true) := by
  obtain ⟨hsub, hiff⟩ := ActionTexts.actions_collapseSets (A := A) rules.length rules
  rw [collapseChainRules, ActionTexts.actions_collapseVmap]
  exact ⟨hsub, ⟨fun h => hiff.1 (congrArg List.length h), fun h => hsub.eq_of_length (hiff.2 h)⟩⟩

end Ferm
