import Ferm.Nft.DeclarationOrder
import Ferm.Nft.Passes

/-!
# Named sets through the collapse

A rule that looks a named set up carries the elements it was translated with, and the declaration of the set is made from the rules
that are left after the collapse. Rules are merged by the texts of their matches, in which a set has a name only: a merge can hide
that two rules refer to different elements by one name. The declarations hold what every rule refers to exactly when no merge does so
and no set that rules fill has elements in the configuration.
-/

namespace Ferm

/-! ## Uses of named sets -/

/-- What a statement does with a set that the configuration names: it refers to elements, or fills it while packets pass. Elements that
are refused are none. -/
inductive SetUse where
  | reference (name : String) (elements : Option (List String))
  | mutation (name : String)
  deriving DecidableEq

namespace SetUse

/-- The use without the elements. -/
def bare : SetUse → SetUse
  | reference name _ => .reference name none
  | mutation name => .mutation name

/-- Two references by one name are to the same elements. -/
def agrees : SetUse → SetUse → Bool
  | reference name elements, reference name' elements' => name ≠ name' || elements = elements'
  | _, _ => true

end SetUse

/-- The elements a match refers to, as they are declared. -/
def referredElements (domain : Family) (m : NftMatch) (setref : SetRef) : Option (List String) :=
  match staticSighting domain m setref with
  | some (.static _ d) => some d.elements
  | _ => none

/-- The use a statement makes of a named set. -/
def setUse (domain : Family) : NftStatement → Option SetUse
  | .nftMatch m => m.setref.map fun setref => .reference setref.name (referredElements domain m setref)
  | .nftSetUpdate u => if u.owned then none else some (.mutation u.name)
  | _ => none

/-- The uses of a list of rules, in order. -/
def setUses (domain : Family) (rules : List NftRule) : List SetUse := (rules.flatMap NftRule.statements).filterMap (setUse domain)

/-- The rules of a run refer to the same elements by one name. -/
def runAgrees (domain : Family) (run : List NftRule) : Bool :=
  (setUses domain run).all fun a => (setUses domain run).all fun b => a.agrees b

/-- What is true of the matches and the updates of translated rules: a reference to a set has no selector that can be folded and has
the set's name in its text, and so has an update. -/
structure Translated (stmts : List NftStatement) : Prop where
  keyless : ∀ m, .nftMatch m ∈ stmts → m.setref.isSome → m.setKey = none
  named : ∀ m m', .nftMatch m ∈ stmts → .nftMatch m' ∈ stmts → m.expr = m'.expr → m.setref.map SetRef.name = m'.setref.map SetRef.name
  filled : ∀ u u', .nftSetUpdate u ∈ stmts → .nftSetUpdate u' ∈ stmts → u.toText = u'.toText → u.name = u'.name ∧ u.owned = u'.owned

variable {domain : Family}

theorem mem_setUses {rules : List NftRule} {use : SetUse} :
    use ∈ setUses domain rules ↔ ∃ r ∈ rules, ∃ stmt ∈ r.statements, setUse domain stmt = some use := by
  simp only [setUses, List.mem_filterMap, List.mem_flatMap]
  constructor
  · rintro ⟨stmt, ⟨r, hr, hstmt⟩, huse⟩
    exact ⟨r, hr, stmt, hstmt, huse⟩
  · rintro ⟨r, hr, stmt, hstmt, huse⟩
    exact ⟨stmt, ⟨r, hr, hstmt⟩, huse⟩

theorem runAgrees_iff {run : List NftRule} :
    runAgrees domain run = true ↔ ∀ a ∈ setUses domain run, ∀ b ∈ setUses domain run, a.agrees b = true := by
  simp only [runAgrees, List.all_eq_true]

/-- Uses that agree and are the same but for the elements are the same. -/
theorem SetUse.eq_of_agrees {a b : SetUse} (h : a.agrees b = true) (hbare : a.bare = b.bare) : a = b := by
  cases a <;> cases b <;> simp_all [SetUse.bare, SetUse.agrees]

/-! ## One run -/

/-- A folded match is no use of a named set. -/
theorem setUse_fold {m : NftMatch} (h : m.setKey.isSome) (es : List String) : setUse domain (.nftMatch (m.fold es)) = none := by
  obtain ⟨key, hkey⟩ := Option.isSome_iff_exists.1 h
  unfold NftMatch.fold
  split
  · rfl
  · rename_i hnone
    rw [hkey] at hnone
    cases hnone

/-- The uses of a closed run are uses of the run. -/
theorem setUses_closeRun {run : List NftRule} {use : SetUse} (h : use ∈ setUses domain (closeRun run)) : use ∈ setUses domain run := by
  obtain ⟨r, hr, stmt, hstmt, huse⟩ := mem_setUses.1 h
  obtain ⟨r', hr', hstmt | ⟨m, es, -, hkey, rfl⟩⟩ := mem_closeRun hr hstmt
  · exact mem_setUses.2 ⟨r', hr', stmt, hstmt, huse⟩
  · rw [setUse_fold hkey] at huse
    cases huse

/-- Translated statements that are taken for equal make the same use of a set, but for the elements. -/
theorem Translated.bare_eq {stmts : List NftStatement} (h : Translated stmts) {a b : NftStatement} (ha : a ∈ stmts) (hb : b ∈ stmts)
    (heq : stmtEqual a b = true) : (setUse domain a).map SetUse.bare = (setUse domain b).map SetUse.bare := by
  rcases a with ma | va | ⟨ka, pa⟩ | ra | ua | oa | qa <;> rcases b with mb | vb | ⟨kb, pb⟩ | rb | ub | ob | qb
  case nftMatch.nftMatch =>
    have hbare (m : NftMatch) : (setUse domain (.nftMatch m)).map SetUse.bare = (m.setref.map SetRef.name).map fun name => .reference name none := by
      rw [setUse, Option.map_map, Option.map_map]
      rfl
    have hnone {m : NftMatch} (hm : .nftMatch m ∈ stmts) (hkey : m.setKey.isSome) : m.setref = none := by
      cases href : m.setref with
      | none => rfl
      | some setref =>
        rw [h.keyless m hm (href ▸ rfl)] at hkey
        cases hkey
    rw [hbare, hbare]
    rw [stmtEqual] at heq
    split at heq
    · rename_i hkeys
      rw [hnone ha hkeys.1, hnone hb hkeys.2]
    · rw [h.named ma mb ha hb (of_decide_eq_true heq)]
  case nftSetUpdate.nftSetUpdate =>
    obtain ⟨hname, howned⟩ := h.filled ua ub ha hb (of_decide_eq_true heq)
    rw [setUse, setUse, hname, howned]
  all_goals first | rfl | cases heq

/-- A statement that uses a named set cannot be folded. -/
theorem Translated.keyless_of_use {stmts : List NftStatement} (h : Translated stmts) {stmt : NftStatement} (hmem : stmt ∈ stmts) {use : SetUse}
    (huse : setUse domain stmt = some use) : ∀ m, stmt = .nftMatch m → m.setKey = none := by
  rintro m rfl
  refine h.keyless m hmem ?_
  rw [setUse, Option.map_eq_some_iff] at huse
  obtain ⟨setref, href, -⟩ := huse
  rw [href]
  rfl

/-- A merged rule has the statements of its first rule that cannot be folded. -/
theorem mem_mergeRun {base : NftRule} {rest : List NftRule} {axis : Nat} {stmt : NftStatement} {key : String} {anchor : NftMatch}
    (hanchor : base.statements[axis]? = some (.nftMatch anchor)) (hkey : anchor.setKey = some key) (h : stmt ∈ base.statements)
    (hkeyless : ∀ m, stmt = .nftMatch m → m.setKey = none) : stmt ∈ (mergeRun base rest axis).statements := by
  obtain ⟨k, hk⟩ := List.mem_iff_getElem?.1 h
  have hne : axis ≠ k := by
    rintro rfl
    rw [hanchor, Option.some.injEq] at hk
    rw [hkeyless anchor hk.symm] at hkey
    cases hkey
  rw [mergeRun_statements _ hanchor]
  exact List.mem_iff_getElem?.2 ⟨k, by rw [List.getElem?_set_ne hne, hk]⟩

/-- The bare uses of a run are the bare uses of what it becomes. -/
theorem exists_setUse_closeRun {run : List NftRule} (hrun : IsRun joinsRun run) (h : Translated (run.flatMap NftRule.statements))
    {use : SetUse} (huse : use ∈ setUses domain run) : ∃ use' ∈ setUses domain (closeRun run), use'.bare = use.bare := by
  rcases run_cases hrun with ⟨r, rfl, hclose⟩ | ⟨base, rest, axis, hne, rfl, hclose, hsame⟩
  · rw [hclose]
    exact ⟨use, huse, rfl⟩
  · obtain ⟨r, hr, stmt, hstmt, hstmtUse⟩ := mem_setUses.1 huse
    have hmem {r : NftRule} (hr : r ∈ base :: rest) {stmt : NftStatement} (hstmt : stmt ∈ r.statements) :
        stmt ∈ (base :: rest).flatMap NftRule.statements := List.mem_flatMap.2 ⟨r, hr, hstmt⟩
    have hbase : ∃ stmt' ∈ base.statements, ∃ use', setUse domain stmt' = some use' ∧ use'.bare = use.bare := by
      rcases List.mem_cons.1 hr with rfl | hr
      · exact ⟨stmt, hstmt, use, hstmtUse, rfl⟩
      · -- the first rule has an equal statement at the same place, which is not the one where the run is folded
        obtain ⟨k, hk⟩ := List.mem_iff_getElem?.1 hstmt
        have hsameBut := hsame r hr
        have hlt : k < base.statements.length := hsameBut.length ▸ (List.getElem?_eq_some_iff.1 hk).1
        obtain ⟨key, ma, mb, -, hmb, -, hkeyb⟩ := hsameBut.selector
        have haxis : k ≠ axis := by
          rintro rfl
          rw [hk, Option.some.injEq] at hmb
          rw [h.keyless_of_use (hmem (List.mem_cons_of_mem _ hr) hstmt) hstmtUse mb hmb] at hkeyb
          cases hkeyb
        have heq := hsameBut.others k haxis _ _ (List.getElem?_eq_getElem hlt) hk
        have hbare : (setUse domain base.statements[k]).map SetUse.bare = (setUse domain stmt).map SetUse.bare :=
          h.bare_eq (hmem List.mem_cons_self (List.getElem_mem hlt)) (hmem (List.mem_cons_of_mem _ hr) hstmt) heq
        rw [hstmtUse, Option.map_some, Option.map_eq_some_iff] at hbare
        obtain ⟨use', huse', hbare⟩ := hbare
        exact ⟨_, List.getElem_mem hlt, use', huse', hbare⟩
    obtain ⟨stmt', hstmt', use', huse', hbare⟩ := hbase
    obtain ⟨r₀, hr₀⟩ := List.exists_mem_of_ne_nil rest hne
    obtain ⟨key, anchor, -, hanchor, -, hkey, -⟩ := (hsame r₀ hr₀).selector
    have hkept : stmt' ∈ (mergeRun base rest axis).statements := mem_mergeRun hanchor hkey hstmt' (h.keyless_of_use (hmem List.mem_cons_self hstmt') huse')
    rw [hclose]
    exact ⟨use', mem_setUses.2 ⟨_, List.mem_singleton_self _, stmt', hkept, huse'⟩, hbare⟩

/-! ## The passes -/

theorem setUses_flatMap (runs : List (List NftRule)) (f : List NftRule → List NftRule) :
    setUses domain (runs.flatMap f) = runs.flatMap fun run => setUses domain (f run) := by
  rw [setUses, List.flatMap_assoc, List.filterMap_flatMap]
  rfl

/-- A pass keeps what is true of translated statements. -/
theorem Translated.collapseOnePass {rules : List NftRule} (h : Translated (rules.flatMap NftRule.statements)) :
    Translated ((collapseOnePass rules).1.flatMap NftRule.statements) := by
  have hold : ∀ stmt ∈ (Ferm.collapseOnePass rules).1.flatMap NftRule.statements, stmt ∈ rules.flatMap NftRule.statements ∨
      ∃ m es, .nftMatch m ∈ rules.flatMap NftRule.statements ∧ m.setKey.isSome ∧ stmt = .nftMatch (m.fold es) := by
    intro stmt hstmt
    obtain ⟨r, hr, hstmt⟩ := List.mem_flatMap.1 hstmt
    obtain ⟨run, hrun, hr⟩ := List.mem_flatMap.1 hr
    obtain ⟨r', hr', hstmt | ⟨m, es, hm, hkey, rfl⟩⟩ := mem_closeRun hr hstmt
    · exact .inl (List.mem_flatMap.2 ⟨r', mem_of_mem_greedyRuns hrun hr', hstmt⟩)
    · exact .inr ⟨m, es, List.mem_flatMap.2 ⟨r', mem_of_mem_greedyRuns hrun hr', hm⟩, hkey, rfl⟩
  -- a match of the pass is an old one, or has the text of an old one and no set
  have hmatch : ∀ m, .nftMatch m ∈ (Ferm.collapseOnePass rules).1.flatMap NftRule.statements →
      ∃ m', .nftMatch m' ∈ rules.flatMap NftRule.statements ∧ m'.expr = m.expr ∧ m'.setref.map SetRef.name = m.setref.map SetRef.name ∧
        (m.setref.isSome → m.setKey = none) := by
    intro m hm
    rcases hold _ hm with hm | ⟨m', es, hm', hkey, he⟩
    · exact ⟨m, hm, rfl, rfl, h.keyless m hm⟩
    · cases he
      have hnone : m'.setref = none := by
        cases href : m'.setref with
        | none => rfl
        | some setref =>
          rw [h.keyless m' hm' (href ▸ rfl)] at hkey
          cases hkey
      have hfold : (m'.fold es).setref = none := by
        have huse : setUse .ip (.nftMatch (m'.fold es)) = none := setUse_fold hkey es
        rw [setUse, Option.map_eq_none_iff] at huse
        exact huse
      exact ⟨m', hm', (m'.fold_expr es).symm, by rw [hnone, hfold], fun hsome => by rw [hfold] at hsome; cases hsome⟩
  have hupdate : ∀ u, .nftSetUpdate u ∈ (Ferm.collapseOnePass rules).1.flatMap NftRule.statements →
      .nftSetUpdate u ∈ rules.flatMap NftRule.statements := by
    intro u hu
    rcases hold _ hu with hu | ⟨m', es, -, -, he⟩
    · exact hu
    · cases he
  refine ⟨fun m hm hsome => ?_, fun m m' hm hm' htext => ?_, fun u u' hu hu' => h.filled u u' (hupdate u hu) (hupdate u' hu')⟩
  · obtain ⟨-, -, -, -, hkeyless⟩ := hmatch m hm
    exact hkeyless hsome
  · obtain ⟨n, hn, hne, hnr, -⟩ := hmatch m hm
    obtain ⟨n', hn', hne', hnr', -⟩ := hmatch m' hm'
    rw [← hnr, ← hnr']
    exact h.named n n' hn hn' (hne.trans (htext.trans hne'.symm))

/-- The uses of a pass are uses of the list. -/
theorem setUses_collapseOnePass {rules : List NftRule} {use : SetUse} (h : use ∈ setUses domain (collapseOnePass rules).1) :
    use ∈ setUses domain rules := by
  rw [collapseOnePass, setUses_flatMap, List.mem_flatMap] at h
  obtain ⟨run, hrun, h⟩ := h
  obtain ⟨r, hr, stmt, hstmt, huse⟩ := mem_setUses.1 (setUses_closeRun h)
  exact mem_setUses.2 ⟨r, mem_of_mem_greedyRuns hrun hr, stmt, hstmt, huse⟩

theorem Translated.run {rules run : List NftRule} (h : Translated (rules.flatMap NftRule.statements)) (hrun : ∀ r ∈ run, r ∈ rules) :
    Translated (run.flatMap NftRule.statements) := by
  have hmem : ∀ stmt ∈ run.flatMap NftRule.statements, stmt ∈ rules.flatMap NftRule.statements := by
    intro stmt hstmt
    obtain ⟨r, hr, hstmt⟩ := List.mem_flatMap.1 hstmt
    exact List.mem_flatMap.2 ⟨r, hrun r hr, hstmt⟩
  exact ⟨fun m hm => h.keyless m (hmem _ hm), fun m m' hm hm' => h.named m m' (hmem _ hm) (hmem _ hm'),
    fun u u' hu hu' => h.filled u u' (hmem _ hu) (hmem _ hu')⟩

/-- The run of a use. -/
theorem exists_run_of_setUse {rules : List NftRule} {use : SetUse} (h : use ∈ setUses domain rules) :
    ∃ run ∈ greedyRuns joinsRun rules, use ∈ setUses domain run := by
  obtain ⟨r, hr, stmt, hstmt, huse⟩ := mem_setUses.1 h
  rw [← flatten_greedyRuns joinsRun rules] at hr
  obtain ⟨run, hrun, hr⟩ := List.mem_flatten.1 hr
  exact ⟨run, hrun, mem_setUses.2 ⟨r, hr, stmt, hstmt, huse⟩⟩

/-- A pass keeps the bare uses, and the uses themselves when the runs it merges agree. -/
theorem exists_setUse_collapseOnePass {rules : List NftRule} (h : Translated (rules.flatMap NftRule.statements)) {use : SetUse}
    (huse : use ∈ setUses domain rules) :
    (∃ use' ∈ setUses domain (collapseOnePass rules).1, use'.bare = use.bare) ∧
      ((∀ run ∈ greedyRuns joinsRun rules, 2 ≤ run.length → runAgrees domain run = true) →
        use ∈ setUses domain (collapseOnePass rules).1) := by
  obtain ⟨run, hrun, huseRun⟩ := exists_run_of_setUse huse
  have hin {use' : SetUse} (h : use' ∈ setUses domain (closeRun run)) : use' ∈ setUses domain (collapseOnePass rules).1 := by
    rw [collapseOnePass, setUses_flatMap]
    exact List.mem_flatMap.2 ⟨run, hrun, h⟩
  obtain ⟨use', huse', hbare⟩ := exists_setUse_closeRun (isRun_of_mem hrun) (h.run fun r hr => mem_of_mem_greedyRuns hrun hr) huseRun
  refine ⟨⟨use', hin huse', hbare⟩, fun hagree => ?_⟩
  rcases run_cases (isRun_of_mem hrun) with ⟨r, rfl, hclose⟩ | ⟨base, rest, axis, hne, rfl, -, -⟩
  · exact hin (hclose ▸ huseRun)
  · have hlength : 2 ≤ (base :: rest).length := by
      have := List.length_pos_of_ne_nil hne
      rw [List.length_cons]
      omega
    have hsame := runAgrees_iff.1 (hagree _ hrun hlength) use' (setUses_closeRun huse') use huseRun
    exact SetUse.eq_of_agrees hsame hbare ▸ hin huse'

theorem Translated.collapseSets {rules : List NftRule} (h : Translated (rules.flatMap NftRule.statements)) (fuel : Nat) :
    Translated ((collapseSets fuel rules).flatMap NftRule.statements) := by
  induction fuel generalizing rules with
  | zero => exact h
  | succ fuel ih =>
    rw [Ferm.collapseSets]
    split
    · exact ih h.collapseOnePass
    · exact h.collapseOnePass

theorem setUses_collapseSets {fuel : Nat} {rules : List NftRule} {use : SetUse} (h : use ∈ setUses domain (collapseSets fuel rules)) :
    use ∈ setUses domain rules := by
  induction fuel generalizing rules with
  | zero => exact h
  | succ fuel ih =>
    rw [collapseSets] at h
    split at h
    · exact setUses_collapseOnePass (ih h)
    · exact setUses_collapseOnePass h

theorem exists_setUse_collapseSets {fuel : Nat} {rules : List NftRule} (h : Translated (rules.flatMap NftRule.statements)) {use : SetUse}
    (huse : use ∈ setUses domain rules) : ∃ use' ∈ setUses domain (collapseSets fuel rules), use'.bare = use.bare := by
  induction fuel generalizing rules use with
  | zero => exact ⟨use, huse, rfl⟩
  | succ fuel ih =>
    obtain ⟨⟨use', huse', hbare⟩, -⟩ := exists_setUse_collapseOnePass h huse
    rw [collapseSets]
    split
    · obtain ⟨use'', huse'', hbare'⟩ := ih h.collapseOnePass huse'
      exact ⟨use'', huse'', hbare'.trans hbare⟩
    · exact ⟨use', huse', hbare⟩

/-- Passes that merge only runs that agree keep every use. -/
theorem mem_setUses_collapseSets {fuel : Nat} {rules : List NftRule} (h : Translated (rules.flatMap NftRule.statements))
    (hagree : everyMerge (runAgrees domain) fuel rules = true) {use : SetUse} (huse : use ∈ setUses domain rules) :
    use ∈ setUses domain (collapseSets fuel rules) := by
  let rel (as bs : List NftRule) : Prop := Translated (as.flatMap NftRule.statements) →
    Translated (bs.flatMap NftRule.statements) ∧ ∀ use ∈ setUses domain as, use ∈ setUses domain bs
  have htrans {as bs cs : List NftRule} (hab : rel as bs) (hbc : rel bs cs) : rel as cs := by
    intro h
    obtain ⟨h', hkeep⟩ := hab h
    obtain ⟨h'', hkeep'⟩ := hbc h'
    exact ⟨h'', fun use huse => hkeep' use (hkeep use huse)⟩
  have hpasses : rel rules (collapseSets fuel rules) := collapseSets_of_everyMerge rel (fun rules h => ⟨h, fun _ huse => huse⟩) htrans
    (fun rules hruns h => ⟨h.collapseOnePass, fun use huse => (exists_setUse_collapseOnePass h huse).2 hruns⟩) hagree
  exact (hpasses h).2 use huse

/-- Uses that agree agree in every run of every pass. -/
theorem everyMerge_of_agree {fuel : Nat} {rules : List NftRule}
    (h : ∀ a ∈ setUses domain rules, ∀ b ∈ setUses domain rules, a.agrees b = true) : everyMerge (runAgrees domain) fuel rules = true := by
  induction fuel generalizing rules with
  | zero => rfl
  | succ fuel ih =>
    refine everyMerge_succ_iff.2 ⟨fun run hrun _ => runAgrees_iff.2 fun a ha b hb => ?_, fun _ =>
      ih fun a ha b hb => h a (setUses_collapseOnePass ha) b (setUses_collapseOnePass hb)⟩
    have hin {use : SetUse} (huse : use ∈ setUses domain run) : use ∈ setUses domain rules := by
      obtain ⟨r, hr, stmt, hstmt, huse⟩ := mem_setUses.1 huse
      exact mem_setUses.2 ⟨r, mem_of_mem_greedyRuns hrun hr, stmt, hstmt, huse⟩
    exact h a (hin ha) b (hin hb)

/-- An entry of a verdict map uses no named set, whatever it becomes. -/
theorem setUses_collapseVmap {rules : List NftRule} (h : Translated (rules.flatMap NftRule.statements)) :
    setUses domain (collapseVmap rules) = setUses domain rules := by
  conv_rhs => rw [← flatten_greedyRuns joinsVmap rules, ← List.flatMap_id, setUses_flatMap]
  rw [collapseVmap, setUses_flatMap]
  refine List.flatMap_congr fun run hrun => ?_
  rcases Nat.lt_or_ge run.length 2 with hlength | hlength
  · cases run with
    | nil => rfl
    | cons r rest =>
      obtain rfl : rest = [] := by
        rw [← List.length_eq_zero_iff]
        rw [List.length_cons] at hlength
        omega
      rfl
  · have hnone : setUses domain run = [] := by
      rw [List.eq_nil_iff_forall_not_mem]
      intro use huse
      obtain ⟨r, hr, stmt, hstmt, huse⟩ := mem_setUses.1 huse
      have hmem : stmt ∈ rules.flatMap NftRule.statements := List.mem_flatMap.2 ⟨r, mem_of_mem_greedyRuns hrun hr, hstmt⟩
      obtain ⟨leaf, hleaf⟩ := Option.isSome_iff_exists.1 (vmapCandidate_of_isRun (isRun_of_mem hrun) hlength r hr)
      obtain ⟨m, hstatements, hkey, -⟩ := statements_of_vmapCandidate hleaf
      rw [hstatements] at hstmt
      rcases List.mem_cons.1 hstmt with rfl | hstmt
      · rw [h.keyless_of_use hmem huse m rfl] at hkey
        cases hkey
      · rw [List.mem_singleton.1 hstmt] at huse
        cases huse
    rw [id, hnone]
    rcases closeVmap_cases (isRun_of_mem hrun) with ⟨r, rfl, -⟩ | ⟨key, pairs, hclose⟩
    · exact absurd hlength (by simp)
    · rw [hclose]
      rfl

/-! ## A family -/

/-- The uses of named sets of a family's rules. -/
def familyUses (domain : Family) (rules : Dict String (List NftRule)) : List SetUse := (familyStatements rules).filterMap (setUse domain)

/-- What every rule refers to by the name of a set is what is declared under the name. -/
def FaithfulSets (domain : Family) (rules : Dict String (List NftRule)) (decls : Dict String Decl) : Prop :=
  ∀ name elements, .reference name elements ∈ familyUses domain rules → ∃ decl, decls.get? name = some decl ∧ elements = some decl.elements

/-- No rule refers to elements of a set that rules fill. -/
def FilledEmpty (domain : Family) (rules : Dict String (List NftRule)) : Prop :=
  ∀ name elements, .mutation name ∈ familyUses domain rules → .reference name elements ∈ familyUses domain rules → elements = some []

variable {rules : Dict String (List NftRule)}

theorem mem_familyUses {use : SetUse} : use ∈ familyUses domain rules ↔ ∃ e ∈ rules.entries, use ∈ setUses domain e.2 := by
  simp only [familyUses, familyStatements, List.filterMap_flatMap, List.mem_flatMap]
  constructor
  · rintro ⟨e, he, r, hr, huse⟩
    exact ⟨e, he, by rw [setUses, List.filterMap_flatMap]; exact List.mem_flatMap.2 ⟨r, hr, huse⟩⟩
  · rintro ⟨e, he, huse⟩
    rw [setUses, List.filterMap_flatMap] at huse
    obtain ⟨r, hr, huse⟩ := List.mem_flatMap.1 huse
    exact ⟨e, he, r, hr, huse⟩

/-- The statement of a use, among those that use its name. -/
theorem exists_statement {use : SetUse} {name : String} (h : use ∈ familyUses domain rules)
    (hname : ∀ stmt, setUse domain stmt = some use → usedName stmt = name) :
    ∃ stmt, setUse domain stmt = some use ∧ ∀ s, sightingOf domain stmt = some s → s ∈ usesOf domain rules name := by
  obtain ⟨stmt, hmem, huse⟩ := List.mem_filterMap.1 h
  refine ⟨stmt, huse, fun s hs => List.mem_filterMap.2 ⟨stmt, List.mem_filter.2 ⟨hmem, ?_⟩, hs⟩⟩
  exact decide_eq_true (hname stmt huse)

/-- A reference of a family whose declarations are collected is a use of the elements it refers to. -/
theorem static_of_reference {name : String} {elements : Option (List String)} (hclash : ¬ HasClash domain rules)
    (h : .reference name elements ∈ familyUses domain rules) :
    ∃ selector d, .static selector d ∈ validUses domain rules name ∧ elements = some d.elements := by
  have hmatch : ∀ stmt, setUse domain stmt = some (.reference name elements) →
      ∃ m setref, stmt = .nftMatch m ∧ m.setref = some setref ∧ setref.name = name ∧ referredElements domain m setref = elements := by
    intro stmt huse
    cases stmt with
    | nftMatch m =>
      rw [setUse, Option.map_eq_some_iff] at huse
      obtain ⟨setref, href, huse⟩ := huse
      cases huse
      exact ⟨m, setref, rfl, href, rfl, rfl⟩
    | nftSetUpdate u =>
      rw [setUse] at huse
      split at huse <;> cases huse
    | _ => cases huse
  obtain ⟨stmt, huse, huses⟩ := exists_statement h fun stmt huse => by
    obtain ⟨m, setref, rfl, href, hname, -⟩ := hmatch stmt huse
    rw [usedName, href]
    exact hname
  obtain ⟨m, setref, rfl, href, -, helements⟩ := hmatch stmt huse
  have hsighting := huses (staticSighting domain m setref) (by rw [sightingOf, href]; rfl)
  cases hs : staticSighting domain m setref with
  | none =>
    rw [hs] at hsighting
    exact absurd ⟨name, .inl hsighting⟩ hclash
  | some sighting =>
    rw [hs] at hsighting
    have hstatic : ∃ selector d, sighting = .static selector d := by
      rw [staticSighting] at hs
      split at hs
      · split at hs
        · cases hs
          exact ⟨_, _, rfl⟩
        · cases hs
      · cases hs
    obtain ⟨selector, d, rfl⟩ := hstatic
    refine ⟨selector, d, List.reduceOption_mem_iff.2 hsighting, ?_⟩
    rw [← helements, referredElements, hs]

/-- A set that rules fill is used by a set rule. -/
theorem mutates_of_mutation {name : String} (hclash : ¬ HasClash domain rules) (h : .mutation name ∈ familyUses domain rules) :
    ∃ s ∈ validUses domain rules name, s.mutates = true := by
  have hupdate : ∀ stmt, setUse domain stmt = some (.mutation name) → ∃ u, stmt = .nftSetUpdate u ∧ u.owned = false ∧ u.name = name := by
    intro stmt huse
    cases stmt with
    | nftSetUpdate u =>
      rw [setUse] at huse
      split at huse
      · cases huse
      · rename_i howned
        cases huse
        exact ⟨u, rfl, by simpa using howned, rfl⟩
    | nftMatch m =>
      rw [setUse, Option.map_eq_some_iff] at huse
      obtain ⟨setref, -, huse⟩ := huse
      cases huse
    | _ => cases huse
  obtain ⟨stmt, huse, huses⟩ := exists_statement h fun stmt huse => by
    obtain ⟨u, rfl, -, hname⟩ := hupdate stmt huse
    exact hname
  obtain ⟨u, rfl, howned, -⟩ := hupdate stmt huse
  have hsighting := huses _ rfl
  split at hsighting
  · exact absurd ⟨name, .inl hsighting⟩ hclash
  · refine ⟨_, List.reduceOption_mem_iff.2 hsighting, ?_⟩
    rw [Sighting.mutates, NftSetUpdate.decl, howned]
    rfl

/-- A set rule's use is a set that rules fill. -/
theorem mutation_of_mutates {name : String} {s : Sighting} (h : s ∈ validUses domain rules name) (hs : s.mutates = true) :
    .mutation name ∈ familyUses domain rules := by
  obtain ⟨stmt, hmem, hsighting⟩ := List.mem_filterMap.1 (List.reduceOption_mem_iff.1 h)
  obtain ⟨hmem, hname⟩ := List.mem_filter.1 hmem
  refine List.mem_filterMap.2 ⟨stmt, hmem, ?_⟩
  cases stmt with
  | nftSetUpdate u =>
    simp only [sightingOf, Option.some.injEq] at hsighting
    split at hsighting
    · cases hsighting
    · cases hsighting
      have howned : u.owned = false := by simpa [Sighting.mutates, NftSetUpdate.decl] using hs
      rw [setUse, howned]
      exact congrArg (fun name => some (SetUse.mutation name)) (of_decide_eq_true hname)
  | nftMatch m =>
    simp only [sightingOf, Option.map_eq_some_iff] at hsighting
    obtain ⟨setref, -, hsighting⟩ := hsighting
    rw [staticSighting] at hsighting
    split at hsighting
    · split at hsighting
      · cases hsighting
        cases hs
      · cases hsighting
    · cases hsighting
  | nftObjectRef o =>
    cases hsighting
    cases hs
  | _ => cases hsighting

theorem mem_familyUses_mapValues {f : List NftRule → List NftRule} {use : SetUse} :
    use ∈ familyUses domain (rules.mapValues f) ↔ ∃ e ∈ rules.entries, use ∈ setUses domain (f e.2) := by
  rw [mem_familyUses]
  constructor
  · rintro ⟨e, he, huse⟩
    obtain ⟨e', he', rfl⟩ := List.mem_map.1 he
    exact ⟨e', he', huse⟩
  · rintro ⟨e, he, huse⟩
    exact ⟨_, List.mem_map.2 ⟨e, he, rfl⟩, huse⟩

/-- The collapse adds no use of a set to a family, keeps the bare uses, and keeps all of them if no merge hides one. -/
theorem familyUses_collapse (h : ∀ e ∈ rules.entries, Translated (e.2.flatMap NftRule.statements)) (use : SetUse) :
    (use ∈ familyUses domain (rules.mapValues collapseChainRules) → use ∈ familyUses domain rules) ∧
      (use ∈ familyUses domain rules → ∃ use' ∈ familyUses domain (rules.mapValues collapseChainRules), use'.bare = use.bare) ∧
        ((∀ e ∈ rules.entries, everyMerge (runAgrees domain) e.2.length e.2 = true) → use ∈ familyUses domain rules →
          use ∈ familyUses domain (rules.mapValues collapseChainRules)) := by
  have hvmap : ∀ e ∈ rules.entries, setUses domain (collapseChainRules e.2) = setUses domain (collapseSets e.2.length e.2) :=
    fun e he => setUses_collapseVmap ((h e he).collapseSets _)
  rw [mem_familyUses_mapValues, mem_familyUses]
  simp only [mem_familyUses_mapValues]
  refine ⟨?_, ?_, ?_⟩
  · rintro ⟨e, he, huse⟩
    rw [hvmap e he] at huse
    exact ⟨e, he, setUses_collapseSets huse⟩
  · rintro ⟨e, he, huse⟩
    obtain ⟨use', huse', hbare⟩ := exists_setUse_collapseSets (h e he) huse
    exact ⟨use', ⟨e, he, (hvmap e he).symm ▸ huse'⟩, hbare⟩
  · rintro hagree ⟨e, he, huse⟩
    exact ⟨e, he, (hvmap e he).symm ▸ mem_setUses_collapseSets (h e he) (hagree e he) huse⟩

/-- When the declarations of a collapsed family are collected, they hold what every rule was translated with exactly if no run that is
merged refers to different elements by one name, and no set that rules fill has elements in the configuration. -/
theorem sets_survive_collapse_iff (h : ∀ e ∈ rules.entries, Translated (e.2.flatMap NftRule.statements)) {decls : Dict String Decl}
    (hok : collectSetDeclarations domain (rules.mapValues collapseChainRules) = .ok decls) :
    FaithfulSets domain rules decls ↔
      (∀ e ∈ rules.entries, everyMerge (runAgrees domain) e.2.length e.2 = true) ∧ FilledEmpty domain rules := by
  have hspec := collectSetDeclarations_spec domain (rules.mapValues collapseChainRules)
  rw [hok] at hspec
  obtain ⟨hno, hmade⟩ := hspec
  have hclash : ¬ HasClash domain (rules.mapValues collapseChainRules) := fun hclash => hno (.inl hclash)
  constructor
  · intro hfaithful
    have hagree : ∀ a ∈ familyUses domain rules, ∀ b ∈ familyUses domain rules, a.agrees b = true := by
      intro a ha b hb
      cases a with
      | mutation name => rfl
      | reference name elements =>
        cases b with
        | mutation name' => rfl
        | reference name' elements' =>
          rw [SetUse.agrees, Bool.or_eq_true, decide_eq_true_eq, decide_eq_true_eq]
          by_cases hname : name = name'
          · subst hname
            obtain ⟨decl, hdecl, helements⟩ := hfaithful name elements ha
            obtain ⟨decl', hdecl', helements'⟩ := hfaithful name elements' hb
            rw [hdecl, Option.some.injEq] at hdecl'
            exact .inr (by rw [helements, helements', hdecl'])
          · exact .inl hname
    refine ⟨fun e he => everyMerge_of_agree fun a ha b hb =>
      hagree a (mem_familyUses.2 ⟨e, he, ha⟩) b (mem_familyUses.2 ⟨e, he, hb⟩), fun name elements hmutation hreference => ?_⟩
    -- the set rule is still there, and the set is declared without elements
    obtain ⟨use, huse, hbare⟩ := (familyUses_collapse h (.mutation name)).2.1 hmutation
    obtain rfl : use = .mutation name := by
      cases use with
      | reference name' elements' => cases hbare
      | mutation name' => exact hbare
    obtain ⟨s, hs, hmutates⟩ := mutates_of_mutation hclash huse
    obtain ⟨decl, hdecl, helements⟩ := hfaithful name elements hreference
    obtain ⟨selector, hslot⟩ := hmade name
    rw [hdecl] at hslot
    generalize hslot' : (some decl, selector) = slot at hslot
    cases hslot with
    | unused hnone => cases hslot'
    | uniform s' _ hall hfirst =>
      rw [hall s hs, hfirst] at hmutates
      cases hmutates
    | mutated d selector' =>
      cases hslot'
      exact helements
  · rintro ⟨hagree, hempty⟩ name elements hreference
    have hkept := (familyUses_collapse h _).2.2 hagree hreference
    obtain ⟨selector, d, hstatic, helements⟩ := static_of_reference hclash hkept
    obtain ⟨selector', hslot⟩ := hmade name
    generalize hslot' : (decls.get? name, selector') = slot at hslot
    cases hslot with
    | unused hnone =>
      rw [hnone] at hstatic
      cases hstatic
    | uniform s _ hall _ =>
      rw [← hall _ hstatic] at hslot'
      exact ⟨.static d, congrArg Prod.fst hslot', helements⟩
    | mutated d' selector'' _ hmutates =>
      obtain ⟨s, hs, hmutates⟩ := hmutates
      have hmutation := (familyUses_collapse h _).1 (mutation_of_mutates hs hmutates)
      exact ⟨.dyn d', congrArg Prod.fst hslot', hempty name elements hmutation hreference⟩

/-- A rule for one host and a set of ports. -/
def hostPorts (host port : String) : NftRule :=
  { statements := [.nftMatch (.single "ip saddr" host saddr_mem_setSelectors),
      .nftMatch { expr := "tcp dport @web", setref := some ⟨"web", [port]⟩, setSelector := some "tcp dport" }, .nftVerdict "accept"] }

/-- Two rules that refer to different ports by one name. -/
def shadowedSets : Dict String (List NftRule) := oneChain [hostPorts "10.0.0.1" "80", hostPorts "10.0.0.2" "443"]

/-- The two rules are merged, and the ports of the second one are lost: nothing is refused. -/
theorem shadowed_set_lost : ∃ decls, collectSetDeclarations .ip (shadowedSets.mapValues collapseChainRules) = .ok decls ∧
    decls.get? "web" = some (.static ⟨.inetService, false, ["80"]⟩) ∧ ¬ FaithfulSets .ip shadowedSets decls := by
  have hweb : (collectSetDeclarations .ip (shadowedSets.mapValues collapseChainRules)).toOption.map (fun decls => decls.get? "web") =
      some (some (.static ⟨.inetService, false, ["80"]⟩)) := by decide +kernel
  have htranslated : ∀ e ∈ shadowedSets.entries, Translated (e.2.flatMap NftRule.statements) := by
    intro e he
    obtain rfl := List.mem_singleton.1 he
    have hmatches : ∀ m, .nftMatch m ∈ [hostPorts "10.0.0.1" "80", hostPorts "10.0.0.2" "443"].flatMap NftRule.statements →
        (m.setref = none ∧ startsWith m.expr "ip saddr" = true) ∨
          (m.setKey = none ∧ m.setref.map SetRef.name = some "web" ∧ startsWith m.expr "ip saddr" = false) := by
      intro m hm
      simp only [hostPorts, List.flatMap_cons, List.flatMap_nil, List.append_nil, List.cons_append, List.nil_append, List.mem_cons,
        NftStatement.nftMatch.injEq, reduceCtorEq, List.not_mem_nil, or_false, false_or] at hm
      rcases hm with rfl | rfl | rfl | rfl
      · exact .inl ⟨rfl, by decide +kernel⟩
      · exact .inr ⟨rfl, rfl, by decide +kernel⟩
      · exact .inl ⟨rfl, by decide +kernel⟩
      · exact .inr ⟨rfl, rfl, by decide +kernel⟩
    refine ⟨fun m hm hsome => ?_, fun m m' hm hm' htext => ?_, fun u u' hu => ?_⟩
    · rcases hmatches m hm with ⟨hnone, -⟩ | ⟨hkey, -⟩
      · rw [hnone] at hsome
        cases hsome
      · exact hkey
    · rcases hmatches m hm with ⟨hnone, hhost⟩ | ⟨-, hname, hhost⟩ <;> rcases hmatches m' hm' with ⟨hnone', hhost'⟩ | ⟨-, hname', hhost'⟩
      · rw [hnone, hnone']
      · rw [htext, hhost'] at hhost
        cases hhost
      · rw [htext, hhost'] at hhost
        cases hhost
      · rw [hname, hname']
    · simp [hostPorts] at hu
  cases hok : collectSetDeclarations .ip (shadowedSets.mapValues collapseChainRules) with
  | error e =>
    rw [hok] at hweb
    cases hweb
  | ok decls =>
    rw [hok] at hweb
    refine ⟨decls, rfl, Option.some.inj hweb, fun hfaithful => ?_⟩
    have hmerges := ((sets_survive_collapse_iff htranslated hok).1 hfaithful).1
    have hhidden : ¬ ∀ e ∈ shadowedSets.entries, everyMerge (runAgrees .ip) e.2.length e.2 = true := by decide +kernel
    exact hhidden hmerges

end Ferm
