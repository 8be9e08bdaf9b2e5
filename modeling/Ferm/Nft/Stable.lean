import Ferm.Nft.Collapse

/-!
# What is left of a list that has been collapsed

Neither the set passes nor the fold into verdict maps change a list that has been collapsed: a verdict map is no match, so it joins
nothing, and rules that are left next to each other were next to each other before.
-/

namespace Ferm

/-- Rules next to each other that do not merge. -/
def Unmerged (rules : List NftRule) : Prop := List.IsChain (fun a b => collapseAxis a b = none) rules

/-- Every run of rules that do not merge is one rule. -/
theorem unmerged_iff_greedyRuns {rules : List NftRule} : Unmerged rules ↔ greedyRuns joinsRun rules = rules.map fun r => [r] := by
  have hjoins : ∀ a b : NftRule, joinsRun [a] b = false ↔ collapseAxis a b = none := by
    intro a b
    rw [joinsRun, ← Bool.not_eq_true, Option.isSome_iff_ne_none, not_not]
  rw [greedyRuns_eq_singletons_iff]
  simp only [Unmerged, hjoins]

theorem unmerged_iff {rules : List NftRule} : Unmerged rules ↔ (collapseOnePass rules).2 = false := by
  rw [unmerged_iff_greedyRuns]
  constructor
  · intro h
    rw [collapseOnePass, h, List.any_map]
    exact List.any_eq_false.2 fun a _ => by simp
  · intro h
    refine greedyRuns_eq_singletons fun run hrun => ?_
    have := List.any_eq_false.1 h run hrun
    simpa using this

/-- A list no pass changes is left as it is, with any number of passes. -/
theorem collapseSets_of_unmerged {rules : List NftRule} (h : Unmerged rules) (fuel : Nat) : collapseSets fuel rules = rules := by
  have hsame := unmerged_iff.1 h
  cases fuel with
  | zero => rfl
  | succ fuel =>
    rw [collapseSets]
    simp only [hsame]
    exact collapseOnePass_of_not_changed hsame

/-! ## Verdict maps -/

theorem collapseAxis_vmap_left (key : String) (pairs : List (String × String)) (r : NftRule) :
    collapseAxis { statements := [.nftVmap key pairs] } r = none := by
  cases h : collapseAxis { statements := [.nftVmap key pairs] } r with
  | none => rfl
  | some axis =>
    obtain ⟨_, ma, -, ha, -⟩ := (sameBut_of_collapseAxis h).selector
    cases axis <;> cases ha

theorem collapseAxis_vmap_right (key : String) (pairs : List (String × String)) (r : NftRule) :
    collapseAxis r { statements := [.nftVmap key pairs] } = none := by
  cases h : collapseAxis r { statements := [.nftVmap key pairs] } with
  | none => rfl
  | some axis =>
    obtain ⟨_, -, mb, -, hb, -⟩ := (sameBut_of_collapseAxis h).selector
    cases axis <;> cases hb

/-- The rule of a leaf: one match that can be folded and is not, and a verdict. -/
theorem statements_of_vmapCandidate {r : NftRule} {leaf : VmapLeaf} (h : vmapCandidate r = some leaf) :
    ∃ m, r.statements = [.nftMatch m, .nftVerdict leaf.verdict] ∧ m.setKey = some leaf.setKey ∧ m.elements = none ∧
      m.expr = leaf.setKey ++ " " ++ leaf.key ∧ isVmapVerdict (.nftVerdict leaf.verdict) = true ∧ m.element = some leaf.key := by
  unfold vmapCandidate at h
  split at h
  · cases h
  · split at h
    · rename_i m expr hstatements
      split at h
      · rename_i setKey key hkey helement helements
        split at h
        · rename_i hverdict
          cases h
          refine ⟨m, hstatements, hkey, helements, ?_, hverdict, helement⟩
          rcases m.keyed_cases with ⟨hk, -⟩ | ⟨k, e, hk, he, -, -, hexpr⟩ | ⟨k, es, -, -, hes, -⟩
          · rw [hk] at hkey
            cases hkey
          · rw [hk] at hkey
            rw [he] at helement
            cases hkey
            cases helement
            exact hexpr
          · rw [hes] at helements
            cases helements
        · cases h
      · cases h
    · cases h

/-- The rules of a run of two or more are leaves. -/
theorem vmapCandidate_of_isRun {run : List NftRule} (h : IsRun joinsVmap run) (hlength : 2 ≤ run.length) :
    ∀ r ∈ run, (vmapCandidate r).isSome = true := by
  induction h with
  | single a => exact absurd hlength (Nat.not_le.2 (Nat.lt_succ_self 1))
  | @snoc run a hrun ha ih =>
    intro r hr
    obtain ⟨first, rest, rfl⟩ := List.exists_cons_of_ne_nil hrun.ne_nil
    unfold joinsVmap at ha
    split at ha
    · rename_i hfirst hleaf
      rcases List.mem_append.1 hr with hr | hr
      · rcases rest with _ | ⟨second, rest⟩
        · rw [List.mem_singleton.1 hr]
          exact Option.isSome_of_mem hfirst
        · exact ih (by simp) r hr
      · rw [List.mem_singleton.1 hr, hleaf]
        rfl
    · cases ha

/-- What a run of leaves becomes: itself, if it is one rule, or a verdict map. -/
theorem closeVmap_cases {run : List NftRule} (h : IsRun joinsVmap run) :
    (∃ r, run = [r] ∧ closeVmap run = [r]) ∨ ∃ key pairs, closeVmap run = [{ statements := [.nftVmap key pairs] }] := by
  match run, h with
  | [], h => exact absurd rfl h.ne_nil
  | [r], _ => exact .inl ⟨r, rfl, rfl⟩
  | first :: second :: rest, h =>
    obtain ⟨leaf, hleaf⟩ := Option.isSome_iff_exists.1 (vmapCandidate_of_isRun h (by simp) first List.mem_cons_self)
    refine .inr ⟨leaf.setKey, ((first :: second :: rest).filterMap vmapCandidate).map fun l => (l.key, l.verdict), ?_⟩
    rw [closeVmap, hleaf]

/-- Every run becomes one rule. -/
theorem exists_closeVmap_eq_singleton {run : List NftRule} (h : IsRun joinsVmap run) : ∃ r, closeVmap run = [r] := by
  rcases closeVmap_cases h with ⟨r, -, hr⟩ | ⟨key, pairs, hvmap⟩
  · exact ⟨r, hr⟩
  · exact ⟨_, hvmap⟩

/-- What is next to each other after the fold is what runs next to each other become. -/
theorem isChain_collapseVmap_iff {rules : List NftRule} {rel : NftRule → NftRule → Prop} :
    List.IsChain rel (collapseVmap rules) ↔
      List.IsChain (fun run next => ∀ a ∈ closeVmap run, ∀ b ∈ closeVmap next, rel a b) (greedyRuns joinsVmap rules) := by
  have hruns : ∀ runs : List (List NftRule), (∀ run ∈ runs, IsRun joinsVmap run) →
      (List.IsChain rel (runs.flatMap closeVmap) ↔
        List.IsChain (fun run next => ∀ a ∈ closeVmap run, ∀ b ∈ closeVmap next, rel a b) runs) := by
    intro runs
    induction runs with
    | nil => exact fun _ => iff_of_true List.isChain_nil List.isChain_nil
    | cons run runs ih =>
      intro hall
      obtain ⟨hrun, hruns⟩ := List.forall_mem_cons.1 hall
      obtain ⟨r, hr⟩ := exists_closeVmap_eq_singleton hrun
      rw [List.flatMap_cons, hr, List.singleton_append, List.isChain_cons, List.isChain_cons, ih hruns, hr]
      refine and_congr_left' ?_
      cases runs with
      | nil => exact iff_of_true nofun nofun
      | cons next runs =>
        obtain ⟨s, hs⟩ := exists_closeVmap_eq_singleton (hruns next List.mem_cons_self)
        simp [hs]
  exact hruns _ fun run hrun => isRun_of_mem hrun

/-- A relation between rules next to each other that verdict maps have with every rule holds after the fold, if it holds between
rules of runs next to each other. -/
theorem isChain_collapseVmap {rules : List NftRule} {rel : NftRule → NftRule → Prop}
    (hleft : ∀ key pairs r, rel { statements := [.nftVmap key pairs] } r)
    (hright : ∀ key pairs r, rel r { statements := [.nftVmap key pairs] })
    (h : List.IsChain (fun run next => ∀ a b, run = [a] → next = [b] → rel a b) (greedyRuns joinsVmap rules)) :
    List.IsChain rel (collapseVmap rules) := by
  rw [isChain_collapseVmap_iff]
  refine h.imp_of_mem_imp fun run next hrun hnext hrel a ha b hb => ?_
  rcases closeVmap_cases (isRun_of_mem hrun) with ⟨r, rfl, hr⟩ | ⟨key, pairs, hvmap⟩
  · obtain rfl : a = r := by simpa [hr] using ha
    rcases closeVmap_cases (isRun_of_mem hnext) with ⟨s, rfl, hs⟩ | ⟨key, pairs, hvmap⟩
    · obtain rfl : b = s := by simpa [hs] using hb
      exact hrel a b rfl rfl
    · obtain rfl : b = { statements := [.nftVmap key pairs] } := by simpa [hvmap] using hb
      exact hright key pairs a
  · obtain rfl : a = { statements := [.nftVmap key pairs] } := by simpa [hvmap] using ha
    exact hleft key pairs b

/-- Rules of runs next to each other are next to each other in the list. -/
theorem isChain_singletons {rel : NftRule → NftRule → Prop} (runs : List (List NftRule)) (h : List.IsChain rel runs.flatten) :
    List.IsChain (fun run next => ∀ a b, run = [a] → next = [b] → rel a b) runs := by
  induction runs with
  | nil => exact List.isChain_nil
  | cons run runs ih =>
    rw [List.flatten_cons, List.isChain_append] at h
    refine List.isChain_cons.2 ⟨fun next hnext a b ha hb => ?_, ih h.2.1⟩
    subst ha hb
    cases runs with
    | nil => cases hnext
    | cons next' runs =>
      cases hnext
      exact h.2.2 a rfl b rfl

/-- No rule of a folded list joins the one in front of it. -/
theorem collapseVmap_collapseVmap (rules : List NftRule) : collapseVmap (collapseVmap rules) = collapseVmap rules := by
  have hchain : List.IsChain (fun a b => joinsVmap [a] b = false) (collapseVmap rules) := by
    refine isChain_collapseVmap (fun key pairs r => rfl) (fun key pairs r => ?_) ?_
    · rw [joinsVmap]
      cases ([r].head?.bind vmapCandidate) <;> rfl
    · refine (isChain_greedyRuns rules).imp fun run next hjoin a b ha hb => ?_
      subst ha hb
      exact hjoin b rfl
  have hruns := greedyRuns_eq_singletons_iff.2 hchain
  rw [collapseVmap, hruns, List.flatMap_map]
  exact List.flatMap_singleton' _

theorem Unmerged.collapseVmap {rules : List NftRule} (h : Unmerged rules) : Unmerged (collapseVmap rules) := by
  refine isChain_collapseVmap collapseAxis_vmap_left (fun key pairs r => collapseAxis_vmap_right key pairs r) ?_
  refine isChain_singletons _ ?_
  rwa [flatten_greedyRuns]

theorem collapseChainRules_collapseChainRules (rules : List NftRule) :
    collapseChainRules (collapseChainRules rules) = collapseChainRules rules := by
  have hsettled : Unmerged (collapseSets rules.length rules) := unmerged_iff.2 (collapseSets_settled (Nat.le_refl _))
  rw [collapseChainRules, collapseChainRules, collapseSets_of_unmerged hsettled.collapseVmap, collapseVmap_collapseVmap]

end Ferm
