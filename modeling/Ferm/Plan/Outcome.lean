import Ferm.Lib.Monadic
import Ferm.Plan.Convergence
import Ferm.Plan.Listing
import Ferm.Plan.RenderedText

/-!
# The outcome of a delta

What the delta of a rendered table comes to, for any table the kernel has. It is a script when every live set is declared as it is and
the live objects are the declared ones, and a reload otherwise: none of the errors that the index and the emitter raise is reached.
-/

namespace Ferm

variable {form : NftForm} {family : String} {chains : List NftChain} {rules : Dict String (List NftRule)} {decls : Dict String Decl}
  {noflush : Bool} {save : List ScriptLine} {commands : List Command} {current desired : ParsedTable} {index : DesiredIndex}

/-- A table whose sets and objects stay: every set of it is declared with its type and flags, and its objects are those declared. -/
structure KeepsDeclarations (decls : Dict String Decl) (current : ParsedTable) : Prop where
  set : ∀ name s, current.sets.get? name = some s →
    ∃ d, decls.get? name = some d ∧ declTarget name d = .set name ∧ (s.type_, s.flags) = parseSetHeader d.statements
  object : ∀ name, name ∈ current.objects ↔ ∃ d, decls.get? name = some (.object d)

namespace OutcomeAux

/-! ## The two reasons to reload -/

theorem kind_of_setStep {name : String} {c : Option ParsedSet} {s : ParsedSet} {sc : SetChange} (h : setStep name c s = some sc) :
    sc.kind ≠ .remove := by
  cases c with
  | none =>
    cases h
    exact SetChangeKind.noConfusion
  | some c =>
    rw [setStep] at h
    split_ifs at h
    cases h
    exact SetChangeKind.noConfusion

/-- No set is removed when every live one has its type and its flags in the configuration. -/
theorem noRemove_iff :
    (∀ sc ∈ (fermDiff current desired).setChanges, sc.kind ≠ .remove) ↔
      ∀ name c, current.sets.get? name = some c → ∃ s, desired.sets.get? name = some s ∧ c.type_ = s.type_ ∧ c.flags = s.flags := by
  constructor
  · intro h name c hc
    obtain ⟨hextra, hheader, -⟩ := setChanges_of_noRemove h
    obtain ⟨s, hs⟩ := Dict.mem_iff_exists.1 (hextra name (Dict.mem_of_get? hc))
    exact ⟨s, hs, hheader name c s hc hs⟩
  · intro h sc hsc
    rw [fermDiff, diffTables_ferm, diffTable_setChanges] at hsc
    obtain hsc | hsc := List.mem_append.1 hsc
    · obtain ⟨⟨name, s⟩, he, hsc⟩ := List.mem_flatMap.1 hsc
      have hheader : ∀ c, current.sets.get? name = some c → (c.type_, c.flags) = (s.type_, s.flags) := by
        intro c hc
        obtain ⟨s', hs', htype, hflags⟩ := h name c hc
        rw [Dict.get?_eq_some_iff.2 he] at hs'
        cases hs'
        rw [htype, hflags]
      rw [diffSet_setChanges hheader, Option.mem_toList] at hsc
      exact kind_of_setStep hsc
    · obtain ⟨⟨name, c⟩, he, hsc⟩ := List.mem_flatMap.1 hsc
      obtain ⟨s, hs, -⟩ := h name c (Dict.get?_eq_some_iff.2 he)
      rw [diffExtraSet, if_pos (Dict.mem_of_get? hs)] at hsc
      exact absurd hsc List.not_mem_nil

/-- The objects do not change when both sides have the same. -/
theorem noObjectChange_iff :
    (fermDiff current desired).objectChanges = [] ↔ ∀ name, name ∈ current.objects ↔ name ∈ desired.objects := by
  refine ⟨sameObjects_of_noChange, fun h => ?_⟩
  rw [fermDiff, diffTables_ferm, diffTable_objectChanges, List.append_eq_nil_iff, List.flatMap_eq_nil_iff, List.flatMap_eq_nil_iff]
  constructor
  · intro e he
    rw [diffObject, if_pos ((h e.1).2 (Dict.mem_of_mem_entries he))]
  · intro e he
    rw [diffObject, if_pos ((h e.1).1 (Dict.mem_of_mem_entries he))]

/-- The declarations of a rendered table are kept when neither reason is there. -/
theorem keepsDeclarations_iff (hr : ReadsAs form family chains rules decls desired) :
    KeepsDeclarations decls current ↔
      (∀ sc ∈ (fermDiff current desired).setChanges, sc.kind ≠ .remove) ∧ (fermDiff current desired).objectChanges = [] := by
  have hobjects : ∀ name, name ∈ desired.objects ↔ ∃ d, decls.get? name = some (.object d) := by
    intro name
    constructor
    · intro hname
      by_contra hno
      refine Dict.get?_eq_none_iff.1 (hr.noObject name fun d hd ht => hno ?_) hname
      cases d with
      | object d => exact ⟨d, hd⟩
      | static d => cases ht
      | dyn d => cases ht
    · rintro ⟨d, hd⟩
      exact Dict.mem_of_get? (hr.object name d hd)
  rw [noRemove_iff, noObjectChange_iff]
  constructor
  · intro h
    refine ⟨fun name c hc => ?_, fun name => (h.object name).trans (hobjects name).symm⟩
    obtain ⟨d, hd, ht, hheader⟩ := h.set name c hc
    exact ⟨_, hr.set name d hd ht, congrArg Prod.fst hheader, congrArg Prod.snd hheader⟩
  · rintro ⟨hset, hobject⟩
    refine ⟨fun name c hc => ?_, fun name => (hobject name).trans (hobjects name)⟩
    obtain ⟨s, hs, htype, hflags⟩ := hset name c hc
    obtain ⟨d, hd, ht, rfl⟩ := hr.set_decl hs
    exact ⟨d, hd, ht, Prod.ext htype hflags⟩

/-! ## Nothing fails after that -/

/-- The commands of a rendered table are those that the index knows. -/
theorem indexLine_rendered (h : tableCommands chains rules decls noflush = .ok commands) :
    ∀ c ∈ commands, ∀ index, ∃ index', indexLine index (deltaLine family c) = .ok index' := by
  rw [tableCommands_eq h]
  intro c hc index
  obtain hc | hc := List.mem_append.1 hc
  · obtain hc | hc := List.mem_append.1 hc
    · obtain hc | hc := List.mem_append.1 hc
      · cases noflush <;> simp only [envelopeCommands, List.mem_cons, List.not_mem_nil, or_false, if_true, Bool.false_eq_true,
          if_false] at hc
        · obtain rfl | rfl := hc <;> exact ⟨_, rfl⟩
        · exact hc ▸ ⟨_, rfl⟩
      · obtain ⟨name, d, -, hc⟩ := target_declarationCommands c hc
        cases d with
        | object d => exact List.mem_singleton.1 hc ▸ ⟨_, rfl⟩
        | dyn d => exact List.mem_singleton.1 hc ▸ ⟨_, rfl⟩
        | static d =>
          obtain rfl | hc := List.mem_cons.1 hc
          · exact ⟨_, rfl⟩
          · split_ifs at hc
            · cases hc
            · exact List.mem_singleton.1 hc ▸ ⟨_, rfl⟩
    · obtain ⟨chain, -, hc⟩ := List.mem_flatMap.1 hc
      exact List.mem_singleton.1 hc ▸ ⟨_, rfl⟩
  · obtain ⟨chain, -, hc⟩ := List.mem_flatMap.1 hc
    obtain ⟨body, -, rfl⟩ := List.mem_map.1 hc
    exact ⟨_, rfl⟩

theorem exists_index (h : tableCommands chains rules decls noflush = .ok commands) :
    ∃ index, buildDesiredIndex (fermLines family commands) = .ok index := by
  refine exists_foldlM_ok (fun line hline index => ?_) ({} : DesiredIndex)
  obtain ⟨c, hc, rfl⟩ := List.mem_map.1 hline
  exact indexLine_rendered h c hc index

/-- Without a removal the script is written. -/
theorem exists_script (hi : IndexedAs family chains rules decls index) (hr : ReadsAs form family chains rules decls desired)
    (hno : ∀ sc ∈ (fermDiff current desired).setChanges, sc.kind ≠ .remove) :
    ∃ script, emitDeltaScript (fermDiff current desired) (fermTables (some current)) index family = .ok script := by
  obtain ⟨-, -, hchanges⟩ := setChanges_of_noRemove hno
  have hstep : ∀ sc ∈ (fermDiff current desired).setChanges.insertionSort fun a b => a.name ≤ b.name,
      ∃ lines, emitSetChange current index family sc = .ok lines := by
    intro sc hsc
    rw [(List.perm_insertionSort _ _).mem_iff, hchanges] at hsc
    obtain ⟨⟨name, s⟩, he, hsc⟩ := List.mem_filterMap.1 hsc
    obtain ⟨d, hd, ht, rfl⟩ := hr.set_decl (Dict.get?_eq_some_iff.2 he)
    exact ⟨_, emitSetChange_eq hi hd ht hsc⟩
  obtain ⟨lines, hlines⟩ := exists_mapM_ok hstep
  have hsets : emitSetChanges (fermDiff current desired) (tableOf (fermTables (some current)) NFT_TABLE_NAME) index family =
      .ok lines.flatten := by
    change emitSetChanges (fermDiff current desired) current index family = _
    rw [emitSetChanges, hlines]
    rfl
  rw [emitDeltaScript]
  split_ifs
  · exact ⟨_, rfl⟩
  · simp only [hsets]
    exact ⟨_, rfl⟩

/-! ## The two outcomes -/

/-- What is left of the delta when the table is read. -/
theorem buildNftDelta_eq {tables : Dict String ParsedTable} (hparse : parseNftScript form save = .ok tables)
    (hread : tables = fermTables (some desired)) :
    buildNftDelta form (fermTables (some current)) save family =
      if (fermDiff current desired).setChanges.any (fun sc => sc.kind = .remove) ∨ (fermDiff current desired).objectChanges ≠ [] then .ok none
      else do
        let index ← buildDesiredIndex save
        let script ← emitDeltaScript (fermDiff current desired) (fermTables (some current)) index family
        return some script := by
  rw [buildNftDelta, hparse, hread]
  change (do
    if (fermDiff current desired).setChanges.any fun sc => sc.kind = .remove then return none
    if (fermDiff current desired).objectChanges ≠ [] then return none
    let index ← buildDesiredIndex save
    let script ← emitDeltaScript (fermDiff current desired) (fermTables (some current)) index family
    return some script : Except FermError (Option (List ScriptLine))) = _
  by_cases hremove : ((fermDiff current desired).setChanges.any fun sc => sc.kind = .remove) = true
  · rw [if_pos hremove, if_pos (.inl hremove)]
    rfl
  · rw [if_neg hremove]
    by_cases hobjects : (fermDiff current desired).objectChanges ≠ []
    · rw [if_pos hobjects, if_pos (.inr hobjects)]
      rfl
    · rw [if_neg hobjects, if_neg (not_or.2 ⟨hremove, hobjects⟩)]

theorem delta_of_keeps (h : tableCommands chains rules decls noflush = .ok commands) (hn : (chains.map NftChain.name).Nodup)
    (hparse : parseNftScript form (fermLines family commands) = .ok (fermTables (some desired)))
    (hr : ReadsAs form family chains rules decls desired) (hkeeps : KeepsDeclarations decls current) :
    ∃ script, buildNftDelta form (fermTables (some current)) (fermLines family commands) family = .ok (some script) := by
  obtain ⟨hremove, hobjects⟩ := (keepsDeclarations_iff hr).1 hkeeps
  obtain ⟨index, hindex⟩ : ∃ index, buildDesiredIndex (fermLines family commands) = .ok index := exists_index h
  obtain ⟨script, hscript⟩ := exists_script (indexedAs_of_build h hn hindex) hr hremove
  refine ⟨script, ?_⟩
  rw [buildNftDelta_eq hparse rfl, if_neg, hindex]
  · change (emitDeltaScript (fermDiff current desired) (fermTables (some current)) index family >>= _) = _
    rw [hscript]
    rfl
  · rintro (hany | hne)
    · obtain ⟨sc, hsc, hkind⟩ := List.any_eq_true.1 hany
      exact hremove sc hsc (of_decide_eq_true hkind)
    · exact hne hobjects

theorem delta_of_not_keeps (hparse : parseNftScript form save = .ok (fermTables (some desired)))
    (hr : ReadsAs form family chains rules decls desired) (hkeeps : ¬ KeepsDeclarations decls current) :
    buildNftDelta form (fermTables (some current)) save family = .ok none := by
  rw [buildNftDelta_eq hparse rfl, if_pos]
  by_contra hno
  obtain ⟨hremove, hobjects⟩ := not_or.1 hno
  refine hkeeps ((keepsDeclarations_iff hr).2 ⟨fun sc hsc hkind => hremove ?_, not_not.1 hobjects⟩)
  exact List.any_eq_true.2 ⟨sc, hsc, decide_eq_true hkind⟩

end OutcomeAux

/-- `build_nft_delta`: both texts are read, and the delta is written. -/
def buildNftDeltaOf (form : NftForm) (previous desiredSave family : String) : Except FermError (Option String) := do
  let current ← parseNftList form family previous
  buildNftDeltaText form current desiredSave family

end Ferm
