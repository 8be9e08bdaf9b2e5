import Ferm.Nft.Commit
import Ferm.Plan.Safety

/-!
# The full reload

A rendered table that flushes is loaded as it is after the table of the kernel is deleted. Whatever the kernel had, it then lists what
the configuration says, a delta against the listing is empty, and no line refers to what is not there as long as the configuration
does not.
-/

namespace Ferm

open Keyed

variable {form : NftForm} {family : String} {chains : List NftChain} {rules : Dict String (List NftRule)} {decls : Dict String Decl}
  {commands : List Command}

/-! ## The script of a reload -/

/-- The lines of a rendered table after its envelope. -/
def contentCommands (chains : List NftChain) (rules : Dict String (List NftRule)) (decls : Dict String Decl) : List Command :=
  declarationCommands decls ++ chains.map (fun c => Command.addChain c.name (chainHeader c)) ++
    chains.flatMap fun c => (ruleBodies rules c.name).map (Command.addRule c.name)

theorem tableCommands_flush (h : tableCommands chains rules decls false = .ok commands) :
    commands = .addTable :: .flushTable :: contentCommands chains rules decls := by
  rw [tableCommands_eq h, envelopeCommands, if_neg Bool.false_ne_true, contentCommands, List.map_eq_flatMap]
  simp

/-- The flush is replaced; what follows is loaded as it is. -/
theorem fullReloadText_flush (family : String) (content : List Command) :
    fullReloadText family (fermLines family (.addTable :: .flushTable :: content)) =
      deltaLine family .addTable :: deltaLine family .deleteTable :: deltaLine family .addTable :: fermLines family content := by
  have htable : deltaLine family .addTable ≠ deltaLine family .flushTable := by
    intro h
    cases congrArg ScriptLine.command h
  rw [fermLines, List.map_cons, List.map_cons, fullReloadText, if_neg htable, fullReloadText, if_pos rfl]
  rfl

theorem Command.onCell_of_adds {c : Command} (h : c.adds = true) : c.onCell := by
  constructor <;> rintro rfl <;> cases h

/-- The content of a rendered table only adds. -/
theorem adds_content : ∀ c ∈ contentCommands chains rules decls, c.adds = true := by
  intro c hc
  simp only [contentCommands, List.mem_append, List.mem_map, List.mem_flatMap] at hc
  rcases hc with (hc | ⟨chain, -, rfl⟩) | ⟨chain, -, body, -, rfl⟩
  · obtain ⟨name, d, -, hc⟩ := target_declarationCommands c hc
    have htarget := target_declCommands c hc
    cases d with
    | object d =>
      rw [declCommands, List.mem_singleton] at hc
      rw [hc]
      rfl
    | dyn d =>
      rw [declCommands, List.mem_singleton] at hc
      rw [hc]
      rfl
    | static d =>
      simp only [declCommands, List.mem_cons] at hc
      rcases hc with rfl | hc
      · rfl
      · split at hc
        · cases hc
        · rw [List.mem_singleton.1 hc]
          rfl
  · rfl
  · rfl

theorem onCells_content : OnCells family (fermLines family (contentCommands chains rules decls)) := by
  intro line hline
  obtain ⟨c, hc, rfl⟩ := List.mem_map.1 hline
  exact ⟨rfl, Command.onCell_of_adds (adds_content c hc)⟩

theorem execLine_addTable (family : String) (kernel : Option (KernelTable form)) :
    execLine family (deltaLine family .addTable) kernel = some (some (kernel.getD {})) := by
  simp [execLine]

theorem execLine_deleteTable (family : String) (t : KernelTable form) : execLine family (deltaLine family .deleteTable) (some t) = some none := by
  simp [execLine]

/-- Deleted and declared again, the table is empty, whatever it was. -/
theorem execScript_reload (content : List Command) (kernel : Option (KernelTable form)) :
    execScript family (deltaLine family .addTable :: deltaLine family .deleteTable :: deltaLine family .addTable :: fermLines family content)
        kernel = execScript family (fermLines family content) (some {}) := by
  rw [execScript, runScript_cons, execLine_addTable, Option.bind_some, runScript_cons, execLine_deleteTable, Option.bind_some,
    runScript_cons, execLine_addTable, Option.bind_some]
  rfl

/-! ## What the table lists afterwards -/

/-- The elements of the configuration are read from nft's listing as they are read from the rendered table. -/
def ElementsReadBack (form : NftForm) (decls : Dict String Decl) : Prop :=
  ∀ name d, decls.get? name = some d → declTarget name d = .set name → ∀ e ∈ d.elements,
    form.readElement e = form.canonicalizeElement e

/-- Something is in the cell. -/
def ParsedCell.isThere : ParsedCell → Bool
  | .table => true
  | .chain c => c.isSome
  | .set s => s.isSome
  | .object o => o.isSome

/-- The listing of one cell. -/
def Cell.listing : Target → Cell form → ParsedCell
  | _, .table => .table
  | _, .chain c => .chain (c.map KernelChain.parsed)
  | .set name, .set s => .set (s.map (KernelSet.parsed name))
  | _, .set _ => .set none
  | _, .object o => .object o

/-- A table is listed cell by cell. -/
theorem listing_view (t : KernelTable form) (k : Target) : parsedView (some t.parsed) k = (t.view k).listing k := by
  cases k with
  | table => rfl
  | chain name => simp [parsedView, KernelTable.parsed, KernelTable.view, Cell.listing, Dict.get?_mapValues]
  | set name => simp [parsedView, KernelTable.parsed, KernelTable.view, Cell.listing, Dict.get?_mapWithKey]
  | object name => rfl

/-- Elements that are read back are canonical in the listing as they are in the rendered table. -/
theorem canonicalizeSetElements_listed {elements : List String}
    (h : ∀ e ∈ elements, form.readElement e = form.canonicalizeElement e) :
    form.canonicalizeSetElements (elements.map form.listElement) = form.canonicalizeSetElements elements := by
  rw [NftForm.canonicalizeSetElements, NftForm.canonicalizeSetElements, List.map_map]
  congr 2
  exact List.map_congr_left h

theorem onKey_content (h : tableCommands chains rules decls false = .ok commands) {k : Target} (hk : k ≠ .table) :
    onKey Command.target k (contentCommands chains rules decls) = onKey Command.target k commands := by
  rw [tableCommands_flush h, onKey_cons, if_neg (show ¬ Command.addTable.target = k from fun he => hk he.symm), onKey_cons,
    if_neg (show ¬ Command.flushTable.target = k from fun he => hk he.symm)]

/-- A static or a dynamic set is declared with the elements it has. -/
theorem runScript_declCommands {name : String} {d : Decl} (ht : declTarget name d = .set name) :
    runScript (cellStep family) (declCommands name d) (.set none : Cell form) = some (.set (some
      (KernelSet.add { type_ := (parseSetHeader d.statements).1, flags := (parseSetHeader d.statements).2 } d.elements))) := by
  cases d with
  | object d => cases ht
  | dyn d => rfl
  | static d =>
    rw [declCommands]
    by_cases he : d.elements = []
    · rw [if_pos he]
      simp [cellStep, KernelSet.add, Decl.elements, he]
    · rw [if_neg he]
      rfl

/-- What the content of a rendered table makes of an empty one, cell by cell: there is what the rendered table is read as, and it is
listed so when the elements are read back. -/
theorem runScript_content {desired : ParsedTable} (h : tableCommands chains rules decls false = .ok commands)
    (hn : (chains.map NftChain.name).Nodup) (hr : ReadsAs form family chains rules decls desired) (k : Target) :
    ∃ cell, runScript (cellStep family) (onKey Command.target k (contentCommands chains rules decls)) (({} : KernelTable form).view k) =
      some cell ∧ (cell.listing k).isThere = (parsedView (some desired) k).isThere ∧
        (ElementsReadBack form decls → cell.listing k = parsedView (some desired) k) := by
  have hsame : ∀ cell : Cell form, cell.listing k = parsedView (some desired) k →
      (cell.listing k).isThere = (parsedView (some desired) k).isThere ∧
        (ElementsReadBack form decls → cell.listing k = parsedView (some desired) k) := fun cell h => ⟨congrArg _ h, fun _ => h⟩
  cases k with
  | table =>
    have hnone : onKey Command.target .table (contentCommands chains rules decls) = [] := by
      refine onKey_eq_nil fun c hc he => ?_
      simp only [contentCommands, List.mem_append, List.mem_map, List.mem_flatMap] at hc
      rcases hc with (hc | ⟨chain, -, rfl⟩) | ⟨chain, -, body, -, rfl⟩
      · obtain ⟨name, d, -, hc⟩ := target_declarationCommands c hc
        rw [target_declCommands c hc] at he
        cases d <;> cases he
      · cases he
      · cases he
    rw [hnone]
    exact ⟨.table, rfl, hsame .table rfl⟩
  | chain name =>
    rw [onKey_content h (by simp)]
    by_cases hname : ∃ c ∈ chains, c.name = name
    · obtain ⟨c, hc, rfl⟩ := hname
      rw [onKey_chain h hn hc, runScript_cons]
      refine ⟨_, runScript_fill c.name (ruleBodies rules c.name) ⟨.ofHeader family (chainHeader c), []⟩, hsame _ ?_⟩
      rw [parsedView, Option.getD_some, hr.chain c hc]
      rfl
    · have hno : ∀ c ∈ chains, c.name ≠ name := fun c hc he => hname ⟨c, hc, he⟩
      rw [onKey_noChain h hno]
      refine ⟨_, rfl, hsame _ ?_⟩
      rw [parsedView, Option.getD_some, hr.noChain name hno]
      rfl
  | set name =>
    rw [onKey_content h (by simp)]
    by_cases hname : ∃ d, decls.get? name = some d ∧ declTarget name d = .set name
    · obtain ⟨d, hd, ht⟩ := hname
      rw [← ht, onKey_decl h hd, ht]
      rw [parsedView, Option.getD_some, hr.set name d hd ht]
      refine ⟨_, runScript_declCommands ht, rfl, fun hread => ?_⟩
      have helements : form.canonicalizeSetElements (d.elements.map form.listElement) = form.canonicalizeSetElements d.elements :=
        canonicalizeSetElements_listed (hread name d hd ht)
      simp [Cell.listing, KernelSet.parsed, KernelSet.add, Decl.parsedSet, helements]
    · have hno : ∀ d, decls.get? name = some d → declTarget name d ≠ .set name := fun d hd ht => hname ⟨d, hd, ht⟩
      rw [onKey_noSet h hno]
      refine ⟨_, rfl, hsame _ ?_⟩
      rw [parsedView, Option.getD_some, hr.noSet name hno]
      rfl
  | object name =>
    rw [onKey_content h (by simp)]
    by_cases hname : ∃ d, decls.get? name = some (.object d)
    · obtain ⟨d, hd⟩ := hname
      have hkey : onKey Command.target (.object name) commands = declCommands name (.object d) := onKey_decl h hd
      rw [hkey]
      refine ⟨_, rfl, hsame _ ?_⟩
      rw [parsedView, Option.getD_some, hr.object name d hd]
      rfl
    · have hno : ∀ d, decls.get? name = some d → declTarget name d ≠ .object name := by
        intro d hd ht
        cases d with
        | object d => exact hname ⟨d, hd⟩
        | dyn d => cases ht
        | static d => cases ht
      rw [onKey_noObject h hno]
      refine ⟨_, rfl, hsame _ ?_⟩
      rw [parsedView, Option.getD_some, hr.noObject name hno]
      rfl

/-- Loaded into an empty table, the content runs, and the table then has what the rendered table has, and lists it so when the elements
are read back. -/
theorem run_content {desired : ParsedTable} (h : tableCommands chains rules decls false = .ok commands)
    (hn : (chains.map NftChain.name).Nodup) (hr : ReadsAs form family chains rules decls desired) :
    ∃ t, runScript (KernelTable.exec family) (contentCommands chains rules decls) ({} : KernelTable form) = some t ∧
      (∀ k, (parsedView (some t.parsed) k).isThere = (parsedView (some desired) k).isThere) ∧
      (ElementsReadBack form decls → ∀ k, parsedView (some t.parsed) k = parsedView (some desired) k) := by
  have hcells := runScript_content h hn hr
  have hsome : (runScript (KernelTable.exec family) (contentCommands chains rules decls) ({} : KernelTable form)).isSome = true := by
    refine (KernelTable.exec_keyed family).run_isSome _ (fun _ _ => trivial) fun k => ?_
    obtain ⟨cell, hcell, -⟩ := hcells k
    exact Option.isSome_iff_exists.2 ⟨cell, hcell⟩
  obtain ⟨t, ht⟩ := Option.isSome_iff_exists.1 hsome
  have hview : ∀ k, (parsedView (some t.parsed) k).isThere = (parsedView (some desired) k).isThere ∧
      (ElementsReadBack form decls → parsedView (some t.parsed) k = parsedView (some desired) k) := by
    intro k
    obtain ⟨cell, hcell, hlisting⟩ := hcells k
    have hkey := (KernelTable.exec_keyed family).view_run (fun _ _ => trivial) ht k
    rwa [listing_view, Option.some.inj (hkey.symm.trans hcell)]
  exact ⟨t, ht, fun k => (hview k).1, fun hread k => (hview k).2 hread⟩

/-! ## The delta afterwards -/

/-- Lines that add, and the flush, are indexed. -/
theorem exists_buildDesiredIndex {lines : List ScriptLine} (h : ∀ line ∈ lines, line.command.adds = true ∨ line.command = .flushTable) :
    ∃ index, buildDesiredIndex lines = .ok index := by
  have hall : ∀ index, ∃ index', lines.foldlM indexLine index = .ok index' := by
    induction lines with
    | nil => exact fun index => ⟨index, rfl⟩
    | cons line lines ih =>
      intro index
      obtain ⟨hline, hlines⟩ := List.forall_mem_cons.1 h
      have hstep : ∃ index', indexLine index line = .ok index' := by
        unfold indexLine
        rcases hline with hadds | hflush
        · cases hc : line.command <;> rw [hc] at hadds <;> first | exact ⟨_, rfl⟩ | cases hadds
        · rw [hflush]
          exact ⟨_, rfl⟩
      obtain ⟨index', hindex⟩ := hstep
      rw [List.foldlM_cons, hindex]
      exact ih hlines index'
  exact hall {}

/-- Tables that are the same cell by cell are the same to the differ. -/
theorem not_seen_of_view {current desired : ParsedTable} (h : ∀ k, parsedView (some current) k = parsedView (some desired) k) :
    ¬ TableSeen current desired := by
  have hchains (name : String) : current.chains.get? name = desired.chains.get? name := ParsedCell.chain.inj (h (.chain name))
  have hsets (name : String) : current.sets.get? name = desired.sets.get? name := ParsedCell.set.inj (h (.set name))
  have hobjects (name : String) : current.objects.get? name = desired.objects.get? name := ParsedCell.object.inj (h (.object name))
  intro hseen
  cases hseen with
  | chain hd hc =>
    rw [hchains, hd] at hc
    rcases hc with hrules | ⟨c, hc, -, hpolicy⟩
    · exact hrules rfl
    · cases hc
      exact hpolicy rfl
  | set hd hs =>
    rw [hsets, hd] at hs
    exact hs ⟨_, rfl, rfl, rfl, fun _ => rfl⟩
  | extraSet hc hd => exact hd (by rwa [Dict.mem_iff_isSome, ← hsets, ← Dict.mem_iff_isSome])
  | object hd hc => exact hc (by rwa [Dict.mem_iff_isSome, hobjects, ← Dict.mem_iff_isSome])
  | extraObject hc hd => exact hd (by rwa [Dict.mem_iff_isSome, ← hobjects, ← Dict.mem_iff_isSome])
  | extraChain hc hd => exact hd (by rwa [Dict.mem_iff_isSome, ← hchains, ← Dict.mem_iff_isSome])

/-- Against a listing of what the script says, the delta of a rendered table is empty. -/
theorem buildNftDelta_of_view {current desired : ParsedTable} (h : tableCommands chains rules decls false = .ok commands)
    (hparse : parseNftScript form (fermLines family commands) = .ok (fermTables (some desired)))
    (hview : ∀ k, parsedView (some current) k = parsedView (some desired) k) :
    buildNftDelta form (fermTables (some current)) (fermLines family commands) family = .ok (some []) := by
  have hno : (fermDiff current desired).hasChanges = false := by
    rw [← Bool.not_eq_true, fermDiff, hasChanges_iff_seen]
    rintro ⟨name, t, ht, hseen⟩
    rw [fermTables, Dict.get?_set] at ht
    split at ht
    · rename_i hname
      cases ht
      rw [hname] at hseen
      exact not_seen_of_view hview hseen
    · cases ht
  have hsets : (fermDiff current desired).setChanges = [] := by
    have h := hno
    simp only [PlanDiff.hasChanges, Bool.or_eq_false_iff, Bool.not_eq_false', List.isEmpty_iff] at h
    exact h.1.2
  have hobjects : (fermDiff current desired).objectChanges = [] := by
    have h := hno
    simp only [PlanDiff.hasChanges, Bool.or_eq_false_iff, Bool.not_eq_false', List.isEmpty_iff] at h
    exact h.2
  obtain ⟨index, hindex⟩ : ∃ index, buildDesiredIndex (fermLines family commands) = .ok index := by
    refine exists_buildDesiredIndex fun line hline => ?_
    obtain ⟨c, hc, rfl⟩ := List.mem_map.1 hline
    rw [tableCommands_flush h] at hc
    rcases List.mem_cons.1 hc with rfl | hc
    · exact .inl rfl
    · rcases List.mem_cons.1 hc with rfl | hc
      · exact .inr rfl
      · exact .inl (adds_content c hc)
  unfold buildNftDelta
  rw [hparse]
  change (do
    if (fermDiff current desired).setChanges.any fun sc => sc.kind = .remove then return none
    if (fermDiff current desired).objectChanges ≠ [] then return none
    let index ← buildDesiredIndex (fermLines family commands)
    let script ← emitDeltaScript (fermDiff current desired) (fermTables (some current)) index family
    return some script : Except FermError (Option (List ScriptLine))) = _
  have hscript : emitDeltaScript (fermDiff current desired) (fermTables (some current)) index family = .ok [] := if_pos hno
  rw [hsets, hobjects, hindex]
  simp only [bind, Except.bind, hscript]
  rfl

/-! ## A reload settles the family -/

/-- Whatever the kernel has, the full reload of a rendered table runs; when the elements of the configuration are read back from nft's
listing, the table then lists what the configuration is read as, and applying the same configuration once more has nothing to do. -/
theorem reload_settles {save : List ScriptLine} {tables : Dict String ParsedTable} (hn : (chains.map NftChain.name).Nodup)
    (hsave : serializeTable ⟨family, NFT_TABLE_NAME⟩ chains rules decls false = .ok save)
    (hparse : parseNftScript form save = .ok tables) (kernel : Option (KernelTable form)) :
    ∃ t, execScript family (fullReloadText family save) kernel = some (some t) ∧
      (ElementsReadBack form decls → (∀ k, parsedView (some t.parsed) k = parsedView (some (tableOf tables NFT_TABLE_NAME)) k) ∧
        buildNftDelta form (fermTables (some t.parsed)) save family = .ok (some [])) := by
  unfold serializeTable at hsave
  cases hcommands : tableCommands chains rules decls false with
  | error e =>
    rw [hcommands] at hsave
    cases hsave
  | ok commands =>
    rw [hcommands] at hsave
    cases hsave
    change parseNftScript form (fermLines family commands) = _ at hparse
    obtain ⟨desired, rfl, hr⟩ := readsAs_of_parse hcommands hn hparse
    obtain ⟨t, ht, -, hview⟩ := run_content hcommands hn hr
    refine ⟨t, ?_, fun hread => ⟨hview hread, buildNftDelta_of_view hcommands hparse (hview hread)⟩⟩
    change execScript family (fullReloadText family (fermLines family commands)) kernel = _
    rw [tableCommands_flush hcommands, fullReloadText_flush, execScript_reload, execScript_eq onCells_content]
    simp only [fermLines, List.map_map, Function.comp_def, deltaLine_command, List.map_id', ht, Option.map_some]

/-- A table with other rules and a set that is not configured, and a configured set that it does not have. -/
theorem reload_settles_stale :
    ∃ t, execScript "ip" [deltaLine "ip" .addTable, deltaLine "ip" .deleteTable, deltaLine "ip" .addTable,
        deltaLine "ip" (.addSet "p" [["type", "inet_service"]]), deltaLine "ip" (.addElement "p" ["80"]),
        deltaLine "ip" (.addChain "c" none), deltaLine "ip" (.addRule "c" "drop")]
        (some { chains := Dict.empty.set "c" ⟨.user, ["accept"]⟩, sets := Dict.empty.set "s" {} } : Option (KernelTable .verbatim)) =
          some (some t) ∧
      (ElementsReadBack .verbatim (Dict.empty.set "p" (.static ⟨.inetService, false, ["80"]⟩)) →
        (∀ k, parsedView (some t.parsed) k =
          parsedView (some (tableOf (fermTables (some ⟨Dict.empty.set "c" ⟨["-"], ["drop"]⟩,
            Dict.empty.set "p" ⟨"p", ["80"], some "inet_service", []⟩, Dict.empty⟩)) NFT_TABLE_NAME)) k) ∧
        buildNftDelta .verbatim (fermTables (some t.parsed)) [deltaLine "ip" .addTable, deltaLine "ip" .flushTable,
          deltaLine "ip" (.addSet "p" [["type", "inet_service"]]), deltaLine "ip" (.addElement "p" ["80"]),
          deltaLine "ip" (.addChain "c" none), deltaLine "ip" (.addRule "c" "drop")] "ip" = .ok (some [])) :=
  reload_settles (by decide)
    (show serializeTable ⟨"ip", NFT_TABLE_NAME⟩ [.regular "c"] (Dict.empty.set "c" [{ statements := [.nftVerdict "drop"] }])
      (Dict.empty.set "p" (.static ⟨.inetService, false, ["80"]⟩)) false = .ok _ from rfl)
    rfl _

/-! ## References while a reload runs -/

/-- A line keeps the references of the table's rules intact; there are none when there is no table. -/
def LineSafe (refs : Refs) (family : String) (line : ScriptLine) (kernel : Option (KernelTable form)) : Prop :=
  ∀ t, kernel = some t → CommandSafe refs family line.command t

variable {refs : Refs}

/-- Lines on cells are safe when their commands are. -/
theorem safeRun_fermLines {commands : List Command} (h : ∀ c ∈ commands, c.onCell) (t : KernelTable form) :
    SafeRun (execLine family) (LineSafe refs family) (fermLines family commands) (some t) ↔
      SafeRun (KernelTable.exec family) (CommandSafe refs family) commands t := by
  induction commands generalizing t with
  | nil => exact Iff.rfl
  | cons c commands ih =>
    obtain ⟨hc, hcommands⟩ := List.forall_mem_cons.1 h
    have hstep : execLine family (deltaLine family c) (some t) = (t.exec family c).map some := by
      have hscript : execScript family [deltaLine family c] (some t) = (runScript (KernelTable.exec family) [c] t).map some :=
        execScript_eq (List.forall_mem_singleton.2 ⟨rfl, hc⟩) t
      have hnil {C σ : Type} (step : C → σ → Option σ) : runScript step [] = some := rfl
      rwa [execScript, runScript_cons, runScript_cons, hnil, hnil, Option.bind_fun_some, Option.bind_fun_some] at hscript
    have hsafe : LineSafe refs family (deltaLine family c) (some t) ↔ CommandSafe refs family c t := by
      constructor
      · intro h
        exact h t rfl
      · intro h t' ht
        cases ht
        exact h
    rw [fermLines, List.map_cons, SafeRun.cons, SafeRun.cons, hstep, hsafe]
    refine and_congr_right fun _ => ⟨?_, ?_⟩
    · rintro ⟨s, hs, hrest⟩
      obtain ⟨t', ht, rfl⟩ := Option.map_eq_some_iff.1 hs
      exact ⟨t', ht, (ih hcommands t').1 hrest⟩
    · rintro ⟨t', ht, hrest⟩
      exact ⟨some t', by rw [ht, Option.map_some], (ih hcommands t').2 hrest⟩

/-- The lines that delete and declare the table are safe. -/
theorem safeRun_reload (lines : List ScriptLine) (kernel : Option (KernelTable form)) :
    SafeRun (execLine family) (LineSafe refs family)
        (deltaLine family .addTable :: deltaLine family .deleteTable :: deltaLine family .addTable :: lines) kernel ↔
      SafeRun (execLine family) (LineSafe refs family) lines (some ({} : KernelTable form)) := by
  have hadd (k : Option (KernelTable form)) : LineSafe refs family (deltaLine family .addTable) k := fun _ _ => trivial
  have hdelete (k : Option (KernelTable form)) : LineSafe refs family (deltaLine family .deleteTable) k := fun _ _ => trivial
  constructor
  · rintro ⟨-, s₁, hs₁, -, s₂, hs₂, -, s₃, hs₃, hlines⟩
    rw [execLine_addTable] at hs₁
    cases hs₁
    rw [execLine_deleteTable] at hs₂
    cases hs₂
    rw [execLine_addTable] at hs₃
    cases hs₃
    exact hlines
  · intro hlines
    exact ⟨hadd _, _, execLine_addTable family kernel, hdelete _, _, execLine_deleteTable family _, hadd _, _,
      execLine_addTable family none, hlines⟩

/-- Rules that are written leave the names of the chains and sets as they are. -/
theorem names_addRules {cs : List Command} (h : ∀ c ∈ cs, ∃ chain body, c = .addRule chain body) {t t' : KernelTable form}
    (hrun : runScript (KernelTable.exec family) cs t = some t') :
    (∀ x, x ∈ t'.chains ↔ x ∈ t.chains) ∧ ∀ x, x ∈ t'.sets ↔ x ∈ t.sets := by
  induction cs generalizing t with
  | nil =>
    cases hrun
    exact ⟨fun _ => Iff.rfl, fun _ => Iff.rfl⟩
  | cons c cs ih =>
    obtain ⟨⟨chain, body, rfl⟩, hcs⟩ := List.forall_mem_cons.1 h
    obtain ⟨t₁, ht₁, hrun⟩ := Option.bind_eq_some_iff.1 hrun
    obtain ⟨hchains, hsets⟩ := ih hcs hrun
    cases hk : t.chains.get? chain with
    | none =>
      have hrefused : t.exec family (.addRule chain body) = none := by simp [KernelTable.exec, Command.target, KernelTable.view, hk, cellStep]
      rw [hrefused] at ht₁
      cases ht₁
    | some k =>
      rw [KernelTable.exec_addRule hk] at ht₁
      cases ht₁
      refine ⟨fun x => ?_, hsets⟩
      rw [hchains, Dict.mem_set]
      exact ⟨fun hx => hx.elim (fun hx => hx ▸ Dict.mem_of_get? hk) id, .inr⟩

/-- The rules of the chains are filled in one after another: the chains and sets that are there stay the same. -/
theorem safe_fill (cs : List NftChain) {t : KernelTable form} (hthere : ∀ c ∈ cs, c.name ∈ t.chains) :
    SafeRun (KernelTable.exec family) (CommandSafe refs family)
        (cs.flatMap fun c => (ruleBodies rules c.name).map (Command.addRule c.name)) t ↔
      ∀ c ∈ cs, RefsThere refs (parsedChain form family rules c).rules t c.name := by
  induction cs generalizing t with
  | nil => simp
  | cons c cs ih =>
    obtain ⟨hc, hcs⟩ := List.forall_mem_cons.1 hthere
    rw [List.flatMap_cons, SafeRun.append, safe_addRules c.name _ hc, List.forall_mem_cons]
    refine and_congr_right fun _ => ?_
    obtain ⟨k, hk⟩ := Dict.mem_iff_exists.1 hc
    have hcell : runScript (cellStep family) ((ruleBodies rules c.name).map (Command.addRule c.name)) (t.view (.chain c.name)) =
        some (.chain (some { k with rules := k.rules ++ (ruleBodies rules c.name).map (form.canonicalizeNftRule family) })) := by
      rw [KernelTable.view, hk]
      exact runScript_fill c.name _ k
    obtain ⟨t', hrun, -⟩ := (KernelTable.exec_keyed family).run_onCell (fun _ _ => trivial) (fun d hd => by
      obtain ⟨body, -, rfl⟩ := List.mem_map.1 hd
      rfl) hcell
    obtain ⟨hchains, hsets⟩ := names_addRules (fun d hd => by
      obtain ⟨body, -, rfl⟩ := List.mem_map.1 hd
      exact ⟨c.name, body, rfl⟩) hrun
    rw [hrun]
    simp only [Option.some.injEq, exists_eq_left']
    rw [ih fun d hd => (hchains d.name).2 (hcs d hd)]
    simp only [RefsThere, hchains, hsets]

/-- The declarations of a rendered table refer to nothing. -/
theorem safe_declarations {c : Command}
    (hc : c ∈ declarationCommands decls ++ chains.map (fun c => Command.addChain c.name (chainHeader c))) (t : KernelTable form) :
    CommandSafe refs family c t := by
  rcases List.mem_append.1 hc with hc | hc
  · obtain ⟨name, d, -, hc⟩ := target_declarationCommands c hc
    have htarget := target_declCommands c hc
    cases c <;> first | exact trivial | (cases d <;> cases htarget)
  · obtain ⟨chain, -, rfl⟩ := List.mem_map.1 hc
    exact trivial

/-- A full reload is safe at every line exactly when the chains and sets that the configured rules refer to are configured: it
declares all of them before the first rule, and deletes nothing but the whole table. -/
theorem reload_safe_iff {save : List ScriptLine} {tables : Dict String ParsedTable} (hn : (chains.map NftChain.name).Nodup)
    (hsave : serializeTable ⟨family, NFT_TABLE_NAME⟩ chains rules decls false = .ok save)
    (hparse : parseNftScript form save = .ok tables) (kernel : Option (KernelTable form)) :
    SafeRun (execLine family) (LineSafe refs family) (fullReloadText family save) kernel ↔
      Closed refs (tableOf tables NFT_TABLE_NAME) := by
  unfold serializeTable at hsave
  cases hcommands : tableCommands chains rules decls false with
  | error e =>
    rw [hcommands] at hsave
    cases hsave
  | ok commands =>
    rw [hcommands] at hsave
    cases hsave
    change parseNftScript form (fermLines family commands) = _ at hparse
    obtain ⟨desired, rfl, hr⟩ := readsAs_of_parse hcommands hn hparse
    change _ ↔ Closed refs desired
    change SafeRun (execLine family) (LineSafe refs family) (fullReloadText family (fermLines family commands)) kernel ↔ _
    rw [tableCommands_flush hcommands, fullReloadText_flush, safeRun_reload]
    rw [safeRun_fermLines fun c hc => Command.onCell_of_adds (adds_content c hc)]
    -- the state before the first rule has all chains and sets there are
    obtain ⟨t, ht, hthere, -⟩ := run_content hcommands hn hr
    have hrun := ht
    rw [contentCommands] at hrun
    obtain ⟨t₁, ht₁, hfill⟩ := runScript_append_eq_some.1 hrun
    obtain ⟨hchains, hsets⟩ := names_addRules (fun c hc => by
      obtain ⟨chain, -, hc⟩ := List.mem_flatMap.1 hc
      obtain ⟨body, -, rfl⟩ := List.mem_map.1 hc
      exact ⟨chain.name, body, rfl⟩) hfill
    have hchain (x : String) : x ∈ t₁.chains ↔ x ∈ desired.chains := by
      have hcell : (t.parsed.chains.get? x).isSome = (desired.chains.get? x).isSome := hthere (.chain x)
      rw [← hchains, Dict.mem_iff_isSome (d := desired.chains), ← hcell, ← Dict.mem_iff_isSome, KernelTable.parsed, Dict.mem_mapValues]
    have hset (x : String) : x ∈ t₁.sets ↔ x ∈ desired.sets := by
      have hcell : (t.parsed.sets.get? x).isSome = (desired.sets.get? x).isSome := hthere (.set x)
      rw [← hsets, Dict.mem_iff_isSome (d := desired.sets), ← hcell, ← Dict.mem_iff_isSome, KernelTable.parsed, Dict.mem_mapWithKey]
    rw [contentCommands, SafeRun.append, ht₁]
    simp only [Option.some.injEq, exists_eq_left']
    rw [and_iff_right (SafeRun.of_forall (fun c hc t => safe_declarations hc t) ht₁),
      safe_fill chains fun c hc => (hchain c.name).2 (hr.mem_chains.2 ⟨c, hc, rfl⟩)]
    constructor
    · intro hfilled name d hd r hrule
      obtain ⟨c, hc, rfl, rfl⟩ := hr.chain_eq hd
      obtain ⟨hrefs, hrefsets⟩ := (refsThere_of_mem ((hchain _).2 (Dict.mem_of_get? hd))).1 (hfilled c hc) r hrule
      exact ⟨fun x hx => (hchain x).1 (hrefs x hx), fun x hx => (hset x).1 (hrefsets x hx)⟩
    · intro hclosed c hc
      refine (refsThere_of_mem ((hchain _).2 (hr.mem_chains.2 ⟨c, hc, rfl⟩))).2 fun r hrule => ?_
      obtain ⟨hrefs, hrefsets⟩ := hclosed c.name _ (hr.chain c hc) r hrule
      exact ⟨fun x hx => (hchain x).2 (hrefs x hx), fun x hx => (hset x).2 (hrefsets x hx)⟩

/-- A rule that jumps to a chain after it by name, which a delta writes before the chain is there. -/
theorem reload_safe_forward :
    SafeRun (execLine "ip") (LineSafe .ofWords "ip") [deltaLine "ip" .addTable, deltaLine "ip" .deleteTable, deltaLine "ip" .addTable,
        deltaLine "ip" (.addChain "a" none), deltaLine "ip" (.addChain "b" none), deltaLine "ip" (.addRule "a" "jump b")]
      (some { chains := Dict.empty.set "a" ⟨.user, ["accept"]⟩ } : Option (KernelTable .verbatim)) :=
  (reload_safe_iff (by decide)
    (show serializeTable ⟨"ip", NFT_TABLE_NAME⟩ [.regular "a", .regular "b"]
      (Dict.empty.set "a" [{ statements := [.nftVerdict "jump b"] }]) Dict.empty false = .ok _ from rfl)
    rfl _).2 (closed_iff.2 (by decide))

end Ferm
