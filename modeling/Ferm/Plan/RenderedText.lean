import Ferm.Lib.Monadic
import Ferm.Plan.DeltaText
import Ferm.Plan.Rendered

/-!
# The text of a rendered table

A table whose names are words and whose rules are single lines is written as a text that can be read: the reader recovers the table
from the text, and the delta of the text is the text of the delta.
-/

namespace Ferm

/-! ## Tables whose text can be read -/

/-- A declaration whose text can be read. -/
def Decl.Printable : Decl → Prop
  | static d => ∀ e ∈ d.elements, e ≠ "" ∧ OneLine e ∧ ',' ∉ e.toList
  | dyn d => ∀ word ∈ words d.type_, IsHeaderWord word
  | object d => (d.kind = "secmark" ∨ d.kind = "ct helper") ∧ OneLine d.body

/-- A table whose text can be read. -/
structure PrintableTable (family : String) (chains : List NftChain) (rules : Dict String (List NftRule)) (decls : Dict String Decl) :
    Prop where
  family : IsName family
  chain : ∀ c ∈ chains, IsName c.name
  policy : ∀ c ∈ chains, ∀ header, chainHeader c = some header → ∀ policy ∈ header.policy, IsHeaderWord policy
  rule : ∀ c ∈ chains, ∀ body ∈ ruleBodies rules c.name, OneLine body
  decl : ∀ name d, decls.get? name = some d → IsName name ∧ d.Printable

variable {form : NftForm} {family : String} {chains : List NftChain} {rules : Dict String (List NftRule)} {decls : Dict String Decl}
  {noflush : Bool} {commands : List Command} {save : List ScriptLine}

namespace RenderedTextAux

theorem isHeaderWord_type (t : ChainType) : IsHeaderWord t.word := by
  cases t <;> exact isHeaderWord_of_all (by decide) (by decide)

theorem isHeaderWord_hook (hook : Hook) : IsHeaderWord hook.word := by
  cases hook <;> exact isHeaderWord_of_all (by decide) (by decide)

/-- The words of a rendered header. -/
theorem isHeaderWord_chainHeader {c : NftChain} {header : ChainHeader} (h : chainHeader c = some header)
    (hpolicy : ∀ policy ∈ header.policy, IsHeaderWord policy) : ∀ word ∈ header.words, IsHeaderWord word := by
  have hplain (word : String) (hne : word.toList ≠ []) (hall : word.toList.all (fun c => !isPySpace c && c ≠ ';') = true) :
      IsHeaderWord word := isHeaderWord_of_all hne hall
  cases c with
  | regular name => cases h
  | base c =>
    cases h
    intro word hword
    rw [ChainHeader.words, List.mem_append] at hword
    rcases hword with hword | hword
    · simp only [List.mem_cons, List.not_mem_nil, or_false] at hword
      rcases hword with rfl | rfl | rfl | rfl | rfl | rfl
      · exact hplain _ (by decide) (by decide)
      · exact isHeaderWord_type c.type
      · exact hplain _ (by decide) (by decide)
      · exact isHeaderWord_hook c.hook
      · exact hplain _ (by decide) (by decide)
      · exact isHeaderWord_toString c.priority
    · cases hc : c.policy with
      | none =>
        rw [hc] at hword
        cases hword
      | some policy =>
        rw [hc] at hword hpolicy
        simp only [List.mem_cons, List.not_mem_nil, or_false] at hword
        rcases hword with rfl | rfl
        · exact hplain _ (by decide) (by decide)
        · exact hpolicy _ rfl

/-- The words of a set's statements. -/
theorem isHeaderWord_statements {d : Decl} (h : d.Printable) :
    ∀ statement ∈ d.statements, ∀ word ∈ statement, IsHeaderWord word := by
  have hplain (word : String) (hne : word.toList ≠ []) (hall : word.toList.all (fun c => !isPySpace c && c ≠ ';') = true) :
      IsHeaderWord word := isHeaderWord_of_all hne hall
  intro statement hstatement word hword
  cases d with
  | object d => cases hstatement
  | dyn d =>
    simp only [Decl.statements, List.mem_cons, List.not_mem_nil, or_false] at hstatement
    rcases hstatement with rfl | rfl | rfl
    · rcases List.mem_append.1 hword with hword | hword
      · rw [List.mem_singleton.1 hword]
        exact hplain _ (by decide) (by decide)
      · exact h word hword
    · simp only [DYN_SET_SIZE, List.mem_cons, List.not_mem_nil, or_false] at hword
      rcases hword with rfl | rfl <;> exact hplain _ (by decide) (by decide)
    · simp only [List.mem_cons, List.not_mem_nil, or_false] at hword
      rcases hword with rfl | rfl
      · exact hplain _ (by decide) (by decide)
      · have hflags (b : Bool) : IsHeaderWord (if b then "dynamic,timeout" else "dynamic") := by
          cases b <;> exact hplain _ (by decide) (by decide)
        exact hflags d.timeout.isSome
  | static d =>
    have htype : IsHeaderWord d.type_.word := by
      cases d.type_ <;> exact hplain _ (by decide) (by decide)
    rw [Decl.statements, List.mem_cons] at hstatement
    rcases hstatement with rfl | hstatement
    · simp only [List.mem_cons, List.not_mem_nil, or_false] at hword
      rcases hword with rfl | rfl
      · exact hplain _ (by decide) (by decide)
      · exact htype
    · cases hflags : d.flagsInterval with
      | false =>
        rw [hflags] at hstatement
        cases hstatement
      | true =>
        rw [hflags, if_pos rfl, List.mem_singleton] at hstatement
        subst hstatement
        simp only [List.mem_cons, List.not_mem_nil, or_false] at hword
        rcases hword with rfl | rfl <;> exact hplain _ (by decide) (by decide)

theorem printable_declCommands {name : String} {d : Decl} (hname : IsName name) (h : d.Printable) :
    ∀ c ∈ declCommands name d, c.Printable := by
  intro c hc
  cases d with
  | object d =>
    rw [declCommands, List.mem_singleton] at hc
    subst hc
    exact ⟨h.1, hname, h.2⟩
  | dyn d =>
    rw [declCommands, List.mem_singleton] at hc
    subst hc
    exact ⟨hname, isHeaderWord_statements h⟩
  | static d =>
    rw [declCommands, List.mem_cons] at hc
    rcases hc with rfl | hc
    · exact ⟨hname, isHeaderWord_statements h⟩
    · by_cases helements : d.elements = []
      · rw [if_pos helements] at hc
        cases hc
      · rw [if_neg helements, List.mem_singleton] at hc
        subst hc
        exact ⟨hname, h⟩

end RenderedTextAux

open RenderedTextAux in
/-- Every command of the table can be read. -/
theorem PrintableTable.printable_commands (hp : PrintableTable family chains rules decls)
    (h : tableCommands chains rules decls noflush = .ok commands) : ∀ c ∈ commands, c.Printable := by
  intro c hc
  rw [tableCommands_eq h] at hc
  simp only [List.mem_append, List.mem_flatMap] at hc
  rcases hc with ((hc | hc) | ⟨chain, hchain, hc⟩) | ⟨chain, hchain, hc⟩
  · cases noflush <;> simp [envelopeCommands] at hc
    · rcases hc with rfl | rfl <;> trivial
    · subst hc
      trivial
  · obtain ⟨name, d, hd, hc⟩ := target_declarationCommands c hc
    obtain ⟨hname, hprintable⟩ := hp.decl name d hd
    exact printable_declCommands hname hprintable c hc
  · rw [List.mem_singleton] at hc
    subst hc
    exact ⟨hp.chain chain hchain, fun header hheader => isHeaderWord_chainHeader hheader (hp.policy chain hchain header hheader)⟩
  · obtain ⟨body, hbody, rfl⟩ := List.mem_map.1 hc
    exact ⟨hp.chain chain hchain, hp.rule chain hchain body hbody⟩

/-- Every line of the rendered table can be read. -/
theorem PrintableTable.printable_lines (hp : PrintableTable family chains rules decls)
    (h : serializeTable ⟨family, NFT_TABLE_NAME⟩ chains rules decls noflush = .ok save) : ∀ line ∈ save, line.Printable := by
  rw [serializeTable] at h
  cases hcommands : tableCommands chains rules decls noflush with
  | error e =>
    rw [hcommands] at h
    cases h
  | ok commands =>
    rw [hcommands] at h
    cases h
    have htable : IsName NFT_TABLE_NAME := ⟨⟨by decide, forall_eq_false (by decide)⟩, by decide⟩
    intro line hline
    obtain ⟨c, hc, rfl⟩ := List.mem_map.1 hline
    exact ⟨hp.family, htable, hp.printable_commands hcommands c hc⟩

/-! ## Reading the text back -/

namespace RenderedTextAux

/-- Reading the lines of one family is running their commands. -/
theorem ferm_parseLines {lineno : Nat} {s : ParseState} (hf : s.family = none ∨ s.family = some family) :
    (parseLines form lineno (fermLines family commands) s).toOption.map ParseState.ferm =
      runScript (fun c t => parseCommand form family t c) commands s.ferm := by
  induction commands generalizing lineno s with
  | nil => rfl
  | cons command commands ih =>
    have hadmitted : Admitted s family NFT_TABLE_NAME := by
      refine ⟨rfl, ?_⟩
      rintro ⟨hsome, hne⟩
      rcases hf with hf | hf
      · rw [hf] at hsome
        cases hsome
      · exact hne hf
    have hline : (parseLine form lineno (deltaLine family command) s).toOption =
        (parseCommand form family s.ferm command).map fun ferm => ⟨some family, ferm⟩ :=
      (toOption_parseLine (deltaLine family command)).trans (if_pos hadmitted)
    rw [fermLines, List.map_cons, parseLines, runScript_cons]
    cases hread : parseLine form lineno (deltaLine family command) s with
    | error e =>
      rw [hread] at hline
      rw [Option.map_eq_none_iff.1 hline.symm]
      rfl
    | ok s' =>
      rw [hread] at hline
      obtain ⟨ferm, hferm, rfl⟩ := Option.map_eq_some_iff.1 hline.symm
      rw [hferm]
      exact ih (.inr rfl)

/-- Rules are read into a chain when none of them is empty. -/
theorem isSome_addRules (name : String) (bodies : List String) (c : ParsedChain) :
    (runScript (parsedCellStep form family) (bodies.map (Command.addRule name)) (.chain (some c))).isSome = true ↔ "" ∉ bodies := by
  induction bodies generalizing c with
  | nil => simp
  | cons body bodies ih =>
    rw [List.map_cons, runScript_cons, parsedCellStep]
    by_cases hbody : body = ""
    · simp [hbody]
    · rw [if_neg hbody, Option.bind_some, ih, List.mem_cons, not_or]
      exact ⟨fun h => ⟨fun he => hbody he.symm, h⟩, fun h => h.2⟩

/-- The lines about the table itself change nothing of it. -/
theorem runScript_table (hc : ∀ c ∈ commands, c.target = .table ∧ c ≠ .deleteTable) :
    runScript (parsedCellStep form family) commands .table = some .table := by
  induction commands with
  | nil => rfl
  | cons c commands ih =>
    obtain ⟨⟨htarget, hne⟩, hcommands⟩ := List.forall_mem_cons.1 hc
    have hstep : parsedCellStep form family c .table = some .table := by
      cases c
      case addTable => rfl
      case flushTable => rfl
      case deleteTable => exact absurd rfl hne
      all_goals cases htarget
    rw [runScript_cons, hstep, Option.bind_some]
    exact ih hcommands

/-- A declaration is read. -/
theorem isSome_declCommands (name : String) (d : Decl) :
    (runScript (parsedCellStep form family) (declCommands name d) (parsedView (some {}) (declTarget name d))).isSome = true := by
  cases d with
  | object d => rfl
  | dyn d => rfl
  | static d =>
    rw [declCommands]
    split_ifs <;> rfl

/-- The commands of a rendered table can be run when no rule is empty. -/
theorem isSome_run_iff (h : tableCommands chains rules decls noflush = .ok commands) (hn : (chains.map NftChain.name).Nodup) :
    (runScript (fun c t => parseCommand form family t c) commands none).isSome = true ↔
      ∀ c ∈ chains, "" ∉ ruleBodies rules c.name := by
  constructor
  · intro hrun c hc
    obtain ⟨t, ht⟩ := Option.isSome_iff_exists.1 hrun
    have hview := parse_keyed.view_run (ne_deleteTable h) ht (.chain c.name)
    rw [onKey_chain h hn hc] at hview
    exact (isSome_addRules c.name _ { policy := parsedPolicy family (chainHeader c) }).1 (Option.isSome_iff_exists.2 ⟨_, hview⟩)
  · intro hbodies
    refine parse_keyed.run_isSome none (ne_deleteTable h) fun k => ?_
    have hnone : parsedView none k = parsedView (some {}) k := by cases k <;> rfl
    rw [hnone]
    cases k with
    | table =>
      rw [parsedView, runScript_table]
      · rfl
      · intro c hc
        obtain ⟨hmem, htarget⟩ := List.mem_filter.1 hc
        exact ⟨of_decide_eq_true htarget, ne_deleteTable h c hmem⟩
    | chain name =>
      by_cases hchain : ∃ c ∈ chains, c.name = name
      · obtain ⟨c, hc, rfl⟩ := hchain
        rw [onKey_chain h hn hc]
        exact (isSome_addRules c.name _ { policy := parsedPolicy family (chainHeader c) }).2 (hbodies c hc)
      · rw [onKey_noChain h fun c hc he => hchain ⟨c, hc, he⟩]
        rfl
    | set name =>
      by_cases hset : ∃ d, decls.get? name = some d ∧ declTarget name d = .set name
      · obtain ⟨d, hd, ht⟩ := hset
        rw [← ht, onKey_decl h hd]
        exact isSome_declCommands name d
      · rw [onKey_noSet h fun d hd ht => hset ⟨d, hd, ht⟩]
        rfl
    | object name =>
      by_cases hobject : ∃ d, decls.get? name = some d ∧ declTarget name d = .object name
      · obtain ⟨d, hd, ht⟩ := hobject
        rw [← ht, onKey_decl h hd]
        exact isSome_declCommands name d
      · rw [onKey_noObject h fun d hd ht => hobject ⟨d, hd, ht⟩]
        rfl

/-- The lines of a table are those of its commands. -/
theorem exists_fermLines (h : serializeTable ⟨family, NFT_TABLE_NAME⟩ chains rules decls noflush = .ok save) :
    ∃ commands, tableCommands chains rules decls noflush = .ok commands ∧ save = fermLines family commands := by
  rw [serializeTable] at h
  cases hcommands : tableCommands chains rules decls noflush with
  | error e =>
    rw [hcommands] at h
    cases h
  | ok commands =>
    rw [hcommands] at h
    cases h
    exact ⟨commands, rfl, rfl⟩

/-- The lines of a rendered table are read without an error exactly when no rule of it is empty. -/
theorem isSome_parse_iff (h : tableCommands chains rules decls noflush = .ok commands) (hn : (chains.map NftChain.name).Nodup) :
    (parseNftScript form (fermLines family commands)).toOption.isSome = true ↔ ∀ c ∈ chains, "" ∉ ruleBodies rules c.name := by
  have hrun : (parseLines form 1 (fermLines family commands) {}).toOption.map ParseState.ferm =
      runScript (fun c t => parseCommand form family t c) commands none := ferm_parseLines (.inl rfl)
  rw [← isSome_run_iff h hn, ← hrun, Option.isSome_map, parseNftScript]
  cases parseLines form 1 (fermLines family commands) {} <;> exact Iff.rfl

/-- What is read without an error is the table that was rendered. -/
theorem reads_iff (h : tableCommands chains rules decls noflush = .ok commands) (hn : (chains.map NftChain.name).Nodup) :
    (∃ desired, parseNftScript form (fermLines family commands) = .ok (fermTables (some desired)) ∧
        ReadsAs form family chains rules decls desired) ↔
      ∀ c ∈ chains, "" ∉ ruleBodies rules c.name := by
  have hiff : (parseNftScript form (fermLines family commands)).toOption.isSome = true ↔ ∀ c ∈ chains, "" ∉ ruleBodies rules c.name :=
    isSome_parse_iff h hn
  rw [← hiff]
  constructor
  · rintro ⟨desired, hdesired, -⟩
    rw [hdesired]
    rfl
  · intro hsome
    cases hlines : parseLines form 1 (fermLines family commands) {} with
    | error e =>
      rw [parseNftScript, hlines] at hsome
      cases hsome
    | ok s =>
      have hscript : parseNftScript form (fermLines family commands) = .ok (fermTables s.ferm) := by
        rw [parseNftScript, hlines]
        rfl
      obtain ⟨desired, hdesired, hreads⟩ := readsAs_of_parse h hn hscript
      exact ⟨desired, hdesired ▸ hscript, hreads⟩

theorem isName_of_all {name : String} (hne : name.toList ≠ [])
    (h : name.toList.all (fun c => !isPySpace c && c ≠ '\x7b') = true) : IsName name := by
  refine ⟨⟨hne, fun c hc => ?_⟩, fun hmem => ?_⟩
  · have := List.all_eq_true.1 h c hc
    simp only [Bool.and_eq_true, Bool.not_eq_true'] at this
    exact this.1
  · have := List.all_eq_true.1 h _ hmem
    simp at this

/-- The chain `c` with one rule, and a set of one address. -/
theorem printable_example :
    PrintableTable "ip" [.regular "c"] (Dict.empty.set "c" [{ statements := [.nftVerdict "drop"] }])
      (Dict.empty.set "s" (.static ⟨.ipv4Addr, false, ["10.0.0.1"]⟩)) where
  family := isName_of_all (by decide) (by decide)
  chain := by
    intro c hc
    rw [List.mem_singleton.1 hc]
    exact isName_of_all (by decide) (by decide)
  policy := by
    intro c hc header hheader
    rw [List.mem_singleton.1 hc] at hheader
    cases hheader
  rule := by
    intro c hc body hbody
    rw [List.mem_singleton.1 hc] at hbody
    have hbodies : ruleBodies (Dict.empty.set "c" [{ statements := [.nftVerdict "drop"] }]) "c" = ["drop"] := rfl
    rw [NftChain.name, hbodies, List.mem_singleton] at hbody
    rw [hbody]
    exact IsWord.oneLine ⟨by decide, forall_eq_false (by decide)⟩
  decl := by
    intro name d hd
    rw [Dict.get?_set] at hd
    by_cases hname : name = "s"
    · rw [if_pos hname] at hd
      cases hd
      rw [hname]
      refine ⟨isName_of_all (by decide) (by decide), fun e he => ?_⟩
      rw [List.mem_singleton.1 he]
      exact ⟨by decide, IsWord.oneLine ⟨by decide, forall_eq_false (by decide)⟩, by decide⟩
    · rw [if_neg hname] at hd
      cases hd

end RenderedTextAux

end Ferm
