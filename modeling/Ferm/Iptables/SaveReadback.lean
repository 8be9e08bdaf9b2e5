import Ferm.Iptables.Save
import Ferm.Lib.KeyedRun
import Ferm.Lib.Monadic
import Ferm.Plan.SaveText

/-!
# Reading a rendered save back

The text `rules_to_save` writes, read by `parse_save`. Every emitted line is read as what it is, as far as its first line boundary;
what stands behind one is a line of its own.
-/

namespace Ferm

/-! ## Names -/

/-- `_IPT_NAME_RE`. -/
def isIptName (name : String) : Bool :=
  !name.toList.isEmpty && name.toList.all fun c => c.isAlphanum || "_.+-".toList.contains c

/-- `_validate_policy`. -/
def validatePolicy : Option String → Except FermError Unit
  | none => .ok ()
  | some policy =>
    if policy ∈ CORE_TARGETS ∨ policy = "-" then .ok ()
    else .error ⟨"invalid chain policy " ++ pyRepr policy ++ " for iptables backend"⟩

/-- `_validate_ipt_name`. -/
def validateIptName (name kind : String) : Except FermError Unit :=
  if isIptName name then .ok () else .error ⟨"invalid " ++ kind ++ " name " ++ pyRepr name ++ " for iptables backend"⟩

/-- The checks of one chain. -/
def validateChain (chain : String) (info : ChainInfo) : Except FermError Unit := do
  validateIptName chain "chain"
  validatePolicy info.policy
  match info.priority with
  | some priority =>
    .error ⟨"chain priority ('" ++ chain ++ "' priority " ++ toString priority ++
      ") is an nft-only feature; the iptables backend has no chain priority"⟩
  | none => .ok ()

/-- `validate_names`. -/
def validateNames (info : DomainInfo) : Except FermError Unit :=
  info.tables.entries.forM fun t => do
    validateIptName t.1 "table"
    t.2.chains.entries.forM fun c => validateChain c.1 c.2

theorem isWord_of_isIptName {name : String} (h : isIptName name = true) : IsWord name.toList := by
  simp only [isIptName, Bool.and_eq_true, Bool.not_eq_true', List.isEmpty_eq_false_iff, List.all_eq_true, Bool.or_eq_true] at h
  refine ⟨h.1, fun c hc => ?_⟩
  have hnum := h.2 c hc
  rcases hnum with hc | hc
  · delta Char.isAlphanum Char.isAlpha Char.isUpper Char.isLower Char.isDigit at hc
    simp only [Bool.or_eq_true, Bool.and_eq_true, decide_eq_true_eq, ge_iff_le, UInt32.le_iff_toNat_le, show 'A'.val.toNat = 65 from rfl, show 'Z'.val.toNat = 90 from rfl,
      show 'a'.val.toNat = 97 from rfl, show 'z'.val.toNat = 122 from rfl, show '0'.val.toNat = 48 from rfl,
      show '9'.val.toNat = 57 from rfl] at hc
    exact isPySpace_eq_false (by rw [Char.toNat]; omega)
  · have hall : "_.+-".toList.all (fun c => !isPySpace c) = true := by decide
    simpa using List.all_eq_true.1 hall c (List.contains_iff_mem.1 hc)

/-! ## Single lines -/

/-- The body of a rule as far as the first line of its text goes. -/
def recordedBody (text : List Char) : List Char := (pyRstrip (firstLine text)).tail

private theorem isWord_singleton {c : Char} (h : isPySpace c = false) : IsWord [c] :=
  ⟨List.cons_ne_nil c [], fun _ hd => List.mem_singleton.1 hd ▸ h⟩

theorem readSaveLine_comment (text : List Char) : readSaveLine (firstLine ('#' :: text)) = some .skipped := by
  have hfirst : firstLine ('#' :: text) = '#' :: firstLine text := firstLine_append (forall_eq_false (by decide : ['#'].all (fun c => !isLineBoundary c) = true)) text
  have hstrip : pyStrip ('#' :: firstLine text) = '#' :: pyRstrip (firstLine text) := by
    rw [pyStrip, List.dropWhile_cons, show isPySpace '#' = false by decide]
    exact pyRstrip_append (isWord_singleton (by decide)) [] (firstLine text)
  rw [hfirst, readSaveLine, hstrip, if_pos (.inr rfl)]

theorem readSaveLine_table {name : List Char} (h : IsWord name) :
    readSaveLine (firstLine ('*' :: name)) = some (.table (String.ofList name)) := by
  have hboundary : ∀ c ∈ '*' :: name, isLineBoundary c = false :=
    List.forall_mem_cons.2 ⟨by decide, h.no_boundary⟩
  have hstrip : pyStrip ('*' :: name) = '*' :: name := by
    have := pyStrip_append (c := '*') (by decide) h [] []
    rwa [List.append_nil, List.nil_append, pyRstrip, List.rdropWhile_nil, List.append_nil] at this
  rw [firstLine_eq_self hboundary, readSaveLine, hstrip]
  simp [h.1, h.no_blank]

/-- A chain's line of three words. -/
theorem readSaveLine_chain {name policy counters : List Char} (hname : IsWord name) (hpolicy : IsWord policy)
    (hcounters : IsWord counters) :
    readSaveLine (firstLine (':' :: (name ++ ' ' :: (policy ++ ' ' :: counters)))) =
      some (.chain (String.ofList name) (String.ofList policy)) := by
  have hboundary : ∀ c ∈ ':' :: (name ++ ' ' :: (policy ++ ' ' :: counters)), isLineBoundary c = false := by
    simp only [List.forall_mem_cons, List.forall_mem_append]
    exact ⟨by decide, hname.no_boundary, by decide, hpolicy.no_boundary, by decide, hcounters.no_boundary⟩
  have hstrip : pyStrip (':' :: (name ++ ' ' :: (policy ++ ' ' :: counters))) =
      ':' :: (name ++ ' ' :: (policy ++ ' ' :: counters)) := by
    have := pyStrip_append (c := ':') (by decide) hcounters (name ++ ' ' :: (policy ++ [' '])) []
    simpa [pyRstrip] using this
  rw [firstLine_eq_self hboundary, readSaveLine, hstrip]
  simp only [List.head?_cons, List.tail_cons, pyWords_cons hname (by decide : isPySpace ' ' = true),
    pyWords_cons hpolicy (by decide : isPySpace ' ' = true), pyWords_word hcounters]
  simp

/-- A rule's line: its body goes as far as the first line of the text. -/
theorem readSaveLine_rule {name text : List Char} (hname : IsWord name) (htext : text = [] ∨ text.head? = some ' ') :
    readSaveLine (firstLine ('-' :: 'A' :: ' ' :: (name ++ text))) = some (.rule (String.ofList name) (recordedBody text)) := by
  have hboundary : ∀ c ∈ '-' :: 'A' :: ' ' :: name, isLineBoundary c = false := by
    simp only [List.forall_mem_cons]
    exact ⟨by decide, by decide, by decide, hname.no_boundary⟩
  have hfirst : firstLine ('-' :: 'A' :: ' ' :: (name ++ text)) = '-' :: ('A' :: [' '] ++ (name ++ firstLine text)) :=
    firstLine_append hboundary text
  have hrest : pyRstrip (firstLine text) = [] ∨ (pyRstrip (firstLine text)).head? = some ' ' := by
    rcases htext with rfl | htext
    · exact .inl (by decide)
    · obtain ⟨rest, rfl⟩ := List.head?_eq_some_iff.1 htext
      have : firstLine (' ' :: rest) = ' ' :: firstLine rest := 
        firstLine_append (forall_eq_false (by decide : [' '].all (fun c => !isLineBoundary c) = true)) rest
      rw [this]
      exact pyRstrip_cons ' ' (firstLine rest)
  have hchain : (name ++ pyRstrip (firstLine text)).takeWhile (· ≠ ' ') = name := by
    have hname' : ∀ c ∈ name, decide (c ≠ ' ') = true := fun c hc => by
      rw [decide_eq_true_iff]
      rintro rfl
      exact hname.no_blank hc
    rw [List.takeWhile_append_of_pos hname']
    rcases hrest with hrest | hrest
    · rw [hrest, List.takeWhile_nil, List.append_nil]
    · obtain ⟨rest, hrest⟩ := List.head?_eq_some_iff.1 hrest
      rw [hrest, List.takeWhile_cons, if_neg (by decide), List.append_nil]
  rw [hfirst, readSaveLine, pyStrip_append (by decide) hname]
  simp only [List.cons_append, List.nil_append, List.drop_succ_cons, List.drop_zero, hchain]
  have hdrop : (name ++ pyRstrip (firstLine text)).drop (name.length + 1) = recordedBody text := by
    rw [recordedBody, List.drop_append]
    simp
  rw [hdrop]
  simp [hname.1]

/-! ## Whole texts -/

/-- Two walks whose steps are related give related lists. -/
theorem forall₂_flatMap {α β γ : Type} {R : β → γ → Prop} {f : α → List β} {g : α → List γ} {l : List α}
    (h : ∀ a ∈ l, List.Forall₂ R (f a) (g a)) : List.Forall₂ R (l.flatMap f) (l.flatMap g) := by
  induction l with
  | nil => exact .nil
  | cons a l ih =>
    obtain ⟨ha, hl⟩ := List.forall_mem_cons.1 h
    exact List.rel_append ha (ih hl)

/-- Nothing but blanks and comments stands behind the line boundaries of a line. -/
def IsWhole (line : List Char) : Prop := ∀ further ∈ furtherLines line, readSaveLine further = some .skipped

theorem isWhole_of_no_boundary {line : List Char} (h : ∀ c ∈ line, isLineBoundary c = false) : IsWhole line := by
  intro further hfurther
  rw [furtherLines_eq_nil h] at hfurther
  cases hfurther

theorem isWhole_append {start : List Char} (h : ∀ c ∈ start, isLineBoundary c = false) {text : List Char} :
    IsWhole (start ++ text) ↔ IsWhole text := by
  rw [IsWhole, furtherLines_append h, IsWhole]

/-- The characters of an entry's line. -/
abbrev SaveEntry.chars (x : SaveEntry) : List Char := x.text.toList

/-- True for a comment. -/
def SaveEntry.isComment : SaveEntry → Bool
  | comment _ => true
  | _ => false

/-- An entry's line is read as a production, as far as its first boundary. -/
def IsReadAs (x : SaveEntry) (p : SaveProduction) : Prop :=
  readSaveLine (firstLine x.chars) = some p ∧ (x.isComment = true ↔ p = .skipped)

theorem chars_saveText (entries : List SaveEntry) :
    (saveText entries).toList = (entries.map SaveEntry.chars).flatMap fun line => line ++ ['\n'] := by
  rw [saveText, String.toList_join, List.flatMap_map, List.flatMap_map]
  simp

/-- What a save's text is read as: for each entry its first line, then the further ones. -/
theorem splitLines_saveText (entries : List SaveEntry) :
    splitLines (saveText entries).toList = entries.flatMap fun x => firstLine x.chars :: furtherLines x.chars := by
  rw [chars_saveText, splitLines_lines, List.flatMap_map]

/-- Lines that are blank or comments change nothing. -/
theorem parseSaveLines_skipped (hostMask : String) {skipped : List (List Char)}
    (h : ∀ line ∈ skipped, readSaveLine line = some .skipped) (lines : List (List Char)) (lineno : Nat) (s : SaveState) :
    parseSaveLines hostMask lineno (skipped ++ lines) s = parseSaveLines hostMask (lineno + skipped.length) lines s := by
  induction skipped generalizing lineno with
  | nil => rfl
  | cons line skipped ih =>
    obtain ⟨hline, hskipped⟩ := List.forall_mem_cons.1 h
    rw [List.cons_append, parseSaveLines, parseSaveLine, hline, List.length_cons, Nat.add_comm skipped.length 1, ← Nat.add_assoc]
    exact ih hskipped (lineno + 1)

/-- A text whose lines are all whole does what its entries are read as. -/
theorem parseSaveLines_whole (hostMask : String) {entries : List SaveEntry} {productions : List SaveProduction}
    (h : List.Forall₂ IsReadAs entries productions) (hwhole : ∀ x ∈ entries, IsWhole x.chars) {s s' : SaveState}
    (hrun : runScript (SaveProduction.run hostMask) productions s = some s') (lineno : Nat) :
    parseSaveLines hostMask lineno (entries.flatMap fun x => firstLine x.chars :: furtherLines x.chars) s = .ok s' := by
  induction h generalizing s lineno with
  | nil =>
    rw [runScript_nil, Option.some.injEq] at hrun
    rw [hrun]
    rfl
  | cons hread hrest ih =>
    obtain ⟨hx, hwhole⟩ := List.forall_mem_cons.1 hwhole
    obtain ⟨t, ht, hrun⟩ := Option.bind_eq_some_iff.1 hrun
    rw [List.flatMap_cons, List.cons_append, parseSaveLines, parseSaveLine, hread.1, Option.bind_some, ht]
    exact (parseSaveLines_skipped hostMask hx _ _ t).trans (ih hwhole hrun _)

/-- The lines of a text that are neither blank nor comments. -/
def contentLines (lines : List (List Char)) : List (List Char) :=
  lines.filter fun line => decide (readSaveLine line ≠ some .skipped)

theorem contentLines_append (lines lines' : List (List Char)) :
    contentLines (lines ++ lines') = contentLines lines ++ contentLines lines' := List.filter_append ..

theorem contentLines_eq_nil_iff {lines : List (List Char)} :
    contentLines lines = [] ↔ ∀ line ∈ lines, readSaveLine line = some .skipped := by
  rw [contentLines, List.filter_eq_nil_iff]
  simp

/-- Every entry but the comments gives a line with content, and its further lines may give more. -/
theorem length_contentLines {entries : List SaveEntry} {productions : List SaveProduction}
    (h : List.Forall₂ IsReadAs entries productions) :
    (contentLines (entries.flatMap fun x => firstLine x.chars :: furtherLines x.chars)).length =
      (entries.filter fun x => !x.isComment).length + (contentLines (entries.flatMap fun x => furtherLines x.chars)).length := by
  induction h with
  | nil => rfl
  | @cons x p _ _ hread hrest ih =>
    have hfirst : (contentLines [firstLine x.chars]).length = if x.isComment then 0 else 1 := by
      rw [contentLines, List.filter_singleton, hread.1]
      cases hx : x.isComment with
      | true =>
        obtain rfl := hread.2.1 hx
        rfl
      | false =>
        have hp : p ≠ .skipped := fun hp => by
          rw [hread.2.2 hp] at hx
          cases hx
        simp [hp]
    rw [List.flatMap_cons, List.flatMap_cons, contentLines_append, contentLines_append, ← List.singleton_append,
      contentLines_append, List.length_append, List.length_append, List.length_append, ih, hfirst, List.filter_cons]
    cases x.isComment with
    | true =>
      simp only [if_true, Bool.not_true, Bool.false_eq_true, if_false]
      omega
    | false =>
      simp only [Bool.false_eq_true, if_false, Bool.not_false, if_true, List.length_cons]
      omega

/-- There is one line with content for each entry but the comments exactly when all lines are whole. -/
theorem length_contentLines_iff {entries : List SaveEntry} {productions : List SaveProduction}
    (h : List.Forall₂ IsReadAs entries productions) :
    (contentLines (splitLines (saveText entries).toList)).length = (entries.filter fun x => !x.isComment).length ↔
      ∀ x ∈ entries, IsWhole x.chars := by
  rw [splitLines_saveText, length_contentLines h, Nat.add_eq_left, List.length_eq_zero_iff, contentLines_eq_nil_iff]
  constructor
  · intro hall x hx line hline
    exact hall line (List.mem_flatMap.2 ⟨x, hx, hline⟩)
  · intro hwhole line hline
    obtain ⟨x, hx, hline⟩ := List.mem_flatMap.1 hline
    exact hwhole x hx line hline

/-! ## Names that are read -/

/-- The chain that a line declares is named by a word. -/
theorem isWord_of_readSaveLine {raw : List Char} {name policy : String} (h : readSaveLine raw = some (.chain name policy)) :
    IsWord name.toList := by
  have hword : ∀ {text rest : List (List Char)} {chain : List Char}, text = chain :: rest → (∀ word ∈ text, IsWord word) →
      IsWord (String.ofList chain).toList := by
    rintro _ rest chain rfl hall
    rw [String.toList_ofList]
    exact hall chain List.mem_cons_self
  have hwords : ∀ text : List Char, ∀ word ∈ pyWords text, IsWord word := fun text word hmem => (isWord_of_mem_pyWords hmem).1
  unfold readSaveLine at h
  simp only at h
  split at h
  · cases h
  · split at h
    · split at h <;> cases h
    · split at h
      · cases h
      · split at h
        · split at h
          · rename_i chain policy' hline
            cases h
            exact hword hline (hwords _)
          · rename_i chain policy' counters hline
            cases h
            exact hword hline (hwords _)
          · cases h
        · split at h
          · split at h <;> cases h
          · cases h

/-- The chains of the tables read so far are named by words. -/
def SaveState.IsNamed (s : SaveState) : Prop :=
  ∀ table t, s.tables.get? table = some t → ∀ name ∈ t.chains, IsWord name.toList

/-- The lines of a table's chains keep their names, but for the chain that is declared. -/
theorem mem_of_onChains {hostMask : String} {p : SaveProduction} {chains chains' : Dict String ParsedChain}
    (h : p.onChains hostMask chains = some chains') {name : String} (hname : name ∈ chains') :
    name ∈ chains ∨ ∃ policy, p = .chain name policy := by
  cases p with
  | chain n policy =>
    obtain rfl := Option.some.inj h
    rcases Dict.mem_set.1 hname with rfl | hname
    · exact .inr ⟨policy, rfl⟩
    · exact .inl hname
  | rule n body =>
    obtain ⟨c, hc, rfl⟩ := Option.map_eq_some_iff.1 h
    rcases Dict.mem_set.1 hname with rfl | hname
    · exact .inl (Dict.mem_of_get? hc)
    · exact .inl hname
  | skipped => exact .inl (Option.some.inj h ▸ hname)
  | table n => exact .inl (Option.some.inj h ▸ hname)
  | commit => exact .inl (Option.some.inj h ▸ hname)

/-- A line keeps the chains named by words. -/
theorem SaveState.IsNamed.run {hostMask : String} {raw : List Char} {p : SaveProduction} (hraw : readSaveLine raw = some p)
    {s s' : SaveState} (hs : s.IsNamed) (h : p.run hostMask s = some s') : s'.IsNamed := by
  have honChains : s.onChains (p.onChains hostMask) = some s' → s'.IsNamed := by
    intro h
    obtain ⟨table, -, h⟩ := Option.bind_eq_some_iff.1 h
    obtain ⟨chains, hchains, rfl⟩ := Option.map_eq_some_iff.1 h
    intro table' t ht name hname
    rw [Dict.get?_set] at ht
    split at ht
    · obtain rfl := Option.some.inj ht
      rcases mem_of_onChains hchains hname with hold | ⟨policy, rfl⟩
      · cases hget : s.tables.get? table with
        | none =>
          rw [hget] at hold
          exact absurd hold (Dict.not_mem_empty name)
        | some t =>
          rw [hget] at hold
          exact hs table t hget name hold
      · exact isWord_of_readSaveLine hraw
    · exact hs table' t ht name hname
  cases p with
  | skipped => exact Option.some.inj h ▸ hs
  | table n =>
    simp only [SaveProduction.run] at h
    split at h
    · cases h
    · obtain rfl := Option.some.inj h
      intro table t ht name hname
      rw [Dict.get?_set] at ht
      split at ht
      · obtain rfl := Option.some.inj ht
        exact absurd hname (Dict.not_mem_empty name)
      · exact hs table t ht name hname
  | commit =>
    obtain ⟨table, -, rfl⟩ := Option.map_eq_some_iff.1 h
    exact hs
  | chain n policy => exact honChains h
  | rule n body => exact honChains h

theorem SaveState.IsNamed.parseSaveLines {hostMask : String} {lines : List (List Char)} {lineno : Nat} {s s' : SaveState} (hs : s.IsNamed)
    (h : parseSaveLines hostMask lineno lines s = .ok s') : s'.IsNamed := by
  induction lines generalizing lineno s with
  | nil => exact Except.ok.inj h ▸ hs
  | cons line lines ih =>
    rw [Ferm.parseSaveLines, parseSaveLine] at h
    split at h
    · rename_i t ht
      obtain ⟨p, hp, hrun⟩ := Option.bind_eq_some_iff.1 ht
      exact ih (hs.run hp hrun) h
    · cases h

/-- The chains that a save is read as are named by words. -/
theorem isWord_of_parseSave {hostMask : String} {text : List Char} {tables : Dict String ParsedTable}
    (h : parseSave hostMask text = .ok tables) {table : String} {t : ParsedTable} (ht : tables.get? table = some t) {name : String}
    (hname : name ∈ t.chains) : IsWord name.toList := by
  unfold parseSave at h
  simp only at h
  cases hlines : parseSaveLines hostMask 1 (splitLines text) {} with
  | error e =>
    rw [hlines] at h
    cases h
  | ok s =>
    have hempty : SaveState.IsNamed {} := fun table t ht => by
      rw [Dict.get?_empty] at ht
      cases ht
    have hnamed : s.IsNamed := hempty.parseSaveLines hlines
    rw [hlines] at h
    simp only [bind, Except.bind] at h
    split at h
    · cases h
    · exact hnamed table t (Except.ok.inj h ▸ ht) name hname

/-! ## Sections -/

/-- A production that works on the chains of a table. -/
def SaveProduction.IsOfChain (p : SaveProduction) : Prop :=
  (∃ name policy, p = .chain name policy) ∨ ∃ name body, p = .rule name body

/-- What a production makes of the chain `name`. -/
def SaveProduction.onChain (hostMask name : String) : SaveProduction → Option ParsedChain → Option (Option ParsedChain)
  | chain n policy, c => if n = name then some (some ⟨[policy], []⟩) else some c
  | rule n body, c => if n = name then c.map fun c => some (c.addRule (canonicalizeRule hostMask body)) else some c
  | _, c => some c

theorem pointwise_production (hostMask : String) :
    Pointwise (fun _ => True) (SaveProduction.onChains hostMask) (fun chains name => chains.get? name)
      (SaveProduction.onChain hostMask) where
  sound := by
    intro p chains chains' _ h name
    cases p with
    | chain n policy =>
      cases h
      rw [SaveProduction.onChain, Dict.get?_set]
      simp only [eq_comm (a := n)]
      split <;> rfl
    | rule n body =>
      obtain ⟨c, hc, rfl⟩ := Option.map_eq_some_iff.1 h
      rw [SaveProduction.onChain, Dict.get?_set]
      by_cases hn : n = name
      · subst hn
        simp [hc]
      · simp [hn, Ne.symm hn]
    | skipped => cases h; rfl
    | table n => cases h; rfl
    | commit => cases h; rfl
  complete := by
    intro p chains _ h
    cases p with
    | rule n body =>
      have := h n
      rw [SaveProduction.onChain, if_pos rfl, Option.isSome_map] at this
      rw [SaveProduction.onChains, Option.isSome_map]
      exact this
    | chain n policy => rfl
    | skipped => rfl
    | table n => rfl
    | commit => rfl

/-- The lines of a table that is new, between its header and its commit. -/
theorem run_section (hostMask table : String) {body : List SaveProduction} (hbody : ∀ p ∈ body, p.IsOfChain)
    {tables : Dict String ParsedTable} (hnew : table ∉ tables) :
    runScript (SaveProduction.run hostMask) (.table table :: (body ++ [.commit])) { tables := tables } =
      (runScript (SaveProduction.onChains hostMask) body Dict.empty).map fun chains =>
        { tables := tables.set table { chains := chains } } := by
  have hinner : ∀ chains, runScript (SaveProduction.run hostMask) body
        { tables := tables.set table { chains := chains }, current := some table } =
      (runScript (SaveProduction.onChains hostMask) body chains).map fun chains =>
        { tables := tables.set table { chains := chains }, current := some table } := by
    induction body with
    | nil => exact fun _ => rfl
    | cons p body ih =>
      obtain ⟨hp, hbody⟩ := List.forall_mem_cons.1 hbody
      intro chains
      have hstep : p.run hostMask { tables := tables.set table { chains := chains }, current := some table } =
          (p.onChains hostMask chains).map fun chains =>
            { tables := tables.set table { chains := chains }, current := some table } := by
        rcases hp with ⟨n, policy, rfl⟩ | ⟨n, body, rfl⟩ <;>
          simp only [SaveProduction.run, SaveState.onChains, Option.bind_some, Dict.get?_set_self, Option.getD_some, Dict.set_set]
      rw [runScript_cons, runScript_cons, hstep]
      cases p.onChains hostMask chains with
      | none => rfl
      | some chains' => exact ih hbody chains'
  have hheader : SaveProduction.run hostMask (.table table) { tables := tables } =
      some { tables := tables.set table {}, current := some table } := if_neg (by simp [hnew])
  rw [runScript_cons, hheader, Option.bind_some, runScript_append, hinner Dict.empty]
  cases runScript (SaveProduction.onChains hostMask) body Dict.empty <;> rfl

/-! ## What a save says -/

/-- The part of the ruleset read before that a table's section copies from. -/
def DomainInfo.tableSave (info : DomainInfo) (table : String) (tableInfo : TableInfo) : List Char :=
  if tableInfo.preserveRegexes ≠ [] ∨ tableInfo.chains.entries.any fun e => e.2.preserve then
    Except.getD (extractTableFromSave (info.previous.getD "") table) []
  else []

/-- The chains of a table, with those that a preserve pattern finds. -/
def TableInfo.allChains (info : TableInfo) (tableSave : List Char) : Dict String ChainInfo :=
  Dict.merge (fun v _ => v) (if info.preserveRegexes = [] then Dict.empty else resolveDynamicPreserve info tableSave) info.chains

/-- The policy of a chain's entry. -/
def SaveEntry.policy : SaveEntry → String
  | chain _ policy => policy
  | saved line => String.ofList ((pyWords line.toList).getD 1 [])
  | _ => ""

/-- What stands behind the chain in a rule's entry. -/
def SaveEntry.ruleText (name : String) (x : SaveEntry) : List Char := x.chars.drop (name.length + 3)

/-- The entries of a chain's rules, none when they cannot be written. -/
def emittedRules (domain : Family) (tableSave : List Char) (flush : Bool) (name : String) (ci : ChainInfo) : List SaveEntry :=
  Except.getD (ruleEntries domain tableSave name ci flush) []

/-- What a reader should find for a chain, if it is written: its policy, and one rule for each of its entries. -/
def recoveredChain (hostMask : String) (domain : Family) (tableSave : List Char) (flush : Bool) (table name : String)
    (ci : ChainInfo) : Option ParsedChain :=
  (chainEntry table tableSave name ci flush).map fun x =>
    ⟨[x.policy], (emittedRules domain tableSave flush name ci).map fun r => canonicalizeRule hostMask (recordedBody (r.ruleText name))⟩

section Chains

variable (hostMask : String) (domain : Family) (tableSave : List Char) (flush : Bool) (table : String)

/-- What the line of a chain is read as. -/
def chainProductions (e : String × ChainInfo) : List SaveProduction :=
  ((chainEntry table tableSave e.1 e.2 flush).map fun x => SaveProduction.chain e.1 x.policy).toList

/-- What the lines of a chain's rules are read as. -/
def ruleProductions (e : String × ChainInfo) : List SaveProduction :=
  (emittedRules domain tableSave flush e.1 e.2).map fun x => .rule e.1 (recordedBody (x.ruleText e.1))

/-- The lines of a table from the point of view of one chain. -/
theorem runScript_productions (chains : Dict String ChainInfo) (name : String)
    (hdeclared : ∀ ci, chains.get? name = some ci → chainEntry table tableSave name ci flush = none →
      emittedRules domain tableSave flush name ci = []) :
    runScript (SaveProduction.onChain hostMask name)
        (chains.entries.flatMap (chainProductions tableSave flush table) ++
          chains.entries.flatMap (ruleProductions domain tableSave flush)) none =
      some ((chains.get? name).bind (recoveredChain hostMask domain tableSave flush table name)) := by
  have hrules : ∀ (ps : List SaveEntry) (c : ParsedChain),
      runScript (SaveProduction.onChain hostMask name) (ps.map fun x => .rule name (recordedBody (x.ruleText name))) (some c) =
        some (some { c with rules := c.rules ++ ps.map fun x => canonicalizeRule hostMask (recordedBody (x.ruleText name)) }) := by
    intro ps
    induction ps with
    | nil => simp
    | cons p ps ih =>
      intro c
      rw [List.map_cons, runScript_cons, SaveProduction.onChain, if_pos rfl, Option.map_some, Option.bind_some, ih]
      simp [ParsedChain.addRule]
  have hchainWalk : ∀ v, runScript (SaveProduction.onChain hostMask name)
        (chains.entries.flatMap (chainProductions tableSave flush table)) v =
      runScript (SaveProduction.onChain hostMask name)
        (((chains.get? name).map fun ci => chainProductions tableSave flush table (name, ci)).getD []) v := by
    refine runScript_walk chains fun e he p hp v => ?_
    obtain ⟨x, -, rfl⟩ := Option.map_eq_some_iff.1 (Option.mem_toList.1 hp)
    exact if_neg he
  have hruleWalk : ∀ v, runScript (SaveProduction.onChain hostMask name)
        (chains.entries.flatMap (ruleProductions domain tableSave flush)) v =
      runScript (SaveProduction.onChain hostMask name)
        (((chains.get? name).map fun ci => ruleProductions domain tableSave flush (name, ci)).getD []) v := by
    refine runScript_walk chains fun e he p hp v => ?_
    obtain ⟨x, -, rfl⟩ := List.mem_map.1 hp
    exact if_neg he
  rw [runScript_append, hchainWalk]
  simp only [hruleWalk]
  cases hci : chains.get? name with
  | none => rfl
  | some ci =>
    simp only [Option.map_some, Option.getD_some, Option.bind_some, chainProductions, ruleProductions, recoveredChain]
    cases hentry : chainEntry table tableSave name ci flush with
    | none =>
      rw [hdeclared ci hci hentry]
      rfl
    | some x =>
      simp only [Option.map_some, Option.toList_some, runScript_cons, SaveProduction.onChain, if_true, runScript_nil,
        Option.bind_some, hrules, List.nil_append]

/-- The lines of a table are read as its chains. -/
theorem run_productions (chains : Dict String ChainInfo)
    (hdeclared : ∀ name ci, chains.get? name = some ci → chainEntry table tableSave name ci flush = none →
      emittedRules domain tableSave flush name ci = []) :
    ∃ parsed, runScript (SaveProduction.onChains hostMask)
        (chains.entries.flatMap (chainProductions tableSave flush table) ++
          chains.entries.flatMap (ruleProductions domain tableSave flush)) Dict.empty = some parsed ∧
      ∀ name, parsed.get? name = (chains.get? name).bind (recoveredChain hostMask domain tableSave flush table name) := by
  have hlocal := fun name => runScript_productions hostMask domain tableSave flush table chains name (hdeclared name)
  obtain ⟨parsed, hparsed⟩ := Option.isSome_iff_exists.1 ((pointwise_production hostMask).run_complete
    (s := Dict.empty) (fun _ _ => trivial) fun name => by
      rw [Dict.get?_empty, hlocal name]
      rfl)
  refine ⟨parsed, hparsed, fun name => Option.some.inj ?_⟩
  rw [← hlocal name]
  exact ((pointwise_production hostMask).run_sound (fun _ _ => trivial) hparsed name).symm

end Chains

/-! ## Texts of lines -/

/-- A text of lines, each ended. -/
def endLines (lines : List (List Char)) : List Char := lines.flatMap fun line => line ++ ['\n']

theorem endLines_cons (line : List Char) (lines : List (List Char)) : endLines (line :: lines) = line ++ '\n' :: endLines lines := by
  rw [endLines, List.flatMap_cons, List.append_assoc]
  rfl

theorem endLines_append (lines lines' : List (List Char)) : endLines (lines ++ lines') = endLines lines ++ endLines lines' :=
  List.flatMap_append

namespace SaveSearch

/-- The lines of a text of lines. -/
theorem endedLines_endLines {lines : List (List Char)} (h : ∀ line ∈ lines, '\n' ∉ line) : endedLines (endLines lines) = lines := by
  have hsplit : (endLines lines).splitOn '\n' = lines ++ [[]] := by
    induction lines with
    | nil => rfl
    | cons line lines ih =>
      rw [endLines_cons, List.splitOn_append_cons_self, List.splitOn_eq_singleton (h line List.mem_cons_self),
        ih fun l hl => h l (List.mem_cons_of_mem _ hl)]
      rfl
  rw [endedLines, hsplit, List.dropLast_concat]

end SaveSearch

/-- The name of a chain as `iptables-save` writes it, up to the blank that ends it. -/
structure IsSavedName (name : List Char) : Prop where
  ne_nil : name ≠ []
  no_blank : ' ' ∉ name
  no_break : '\n' ∉ name

theorem IsWord.isSavedName {name : List Char} (h : IsWord name) : IsSavedName name where
  ne_nil := h.1
  no_blank := h.no_blank
  no_break := fun hbreak => absurd (h.2 _ hbreak) (by decide)

namespace SaveSearch

/-- Up to the end of a line no name is found after its start. -/
theorem declaredNames_line {line : List Char} (h : '\n' ∉ line) (text : List Char) (fuel : Nat) :
    declaredNames (line.length + 1 + fuel) false (line ++ '\n' :: text) = declaredNames fuel true text := by
  induction line with
  | nil =>
    rw [List.length_nil, Nat.zero_add, Nat.add_comm, List.nil_append, declaredNames]
    simp
  | cons c line ih =>
    have hc : c ≠ '\n' := fun hc => h (hc ▸ List.mem_cons_self)
    rw [List.length_cons, show line.length + 1 + 1 + fuel = (line.length + 1 + fuel) + 1 by omega, List.cons_append, declaredNames]
    simp [hc, ih fun hmem => h (List.mem_cons_of_mem _ hmem)]

/-- A line that does not begin with a colon declares no chain. -/
theorem declaredNames_other {line : List Char} (h : '\n' ∉ line) (hcolon : line.head? ≠ some ':') (text : List Char) (fuel : Nat) :
    declaredNames (line.length + 1 + fuel) true (line ++ '\n' :: text) = declaredNames fuel true text := by
  rw [← declaredNames_line h text fuel, show line.length + 1 + fuel = (line.length + fuel) + 1 by omega]
  cases line with
  | nil => simp [declaredNames]
  | cons c line =>
    have hc : c ≠ ':' := fun hc => hcolon (by rw [hc]; rfl)
    simp [declaredNames, hc]

/-- The line of a chain declares it. -/
theorem declaredNames_chain {name rest : List Char} (hname : IsSavedName name) (hrest : '\n' ∉ rest) (text : List Char) (fuel : Nat) :
    declaredNames (fuel + 2) true (':' :: (name ++ ' ' :: rest) ++ '\n' :: text) = name :: declaredNames fuel true text := by
  have htake : (name ++ (' ' :: rest ++ '\n' :: text)).takeWhile (decide <| · ≠ ' ') = name := by
    rw [List.takeWhile_append_of_pos, List.cons_append, List.takeWhile_cons_of_neg (by decide), List.append_nil]
    intro b hb
    exact decide_eq_true fun hblank => hname.no_blank (hblank ▸ hb)
  have hdrop : (' ' :: rest ++ '\n' :: text).dropWhile (decide <| · ≠ '\n') = '\n' :: text := by
    rw [List.dropWhile_append_of_pos, List.dropWhile_cons_of_neg (by decide)]
    intro b hb
    refine decide_eq_true fun hbreak => ?_
    subst hbreak
    exact (List.mem_cons.1 hb).elim (by decide) hrest
  rw [List.cons_append, List.append_assoc, declaredNames]
  simp only [htake, List.drop_left, hdrop]
  rw [if_pos]
  · rw [declaredNames]
    simp
  · simp [hname.ne_nil]

end SaveSearch

/-! ## What the emitted lines are read as -/

/-- A chain's line as `iptables-save` writes it: the chain, its policy and its counters. -/
def IsChainLine (line : List Char) : Prop :=
  ∃ name policy counters, IsSavedName name ∧ IsWord policy ∧ IsWord counters ∧
    line = ':' :: (name ++ ' ' :: (policy ++ ' ' :: counters))

/-- The body of a table as `iptables-save` writes it: every line ended, whole lines of chains, and no rule of a chain that has no
line. -/
structure SavedBody (body : List Char) : Prop where
  lines : ∃ lines, (∀ line ∈ lines, '\n' ∉ line) ∧ body = endLines lines
  chains : ∀ line ∈ SaveSearch.endedLines body, line.head? = some ':' → IsChainLine line
  declared : ∀ name, IsSavedName name.toList → extractChainFromTableSave body name ≠ [] → (savedChainLine body name).isSome = true

/-- A name that is declared is that of a chain's line. -/
theorem SaveSearch.exists_line_of_declaredNames {lines : List (List Char)} (hbreak : ∀ line ∈ lines, '\n' ∉ line)
    (hchains : ∀ line ∈ lines, line.head? = some ':' → IsChainLine line) {fuel : Nat} (hfuel : (endLines lines).length < fuel)
    {name : List Char} (h : name ∈ declaredNames fuel true (endLines lines)) :
    IsSavedName name ∧ ∃ rest, ':' :: (name ++ ' ' :: rest) ∈ lines := by
  induction lines generalizing fuel with
  | nil =>
    obtain ⟨fuel, rfl⟩ := Nat.exists_eq_add_of_lt hfuel
    cases h
  | cons line lines ih =>
    obtain ⟨hline, hbreak⟩ := List.forall_mem_cons.1 hbreak
    obtain ⟨hchain, hchains⟩ := List.forall_mem_cons.1 hchains
    rw [endLines_cons] at hfuel h
    rw [List.length_append, List.length_cons] at hfuel
    have hrest : ∀ fuel, (endLines lines).length < fuel → name ∈ declaredNames fuel true (endLines lines) →
        IsSavedName name ∧ ∃ rest, ':' :: (name ++ ' ' :: rest) ∈ line :: lines := by
      intro fuel hfuel hmem
      obtain ⟨hname, rest, hrest⟩ := ih hbreak hchains hfuel hmem
      exact ⟨hname, rest, List.mem_cons_of_mem _ hrest⟩
    by_cases hcolon : line.head? = some ':'
    · obtain ⟨n, policy, counters, hn, hpolicy, hcounters, rfl⟩ := hchain hcolon
      obtain ⟨further, rfl⟩ := Nat.exists_eq_add_of_le' (show 2 ≤ fuel by rw [List.length_cons] at hfuel; omega)
      rw [declaredNames_chain hn] at h
      · rcases List.mem_cons.1 h with rfl | h
        · exact ⟨hn, _, List.mem_cons_self⟩
        · exact hrest further (by rw [List.length_cons] at hfuel; omega) h
      · simp only [List.mem_append, List.mem_cons, not_or]
        exact ⟨hpolicy.isSavedName.no_break, by decide, hcounters.isSavedName.no_break⟩
    · obtain ⟨further, rfl⟩ := Nat.exists_eq_add_of_le (show line.length + 1 ≤ fuel by omega)
      rw [declaredNames_other hline hcolon] at h
      exact hrest further (by omega) h

/-- The line of a chain that is found in a body. -/
theorem SavedBody.isSome_savedChainLine {body : List Char} (h : SavedBody body) {name : List Char}
    (hname : name ∈ SaveSearch.declaredNames (body.length + 1) true body) :
    IsSavedName name ∧ (savedChainLine body (String.ofList name)).isSome = true := by
  obtain ⟨lines, hbreak, rfl⟩ := h.lines
  have hended := SaveSearch.endedLines_endLines hbreak
  obtain ⟨hsaved, rest, hline⟩ := SaveSearch.exists_line_of_declaredNames hbreak (hended ▸ h.chains) (Nat.lt_succ_self _) hname
  refine ⟨hsaved, List.find?_isSome.2 ⟨_, hended.symm ▸ hline, ?_⟩⟩
  rw [List.isPrefixOf_iff_prefix]
  exact ⟨rest, by simp⟩

/-- A text that is empty or begins with a blank. -/
def BeginsBlank (text : List Char) : Prop := text = [] ∨ text.head? = some ' '

theorem BeginsBlank.append_right {a : List Char} (h : a.head? = some ' ') (b : List Char) : BeginsBlank (a ++ b) := by
  obtain ⟨rest, rfl⟩ := List.head?_eq_some_iff.1 h
  exact .inr rfl

theorem BeginsBlank.append {a b : List Char} (ha : BeginsBlank a) (hb : BeginsBlank b) : BeginsBlank (a ++ b) := by
  rcases ha with rfl | ha
  · exact hb
  · exact BeginsBlank.append_right ha b

theorem BeginsBlank.flatMap {α : Type} {f : α → List Char} {l : List α} (h : ∀ a ∈ l, BeginsBlank (f a)) :
    BeginsBlank (l.flatMap f) := by
  induction l with
  | nil => exact .inl rfl
  | cons a l ih =>
    obtain ⟨ha, hl⟩ := List.forall_mem_cons.1 h
    exact ha.append (ih hl)

theorem beginsBlank_unwrapNegation (value : Value) : BeginsBlank value.unwrapNegation.2.toList := by
  have hsign : value.unwrapNegation.2 = "" ∨ value.unwrapNegation.2 = " !" := by
    cases value with
    | negated v => cases v <;> exact .inr rfl
    | preNegated v => cases v <;> exact .inr rfl
    | _ => exact .inl rfl
  rcases hsign with h | h <;> rw [h]
  · exact .inl (by decide)
  · exact .inr (by decide)

/-- An option's text begins with a blank. -/
theorem beginsBlank_shellFormatOption {keyword : String} {value : Value} {fast : Bool} {text : String}
    (h : shellFormatOption keyword value fast = .ok text) : BeginsBlank text.toList := by
  have hcmd := beginsBlank_unwrapNegation value
  have hdashes : ∀ rest : List Char, BeginsBlank (" --".toList ++ rest) := fun rest =>
    BeginsBlank.append_right (by decide) rest
  unfold shellFormatOption at h
  revert h
  cases value.unwrapNegation.1 with
  | undef =>
    rintro ⟨⟩
    simp only [String.toList_append, List.append_assoc]
    exact hcmd.append (hdashes _)
  | scalar t =>
    rintro ⟨⟩
    simp only [String.toList_append, List.append_assoc]
    exact hcmd.append (hdashes _)
  | params values =>
    intro h
    simp only at h
    cases hm : values.mapM Value.scalarText with
    | error e =>
      rw [hm] at h
      cases h
    | ok texts =>
      rw [hm] at h
      cases h
      simp only [String.toList_append, List.append_assoc]
      exact hcmd.append (hdashes _)
  | multi values =>
    intro h
    simp only at h
    cases hm : values.mapM Value.scalarText with
    | error e =>
      rw [hm] at h
      cases h
    | ok texts =>
      rw [hm] at h
      cases h
      rw [String.toList_append, String.toList_join]
      refine hcmd.append (BeginsBlank.flatMap fun t ht => ?_)
      obtain ⟨t, -, rfl⟩ := List.mem_map.1 ht
      simp only [String.toList_append, List.append_assoc]
      exact hdashes _
  | setRef name elements => exact fun h => by cases h
  | array values => exact fun h => by cases h
  | negated v => exact fun h => by cases h
  | preNegated v => exact fun h => by cases h
  | deferred f params => exact fun h => by cases h

theorem beginsBlank_formatRule {domain : Family} {rule : RenderedRule} {fast : Bool} {text : String}
    (h : formatRule domain rule fast = .ok text) : BeginsBlank text.toList := by
  unfold formatRule at h
  cases hm : rule.options.mapM fun o => formatOption domain o.name o.value fast with
  | error e =>
    rw [hm] at h
    cases h
  | ok texts =>
    rw [hm] at h
    cases h
    rw [String.toList_join]
    refine BeginsBlank.flatMap fun t ht => ?_
    obtain ⟨o, -, ho⟩ := (mem_mapM_ok_iff hm).1 ht
    unfold formatOption at ho
    split at ho <;> exact beginsBlank_shellFormatOption ho

/-- What is written for a chain without a break: its name is one word, and so is its policy. -/
def IsSafeChain (name : String) (ci : ChainInfo) : Prop :=
  IsWord name.toList ∧ ∀ policy, ci.policy = some policy → policy ∈ CORE_TARGETS ∨ policy = "-"

theorem safe_of_validateChain {name : String} {ci : ChainInfo} (h : validateChain name ci = .ok ()) : IsSafeChain name ci := by
  unfold validateChain validateIptName at h
  split at h
  · rename_i hname
    refine ⟨isWord_of_isIptName hname, fun policy hpolicy => ?_⟩
    rw [hpolicy] at h
    by_contra hno
    simp only [validatePolicy, if_neg hno] at h
    cases h
  · cases h

theorem validateNames_ok {info : DomainInfo} (h : validateNames info = .ok ()) {table : String} {tableInfo : TableInfo}
    (ht : info.tables.get? table = some tableInfo) :
    isIptName table = true ∧ ∀ name ci, tableInfo.chains.get? name = some ci → IsSafeChain name ci := by
  have hall := forM_ok_iff.1 h (table, tableInfo) (Dict.get?_eq_some_iff.1 ht)
  simp only [validateIptName] at hall
  split at hall
  · rename_i htable
    refine ⟨htable, fun name ci hci => safe_of_validateChain ?_⟩
    exact forM_ok_iff.1 hall (name, ci) (Dict.get?_eq_some_iff.1 hci)
  · cases hall

/-- A policy that is written is one word. -/
theorem isWord_policy {policy : String} (h : policy ∈ CORE_TARGETS ∨ policy = "-") : IsWord policy.toList := by
  have hall : ∀ p ∈ "-" :: CORE_TARGETS, isIptName p = true := by decide
  exact isWord_of_isIptName (hall policy (h.elim (List.mem_cons_of_mem _) fun h => h ▸ List.mem_cons_self))

/-- What the patterns of a table find. -/
theorem get?_resolveDynamicPreserve_eq (info : TableInfo) (tableSave : List Char) (name : String) :
    (resolveDynamicPreserve info tableSave).get? name =
      if name ∉ info.chains ∧ (info.preserveRegexes.any fun regex => regex name) = true ∧
          name.toList ∈ SaveSearch.declaredNames (tableSave.length + 1) true tableSave then
        some { preserve := true }
      else none := by
  have hfold : ∀ (names : List (List Char)) (added : Dict String ChainInfo),
      (names.foldl (fun added n =>
        let chain := String.ofList n
        if chain ∈ info.chains then added
        else if info.preserveRegexes.any fun regex => regex chain then added.set chain { preserve := true }
        else added) added).get? name =
      if name ∉ info.chains ∧ (info.preserveRegexes.any fun regex => regex name) = true ∧ name.toList ∈ names then
        some { preserve := true }
      else added.get? name := by
    intro names
    induction names with
    | nil => simp
    | cons n names ih =>
      intro added
      rw [List.foldl_cons, ih]
      simp only [List.mem_cons]
      by_cases hn : name.toList = n
      · subst hn
        simp only [String.ofList_toList, true_or, and_true]
        by_cases hknown : name ∈ info.chains
        · simp only [hknown, not_true_eq_false, false_and, if_false, if_true]
        · by_cases hany : (info.preserveRegexes.any fun regex => regex name) = true
          · simp only [hknown, hany, not_false_eq_true, true_and, if_true, if_false, Dict.get?_set_self, ite_self, and_self]
          · simp only [hany, false_and, and_false, if_false, Bool.false_eq_true]
            split <;> rfl
      · have hne : name ≠ String.ofList n := fun h => hn (by rw [h, String.toList_ofList])
        simp only [hn, false_or]
        congr 1
        split
        · rfl
        · split
          · exact Dict.get?_set_of_ne _ _ hne
          · rfl
  rw [resolveDynamicPreserve, hfold, Dict.get?_empty]

/-- A chain that a preserve pattern finds has a saved name, and neither policy nor rules. -/
theorem get?_resolveDynamicPreserve {info : TableInfo} {tableSave : List Char} {name : String} {ci : ChainInfo}
    (h : (resolveDynamicPreserve info tableSave).get? name = some ci) :
    (∃ n ∈ SaveSearch.declaredNames (tableSave.length + 1) true tableSave, name = String.ofList n) ∧ ci.policy = none := by
  rw [get?_resolveDynamicPreserve_eq] at h
  split at h
  · rename_i hfound
    obtain rfl := Option.some.inj h
    exact ⟨⟨name.toList, hfound.2.2, String.ofList_toList.symm⟩, rfl⟩
  · cases h

/-- The chains of a section: those of the table, and those that are found. -/
theorem get?_allChains_cases {info : TableInfo} {tableSave : List Char} {name : String} {ci : ChainInfo}
    (h : (info.allChains tableSave).get? name = some ci) :
    info.chains.get? name = some ci ∨ (resolveDynamicPreserve info tableSave).get? name = some ci := by
  rw [TableInfo.allChains, Dict.get?_merge, Option.map_id'] at h
  rcases Option.or_eq_some_iff.1 h with h | ⟨-, h⟩
  · split at h
    · rw [Dict.get?_empty] at h
      cases h
    · exact .inr h
  · exact .inl h

/-- The chains of a section have safe names and policies, if no name has a blank in it. -/
theorem safe_allChains {info : TableInfo} {tableSave : List Char} (hsafe : ∀ name ci, info.chains.get? name = some ci → IsSafeChain name ci)
    (hsaved : SavedBody tableSave) {name : String} (hblank : ∀ c ∈ name.toList, isPySpace c = false) {ci : ChainInfo}
    (h : (info.allChains tableSave).get? name = some ci) : IsSafeChain name ci := by
  rcases get?_allChains_cases h with h | h
  · exact hsafe name ci h
  · obtain ⟨⟨n, hn, rfl⟩, hpolicy⟩ := get?_resolveDynamicPreserve h
    obtain ⟨hname, -⟩ := hsaved.isSome_savedChainLine hn
    rw [String.toList_ofList] at hblank
    refine ⟨?_, fun policy hp => by rw [hpolicy] at hp; cases hp⟩
    rw [String.toList_ofList]
    exact ⟨hname.ne_nil, hblank⟩

private theorem isWord_counters : IsWord "[0:0]".toList := ⟨by decide, forall_eq_false (by decide)⟩

/-- Where a blank ends two names, the names are one. -/
theorem eq_of_append_blank {a b s t : List Char} (ha : ' ' ∉ a) (hb : ' ' ∉ b) (h : a ++ ' ' :: s = b ++ ' ' :: t) : a = b := by
  have htake : ∀ {x r : List Char}, ' ' ∉ x → (x ++ ' ' :: r).takeWhile (· ≠ ' ') = x := by
    intro x r hx
    have hall : ∀ c ∈ x, decide (c ≠ ' ') = true := by
      intro c hc
      rw [decide_eq_true_iff]
      rintro rfl
      exact hx hc
    rw [List.takeWhile_append_of_pos hall, List.takeWhile_cons, if_neg (by decide), List.append_nil]
  rw [← htake ha, h, htake hb]

/-- The line of a chain: its name, its policy and counters. -/
theorem chars_chainEntry {table : String} {tableSave : List Char} (hsaved : SavedBody tableSave) {name : String}
    {ci : ChainInfo} (hsafe : IsSafeChain name ci) {flush : Bool} {x : SaveEntry}
    (h : chainEntry table tableSave name ci flush = some x) :
    x.isComment = false ∧ ∃ policy counters, IsWord policy ∧ IsWord counters ∧ x.policy = String.ofList policy ∧
      x.chars = ':' :: (name.toList ++ ' ' :: (policy ++ ' ' :: counters)) := by
  have hname := hsafe.1
  have hstated : ∀ policy, policy ∈ CORE_TARGETS ∨ policy = "-" → (SaveEntry.chain name policy).isComment = false ∧
      ∃ p c, IsWord p ∧ IsWord c ∧ (SaveEntry.chain name policy).policy = String.ofList p ∧
        (SaveEntry.chain name policy).chars = ':' :: (name.toList ++ ' ' :: (p ++ ' ' :: c)) := fun policy hpolicy =>
    ⟨rfl, policy.toList, "[0:0]".toList, isWord_policy hpolicy, isWord_counters, String.ofList_toList.symm, by simp [SaveEntry.chars]⟩
  unfold chainEntry at h
  split at h
  · rename_i line hline
    cases h
    obtain ⟨-, hline⟩ : ci.preserve = true ∧ savedChainLine tableSave name = some line := by
      split at hline
      · exact ⟨‹_›, hline⟩
      · cases hline
    obtain ⟨rest, hrest⟩ := List.isPrefixOf_iff_prefix.1 (List.find?_some hline)
    obtain ⟨n, p, c, hn, hp, hc, rfl⟩ := hsaved.chains line (List.mem_of_find?_eq_some hline) (by rw [← hrest]; simp)
    obtain rfl : name.toList = n := by
      simp only [String.toList_append, List.append_assoc] at hrest
      exact eq_of_append_blank hname.no_blank hn.no_blank (List.cons.inj hrest).2
    refine ⟨rfl, p, c, hp, hc, ?_, by simp [SaveEntry.chars]⟩
    have hword : IsWord (':' :: name.toList) := ⟨List.cons_ne_nil _ _, List.forall_mem_cons.2 ⟨by decide, hname.2⟩⟩
    rw [SaveEntry.policy, String.toList_ofList, ← List.cons_append, pyWords_cons hword (by decide), pyWords_cons hp (by decide)]
    rfl
  · unfold policyEntry at h
    split at h
    · rename_i policy hpolicy
      cases h
      split at hpolicy
      · cases hpolicy
      · exact hstated policy (hsafe.2 policy hpolicy)
    · split at h
      · cases h
        exact hstated "ACCEPT" (.inl (by decide))
      · split at h
        · cases h
        · cases h
          exact hstated "-" (.inr rfl)

/-- The line of a chain is read as the chain, and is whole. -/
theorem isReadAs_chainEntry {table : String} {tableSave : List Char} (hsaved : SavedBody tableSave) {name : String}
    {ci : ChainInfo} (hsafe : IsSafeChain name ci) {flush : Bool} {x : SaveEntry}
    (h : chainEntry table tableSave name ci flush = some x) : IsReadAs x (.chain name x.policy) ∧ IsWhole x.chars := by
  have hname := hsafe.1
  obtain ⟨hcomment, policy, counters, hpolicy, hcounters, hxpolicy, hchars⟩ := chars_chainEntry hsaved hsafe h
  refine ⟨⟨?_, iff_of_false (by rw [hcomment]; exact Bool.false_ne_true) fun h => by cases h⟩, ?_⟩
  · rw [hchars, readSaveLine_chain hname hpolicy hcounters, hxpolicy, String.ofList_toList]
  · refine isWhole_of_no_boundary ?_
    rw [hchars]
    simp only [List.forall_mem_cons, List.forall_mem_append]
    exact ⟨by decide, hname.no_boundary, by decide, hpolicy.no_boundary, by decide, hcounters.no_boundary⟩

/-- A rule's entry: its line is the chain and a text that begins with a blank. -/
theorem chars_of_mem_ruleEntries {domain : Family} {tableSave : List Char} {name : String} {ci : ChainInfo} {flush : Bool}
    {entries : List SaveEntry} (h : ruleEntries domain tableSave name ci flush = .ok entries) {x : SaveEntry} (hx : x ∈ entries) :
    x.isComment = false ∧ ∃ text, BeginsBlank text ∧ x.chars = '-' :: 'A' :: ' ' :: (name.toList ++ text) := by
  have hsaved : ∀ x ∈ (if ci.preserve = true then
        (extractChainFromTableSave tableSave name).map fun line => SaveEntry.saved (String.ofList line) else []),
      x.isComment = false ∧ ∃ text, BeginsBlank text ∧ x.chars = '-' :: 'A' :: ' ' :: (name.toList ++ text) := by
    intro x hx
    split at hx
    · obtain ⟨line, hline, rfl⟩ := List.mem_map.1 hx
      obtain ⟨rest, rfl⟩ := List.isPrefixOf_iff_prefix.1 (List.mem_filter.1 hline).2
      exact ⟨rfl, ' ' :: rest, .inr rfl, by simp [SaveEntry.chars]⟩
    · cases hx
  unfold ruleEntries at h
  cases flush with
  | true =>
    obtain rfl := Except.ok.inj h
    exact hsaved x hx
  | false =>
    cases hm : ci.rules.mapM fun rule => formatRule domain rule true with
    | error e =>
      rw [hm] at h
      cases h
    | ok texts =>
      rw [hm] at h
      obtain rfl := Except.ok.inj h
      rcases List.mem_append.1 hx with hx | hx
      · exact hsaved x hx
      · obtain ⟨text, htext, rfl⟩ := List.mem_map.1 hx
        obtain ⟨rule, -, hrule⟩ := (mem_mapM_ok_iff hm).1 htext
        exact ⟨rfl, text.toList, beginsBlank_formatRule hrule, by simp [SaveEntry.chars]⟩

/-- The line of a rule is read as a rule of its chain. -/
theorem isReadAs_ruleEntry {domain : Family} {tableSave : List Char} {name : String} (hname : IsWord name.toList)
    {ci : ChainInfo} {flush : Bool} {entries : List SaveEntry} (h : ruleEntries domain tableSave name ci flush = .ok entries)
    {x : SaveEntry} (hx : x ∈ entries) : IsReadAs x (.rule name (recordedBody (x.ruleText name))) := by
  obtain ⟨hcomment, text, htext, hchars⟩ := chars_of_mem_ruleEntries h hx
  have hruleText : x.ruleText name = text := by
    rw [SaveEntry.ruleText, hchars, List.drop_succ_cons, List.drop_succ_cons, List.drop_succ_cons, ← String.length_toList,
      List.drop_left]
  refine ⟨?_, iff_of_false (by rw [hcomment]; exact Bool.false_ne_true) fun h => by cases h⟩
  rw [hchars, readSaveLine_rule hname htext, hruleText, String.ofList_toList]

/-! ## Sections and texts -/

section Sections

variable (domain : Family) (info : DomainInfo) (options : IptablesOptions) (e : String × TableInfo)

/-- The chains of a table's section, by name. -/
def sectionChains : Dict String ChainInfo := (e.2.allChains (info.tableSave e.1 e.2)).sorted

/-- The entries of a table's section. -/
def sectionEntries : List SaveEntry :=
  .table e.1 :: ((sectionChains info e).entries.flatMap
      (fun c => (chainEntry e.1 (info.tableSave e.1 e.2) c.1 c.2 options.flush).toList) ++
    (sectionChains info e).entries.flatMap
      (fun c => emittedRules domain (info.tableSave e.1 e.2) options.flush c.1 c.2) ++ [.commit])

/-- What the section of a table is read as. -/
def sectionProductions : List SaveProduction :=
  .table e.1 :: ((sectionChains info e).entries.flatMap (chainProductions (info.tableSave e.1 e.2) options.flush e.1) ++
    (sectionChains info e).entries.flatMap (ruleProductions domain (info.tableSave e.1 e.2) options.flush) ++ [.commit])

/-- The rules of a table's section can be written. -/
def SectionFormats : Prop :=
  ∀ c ∈ (sectionChains info e).entries, ∃ r, ruleEntries domain (info.tableSave e.1 e.2) c.1 c.2 options.flush = .ok r

end Sections

/-- The section of a table that is written. -/
theorem tableSection_entries {domain : Family} {info : DomainInfo} {options : IptablesOptions} {e : String × TableInfo}
    {entries : List SaveEntry} (h : tableSection domain info options e.1 e.2 = .ok entries) :
    SectionFormats domain info options e ∧ entries = sectionEntries domain info options e := by
  have hrest : ∀ tableSave, info.tableSave e.1 e.2 = tableSave →
      (do
        let chains := (e.2.allChains tableSave).sorted
        let rules ← chains.entries.mapM fun c => ruleEntries domain tableSave c.1 c.2 options.flush
        return SaveEntry.table e.1 :: chains.entries.flatMap
          (fun c => (chainEntry e.1 tableSave c.1 c.2 options.flush).toList) ++ rules.flatten ++ [.commit] :
        Except FermError (List SaveEntry)) = .ok entries →
      SectionFormats domain info options e ∧ entries = sectionEntries domain info options e := by
    rintro _ rfl hrules
    have := (mapM_spec_ok_iff fun _ _ _ => Except.eq_ok_iff_getD []).1 hrules
    rw [← List.flatMap_def] at this
    exact this
  unfold tableSection at h
  simp only at h
  split at h
  · rename_i hneeded
    cases hx : extractTableFromSave (info.previous.getD "") e.1 with
    | error err =>
      rw [hx] at h
      cases h
    | ok tableSave =>
      rw [hx] at h
      exact hrest tableSave (by rw [DomainInfo.tableSave, if_pos hneeded, hx]; rfl) h
  · rename_i hneeded
    exact hrest [] (if_neg hneeded) h

/-- The lines of a chain's rules are whole when those that are copied and those that are formatted are. -/
theorem isWhole_emittedRules_iff {domain : Family} {tableSave : List Char} {name : String} (hname : IsWord name.toList)
    {ci : ChainInfo} {flush : Bool} (h : ∃ r, ruleEntries domain tableSave name ci flush = .ok r) :
    (∀ x ∈ emittedRules domain tableSave flush name ci, IsWhole x.chars) ↔
      (ci.preserve = true → ∀ line ∈ extractChainFromTableSave tableSave name, IsWhole line) ∧
        (flush = false → ∀ rule ∈ ci.rules, ∀ text, formatRule domain rule true = .ok text → IsWhole text.toList) := by
  have hsaved : (∀ x ∈ (if ci.preserve = true then
        (extractChainFromTableSave tableSave name).map fun line => SaveEntry.saved (String.ofList line) else []),
        IsWhole x.chars) ↔
      (ci.preserve = true → ∀ line ∈ extractChainFromTableSave tableSave name, IsWhole line) := by
    split
    · simp [*, SaveEntry.chars]
    · simp [*]
  have hprefix : ∀ c ∈ "-A ".toList ++ name.toList, isLineBoundary c = false := by
    rw [List.forall_mem_append]
    exact ⟨forall_eq_false (by decide), hname.no_boundary⟩
  obtain ⟨r, hr⟩ := h
  rw [emittedRules, hr, Except.getD]
  unfold ruleEntries at hr
  cases flush with
  | true =>
    obtain rfl := Except.ok.inj hr
    rw [hsaved]
    simp
  | false =>
    cases hm : ci.rules.mapM fun rule => formatRule domain rule true with
    | error e =>
      rw [hm] at hr
      cases hr
    | ok texts =>
      rw [hm] at hr
      obtain rfl := Except.ok.inj hr
      rw [List.forall_mem_append, hsaved]
      refine and_congr_right fun _ => ?_
      have hline : ∀ text : String, IsWhole (SaveEntry.rule name text).chars ↔ IsWhole text.toList := by
        intro text
        rw [SaveEntry.chars, SaveEntry.text_rule, String.toList_append, String.toList_append, isWhole_append hprefix]
      simp only [List.forall_mem_map, hline, mem_mapM_ok_iff hm, true_implies]
      refine ⟨fun h rule hrule text htext => h text ⟨rule, hrule, htext⟩, fun h text htext => ?_⟩
      obtain ⟨rule, hrule, htext⟩ := htext
      exact h rule hrule text htext

/-- A chain that is not written has no rules in the save. -/
theorem emittedRules_eq_nil {domain : Family} {tableSave : List Char} (hsaved : SavedBody tableSave) {table name : String}
    (hname : IsWord name.toList) {ci : ChainInfo} {flush : Bool} (h : chainEntry table tableSave name ci flush = none) :
    emittedRules domain tableSave flush name ci = [] := by
  have hnone : (if ci.preserve then savedChainLine tableSave name else none) = none ∧ flush = true := by
    unfold chainEntry at h
    split at h
    · cases h
    · refine ⟨‹_›, ?_⟩
      unfold policyEntry at h
      split at h
      · cases h
      · split at h
        · cases h
        · split at h
          · assumption
          · cases h
  obtain ⟨hline, rfl⟩ := hnone
  have hcopied : ci.preserve = true → extractChainFromTableSave tableSave name = [] := by
    intro hpreserve
    rw [if_pos hpreserve] at hline
    by_contra hne
    have := hsaved.declared name hname.isSavedName hne
    rw [hline] at this
    cases this
  change (if ci.preserve = true then
    (extractChainFromTableSave tableSave name).map fun line => SaveEntry.saved (String.ofList line) else []) = []
  split
  · rw [hcopied ‹_›]
    rfl
  · rfl

section Texts

variable {domain : Family} {info : DomainInfo} {options : IptablesOptions}

/-- The names and policies of a section's chains are safe, and what it copies is a table's body. -/
structure IsSafeSection (info : DomainInfo) (e : String × TableInfo) : Prop where
  table : isIptName e.1 = true
  chains : ∀ c ∈ (sectionChains info e).entries, IsSafeChain c.1 c.2
  saved : SavedBody (info.tableSave e.1 e.2)

theorem safe_section (hnames : validateNames info = .ok ())
    (hsaved : ∀ e ∈ info.tables.entries, SavedBody (info.tableSave e.1 e.2))
    (hblank : ∀ e ∈ info.tables.entries, ∀ c ∈ (e.2.allChains (info.tableSave e.1 e.2)).entries, ∀ b ∈ c.1.toList, isPySpace b = false) :
    ∀ e ∈ info.tables.sorted.entries, IsSafeSection info e := by
  intro e he
  have hget : info.tables.get? e.1 = some e.2 := by
    rw [← Dict.get?_sorted]
    exact Dict.get?_eq_some_iff.2 he
  obtain ⟨htable, hsafe⟩ := validateNames_ok hnames hget
  have hmem := Dict.get?_eq_some_iff.1 hget
  refine ⟨htable, fun c hc => ?_, hsaved e hmem⟩
  have hci := Dict.get?_eq_some_iff.2 hc
  rw [sectionChains, Dict.get?_sorted] at hci
  exact safe_allChains hsafe (hsaved e hmem) (hblank e hmem c (Dict.get?_eq_some_iff.1 hci)) hci

/-- A section is read as its productions. -/
theorem reads_section {e : String × TableInfo} (hsafe : IsSafeSection info e) (hformats : SectionFormats domain info options e) :
    List.Forall₂ IsReadAs (sectionEntries domain info options e) (sectionProductions domain info options e) := by
  have htable : IsReadAs (.table e.1) (.table e.1) := by
    refine ⟨?_, iff_of_false Bool.false_ne_true fun h => by cases h⟩
    have hchars : (SaveEntry.table e.1).chars = '*' :: e.1.toList := by simp [SaveEntry.chars]
    rw [hchars, readSaveLine_table (isWord_of_isIptName hsafe.table), String.ofList_toList]
  have hcommit : IsReadAs .commit .commit := ⟨by decide, iff_of_false Bool.false_ne_true fun h => by cases h⟩
  refine .cons htable (List.rel_append (List.rel_append (forall₂_flatMap fun c hc => ?_) (forall₂_flatMap fun c hc => ?_)) (.cons hcommit .nil))
  · unfold chainProductions
    cases hx : chainEntry e.1 (info.tableSave e.1 e.2) c.1 c.2 options.flush with
    | none => exact .nil
    | some x => exact .cons (isReadAs_chainEntry hsafe.saved (hsafe.chains c hc) hx).1 .nil
  · obtain ⟨r, hr⟩ := hformats c hc
    rw [ruleProductions, emittedRules, hr, Except.getD, List.forall₂_map_right_iff, List.forall₂_same]
    exact fun x hx => isReadAs_ruleEntry (hsafe.chains c hc).1 hr hx

/-- What a section leaves for its table. -/
def IsRecovered (hostMask : String) (domain : Family) (info : DomainInfo) (options : IptablesOptions)
    (e : String × TableInfo) (t : Option ParsedTable) : Prop :=
  ∃ chains, t = some { chains := chains } ∧ ∀ name, chains.get? name =
    ((e.2.allChains (info.tableSave e.1 e.2)).get? name).bind
      (recoveredChain hostMask domain (info.tableSave e.1 e.2) options.flush e.1 name)

/-- Sections of different tables are read one after the other. -/
theorem run_sections (hostMask : String) {es : List (String × TableInfo)} (hsafe : ∀ e ∈ es, IsSafeSection info e)
    (hnodup : (es.map Prod.fst).Nodup) {tables : Dict String ParsedTable} (hnew : ∀ e ∈ es, e.1 ∉ tables) :
    ∃ tables', runScript (SaveProduction.run hostMask) (es.flatMap (sectionProductions domain info options)) { tables := tables } =
        some { tables := tables' } ∧
      (∀ e ∈ es, IsRecovered hostMask domain info options e (tables'.get? e.1)) ∧
        ∀ table, table ∉ es.map Prod.fst → tables'.get? table = tables.get? table := by
  induction es generalizing tables with
  | nil => exact ⟨tables, rfl, fun e he => absurd he List.not_mem_nil, fun _ _ => rfl⟩
  | cons e es ih =>
    obtain ⟨he, hes⟩ := List.forall_mem_cons.1 hsafe
    obtain ⟨henew, hesnew⟩ := List.forall_mem_cons.1 hnew
    obtain ⟨hnot, hnodup⟩ := List.nodup_cons.1 hnodup
    obtain ⟨chains, hrun, hchains⟩ := run_productions hostMask domain (info.tableSave e.1 e.2) options.flush e.1
      (sectionChains info e) fun name ci hci h => emittedRules_eq_nil he.saved (he.chains _ (Dict.get?_eq_some_iff.1 hci)).1 h
    have hsection : runScript (SaveProduction.run hostMask) (sectionProductions domain info options e) { tables := tables } =
        some { tables := tables.set e.1 { chains := chains } } := by
      rw [sectionProductions, run_section hostMask e.1 _ henew, hrun, Option.map_some]
      intro p hp
      rcases List.mem_append.1 hp with hp | hp
      · obtain ⟨c, -, hp⟩ := List.mem_flatMap.1 hp
        obtain ⟨x, -, rfl⟩ := Option.map_eq_some_iff.1 (Option.mem_toList.1 hp)
        exact .inl ⟨_, _, rfl⟩
      · obtain ⟨c, -, hp⟩ := List.mem_flatMap.1 hp
        obtain ⟨x, -, rfl⟩ := List.mem_map.1 hp
        exact .inr ⟨_, _, rfl⟩
    have hnew' : ∀ e' ∈ es, e'.1 ∉ tables.set e.1 { chains := chains } := by
      intro e' he'
      rw [Dict.mem_set]
      exact not_or.2 ⟨fun heq => hnot (heq ▸ List.mem_map.2 ⟨e', he', rfl⟩), hesnew e' he'⟩
    obtain ⟨tables', hrest, hrecovered, hframe⟩ := ih hes hnodup hnew'
    refine ⟨tables', ?_, List.forall_mem_cons.2 ⟨⟨chains, ?_, fun name => ?_⟩, hrecovered⟩, fun table htable => ?_⟩
    · rw [List.flatMap_cons, runScript_append, hsection]
      exact hrest
    · rw [hframe e.1 hnot, Dict.get?_set_self]
    · rw [hchains, sectionChains, Dict.get?_sorted]
    · rw [List.map_cons, List.mem_cons, not_or] at htable
      rw [hframe table htable.2, Dict.get?_set_of_ne _ _ htable.1]

/-- The text that is written for a family. -/
theorem rulesToSave_entries {version now : String} {entries : List SaveEntry}
    (h : rulesToSave domain info options version now = .ok entries) :
    (∀ e ∈ info.tables.sorted.entries, SectionFormats domain info options e) ∧
      entries = .comment (version ++ " (" ++ toolName info.saveTool ++ ") on " ++ now) ::
        info.tables.sorted.entries.flatMap (sectionEntries domain info options) := by
  have hwalk := (mapM_spec_ok_iff (P := fun e => ∃ r, tableSection domain info options e.1 e.2 = .ok r)
    fun _ _ _ => Except.eq_ok_iff_getD []).1 h
  have hsections : ∀ e ∈ info.tables.sorted.entries, SectionFormats domain info options e ∧
      Except.getD (tableSection domain info options e.1 e.2) [] = sectionEntries domain info options e := by
    intro e he
    obtain ⟨r, hr⟩ := hwalk.1 e he
    rw [hr]
    exact tableSection_entries hr
  refine ⟨fun e he => (hsections e he).1, hwalk.2.trans ?_⟩
  rw [← List.flatMap_def]
  exact congrArg _ (List.flatMap_congr fun e he => (hsections e he).2)

end Texts

/-- A save is read back: without an error, one line for each emitted one, and every table with its chains, each with its policy and
one rule for each of its entries, in order. -/
structure ReadsBack (hostMask : String) (domain : Family) (info : DomainInfo) (options : IptablesOptions)
    (entries : List SaveEntry) : Prop where
  lines : (contentLines (splitLines (saveText entries).toList)).length = (entries.filter fun x => !x.isComment).length
  tables : ∃ tables, parseSave hostMask (saveText entries).toList = .ok tables ∧
    (∀ table, table ∈ tables ↔ table ∈ info.tables) ∧
      ∀ e ∈ info.tables.entries, IsRecovered hostMask domain info options e (tables.get? e.1)

/-- What is written into one line, and may hold line boundaries, is whole: the version and the time, the rules that are copied, and
the rules that are formatted. No name of a chain that is found has a blank in it. -/
structure IsWholeSave (domain : Family) (info : DomainInfo) (options : IptablesOptions) (version now : String) : Prop where
  comment : IsWhole (version ++ " (" ++ toolName info.saveTool ++ ") on " ++ now).toList
  names : ∀ e ∈ info.tables.entries, ∀ c ∈ (e.2.allChains (info.tableSave e.1 e.2)).entries, ∀ b ∈ c.1.toList, isPySpace b = false
  copied : ∀ e ∈ info.tables.entries, ∀ c ∈ (e.2.allChains (info.tableSave e.1 e.2)).entries, c.2.preserve = true →
    ∀ line ∈ extractChainFromTableSave (info.tableSave e.1 e.2) c.1, IsWhole line
  rules : options.flush = false → ∀ e ∈ info.tables.entries, ∀ c ∈ (e.2.allChains (info.tableSave e.1 e.2)).entries,
    ∀ rule ∈ c.2.rules, ∀ text, formatRule domain rule true = .ok text → IsWhole text.toList

/-- The lines of a section are whole when those of its rules are. -/
theorem isWhole_sectionEntries_iff {domain : Family} {info : DomainInfo} {options : IptablesOptions} {e : String × TableInfo}
    (hsafe : IsSafeSection info e) (hformats : SectionFormats domain info options e) :
    (∀ x ∈ sectionEntries domain info options e, IsWhole x.chars) ↔
      ∀ c ∈ (sectionChains info e).entries,
        (c.2.preserve = true → ∀ line ∈ extractChainFromTableSave (info.tableSave e.1 e.2) c.1, IsWhole line) ∧
          (options.flush = false → ∀ rule ∈ c.2.rules, ∀ text, formatRule domain rule true = .ok text → IsWhole text.toList) := by
  have htable : IsWhole (SaveEntry.table e.1).chars := by
    refine isWhole_of_no_boundary ?_
    rw [SaveEntry.chars, SaveEntry.text_table, String.toList_append, List.forall_mem_append]
    exact ⟨forall_eq_false (by decide), (isWord_of_isIptName hsafe.table).no_boundary⟩
  have hcommit : IsWhole SaveEntry.commit.chars := isWhole_of_no_boundary (forall_eq_false (by decide))
  have hchains : ∀ x ∈ (sectionChains info e).entries.flatMap
      (fun c => (chainEntry e.1 (info.tableSave e.1 e.2) c.1 c.2 options.flush).toList), IsWhole x.chars := by
    intro x hx
    obtain ⟨c, hc, hx⟩ := List.mem_flatMap.1 hx
    exact (isReadAs_chainEntry hsafe.saved (hsafe.chains c hc) (Option.mem_toList.1 hx)).2
  rw [sectionEntries, List.forall_mem_cons, List.forall_mem_append, List.forall_mem_append, List.forall_mem_singleton]
  constructor
  · rintro ⟨-, ⟨-, hrules⟩, -⟩ c hc
    exact (isWhole_emittedRules_iff (hsafe.chains c hc).1 (hformats c hc)).1 fun x hx =>
      hrules x (List.mem_flatMap.2 ⟨c, hc, hx⟩)
  · intro h
    refine ⟨htable, ⟨hchains, fun x hx => ?_⟩, hcommit⟩
    obtain ⟨c, hc, hx⟩ := List.mem_flatMap.1 hx
    exact (isWhole_emittedRules_iff (hsafe.chains c hc).1 (hformats c hc)).2 (h c hc) x hx

/-- The lines of a save are whole when what is copied and formatted is. -/
theorem isWhole_entries_iff {domain : Family} {info : DomainInfo} {options : IptablesOptions} {version now : String}
    (hsafe : ∀ e ∈ info.tables.sorted.entries, IsSafeSection info e)
    (hformats : ∀ e ∈ info.tables.sorted.entries, SectionFormats domain info options e) :
    (∀ x ∈ SaveEntry.comment (version ++ " (" ++ toolName info.saveTool ++ ") on " ++ now) ::
        info.tables.sorted.entries.flatMap (sectionEntries domain info options), IsWhole x.chars) ↔
      IsWholeSave domain info options version now := by
  have hcomment : ∀ text : String, IsWhole (SaveEntry.comment text).chars ↔ IsWhole text.toList := by
    intro text
    rw [SaveEntry.chars, SaveEntry.text_comment, String.toList_append]
    exact isWhole_append (forall_eq_false (by decide))
  have hsections : (∀ x ∈ info.tables.sorted.entries.flatMap (sectionEntries domain info options), IsWhole x.chars) ↔
      ∀ e ∈ info.tables.sorted.entries, ∀ c ∈ (sectionChains info e).entries,
        (c.2.preserve = true → ∀ line ∈ extractChainFromTableSave (info.tableSave e.1 e.2) c.1, IsWhole line) ∧
          (options.flush = false → ∀ rule ∈ c.2.rules, ∀ text, formatRule domain rule true = .ok text → IsWhole text.toList) := by
    constructor
    · intro h e he
      exact (isWhole_sectionEntries_iff (hsafe e he) (hformats e he)).1 fun x hx => h x (List.mem_flatMap.2 ⟨e, he, hx⟩)
    · intro h x hx
      obtain ⟨e, he, hx⟩ := List.mem_flatMap.1 hx
      exact (isWhole_sectionEntries_iff (hsafe e he) (hformats e he)).2 (h e he) x hx
  have hnames : ∀ e ∈ info.tables.entries, ∀ c ∈ (e.2.allChains (info.tableSave e.1 e.2)).entries, ∀ b ∈ c.1.toList, isPySpace b = false :=
    fun e he c hc => ((hsafe e (Dict.mem_sorted_entries.2 he)).chains c (Dict.mem_sorted_entries.2 hc)).1.2
  simp only [List.forall_mem_cons, hcomment, hsections, Dict.mem_sorted_entries, sectionChains]
  constructor
  · rintro ⟨h, hall⟩
    exact ⟨h, hnames, fun e he c hc => (hall e he c hc).1, fun hflush e he c hc => (hall e he c hc).2 hflush⟩
  · rintro ⟨h, -, hcopied, hrules⟩
    exact ⟨h, fun e he c hc => ⟨hcopied e he c hc, fun hflush => hrules hflush e he c hc⟩⟩

/-- Where a save is read back, no name of its chains has a blank in it. -/
theorem ReadsBack.names {hostMask : String} {domain : Family} {info : DomainInfo} {options : IptablesOptions} {entries : List SaveEntry}
    (h : ReadsBack hostMask domain info options entries) (hnames : validateNames info = .ok ())
    (hsaved : ∀ e ∈ info.tables.entries, SavedBody (info.tableSave e.1 e.2)) :
    ∀ e ∈ info.tables.entries, ∀ c ∈ (e.2.allChains (info.tableSave e.1 e.2)).entries, ∀ b ∈ c.1.toList, isPySpace b = false := by
  intro e he c hc
  obtain ⟨tables, htables, -, hrecovered⟩ := h.tables
  obtain ⟨chains, ht, hchains⟩ := hrecovered e he
  have hget := Dict.get?_eq_some_iff.2 hc
  rcases get?_allChains_cases hget with hci | hci
  · exact ((validateNames_ok hnames (Dict.get?_eq_some_iff.2 he)).2 c.1 c.2 hci).1.2
  · -- a chain that is found is written with the line it has there
    have hpreserve : c.2.preserve = true := by
      rw [get?_resolveDynamicPreserve_eq] at hci
      split at hci
      · rw [← Option.some.inj hci]
      · cases hci
    obtain ⟨⟨n, hn, hname⟩, -⟩ := get?_resolveDynamicPreserve hci
    obtain ⟨line, hline⟩ := Option.isSome_iff_exists.1 ((hsaved e he).isSome_savedChainLine hn).2
    have hentry : chainEntry e.1 (info.tableSave e.1 e.2) c.1 c.2 options.flush = some (.saved (String.ofList line)) := by
      rw [chainEntry, if_pos hpreserve, hname, hline]
    have hread := hchains c.1
    rw [hget, Option.bind_some, recoveredChain, hentry, Option.map_some] at hread
    exact (isWord_of_parseSave htables ht (Dict.mem_of_get? hread)).2

/-- A save that is written from checked names is read back exactly when what is copied and formatted is whole, and no chain that is
found has a blank in its name. -/
theorem save_reads_back_iff (hostMask : String) {domain : Family} {info : DomainInfo} {options : IptablesOptions}
    {version now : String} {entries : List SaveEntry} (hnames : validateNames info = .ok ())
    (hsaved : ∀ e ∈ info.tables.entries, SavedBody (info.tableSave e.1 e.2))
    (h : rulesToSave domain info options version now = .ok entries) :
    ReadsBack hostMask domain info options entries ↔ IsWholeSave domain info options version now := by
  obtain ⟨hformats, hentries⟩ := rulesToSave_entries h
  have hreads : (∀ e ∈ info.tables.sorted.entries, IsSafeSection info e) → List.Forall₂ IsReadAs entries
      (.skipped :: info.tables.sorted.entries.flatMap (sectionProductions domain info options)) := by
    intro hsafe
    rw [hentries]
    refine .cons ⟨?_, iff_of_true rfl rfl⟩ (forall₂_flatMap fun e he => reads_section (hsafe e he) (hformats e he))
    rw [SaveEntry.chars, SaveEntry.text_comment, String.toList_append]
    exact readSaveLine_comment _
  constructor
  · intro hback
    have hsafe := safe_section hnames hsaved (hback.names hnames hsaved)
    rw [← isWhole_entries_iff hsafe hformats, ← hentries]
    exact (length_contentLines_iff (hreads hsafe)).1 hback.lines
  · intro hsave
    have hsafe := safe_section hnames hsaved hsave.names
    have hwhole := (isWhole_entries_iff hsafe hformats).2 hsave
    rw [← hentries] at hwhole
    obtain ⟨tables, hrun, hrecovered, hframe⟩ := run_sections hostMask hsafe
      info.tables.sorted.nodup fun e _ => Dict.not_mem_empty e.1
    refine ⟨(length_contentLines_iff (hreads hsafe)).2 hwhole, tables, ?_, fun table => ?_,
      fun e he => hrecovered e (Dict.mem_sorted_entries.2 he)⟩
    · have hparse := parseSaveLines_whole hostMask (hreads hsafe) hwhole (s := {}) hrun 1
      rw [parseSave, splitLines_saveText, hparse]
      rfl
    · constructor
      · intro hmem
        by_contra hno
        have hnone := hframe table fun hkey => hno ?_
        · rw [Dict.mem_iff_isSome, hnone] at hmem
          cases hmem
        · obtain ⟨e, he, rfl⟩ := List.mem_map.1 hkey
          exact Dict.mem_of_mem_entries (Dict.mem_sorted_entries.1 he)
      · intro hmem
        obtain ⟨tableInfo, hinfo⟩ := Dict.mem_iff_exists.1 hmem
        obtain ⟨chains, ht, -⟩ := hrecovered (table, tableInfo) (Dict.mem_sorted_entries.2 (Dict.get?_eq_some_iff.1 hinfo))
        exact Dict.mem_of_get? ht

section OneRule

/-- The table `filter` with one rule of the chain `INPUT`. -/
private def filterInput (rule : RenderedRule) : DomainInfo where
  tables := Dict.empty.set "filter"
    { hasBuiltin := true, chains := Dict.empty.set "INPUT" { builtin := true, policy := some "DROP", rules := [rule] } }

/-- What a comment with a form feed in it is read as. -/
private def feedComment : RenderedRule := ⟨[⟨"comment", .scalar "a\x0cb"⟩, ⟨"jump", .scalar "ACCEPT"⟩]⟩

private def acceptAll : RenderedRule := ⟨[⟨"jump", .scalar "ACCEPT"⟩]⟩

/-- The body of the table `filter` with a chain of another program and its rule. -/
private def dockerLines : List (List Char) :=
  [":INPUT DROP [0:0]".toList, ":DOCKER - [0:0]".toList, "-A DOCKER -j RETURN".toList]

/-- The table `filter` with a rule of the chain `INPUT`, and what a pattern finds of the other program's chains. -/
private def besideDocker : DomainInfo where
  previous := some (String.ofList (endLines ("*filter".toList :: (dockerLines ++ ["COMMIT".toList]))))
  tables := Dict.empty.set "filter"
    { hasBuiltin := true, preserveRegexes := [fun name => startsWith name "DOCKER"],
      chains := Dict.empty.set "INPUT" { builtin := true, policy := some "DROP", rules := [acceptAll] } }

private theorem savedBody_dockerLines : SavedBody (endLines dockerLines) := by
  have hbreak : ∀ line ∈ dockerLines, '\n' ∉ line := by decide
  have hended := SaveSearch.endedLines_endLines hbreak
  have hword : ∀ {text : List Char}, text ≠ [] → text.all (fun c => !isPySpace c) = true → IsWord text :=
    fun hne hall => ⟨hne, forall_eq_false hall⟩
  refine ⟨⟨dockerLines, hbreak, rfl⟩, ?_, fun name hname hne => ?_⟩
  · rw [hended]
    intro line hline hcolon
    simp only [dockerLines, List.mem_cons, List.not_mem_nil, or_false] at hline
    rcases hline with rfl | rfl | rfl
    · exact ⟨"INPUT".toList, "DROP".toList, "[0:0]".toList, (hword (by decide) (by decide)).isSavedName,
        hword (by decide) (by decide), hword (by decide) (by decide), by decide⟩
    · exact ⟨"DOCKER".toList, "-".toList, "[0:0]".toList, (hword (by decide) (by decide)).isSavedName,
        hword (by decide) (by decide), hword (by decide) (by decide), by decide⟩
    · exact absurd hcolon (by decide)
  · obtain ⟨line, hline⟩ := List.exists_mem_of_ne_nil _ hne
    rw [extractChainFromTableSave, hended] at hline
    obtain ⟨hmem, hprefix⟩ := List.mem_filter.1 hline
    obtain ⟨rest, hrest⟩ := List.isPrefixOf_iff_prefix.1 hprefix
    simp only [dockerLines, List.mem_cons, List.not_mem_nil, or_false] at hmem
    rcases hmem with rfl | rfl | rfl
    · exact absurd (congrArg List.head? hrest) (by simp)
    · exact absurd (congrArg List.head? hrest) (by simp)
    · have hcut : name.toList ++ ' ' :: rest = "DOCKER".toList ++ ' ' :: "-j RETURN".toList := by
        simpa using congrArg (List.drop 3) hrest
      have heq : name = "DOCKER" := String.toList_inj.1 (eq_of_append_blank hname.no_blank (by decide) hcut)
      rw [heq]
      decide

theorem save_reads_back_docker :
    ∃ entries, rulesToSave .ip besideDocker {} "2.7" "now" = .ok entries ∧
      ReadsBack "/32" .ip besideDocker {} entries ∧ SaveEntry.saved "-A DOCKER -j RETURN" ∈ entries := by
  have htableSave : ∀ e ∈ besideDocker.tables.entries, besideDocker.tableSave e.1 e.2 = endLines dockerLines := by
    intro e he
    obtain rfl := List.mem_singleton.1 he
    rfl
  have hchains : ∀ e ∈ besideDocker.tables.entries, ∀ c ∈ (e.2.allChains (endLines dockerLines)).entries,
      c = ("INPUT", { builtin := true, policy := some "DROP", rules := [acceptAll] }) ∨ c = ("DOCKER", { preserve := true }) := by
    intro e he c hc
    obtain rfl := List.mem_singleton.1 he
    rcases get?_allChains_cases (Dict.get?_eq_some_iff.2 hc) with hci | hci
    · have := Dict.get?_eq_some_iff.1 hci
      exact .inl (List.mem_singleton.1 this)
    · have := Dict.get?_eq_some_iff.1 hci
      exact .inr (List.mem_singleton.1 this)
  have hwhole : IsWholeSave .ip besideDocker {} "2.7" "now" := by
    refine ⟨isWhole_of_no_boundary (forall_eq_false (by decide)), fun e he c hc => ?_, fun e he c hc hpreserve => ?_,
      fun _ e he c hc rule hrule text htext => ?_⟩
    · rw [htableSave e he] at hc
      rcases hchains e he c hc with rfl | rfl
      · exact forall_eq_false (by decide)
      · exact forall_eq_false (by decide)
    · rw [htableSave e he] at hc ⊢
      rcases hchains e he c hc with rfl | rfl
      · cases hpreserve
      · intro line hline
        have hlines : extractChainFromTableSave (endLines dockerLines) "DOCKER" = ["-A DOCKER -j RETURN".toList] := by decide
        rw [hlines] at hline
        obtain rfl := List.mem_singleton.1 hline
        exact isWhole_of_no_boundary (forall_eq_false (by decide))
    · rw [htableSave e he] at hc
      rcases hchains e he c hc with rfl | rfl
      · obtain rfl := List.mem_singleton.1 hrule
        have hformat : formatRule .ip acceptAll true = .ok " --jump ACCEPT" := by decide
        obtain rfl := Except.ok.inj (hformat.symm.trans htext)
        exact isWhole_of_no_boundary (forall_eq_false (by decide))
      · cases hrule
  refine ⟨_, rfl, (save_reads_back_iff "/32" rfl (fun e he => ?_) rfl).2 hwhole, by decide +kernel⟩
  rw [htableSave e he]
  exact savedBody_dockerLines

/-- A form feed in a comment begins a line of its own, which is not one of a save. -/
theorem save_splits_comment :
    ∃ entries, validateNames (filterInput feedComment) = .ok () ∧
      rulesToSave .ip (filterInput feedComment) {} "2.7" "now" = .ok entries ∧
        parseSave "/32" (saveText entries).toList = .error ⟨"cannot parse save line 5: 'b\" --jump ACCEPT'"⟩ := by
  refine ⟨_, rfl, rfl, ?_⟩
  decide +kernel

end OneRule

end Ferm
