import Ferm.Importer.Filled

/-!
# Where imported rules end up

The importer keeps the rules of a chain and the policies of a table until they are due. As long as every chain is committed before
its table ends, and no policy is read twice, each rule and each policy is written once, in the blocks of its own domain, table and
chain. A line that comes out of turn puts something where it does not belong, or loses it, and nothing that follows mends that.
-/

namespace Ferm.Importer

/-! ## What was read -/

/-- What the lines of a saved ruleset say: where a rule belongs, and the rules and policies so far. -/
structure Source where
  nextDomain : String
  domain : Option String := none
  table : Option String := none
  lineno : Nat := 0
  items : Multiset Item := 0

section

variable (defs : Defs)

/-- What one line says. -/
def Source.say (s : Source) (line : SaveLine) : Source :=
  match line with
  | .comment saveTool => { s with nextDomain := saveTool.getD s.nextDomain }
  | .table name => { s with domain := some s.nextDomain, table := some name }
  | .policy chain policy => { s with items := s.items + {.policy ⟨s.domain, s.table, chain⟩ policy} }
  | .rule chain rest =>
    match parseRule defs s.lineno rest with
    | .ok r => { s with items := s.items + (Rule.line r.entries r.data).singles.map (.rule ⟨s.domain, s.table, chain⟩) }
    | .error _ => s
  | _ => s

/-- One line of the input. -/
def Source.readLine (s : Source) (raw : String) : Source := { s with lineno := s.lineno + 1 }.say defs (classifyLine raw)

/-- The rules and policies that are read, each with the domain, the table and the chain it belongs to. -/
def itemsRead (domain : String) (lines : List String) : Multiset Item :=
  (lines.foldl (Source.readLine defs) { nextDomain := domain }).items

end

/-! ## Lines in turn -/

namespace State

/-- A line comes in turn: a table after its predecessor's last chain was committed, or after a change of the domain with no policy
left; a policy when none of the chain is waiting; a rule inside of a table. -/
def InTurn (i : State) : SaveLine → Prop
  | .table _ => i.chain = none ∨ i.policies.entries = [] ∧ i.domain ≠ some i.nextDomain
  | .policy chain _ => i.policies.get? chain = none
  | .rule _ _ => i.table.isSome
  | _ => True

/-- The end comes in turn: the last chain was committed, or no policy is left. -/
def EndsInTurn (i : State) : Prop := i.chain = none ∨ i.policies.entries = []

variable (defs : Defs) (levels : Nat)

/-- Every line comes in turn where it is read. -/
def LinesInTurn (i : State) (lines : List String) : Prop :=
  ∀ before raw after, lines = before ++ raw :: after →
    ∀ j, before.foldlM (readLine defs levels) i = .ok j → j.InTurn (classifyLine raw)

/-- Every line of the input comes in turn, and the end does. -/
def RunsInTurn (domain : String) (lines : List String) : Prop :=
  LinesInTurn defs levels (start domain) lines ∧
    ∀ i, lines.foldlM (readLine defs levels) (start domain) = .ok i → i.EndsInTurn

/-! ## What is written -/

/-- Lines are written, and nothing else changes. -/
def Writes (i i' : State) (ws : List Written) : Prop := ∃ text indent, i' = { i with out := i.out ++ ws, text, indent }

namespace Writes

theorem refl (i : State) : Writes i i [] := ⟨i.text, i.indent, by rw [List.append_nil]⟩

theorem trans {i i₁ i₂ : State} {ws ws' : List Written} (h : Writes i i₁ ws) (h' : Writes i₁ i₂ ws') :
    Writes i i₂ (ws ++ ws') := by
  obtain ⟨_, _, rfl⟩ := h
  obtain ⟨text, indent, rfl⟩ := h'
  exact ⟨text, indent, by rw [List.append_assoc]⟩

/-- What is open may be changed before or after. -/
theorem update {i i' : State} {ws : List Written} (f : State → State) (h : Writes i i' ws)
    (hf : ∀ (j : State) ws text indent,
      f { j with out := j.out ++ ws, text, indent } = { f j with out := (f j).out ++ ws, text, indent } := by intros; rfl) :
    Writes (f i) (f i') ws := by
  obtain ⟨text, indent, rfl⟩ := h
  exact ⟨text, indent, hf ..⟩

theorem frame {i i' : State} {ws : List Written} (h : Writes i i' ws) :
    i'.chain = i.chain ∧ i'.table = i.table ∧ i'.domain = i.domain := by
  obtain ⟨_, _, rfl⟩ := h
  exact ⟨rfl, rfl, rfl⟩

end Writes

/-- The brace that closes a block, if it is open. -/
def closing (isOpen : Bool) : List Written := if isOpen then [.closing] else []

/-- The lines of the rules that wait. -/
def ruleLines (i : State) : List Written := writtenAll (Ferm.Importer.flush levels i.rules)

/-- The lines of the policies that wait. -/
def policyLines (i : State) : List Written :=
  (i.policies.entries.insertionSort fun e e' => e.1 ≤ e'.1).map fun e => Written.leaf (.chainPolicy e.1 e.2)

theorem writeLine_writes (i : State) (w : Written) : Writes i (i.writeLine defs w) [w] := ⟨_, _, rfl⟩

theorem writeLines_writes (i : State) (ws : List Written) : Writes i (ws.foldl (writeLine defs) i) ws := by
  induction ws generalizing i with
  | nil => exact .refl i
  | cons w ws ih => exact (writeLine_writes defs i w).trans (ih _)

theorem closeIf_writes (i : State) (isOpen : Bool) : Writes i (i.closeIf defs isOpen) (closing isOpen) := by
  cases isOpen with
  | true => exact writeLine_writes defs i .closing
  | false => exact .refl i

theorem flush_writes {i i' : State} (h : i.flush defs levels = .ok i') :
    Writes { i with rules := [] } i' (i.ruleLines levels) := by
  rw [flush] at h
  split at h
  · cases h
  · obtain ⟨text, indent, hw⟩ := writeLines_writes defs i (i.ruleLines levels)
    obtain rfl := Except.ok.inj h
    exact ⟨text, indent, congrArg (fun j : State => { j with rules := [] }) hw⟩

theorem policyLines_eq_nil {i : State} : i.policyLines = [] ↔ i.policies.entries = [] := by
  rw [policyLines, List.map_eq_nil_iff, ← List.length_eq_zero_iff, List.length_insertionSort, List.length_eq_zero_iff]

/-- The policies that are left are written, if there are any. -/
theorem leavePolicies_writes (i : State) :
    Writes { i with policies := Dict.empty } (if i.policies.entries.isEmpty then i else i.flushPolicies defs) i.policyLines := by
  split
  · rename_i hempty
    have hentries : i.policies.entries = [] := List.isEmpty_iff.1 hempty
    have hpolicies : i.policies = Dict.empty := Dict.ext hentries
    rw [policyLines_eq_nil.2 hentries, ← hpolicies]
    exact .refl i
  · obtain ⟨text, indent, hw⟩ := writeLines_writes defs i i.policyLines
    exact ⟨text, indent, congrArg (fun j : State => { j with policies := Dict.empty }) hw⟩

theorem flushDomain_writes {i i' : State} (h : i.flushDomain defs levels = .ok i') :
    Writes { i with rules := [], chain := none, table := none, domain := none } i'
      (i.ruleLines levels ++ (closing i.chain.isSome ++ (closing i.table.isSome ++ closing i.domain.isSome))) := by
  obtain ⟨i₁, hflush, h⟩ := Except.bind_eq_ok.1 h
  have h₁ := flush_writes defs levels hflush
  obtain ⟨i₂, hi₂⟩ : ∃ i₂, i₂ = i₁.closeIf defs i₁.chain.isSome := ⟨_, rfl⟩
  obtain ⟨i₃, hi₃⟩ : ∃ i₃, i₃ = i₂.closeIf defs i₂.table.isSome := ⟨_, rfl⟩
  have h₂ := h₁.trans (hi₂ ▸ closeIf_writes defs i₁ i₁.chain.isSome)
  have h₃ := h₂.trans (hi₃ ▸ closeIf_writes defs i₂ i₂.table.isSome)
  obtain ⟨i₄, hi₄⟩ : ∃ i₄, i₄ = i₃.closeIf defs i₃.domain.isSome := ⟨_, rfl⟩
  have h₄ := h₃.trans (hi₄ ▸ closeIf_writes defs i₃ i₃.domain.isSome)
  rw [h₁.frame.1, h₂.frame.2.1, h₃.frame.2.2, List.append_assoc, List.append_assoc] at h₄
  obtain ⟨text, indent, h₄⟩ := h₄
  refine ⟨text, indent, ?_⟩
  rw [← Except.ok.inj h, ← hi₂, ← hi₃, ← hi₄, h₄]

theorem openChain_writes {i i' : State} {chain : String} (h : i.openChain defs levels chain = .ok i') :
    i.chain = some chain ∧ i' = i ∨
      i.chain ≠ some chain ∧
        Writes { i with rules := [], chain := some chain } i'
          (i.ruleLines levels ++ (closing i.chain.isSome ++ [.opening (.chain chain)])) := by
  rw [openChain] at h
  cases hc : i.chain with
  | none =>
    rw [hc] at h
    obtain ⟨i₁, hflush, h⟩ := Except.bind_eq_ok.1 h
    obtain rfl := Except.ok.inj h
    have hw := ((flush_writes defs levels hflush).update fun j => { j with chain := some chain }).trans
      (writeLine_writes defs _ (.opening (.chain chain)))
    exact Or.inr ⟨by simp, by simpa [closing] using hw⟩
  | some current =>
    rw [hc] at h
    dsimp only at h
    split at h
    · rename_i heq
      exact Or.inl ⟨by rw [heq], (Except.ok.inj h).symm⟩
    · rename_i hne
      obtain ⟨i₁, hflush, h⟩ := Except.bind_eq_ok.1 h
      obtain rfl := Except.ok.inj h
      have hw := (((flush_writes defs levels hflush).trans (writeLine_writes defs _ .closing)).update
        fun j => { j with chain := some chain }).trans (writeLine_writes defs _ (.opening (.chain chain)))
      exact Or.inr ⟨fun he => hne (Option.some.inj he).symm, by simpa [closing] using hw⟩

/-- A table is opened in its domain: the one that is open, or a new one. -/
theorem handleTable_writes {i i' : State} {name : String} (h : i.handleTable defs levels name = .ok i') :
    i.domain = some i.nextDomain ∧
        Writes { i with policies := Dict.empty, table := some name } i'
          (i.policyLines ++ (closing i.table.isSome ++ [.opening (.table name)])) ∨
      i.domain ≠ some i.nextDomain ∧
        Writes { i with policies := Dict.empty, rules := [], chain := none, domain := some i.nextDomain, table := some name } i'
          (i.policyLines ++ (i.ruleLines levels ++ (closing i.chain.isSome ++ (closing i.table.isSome ++
            (closing i.domain.isSome ++ ([.opening (.domain i.nextDomain)] ++ [.opening (.table name)])))))) := by
  obtain ⟨i₀, hi₀⟩ : ∃ i₀, i₀ = if i.policies.entries.isEmpty then i else i.flushPolicies defs := ⟨_, rfl⟩
  have h₀ : Writes { i with policies := Dict.empty } i₀ i.policyLines := hi₀ ▸ leavePolicies_writes defs i
  rw [handleTable, ← hi₀] at h
  have hdomain : i₀.domain = i.domain ∧ i₀.nextDomain = i.nextDomain ∧ i₀.rules = i.rules ∧ i₀.chain = i.chain ∧
      i₀.table = i.table := by
    obtain ⟨_, _, rfl⟩ := h₀
    exact ⟨rfl, rfl, rfl, rfl, rfl⟩
  obtain ⟨hdomain, hnext, hrules, hchain, htable⟩ := hdomain
  split at h
  · rename_i heq
    obtain rfl := Except.ok.inj h
    have hw := ((h₀.trans (closeIf_writes defs i₀ i₀.table.isSome)).update fun j => { j with table := some name }).trans
      (writeLine_writes defs _ (.opening (.table name)))
    rw [show closing i₀.table.isSome = closing i.table.isSome by rw [htable], List.append_assoc] at hw
    exact Or.inl ⟨by rw [← hdomain, ← hnext, heq], hw⟩
  · rename_i hne
    obtain ⟨i₂, hflush, h⟩ := Except.bind_eq_ok.1 h
    obtain rfl := Except.ok.inj h
    have h₂ := flushDomain_writes defs levels hflush
    rw [show i₀.ruleLines levels = i.ruleLines levels by rw [ruleLines, ruleLines, hrules], hchain, htable, hdomain] at h₂
    have h₃ := (h₀.update fun j => { j with rules := [], chain := none, table := none, domain := none }).trans h₂
    have h₄ := (h₃.update fun j => { j with domain := some i.nextDomain }).trans
      (writeLine_writes defs _ (.opening (.domain i.nextDomain)))
    have h₅ := (h₄.update fun j => { j with table := some name }).trans (writeLine_writes defs _ (.opening (.table name)))
    simp only [List.append_assoc] at h₅
    -- no table is open any more
    obtain ⟨text, indent, rfl⟩ := h₃
    exact Or.inr ⟨by rw [← hdomain, ← hnext]; exact hne, h₅⟩

theorem writePolicy_writes (i : State) (chain : String) :
    i.policies.get? chain = none ∧ i.writePolicy defs chain = i ∨
      ∃ policy, i.policies.get? chain = some policy ∧
        Writes { i with policies := i.policies.erase chain } (i.writePolicy defs chain) [.leaf (.policy policy)] := by
  rw [writePolicy]
  cases hp : i.policies.get? chain with
  | none => exact Or.inl ⟨rfl, rfl⟩
  | some policy =>
    exact Or.inr ⟨policy, rfl, (writeLine_writes defs i (.leaf (.policy policy))).update
      fun j => { j with policies := i.policies.erase chain }⟩

theorem handleRule_eq {i i' : State} {chain rest : String} (h : i.handleRule defs levels chain rest = .ok i') :
    ∃ i₁ r, i.openChain defs levels chain = .ok i₁ ∧ parseRule defs i.lineno rest = .ok r ∧
      i' = { i₁.writePolicy defs chain with rules := i₁.rules ++ [.line r.entries r.data] } := by
  obtain ⟨i₁, hopen, h⟩ := Except.bind_eq_ok.1 h
  obtain ⟨r, hparse, h⟩ := Except.bind_eq_ok.1 h
  have hpolicy : (i₁.writePolicy defs chain).lineno = i₁.lineno ∧ (i₁.writePolicy defs chain).rules = i₁.rules := by
    rcases writePolicy_writes defs i₁ chain with ⟨-, heq⟩ | ⟨policy, -, _, _, heq⟩
    · rw [heq]
      exact ⟨rfl, rfl⟩
    · rw [heq]
      exact ⟨rfl, rfl⟩
  have hlineno : i₁.lineno = i.lineno := by
    rcases openChain_writes defs levels hopen with ⟨-, rfl⟩ | ⟨-, _, _, rfl⟩
    · rfl
    · rfl
  rw [hpolicy.1, hlineno] at hparse
  refine ⟨i₁, r, hopen, hparse, ?_⟩
  rw [← Except.ok.inj h, hpolicy.2]

/-- A chain that is open is committed. -/
theorem commit_writes {i i' : State} (h : i.processLine defs levels .commit = .ok i') :
    Writes { i with rules := [], chain := none } i' (i.ruleLines levels ++ closing i.chain.isSome) := by
  obtain ⟨i₁, hflush, h⟩ := Except.bind_eq_ok.1 h
  have h₁ := flush_writes defs levels hflush
  have hchain : i₁.chain = i.chain := h₁.frame.1
  rw [← Except.ok.inj h, hchain]
  cases hc : i.chain with
  | none =>
    obtain ⟨text, indent, rfl⟩ := h₁
    exact ⟨text, indent, by simp [closing, hc]⟩
  | some chain => exact (h₁.trans (writeLine_writes defs i₁ .closing)).update fun j => { j with chain := none }

/-! ## What waits -/

/-- The policies that wait for their chain. -/
def waitingPolicies (i : State) (d t : String) : Multiset Item :=
  (i.policies.entries.map fun e => .policy ⟨some d, some t, e.1⟩ e.2 : List Item)

/-- The rules that wait for the end of their chain. -/
def waitingRules (i : State) (d t c : String) : Multiset Item := (singlesAll i.rules).map (.rule ⟨some d, some t, c⟩)

/-- The importer as long as every line came in turn: outside of all blocks, in a table, or in a chain, with all that was read either
written or waiting. -/
inductive Shape (i : State) (items : Multiset Item) : Prop
  | outside (hdomain : i.domain = none) (htable : i.table = none) (hchain : i.chain = none) (hrules : i.rules = [])
      (hpolicies : i.policies.entries = []) (hindent : i.indent = 0) (hread : readBack i.out = some ⟨[], items⟩)
  | table (d t : String) (said : Multiset Item) (hdomain : i.domain = some d) (htable : i.table = some t)
      (hchain : i.chain = none) (hrules : i.rules = []) (hread : readBack i.out = some ⟨[.domain d, .table t], said⟩)
      (hitems : items = said + i.waitingPolicies d t)
  | chain (d t c : String) (said : Multiset Item) (hdomain : i.domain = some d) (htable : i.table = some t)
      (hchain : i.chain = some c) (hrules : singlesAll i.rules ≠ 0)
      (hread : readBack i.out = some ⟨[.domain d, .table t, .chain c], said⟩)
      (hitems : items = said + i.waitingPolicies d t + i.waitingRules d t c)

/-- The importer and what was read agree about where the next rule belongs. -/
structure Agree (i : State) (s : Source) : Prop where
  nextDomain : s.nextDomain = i.nextDomain
  domain : s.domain = i.domain
  table : s.table = i.table
  lineno : s.lineno = i.lineno

end State

theorem readBack_append (ws ws' : List Written) : readBack (ws ++ ws') = (readBack ws).bind fun r => r.readAll ws' :=
  Reading.readAll_append ..

/-- The lines of policies inside of a table. -/
theorem readAll_chainPolicies (d t : String) (entries : List (String × String)) (items : Multiset Item) :
    (Reading.mk [.domain d, .table t] items).readAll (entries.map fun e => .leaf (.chainPolicy e.1 e.2)) =
      some ⟨[.domain d, .table t],
        items + (entries.map fun e => .policy ⟨some d, some t, e.1⟩ e.2 : List Item)⟩ := by
  induction entries generalizing items with
  | nil => simp
  | cons e entries ih =>
    rw [List.map_cons, Reading.readAll_cons, Reading.read, Leaf.items, Option.map_some, Option.bind_some, ih, List.map_cons,
      ← Multiset.cons_coe, ← Multiset.singleton_add, add_assoc]

/-- Lines of policies outside of a table do not belong there. -/
theorem readAll_chainPolicies_stray {r : Reading} (h : ∀ d t, r.path ≠ [.domain d, .table t]) {entries : List (String × String)}
    (hne : entries ≠ []) : r.readAll (entries.map fun e => .leaf (.chainPolicy e.1 e.2)) = none := by
  obtain ⟨e, entries, rfl⟩ := List.exists_cons_of_ne_nil hne
  rw [List.map_cons, Reading.readAll_cons, Reading.read]
  unfold Leaf.items
  dsimp only
  split
  · rename_i d t hpath
    exact absurd hpath (h d t)
  · rfl

theorem policyCount_policies (domain table : Option String) (entries : List (String × String)) :
    policyCount (entries.map fun e => .policy ⟨domain, table, e.1⟩ e.2 : List Item) = entries.length := by
  induction entries with
  | nil => rfl
  | cons e entries ih =>
    rw [List.map_cons, ← Multiset.cons_coe, ← Multiset.singleton_add, policyCount_add, ih, policyCount_policy, List.length_cons,
      Nat.add_comm]

/-- Wherever lines of policies stand, each says at most one. -/
theorem readAll_chainPolicies_keeps {r r' : Reading} {entries : List (String × String)}
    (h : r.readAll (entries.map fun e => .leaf (.chainPolicy e.1 e.2)) = some r') :
    r'.path = r.path ∧ policyCount r'.items = policyCount r.items + entries.length := by
  by_cases hne : entries = []
  · subst hne
    cases h
    exact ⟨rfl, rfl⟩
  · by_cases hpath : ∃ d t, r.path = [.domain d, .table t]
    · obtain ⟨d, t, hpath⟩ := hpath
      obtain ⟨path, items⟩ := r
      obtain rfl : path = _ := hpath
      rw [readAll_chainPolicies, Option.some.injEq] at h
      subst h
      exact ⟨rfl, by rw [policyCount_add, policyCount_policies]⟩
    · simp only [not_exists] at hpath
      rw [readAll_chainPolicies_stray hpath hne] at h
      cases h

theorem flush_nil (levels : Nat) : flush levels [] = [] := by
  cases levels <;> rfl

namespace State

variable {defs : Defs} {levels : Nat}

theorem Writes.readBack_eq {i i' : State} {ws : List Written} {r : Reading} (h : Writes i i' ws) (hread : readBack i.out = some r) :
    readBack i'.out = r.readAll ws := by
  obtain ⟨_, _, rfl⟩ := h
  rw [readBack_append, hread]
  rfl

theorem Writes.readBack_none {i i' : State} {ws : List Written} (h : Writes i i' ws) (hread : readBack i.out = none) :
    readBack i'.out = none := by
  obtain ⟨_, _, rfl⟩ := h
  rw [readBack_append, hread]
  rfl

theorem ruleLines_eq_nil {i : State} (h : i.rules = []) : i.ruleLines levels = [] := by
  rw [ruleLines, h, flush_nil]
  rfl

theorem flush_of_nil {i : State} (h : i.rules = []) : i.flush defs levels = .ok i := by
  obtain ⟨out, text, indent, table, chain, domain, nextDomain, rules, policies, lineno⟩ := i
  obtain rfl : rules = [] := h
  rw [flush, flush_nil]
  rfl

theorem readAll_ruleLines (i : State) (d t c : String) (said : Multiset Item) :
    (Reading.mk [.domain d, .table t, .chain c] said).readAll (i.ruleLines levels) =
      some ⟨[.domain d, .table t, .chain c], said + i.waitingRules d t c⟩ := by
  rw [ruleLines, readAll_rules, singlesAll_flush]
  rfl

theorem readAll_policyLines (i : State) (d t : String) (said : Multiset Item) :
    (Reading.mk [.domain d, .table t] said).readAll i.policyLines =
      some ⟨[.domain d, .table t], said + i.waitingPolicies d t⟩ := by
  have hperm := (List.perm_insertionSort (fun e e' : String × String => e.1 ≤ e'.1) i.policies.entries).map
    fun e => Item.policy ⟨some d, some t, e.1⟩ e.2
  rw [policyLines, readAll_chainPolicies, Multiset.coe_eq_coe.2 hperm]
  rfl

theorem waitingPolicies_eq_zero {i : State} {d t : String} (h : i.policies.entries = []) : i.waitingPolicies d t = 0 := by
  rw [waitingPolicies, h]
  rfl

/-- The policies of no table and the rules of no chain wait. -/
theorem waitingPolicies_empty {i : State} {d t : String} (h : i.policies = Dict.empty) : i.waitingPolicies d t = 0 :=
  waitingPolicies_eq_zero (by rw [h]; rfl)

/-! ## Lines in turn -/

/-- A table that comes in turn. -/
theorem Shape.table_step {i i' : State} {items : Multiset Item} {name : String} (hs : Shape i items) (hin : i.InTurn (.table name))
    (h : i.handleTable defs levels name = .ok i') : Shape i' items := by
  have hw := handleTable_writes defs levels h
  cases hs with
  | outside hdomain htable hchain hrules hpolicies hindent hread =>
    rw [hdomain, htable, hchain, policyLines_eq_nil.2 hpolicies, ruleLines_eq_nil hrules] at hw
    rcases hw with ⟨hne, -⟩ | ⟨-, hw⟩
    · cases hne
    · have hread' := hw.readBack_eq hread
      obtain ⟨text, indent, rfl⟩ := hw
      exact .table _ _ _ rfl rfl rfl rfl hread' (by rw [waitingPolicies_empty rfl, add_zero])
  | table d t said hdomain htable hchain hrules hread hitems =>
    rw [hdomain, htable, hchain, ruleLines_eq_nil hrules] at hw
    rcases hw with ⟨-, hw⟩ | ⟨-, hw⟩
    · have hread' := hw.readBack_eq hread
      rw [Reading.readAll_append, readAll_policyLines, ← hitems] at hread'
      obtain ⟨text, indent, rfl⟩ := hw
      exact .table _ _ _ rfl rfl rfl hrules hread' (by rw [waitingPolicies_empty rfl, add_zero])
    · have hread' := hw.readBack_eq hread
      rw [Reading.readAll_append, readAll_policyLines, ← hitems] at hread'
      obtain ⟨text, indent, rfl⟩ := hw
      exact .table _ _ _ rfl rfl rfl rfl hread' (by rw [waitingPolicies_empty rfl, add_zero])
  | chain d t c said hdomain htable hchain hrules hread hitems =>
    rcases hin with hin | ⟨hpolicies, hdiffers⟩
    · rw [hchain] at hin
      cases hin
    · rw [waitingPolicies_eq_zero hpolicies, add_zero] at hitems
      rcases hw with ⟨hsame, -⟩ | ⟨-, hw⟩
      · exact absurd hsame hdiffers
      · rw [hdomain, htable, hchain, policyLines_eq_nil.2 hpolicies] at hw
        have hread' := hw.readBack_eq hread
        simp only [Reading.readAll_append, Reading.readAll_nil, Option.bind_some, readAll_ruleLines, ← hitems] at hread'
        obtain ⟨text, indent, rfl⟩ := hw
        exact .table _ _ _ rfl rfl rfl rfl hread' (by rw [waitingPolicies_empty rfl, add_zero])

/-- A policy that comes in turn waits for its chain. -/
theorem Shape.policy_step {i : State} {items : Multiset Item} {chain policy : String} (hs : Shape i items)
    (hin : i.InTurn (.policy chain policy)) (htable : i.table.isSome = true) :
    Shape { i with policies := i.policies.set chain policy } (items + {.policy ⟨i.domain, i.table, chain⟩ policy}) := by
  have hwaits : ∀ d t, State.waitingPolicies { i with policies := i.policies.set chain policy } d t =
      i.waitingPolicies d t + {.policy ⟨some d, some t, chain⟩ policy} := by
    intro d t
    rw [waitingPolicies, Dict.entries_set_of_get?_none hin, List.map_append, ← Multiset.coe_add]
    rfl
  cases hs with
  | outside _ htable' =>
    rw [htable'] at htable
    cases htable
  | table d t said hdomain htable' hchain hrules hread hitems =>
    exact .table d t said hdomain htable' hchain hrules hread (by rw [hwaits, hitems, hdomain, htable', add_assoc])
  | chain d t c said hdomain htable' hchain hrules hread hitems =>
    refine .chain d t c said hdomain htable' hchain hrules hread ?_
    rw [hwaits, hitems, hdomain, htable']
    exact (add_right_comm ..).trans (by rw [add_assoc said]; rfl)

/-- A declared chain says nothing of rules and policies. -/
theorem Shape.declare_step {i : State} {items : Multiset Item} (hs : Shape i items) (htable : i.table.isSome = true) (name : String) :
    Shape (i.writeLine defs (.leaf (.chain name))) items := by
  have hw := writeLine_writes defs i (.leaf (.chain name))
  have hsaid : ∀ r : Reading, r.readAll [.leaf (.chain name)] = some r := by
    intro r
    rw [Reading.readAll_singleton, Reading.read, Leaf.items, Option.map_some, add_zero]
  cases hs with
  | outside _ htable' =>
    rw [htable'] at htable
    cases htable
  | table d t said hdomain htable' hchain hrules hread hitems =>
    exact .table d t said hdomain htable' hchain hrules ((hw.readBack_eq hread).trans (hsaid _)) hitems
  | chain d t c said hdomain htable' hchain hrules hread hitems =>
    exact .chain d t c said hdomain htable' hchain hrules ((hw.readBack_eq hread).trans (hsaid _)) hitems

/-- A commit writes the rules of the chain that is open. -/
theorem Shape.commit_step {i i' : State} {items : Multiset Item} (hs : Shape i items)
    (h : i.processLine defs levels .commit = .ok i') : Shape i' items := by
  have hw := commit_writes defs levels h
  cases hs with
  | outside hdomain htable hchain hrules hpolicies hindent hread =>
    have hi' : i' = i := by
      obtain ⟨i₁, hflush, h⟩ := Except.bind_eq_ok.1 h
      rw [flush_of_nil hrules, Except.ok.injEq] at hflush
      subst hflush
      rw [hchain] at h
      exact (Except.ok.inj h).symm
    rw [hi']
    exact .outside hdomain htable hchain hrules hpolicies hindent hread
  | table d t said hdomain htable hchain hrules hread hitems =>
    rw [hchain, ruleLines_eq_nil hrules] at hw
    have hread' := hw.readBack_eq hread
    obtain ⟨text, indent, rfl⟩ := hw
    exact .table d t said hdomain htable rfl rfl hread' hitems
  | chain d t c said hdomain htable hchain hrules hread hitems =>
    rw [hchain] at hw
    have hread' := hw.readBack_eq hread
    rw [Reading.readAll_append, readAll_ruleLines] at hread'
    obtain ⟨text, indent, rfl⟩ := hw
    exact .table d t _ hdomain htable rfl rfl hread' (by rw [hitems]; exact add_right_comm ..)

/-- The block of a chain is opened, or is open already. -/
theorem Shape.open_step {i i₁ : State} {items : Multiset Item} {chain : String} (hs : Shape i items) (htable : i.table.isSome = true)
    (h : i.openChain defs levels chain = .ok i₁) :
    ∃ d t said, i.domain = some d ∧ i.table = some t ∧ i₁.domain = some d ∧ i₁.table = some t ∧ i₁.chain = some chain ∧
      readBack i₁.out = some ⟨[.domain d, .table t, .chain chain], said⟩ ∧
        items = said + i₁.waitingPolicies d t + i₁.waitingRules d t chain := by
  have hw := openChain_writes defs levels h
  cases hs with
  | outside _ htable' =>
    rw [htable'] at htable
    cases htable
  | table d t said hdomain htable' hchain hrules hread hitems =>
    rcases hw with ⟨hsame, -⟩ | ⟨-, hw⟩
    · rw [hchain] at hsame
      cases hsame
    · rw [hchain, ruleLines_eq_nil hrules] at hw
      have hread' := hw.readBack_eq hread
      obtain ⟨text, indent, rfl⟩ := hw
      exact ⟨d, t, said, hdomain, htable', hdomain, htable', rfl, hread', by rw [hitems]; exact (add_zero _).symm⟩
  | chain d t c said hdomain htable' hchain hrules hread hitems =>
    rcases hw with ⟨hsame, rfl⟩ | ⟨-, hw⟩
    · obtain rfl : c = chain := Option.some.inj (hchain.symm.trans hsame)
      exact ⟨d, t, said, hdomain, htable', hdomain, htable', hchain, hread, hitems⟩
    · rw [hchain] at hw
      have hread' := hw.readBack_eq hread
      simp only [Reading.readAll_append, Option.bind_some, readAll_ruleLines] at hread'
      obtain ⟨text, indent, rfl⟩ := hw
      refine ⟨d, t, _, hdomain, htable', hdomain, htable', rfl, hread', ?_⟩
      rw [hitems]
      exact (add_right_comm ..).trans (add_zero _).symm

/-- A rule inside of a table waits for the end of its chain, whose policy is written. -/
theorem Shape.rule_step {i i' : State} {items : Multiset Item} {chain rest : String} {r : Draft} (hs : Shape i items)
    (htable : i.table.isSome = true) (hparse : parseRule defs i.lineno rest = .ok r)
    (h : i.handleRule defs levels chain rest = .ok i') :
    Shape i' (items + (Rule.line r.entries r.data).singles.map (.rule ⟨i.domain, i.table, chain⟩)) := by
  obtain ⟨i₁, r', hopen, hparse', rfl⟩ := handleRule_eq defs levels h
  obtain rfl : r' = r := Except.ok.inj (hparse'.symm.trans hparse)
  obtain ⟨d, t, said, hd, ht, hdomain, htable₁, hchain, hread, rfl⟩ := hs.open_step htable hopen
  have hrules : singlesAll (i₁.rules ++ [.line r'.entries r'.data]) =
      singlesAll i₁.rules + (Rule.line r'.entries r'.data).singles := by
    rw [singlesAll_append, singlesAll, singlesAll, add_zero]
  have hne : singlesAll (i₁.rules ++ [.line r'.entries r'.data]) ≠ 0 := by
    intro hzero
    have hle := Multiset.le_add_left (Rule.line r'.entries r'.data).singles (singlesAll i₁.rules)
    rw [← hrules, hzero] at hle
    exact singles_ne_zero_of_parseRule hparse (Multiset.le_zero.1 hle)
  rw [hd, ht]
  rcases writePolicy_writes defs i₁ chain with ⟨-, heq⟩ | ⟨policy, hpolicy, hw⟩
  · rw [heq]
    refine .chain d t chain said hdomain htable₁ hchain hne hread ?_
    rw [waitingRules, waitingRules, hrules, Multiset.map_add, ← add_assoc]
    rfl
  · have hread' := hw.readBack_eq hread
    rw [Reading.readAll_singleton] at hread'
    have hwaits : i₁.waitingPolicies d t =
        {.policy ⟨some d, some t, chain⟩ policy} + State.waitingPolicies { i₁ with policies := i₁.policies.erase chain } d t := by
      have hperm := (Dict.entries_perm_erase hpolicy).map fun e => Item.policy ⟨some d, some t, e.1⟩ e.2
      rw [waitingPolicies, Multiset.coe_eq_coe.2 hperm]
      rfl
    obtain ⟨text, indent, hi'⟩ := hw
    rw [hi'] at hread' ⊢
    refine .chain d t chain _ hdomain htable₁ hchain hne hread' ?_
    rw [hwaits, waitingRules, waitingRules, hrules, Multiset.map_add, ← add_assoc, ← add_assoc]
    rfl

/-- The number of the line and the next domain say nothing about the blocks. -/
theorem Shape.update {i : State} {items : Multiset Item} (hs : Shape i items) (nextDomain : String) (lineno : Nat) :
    Shape { i with nextDomain, lineno } items := by
  cases hs with
  | outside hdomain htable hchain hrules hpolicies hindent hread =>
    exact .outside hdomain htable hchain hrules hpolicies hindent hread
  | table d t said hdomain htable hchain hrules hread hitems => exact .table d t said hdomain htable hchain hrules hread hitems
  | chain d t c said hdomain htable hchain hrules hread hitems => exact .chain d t c said hdomain htable hchain hrules hread hitems

/-- The importer and what was read keep agreeing, whatever line comes. -/
theorem Agree.step {i i' : State} {s : Source} {line : SaveLine} (hs : Agree i s) (h : i.processLine defs levels line = .ok i') :
    Agree i' (s.say defs line) := by
  obtain ⟨hnext, hdomain, htable, hlineno⟩ := hs
  cases line with
  | comment tool =>
    obtain rfl := Except.ok.inj h
    exact ⟨by rw [Source.say, hnext], hdomain, htable, hlineno⟩
  | table name =>
    rcases handleTable_writes defs levels h with ⟨hsame, _, _, rfl⟩ | ⟨-, _, _, rfl⟩
    · exact ⟨hnext, (congrArg some hnext).trans hsame.symm, rfl, hlineno⟩
    · exact ⟨hnext, congrArg some hnext, rfl, hlineno⟩
  | chain name =>
    rw [processLine] at h
    split at h
    · cases h
    · obtain rfl := Except.ok.inj h
      exact ⟨hnext, hdomain, htable, hlineno⟩
  | policy chain policy =>
    rw [processLine] at h
    split at h
    · cases h
    · obtain rfl := Except.ok.inj h
      exact ⟨hnext, hdomain, htable, hlineno⟩
  | rule chain rest =>
    obtain ⟨i₁, r, hopen, hparse, rfl⟩ := handleRule_eq defs levels h
    rw [Source.say, hlineno, hparse]
    have hpolicy : Agree (i₁.writePolicy defs chain) s := by
      have hi₁ : Agree i₁ s := by
        rcases openChain_writes defs levels hopen with ⟨-, rfl⟩ | ⟨-, _, _, rfl⟩
        · exact ⟨hnext, hdomain, htable, hlineno⟩
        · exact ⟨hnext, hdomain, htable, hlineno⟩
      rcases writePolicy_writes defs i₁ chain with ⟨-, heq⟩ | ⟨policy, -, _, _, heq⟩
      · rw [heq]
        exact hi₁
      · rw [heq]
        exact ⟨hi₁.nextDomain, hi₁.domain, hi₁.table, hi₁.lineno⟩
    exact ⟨hpolicy.nextDomain, hpolicy.domain, hpolicy.table, hlineno ▸ hpolicy.lineno⟩
  | commit =>
    obtain ⟨_, _, rfl⟩ := commit_writes defs levels h
    exact ⟨hnext, hdomain, htable, hlineno⟩
  | other =>
    obtain rfl := Except.ok.inj h
    exact ⟨hnext, hdomain, htable, hlineno⟩

/-- A line that comes in turn. -/
theorem Shape.step {i i' : State} {s : Source} {line : SaveLine} (hagree : Agree i s) (hs : Shape i s.items) (hin : i.InTurn line)
    (h : i.processLine defs levels line = .ok i') : Shape i' (s.say defs line).items := by
  cases line with
  | comment tool =>
    obtain rfl := Except.ok.inj h
    exact hs.update _ _
  | table name => exact hs.table_step hin h
  | chain name =>
    rw [processLine] at h
    split at h
    · cases h
    · rename_i htable
      obtain rfl := Except.ok.inj h
      exact hs.declare_step (by simpa [Option.isSome_iff_ne_none] using htable) name
  | policy chain policy =>
    rw [processLine] at h
    split at h
    · cases h
    · rename_i htable
      obtain rfl := Except.ok.inj h
      rw [Source.say, hagree.domain, hagree.table]
      exact hs.policy_step hin (by simpa [Option.isSome_iff_ne_none] using htable)
  | rule chain rest =>
    obtain ⟨_, r, _, hparse, _⟩ := handleRule_eq defs levels h
    rw [Source.say, hagree.lineno, hparse, hagree.domain, hagree.table]
    exact hs.rule_step hin hparse h
  | commit => exact hs.commit_step h
  | other =>
    obtain rfl := Except.ok.inj h
    exact hs

/-- At the end the policies and the rules that wait are written, and what is open is closed. -/
theorem finish_out {i i' : State} (h : i.finish defs levels = .ok i') :
    i'.out = i.out ++ (i.policyLines ++ if i.domain.isSome then
      i.ruleLines levels ++ (closing i.chain.isSome ++ (closing i.table.isSome ++ closing i.domain.isSome)) else []) := by
  obtain ⟨i₀, hi₀⟩ : ∃ i₀, i₀ = if i.policies.entries.isEmpty then i else i.flushPolicies defs := ⟨_, rfl⟩
  have h₀ : Writes { i with policies := Dict.empty } i₀ i.policyLines := hi₀ ▸ leavePolicies_writes defs i
  have hlast : ∀ j : State, (if j.indent ≠ 0 then throw (internalError "unbalanced indentation") else pure j) =
      (.ok i' : Except FermError State) → i' = j := by
    intro j hj
    split at hj
    · cases hj
    · exact (Except.ok.inj hj).symm
  rw [finish, ← hi₀] at h
  obtain ⟨text, indent, rfl⟩ := h₀
  dsimp only at h
  split at h
  · rename_i hdomain
    obtain ⟨i₁, hflush, h⟩ := Except.bind_eq_ok.1 h
    obtain ⟨_, _, rfl⟩ := flushDomain_writes defs levels hflush
    rw [hlast _ h, hdomain, if_pos rfl]
    exact List.append_assoc ..
  · rename_i hdomain
    rw [hlast _ h, if_neg hdomain, List.append_nil]

/-- Nothing is open at the end when no domain was opened. -/
theorem finish_indent {i i' : State} (hdomain : i.domain = none) (hpolicies : i.policies.entries = [])
    (h : i.finish defs levels = .ok i') : i.indent = 0 := by
  rw [finish, hpolicies, List.isEmpty_nil, if_pos rfl, hdomain] at h
  by_contra hne
  simp [hne, bind, Except.bind, pure, Except.pure, throw, throwThe, MonadExceptOf.throw] at h

/-- An end that comes in turn. -/
theorem Shape.finish {i i' : State} {items : Multiset Item} (hs : Shape i items) (hin : i.EndsInTurn)
    (h : i.finish defs levels = .ok i') : readBack i'.out = some ⟨[], items⟩ := by
  have hout := finish_out h
  cases hs with
  | outside hdomain htable hchain hrules hpolicies hindent hread =>
    rw [hdomain, policyLines_eq_nil.2 hpolicies] at hout
    rw [hout, readBack_append, hread]
    rfl
  | table d t said hdomain htable hchain hrules hread hitems =>
    rw [hdomain, htable, hchain, ruleLines_eq_nil hrules] at hout
    rw [hout, readBack_append, hread, Option.bind_some, Reading.readAll_append, readAll_policyLines, ← hitems]
    rfl
  | chain d t c said hdomain htable hchain hrules hread hitems =>
    rcases hin with hin | hpolicies
    · rw [hchain] at hin
      cases hin
    · rw [waitingPolicies_eq_zero hpolicies, add_zero] at hitems
      rw [hdomain, htable, hchain, policyLines_eq_nil.2 hpolicies, List.nil_append] at hout
      rw [hout, readBack_append, hread]
      simp only [Option.bind_some, Option.isSome_some, if_true, Reading.readAll_append, readAll_ruleLines, ← hitems]
      rfl

end State

/-! ## Policies that are lost -/

/-- Wherever the lines stand, they say at most `n` policies. -/
def SaysAtMost (ws : List Written) (n : Nat) : Prop :=
  ∀ r r' : Reading, r.readAll ws = some r' → policyCount r'.items ≤ policyCount r.items + n

namespace SaysAtMost

theorem nil : SaysAtMost [] 0 := by
  intro r r' h
  cases h
  exact Nat.le_refl _

theorem append {ws ws' : List Written} {n n' : Nat} (h : SaysAtMost ws n) (h' : SaysAtMost ws' n') :
    SaysAtMost (ws ++ ws') (n + n') := by
  intro r r'' hr
  rw [Reading.readAll_append] at hr
  obtain ⟨r', hr, hr'⟩ := Option.bind_eq_some_iff.1 hr
  have hle := h r r' hr
  have hle' := h' r' r'' hr'
  omega

theorem opening (header : Header) : SaysAtMost [.opening header] 0 := by
  intro r r' h
  cases h
  exact Nat.le_refl _

theorem closing (isOpen : Bool) : SaysAtMost (State.closing isOpen) 0 := by
  intro r r' h
  cases isOpen with
  | false =>
    cases h
    exact Nat.le_refl _
  | true =>
    rw [State.closing, if_pos rfl, Reading.readAll_singleton, Reading.read] at h
    split at h
    · cases h
    · cases h
      exact Nat.le_refl _

theorem chain (name : String) : SaysAtMost [.leaf (.chain name)] 0 := by
  intro r r' h
  rw [Reading.readAll_singleton, Reading.read, Leaf.items, Option.map_some, add_zero, Option.some.injEq] at h
  subst h
  exact Nat.le_refl _

theorem policy (value : String) : SaysAtMost [.leaf (.policy value)] 1 := by
  intro r r' h
  rw [Reading.readAll_singleton, Reading.read] at h
  obtain ⟨items, hitems, rfl⟩ := Option.map_eq_some_iff.1 h
  unfold Leaf.items at hitems
  dsimp only at hitems
  split at hitems
  · cases hitems
    rw [policyCount_add, policyCount_policy]
  · cases hitems

theorem ruleLines (levels : Nat) (i : State) : SaysAtMost (i.ruleLines levels) 0 :=
  fun r r' h => Nat.le_of_eq (writtenAll_keeps _ r r' h).2

theorem policyLines (i : State) : SaysAtMost i.policyLines i.policies.entries.length := by
  intro r r' h
  have hcount := (readAll_chainPolicies_keeps h).2
  rw [List.length_insertionSort] at hcount
  exact Nat.le_of_eq hcount

end SaysAtMost

/-- The number of policies a line says. -/
def SaveLine.policies : SaveLine → Nat
  | .policy .. => 1
  | _ => 0

theorem policyCount_say (defs : Defs) (s : Source) (line : SaveLine) :
    policyCount (s.say defs line).items = policyCount s.items + line.policies := by
  cases line with
  | policy chain policy => exact (policyCount_add ..).trans (by rw [policyCount_policy]; rfl)
  | rule chain rest =>
    rw [Source.say]
    cases parseRule defs s.lineno rest with
    | error e => rfl
    | ok r =>
      rw [policyCount_add, policyCount_rules (fun _ => _)]
      rfl
  | _ => rfl

namespace State

variable {defs : Defs} {levels : Nat}

/-- A line writes no more policies than were waiting or are read with it. -/
theorem processLine_says {i i' : State} {line : SaveLine} (h : i.processLine defs levels line = .ok i') :
    ∃ ws n, i'.out = i.out ++ ws ∧ SaysAtMost ws n ∧
      n + i'.policies.entries.length ≤ i.policies.entries.length + line.policies := by
  cases line with
  | comment tool =>
    obtain rfl := Except.ok.inj h
    exact ⟨[], 0, (List.append_nil _).symm, .nil, by simp⟩
  | table name =>
    rcases handleTable_writes defs levels h with ⟨-, _, _, rfl⟩ | ⟨-, _, _, rfl⟩
    · exact ⟨_, _, rfl, (SaysAtMost.policyLines i).append (.append (.closing _) (.opening _)), by simp [Dict.empty]⟩
    · refine ⟨_, _, rfl, (SaysAtMost.policyLines i).append (.append (.ruleLines levels i) (.append (.closing _)
        (.append (.closing _) (.append (.closing _) (.append (.opening _) (.opening _)))))), by simp [Dict.empty]⟩
  | chain name =>
    rw [processLine] at h
    split at h
    · cases h
    · obtain rfl := Except.ok.inj h
      exact ⟨_, 0, rfl, .chain name, by simp [writeLine]⟩
  | policy chain policy =>
    rw [processLine] at h
    split at h
    · cases h
    · obtain rfl := Except.ok.inj h
      refine ⟨[], 0, (List.append_nil _).symm, .nil, ?_⟩
      cases hk : i.policies.get? chain with
      | none => simp [Dict.entries_set_of_get?_none hk, SaveLine.policies]
      | some old => simp [Dict.length_entries_set (Dict.mem_of_get? hk)]
  | rule chain rest =>
    obtain ⟨i₁, r, hopen, hparse, rfl⟩ := handleRule_eq defs levels h
    obtain ⟨ws, hout, hsaid, hpolicies⟩ :
        ∃ ws, i₁.out = i.out ++ ws ∧ SaysAtMost ws 0 ∧ i₁.policies = i.policies := by
      rcases openChain_writes defs levels hopen with ⟨-, rfl⟩ | ⟨-, _, _, rfl⟩
      · exact ⟨[], (List.append_nil _).symm, .nil, rfl⟩
      · exact ⟨_, rfl, (SaysAtMost.ruleLines levels i).append (.append (.closing _) (.opening _)), rfl⟩
    rcases writePolicy_writes defs i₁ chain with ⟨-, heq⟩ | ⟨policy, hpolicy, _, _, heq⟩
    · rw [heq]
      exact ⟨ws, 0, hout, hsaid, by simp [hpolicies]⟩
    · rw [heq]
      refine ⟨ws ++ [.leaf (.policy policy)], 1, by simp [hout], hsaid.append (.policy policy), ?_⟩
      have hlength := (Dict.entries_perm_erase hpolicy).length_eq
      rw [List.length_cons] at hlength
      simp only [hpolicies, SaveLine.policies] at hlength ⊢
      omega
  | commit =>
    obtain ⟨_, _, rfl⟩ := commit_writes defs levels h
    exact ⟨_, _, rfl, (SaysAtMost.ruleLines levels i).append (.closing _), by simp⟩
  | other =>
    obtain rfl := Except.ok.inj h
    exact ⟨[], 0, (List.append_nil _).symm, .nil, by simp⟩

/-! ## Lines out of turn -/

/-- Rules wait outside of their chain's block: a table was opened inside of another one, or a chain outside of all tables. -/
inductive Adrift (i : State) : Prop
  | table (d t t' : String) (said : Multiset Item) (hread : readBack i.out = some ⟨[.domain d, .table t, .table t'], said⟩)
      (hdomain : i.domain = some d) (htable : i.table.isSome = true) (hchain : i.chain.isSome = true)
      (hrules : singlesAll i.rules ≠ 0)
  | outside (c : String) (said : Multiset Item) (hread : readBack i.out = some ⟨[.chain c], said⟩)
      (hdomain : i.domain = none) (htable : i.table = none) (hchain : i.chain.isSome = true)
      (hpolicies : i.policies.entries = []) (hindent : i.indent = 4) (hrules : singlesAll i.rules ≠ 0)

/-- Something was written where it does not belong or will be, or a policy was lost. -/
inductive Lost (i : State) (s : Source) : Prop
  | misplaced (hread : readBack i.out = none)
  | forgotten (r : Reading) (hread : readBack i.out = some r)
      (hcount : policyCount r.items + i.policies.entries.length < policyCount s.items)
  | adrift (h : Adrift i)

/-- Rules that wait outside of their chain's block are written where they do not belong. -/
theorem Adrift.flushed {i : State} (h : Adrift i) (levels : Nat) {out : List Written} (ws : List Written)
    (hout : out = i.out ++ (i.ruleLines levels ++ ws)) : readBack out = none := by
  have hrules : ∀ path said, readBack i.out = some ⟨path, said⟩ → Stray path → singlesAll i.rules ≠ 0 → readBack out = none := by
    intro path said hread hstray hne
    rw [← singlesAll_flush levels] at hne
    rw [hout, readBack_append, hread, Option.bind_some, Reading.readAll_append, ruleLines, readAll_writtenAll_stray _ hstray hne]
    rfl
  cases h with
  | table d t t' said hread _ _ _ hne => exact hrules _ said hread (by rintro _ _ _ _ ⟨⟩) hne
  | outside c said hread _ _ _ _ _ hne => exact hrules _ said hread (by rintro _ _ _ _ ⟨⟩) hne

/-- Policies that wait are written outside of their table. -/
theorem policies_stray {i : State} {path : List Header} {said : Multiset Item} (hread : readBack i.out = some ⟨path, said⟩)
    (hpath : ∀ d t, path ≠ [.domain d, .table t]) (hne : i.policies.entries ≠ []) {out : List Written} (ws : List Written)
    (hout : out = i.out ++ (i.policyLines ++ ws)) : readBack out = none := by
  have hsorted : (i.policies.entries.insertionSort fun e e' => e.1 ≤ e'.1) ≠ [] := by
    rwa [Ne, ← List.length_eq_zero_iff, List.length_insertionSort, List.length_eq_zero_iff]
  rw [hout, readBack_append, hread, Option.bind_some, Reading.readAll_append, policyLines,
    readAll_chainPolicies_stray hpath hsorted]
  rfl

/-- The policies that wait do not belong there either. -/
theorem Adrift.policies {i : State} (h : Adrift i) {out : List Written} (ws : List Written)
    (hout : out = i.out ++ (i.policyLines ++ ws)) : readBack out = none ∨ i.policies.entries = [] := by
  by_cases hempty : i.policies.entries = []
  · exact Or.inr hempty
  · refine Or.inl ?_
    cases h with
    | table d t t' said hread => exact policies_stray hread (by rintro _ _ ⟨⟩) hempty ws hout
    | outside c said hread => exact policies_stray hread (by rintro _ _ ⟨⟩) hempty ws hout

/-- Rules outside of their chain's block stay there until they are written. -/
theorem Adrift.step {i i' : State} {line : SaveLine} (ha : Adrift i) (h : i.processLine defs levels line = .ok i') :
    readBack i'.out = none ∨ Adrift i' := by
  cases line with
  | comment tool =>
    obtain rfl := Except.ok.inj h
    refine Or.inr ?_
    cases ha with
    | table d t t' said hread hdomain htable hchain hrules => exact .table d t t' said hread hdomain htable hchain hrules
    | outside c said hread hdomain htable hchain hpolicies hindent hrules =>
      exact .outside c said hread hdomain htable hchain hpolicies hindent hrules
  | table name =>
    rcases handleTable_writes defs levels h with ⟨hsame, hw⟩ | ⟨-, hw⟩
    · obtain ⟨text, indent, rfl⟩ := hw
      rcases ha.policies _ rfl with hnone | hempty
      · exact Or.inl hnone
      · cases ha with
        | table d t t' said hread hdomain htable hchain hrules =>
          refine Or.inr (.table d t name said ?_ hdomain rfl hchain hrules)
          show readBack (i.out ++ (i.policyLines ++ (closing i.table.isSome ++ [.opening (.table name)]))) = _
          rw [policyLines_eq_nil.2 hempty, htable, readBack_append, hread]
          rfl
        | outside c said hread hdomain =>
          rw [hdomain] at hsame
          cases hsame
    · obtain ⟨text, indent, rfl⟩ := hw
      rcases ha.policies _ rfl with hnone | hempty
      · exact Or.inl hnone
      · refine Or.inl ?_
        show readBack (i.out ++ (i.policyLines ++ (i.ruleLines levels ++ _))) = none
        rw [policyLines_eq_nil.2 hempty]
        exact ha.flushed levels _ rfl
  | chain name =>
    rw [processLine] at h
    split at h
    · cases h
    · rename_i htable'
      obtain rfl := Except.ok.inj h
      refine Or.inr ?_
      cases ha with
      | table d t t' said hread hdomain htable hchain hrules =>
        refine .table d t t' said ?_ hdomain htable hchain hrules
        rw [(writeLine_writes defs i (.leaf (.chain name))).readBack_eq hread, Reading.readAll_singleton, Reading.read, Leaf.items,
          Option.map_some, add_zero]
      | outside c said hread hdomain htable =>
        rw [htable] at htable'
        exact absurd rfl htable'
  | policy chain policy =>
    rw [processLine] at h
    split at h
    · cases h
    · rename_i htable'
      obtain rfl := Except.ok.inj h
      refine Or.inr ?_
      cases ha with
      | table d t t' said hread hdomain htable hchain hrules => exact .table d t t' said hread hdomain htable hchain hrules
      | outside c said hread hdomain htable =>
        rw [htable] at htable'
        exact absurd rfl htable'
  | rule chain rest =>
    obtain ⟨i₁, r, hopen, hparse, rfl⟩ := handleRule_eq defs levels h
    have hrules' : ∀ rs, singlesAll rs ≠ 0 → singlesAll (rs ++ [.line r.entries r.data]) ≠ 0 := by
      intro rs hne hzero
      have hle := Multiset.le_add_right (singlesAll rs) (singlesAll [.line r.entries r.data])
      rw [← singlesAll_append, hzero] at hle
      exact hne (Multiset.le_zero.1 hle)
    rcases openChain_writes defs levels hopen with ⟨hsame, rfl⟩ | ⟨-, hw⟩
    · rcases writePolicy_writes defs i₁ chain with ⟨-, heq⟩ | ⟨policy, hpolicy, hw⟩
      · rw [heq]
        refine Or.inr ?_
        cases ha with
        | table d t t' said hread hdomain htable hchain hrules =>
          exact .table d t t' said hread hdomain htable hchain (hrules' _ hrules)
        | outside c said hread hdomain htable hchain hpolicies hindent hrules =>
          exact .outside c said hread hdomain htable hchain hpolicies hindent (hrules' _ hrules)
      · cases ha with
        | table d t t' said hread => exact Or.inl (hw.readBack_eq hread)
        | outside c said hread => exact Or.inl (hw.readBack_eq hread)
    · have hnone : readBack i₁.out = none := by
        obtain ⟨text, indent, rfl⟩ := hw
        exact ha.flushed levels _ rfl
      rcases writePolicy_writes defs i₁ chain with ⟨-, heq⟩ | ⟨policy, hpolicy, hw⟩
      · rw [heq]
        exact Or.inl hnone
      · exact Or.inl (hw.readBack_none hnone)
  | commit =>
    obtain ⟨text, indent, rfl⟩ := commit_writes defs levels h
    exact Or.inl (ha.flushed levels _ rfl)
  | other =>
    obtain rfl := Except.ok.inj h
    exact Or.inr ha

/-- What is lost stays lost. -/
theorem Lost.step {i i' : State} {s : Source} {line : SaveLine} (hl : Lost i s) (h : i.processLine defs levels line = .ok i') :
    Lost i' (s.say defs line) := by
  obtain ⟨ws, n, hout, hsaid, hpolicies⟩ := processLine_says h
  cases hl with
  | misplaced hread =>
    refine .misplaced ?_
    rw [hout, readBack_append, hread]
    rfl
  | forgotten r hread hcount =>
    cases hread' : readBack i'.out with
    | none => exact .misplaced hread'
    | some r' =>
      refine .forgotten r' hread' ?_
      rw [hout, readBack_append, hread] at hread'
      have hle := hsaid r r' hread'
      rw [policyCount_say]
      omega
  | adrift ha =>
    rcases ha.step h with hnone | ha
    · exact .misplaced hnone
    · exact .adrift ha

/-- The number of policies in what was read, as long as every line came in turn. -/
theorem Shape.policyCount_eq {i : State} {items : Multiset Item} (hs : Shape i items) :
    ∃ r, readBack i.out = some r ∧ policyCount items = policyCount r.items + i.policies.entries.length := by
  have hwaits : ∀ d t, policyCount (i.waitingPolicies d t) = i.policies.entries.length := fun d t => policyCount_policies ..
  cases hs with
  | outside _ _ _ _ hpolicies _ hread => exact ⟨_, hread, by rw [hpolicies]; rfl⟩
  | table d t said _ _ _ _ hread hitems => exact ⟨_, hread, by rw [hitems, policyCount_add, hwaits]⟩
  | chain d t c said _ _ _ _ hread hitems =>
    refine ⟨_, hread, ?_⟩
    rw [hitems, policyCount_add, policyCount_add, hwaits, waitingRules, policyCount_rules (fun _ => _), Nat.add_zero]

/-- A line that comes out of turn puts something where it does not belong, or loses it. -/
theorem Shape.outOfTurn {i i' : State} {s : Source} {line : SaveLine} (hs : Shape i s.items) (hin : ¬ i.InTurn line) (h : i.processLine defs levels line = .ok i') : Lost i' (s.say defs line) := by
  cases line with
  | table name =>
    cases hs with
    | outside _ _ hchain => exact absurd (Or.inl hchain) hin
    | table _ _ _ _ _ hchain => exact absurd (Or.inl hchain) hin
    | chain d t c said hdomain htable hchain hrules hread hitems =>
      by_cases hempty : i.policies.entries = []
      · rcases handleTable_writes defs levels h with ⟨-, text, indent, rfl⟩ | ⟨hdiffers, -⟩
        · refine .adrift (.table d t name said ?_ hdomain rfl (by rw [hchain]; rfl) hrules)
          show readBack (i.out ++ (i.policyLines ++ (closing i.table.isSome ++ [.opening (.table name)]))) = _
          rw [policyLines_eq_nil.2 hempty, htable, readBack_append, hread]
          rfl
        · exact absurd (Or.inr ⟨hempty, hdiffers⟩) hin
      · rcases handleTable_writes defs levels h with ⟨-, text, indent, rfl⟩ | ⟨-, text, indent, rfl⟩
        · exact .misplaced (policies_stray hread (by rintro _ _ ⟨⟩) hempty _ rfl)
        · exact .misplaced (policies_stray hread (by rintro _ _ ⟨⟩) hempty _ rfl)
  | policy chain policy =>
    obtain ⟨old, hold⟩ := Option.ne_none_iff_exists'.1 hin
    obtain ⟨r, hread, hcount⟩ := hs.policyCount_eq
    rw [processLine] at h
    split at h
    · cases h
    · obtain rfl := Except.ok.inj h
      refine .forgotten r hread ?_
      rw [policyCount_say, hcount, Dict.length_entries_set (Dict.mem_of_get? hold)]
      exact Nat.lt_succ_self _
  | rule chain rest =>
    cases hs with
    | outside hdomain htable hchain hrules hpolicies hindent hread =>
      obtain ⟨i₁, r, hopen, hparse, rfl⟩ := handleRule_eq defs levels h
      have hi₁ : i₁ = { i with chain := some chain }.writeLine defs (.opening (.chain chain)) := by
        rw [openChain, hchain] at hopen
        obtain ⟨i₂, hflush, hopen⟩ := Except.bind_eq_ok.1 hopen
        rw [flush_of_nil hrules, Except.ok.injEq] at hflush
        subst hflush
        exact (Except.ok.inj hopen).symm
      have hget : i₁.policies.get? chain = none := by
        rw [hi₁, Dict.get?_eq_none_iff, Dict.mem_iff_mem_keys]
        show chain ∉ i.policies.entries.map Prod.fst
        rw [hpolicies]
        simp
      have hpolicy : i₁.writePolicy defs chain = i₁ := by rw [writePolicy, hget]
      have hparsed : singlesAll [Rule.line r.entries r.data] ≠ 0 := by
        rw [singlesAll, singlesAll, add_zero]
        exact singles_ne_zero_of_parseRule hparse
      rw [hpolicy, hi₁]
      refine .adrift (.outside chain s.items ?_ hdomain htable rfl hpolicies ?_ (by simpa [writeLine, hrules] using hparsed))
      · exact ((writeLine_writes defs { i with chain := some chain } (.opening (.chain chain))).readBack_eq hread).trans rfl
      · show State.indent ({ i with chain := some chain }.writeLine defs (.opening (.chain chain))) = 4
        simp [writeLine, Written.tokens, Header.tokens, hindent, startsWith]
    | table _ _ _ _ htable => exact absurd (by rw [InTurn, htable]; rfl) hin
    | chain _ _ _ _ _ htable => exact absurd (by rw [InTurn, htable]; rfl) hin
  | _ => exact absurd trivial hin

/-- An end that comes out of turn. -/
theorem Shape.finish_outOfTurn {i i' : State} {items : Multiset Item} (hs : Shape i items) (hin : ¬ i.EndsInTurn)
    (h : i.finish defs levels = .ok i') : readBack i'.out = none := by
  rw [EndsInTurn, not_or] at hin
  cases hs with
  | outside _ _ hchain => exact absurd hchain hin.1
  | table _ _ _ _ _ hchain => exact absurd hchain hin.1
  | chain d t c said _ _ _ _ hread => exact policies_stray hread (by rintro _ _ ⟨⟩) hin.2 _ (finish_out h)

/-- What is lost is not written at the end. -/
theorem Lost.finish {i i' : State} {s : Source} (hl : Lost i s) (h : i.finish defs levels = .ok i') :
    readBack i'.out ≠ some ⟨[], s.items⟩ := by
  have hout := finish_out h
  cases hl with
  | misplaced hread =>
    rw [hout, readBack_append, hread]
    intro he
    cases he
  | forgotten r hread hcount =>
    intro hread'
    rw [hout, readBack_append, hread] at hread'
    have hsaid : SaysAtMost (i.policyLines ++ if i.domain.isSome then
        i.ruleLines levels ++ (closing i.chain.isSome ++ (closing i.table.isSome ++ closing i.domain.isSome)) else [])
        (i.policies.entries.length + 0) := by
      refine (SaysAtMost.policyLines i).append ?_
      split
      · exact (SaysAtMost.ruleLines levels i).append (.append (.closing _) (.append (.closing _) (.closing _)))
      · exact .nil
    have hle := hsaid r _ hread'
    dsimp only at hle
    omega
  | adrift ha =>
    have hnone : readBack i'.out = none := by
      rcases ha.policies _ hout with hnone | hempty
      · exact hnone
      · rw [policyLines_eq_nil.2 hempty, List.nil_append] at hout
        cases ha with
        | table d t t' said hread hdomain htable hchain hrules =>
          rw [hdomain, Option.isSome_some, if_pos rfl] at hout
          exact (Adrift.table d t t' said hread hdomain htable hchain hrules).flushed levels _ hout
        | outside c said hread hdomain htable hchain hpolicies hindent hrules =>
          rw [finish_indent hdomain hpolicies h] at hindent
          cases hindent
    rw [hnone]
    intro he
    cases he

/-! ## Runs -/

theorem linesInTurn_cons {i i₁ : State} {raw : String} {lines : List String} (h : i.readLine defs levels raw = .ok i₁) :
    LinesInTurn defs levels i (raw :: lines) ↔ i.InTurn (classifyLine raw) ∧ LinesInTurn defs levels i₁ lines := by
  constructor
  · intro hall
    refine ⟨hall [] raw lines rfl i rfl, fun before raw' after hsplit j hj => ?_⟩
    refine hall (raw :: before) raw' after (by rw [hsplit, List.cons_append]) j ?_
    rw [List.foldlM_cons, h]
    exact hj
  · rintro ⟨hraw, hlines⟩ before raw' after hsplit j hj
    cases before with
    | nil =>
      obtain ⟨rfl, rfl⟩ := List.cons.inj hsplit
      obtain rfl := Except.ok.inj hj
      exact hraw
    | cons raw'' before =>
      obtain ⟨rfl, hrest⟩ := List.cons.inj hsplit
      rw [List.foldlM_cons, h] at hj
      exact hlines before raw' after hrest j hj

/-- What is lost stays lost over a run. -/
theorem Lost.run {lines : List String} {i i' : State} {s : Source} (hl : Lost i s)
    (h : lines.foldlM (readLine defs levels) i = .ok i') : Lost i' (lines.foldl (Source.readLine defs) s) := by
  induction lines generalizing i s with
  | nil =>
    obtain rfl := Except.ok.inj h
    exact hl
  | cons raw lines ih =>
    obtain ⟨i₁, hstep, h⟩ := Except.bind_eq_ok.1 h
    have hnumbered : Lost { i with lineno := i.lineno + 1 } { s with lineno := s.lineno + 1 } := by
      cases hl with
      | misplaced hread => exact .misplaced hread
      | forgotten r hread hcount => exact .forgotten r hread hcount
      | adrift ha =>
        refine .adrift ?_
        cases ha with
        | table d t t' said hread hdomain htable hchain hrules => exact .table d t t' said hread hdomain htable hchain hrules
        | outside c said hread hdomain htable hchain hpolicies hindent hrules =>
          exact .outside c said hread hdomain htable hchain hpolicies hindent hrules
    exact ih (hnumbered.step hstep) h

/-- A run whose lines all come in turn keeps everything, written or waiting; any other one loses something. -/
theorem Shape.run {lines : List String} {i i' : State} {s : Source} (hagree : Agree i s) (hs : Shape i s.items)
    (h : lines.foldlM (readLine defs levels) i = .ok i') :
    LinesInTurn defs levels i lines ∧ Shape i' (lines.foldl (Source.readLine defs) s).items ∨
      ¬ LinesInTurn defs levels i lines ∧ Lost i' (lines.foldl (Source.readLine defs) s) := by
  induction lines generalizing i s with
  | nil =>
    obtain rfl := Except.ok.inj h
    refine Or.inl ⟨fun before raw after hsplit => ?_, hs⟩
    simp at hsplit
  | cons raw lines ih =>
    obtain ⟨i₁, hstep, h⟩ := Except.bind_eq_ok.1 h
    have hagree' : Agree { i with lineno := i.lineno + 1 } { s with lineno := s.lineno + 1 } :=
      ⟨hagree.nextDomain, hagree.domain, hagree.table, congrArg (· + 1) hagree.lineno⟩
    have hs' : Shape { i with lineno := i.lineno + 1 } s.items := hs.update i.nextDomain _
    have hsame : State.InTurn { i with lineno := i.lineno + 1 } (classifyLine raw) ↔ i.InTurn (classifyLine raw) := by
      cases classifyLine raw <;> exact Iff.rfl
    rw [linesInTurn_cons hstep, ← hsame, List.foldl_cons]
    by_cases hin : State.InTurn { i with lineno := i.lineno + 1 } (classifyLine raw)
    · have hstep' := ih (hagree'.step hstep) (Shape.step hagree' hs' hin hstep) h
      simp only [hin, true_and]
      exact hstep'
    · have hlost : Lost i₁ (s.readLine defs raw) := Shape.outOfTurn (s := { s with lineno := s.lineno + 1 }) hs' hin hstep
      exact Or.inr ⟨fun hall => hin hall.1, hlost.run h⟩

end State

/-- The options that need no module, and no modules. -/
def plainDefs : Defs where
  matchDef name := if name = "" then some baseKeywords else none
  protoDef _ := none
  targetDef _ := none

/-- Two tables, the first of which is not committed. -/
def uncommitted : List String := ["*filter", "-A INPUT -j ACCEPT", "*nat", "COMMIT"]

/-- Two families, every table committed. -/
def committed : List String :=
  ["*filter", ":INPUT DROP [0:0]", "-A INPUT -j ACCEPT", "COMMIT", "# Generated by ip6tables-save", "*nat", "-A custom -j RETURN",
    "COMMIT"]

end Ferm.Importer
