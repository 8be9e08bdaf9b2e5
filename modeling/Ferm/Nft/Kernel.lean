import Ferm.Lib.Dict
import Ferm.Lib.KeyedRun
import Ferm.Plan.Readback

/-!
# The kernel's side

The table `ferm` of one nft family as the kernel holds it, and what nft does with the lines of a script: `add chain` on a chain
that is there keeps its rules and changes its policy only if the line carries one, `add rule` appends, adding a set or an element
that is there changes nothing. A script is one transaction, so a line that fails fails it.
-/

namespace Ferm

/-- What kind of chain the kernel has: a user chain, or a base chain with the canonical words of its declaration. -/
inductive ChainKind where
  | user
  | base (decl : List String) (policy : String)
  deriving DecidableEq, Repr

namespace ChainKind

/-- The words of the canonical header, `-` for a user chain. -/
def policyField : ChainKind → List String
  | user => ["-"]
  | base decl policy => decl ++ ["policy", policy]

/-- Two chains with one header are of one kind. -/
theorem policyField_injective : Function.Injective policyField := by
  intro a b h
  cases a with
  | user =>
    cases b with
    | user => rfl
    | base decl policy => simpa [policyField] using congrArg List.length h
  | base decl policy =>
    cases b with
    | user => simpa [policyField] using congrArg List.length h
    | base decl' policy' =>
      obtain ⟨h1, h2⟩ := List.append_inj' h rfl
      simp only [List.cons.injEq, and_true, true_and] at h2
      rw [h1, h2]

theorem policyField_eq_user_iff {k : ChainKind} : k.policyField = ["-"] ↔ k = .user :=
  ⟨fun h => policyField_injective (show k.policyField = user.policyField from h), fun h => h ▸ rfl⟩

/-- The kind a declaration makes: a base chain whose priority is a number, with the policy `accept` unless the line says
otherwise. -/
def ofHeader (family : String) : Option ChainHeader → ChainKind
  | none => user
  | some h =>
    base (canonicalizeHeaderLoop (NFT_PRIORITY_LANDMARKS family) h.decl.length h.decl).1 (h.policy.getD "accept")

/-- What a declaration makes of a chain that is there. -/
def redeclare (header : Option ChainHeader) : ChainKind → ChainKind
  | user => user
  | base decl policy => base decl ((header.bind ChainHeader.policy).getD policy)

end ChainKind

/-- A chain of the kernel, with its rules in canonical form. -/
@[ext] structure KernelChain where
  kind : ChainKind
  rules : List String := []
  deriving DecidableEq, Repr

/-- A named set of the kernel, with its elements as nft lists them. -/
structure KernelSet (form : NftForm) where
  elements : List String := []
  type_ : Option String := none
  flags : List String := []
  deriving DecidableEq, Repr

/-- The table `ferm` of the kernel. -/
structure KernelTable (form : NftForm) where
  chains : Dict String KernelChain := Dict.empty
  sets : Dict String (KernelSet form) := Dict.empty
  objects : Dict String ParsedObject := Dict.empty

/-- What a listing of the chain is read as. -/
def KernelChain.parsed (c : KernelChain) : ParsedChain := ⟨c.kind.policyField, c.rules⟩

variable {form : NftForm}

namespace KernelSet

/-- The set with further elements; those that are there stay as they are. -/
def add (s : KernelSet form) (elements : List String) : KernelSet form :=
  { s with elements := s.elements ++ (elements.map form.listElement).filter (· ∉ s.elements) }

/-- The set without some elements. -/
def remove (s : KernelSet form) (elements : List String) : KernelSet form :=
  { s with elements := s.elements.filter (· ∉ elements.map form.listElement) }

theorem mem_add {s : KernelSet form} {elements : List String} {e : String} :
    e ∈ (s.add elements).elements ↔ e ∈ s.elements ∨ e ∈ elements.map form.listElement := by
  simp only [add, List.mem_append, List.mem_filter, decide_not, Bool.not_eq_true', decide_eq_false_iff_not]
  tauto

theorem mem_remove {s : KernelSet form} {elements : List String} {e : String} :
    e ∈ (s.remove elements).elements ↔ e ∈ s.elements ∧ e ∉ elements.map form.listElement := by
  simp only [remove, List.mem_filter, decide_not, Bool.not_eq_true', decide_eq_false_iff_not]

/-- What a listing of the set is read as: its elements are put in canonical form and order. -/
def parsed (name : String) (s : KernelSet form) : ParsedSet :=
  ⟨name, form.canonicalizeSetElements s.elements, s.type_, s.flags⟩

end KernelSet

/-! ## Commands on one cell -/

/-- One cell of the table; the table itself is there. -/
inductive Cell (form : NftForm) where
  | table
  | chain (c : Option KernelChain)
  | set (s : Option (KernelSet form))
  | object (o : Option ParsedObject)

/-- What a command does to the cell it works on; `none` when nft refuses it. Flushing or deleting the whole table is not a
command on a cell. -/
def cellStep (family : String) : Command → Cell form → Option (Cell form)
  | .addTable, .table => some .table
  | .addChain _ header, .chain none => some (.chain (some ⟨.ofHeader family header, []⟩))
  | .addChain _ header, .chain (some c) => some (.chain (some { c with kind := c.kind.redeclare header }))
  | .flushChain _, .chain (some c) => some (.chain (some { c with rules := [] }))
  | .deleteChain _, .chain (some _) => some (.chain none)
  | .addRule _ body, .chain (some c) =>
    some (.chain (some { c with rules := c.rules ++ [form.canonicalizeNftRule family body] }))
  | .addSet _ statements, .set none =>
    some (.set (some { type_ := (parseSetHeader statements).1, flags := (parseSetHeader statements).2 }))
  | .addSet _ _, .set (some s) => some (.set (some s))
  | .addElement _ elements, .set (some s) => some (.set (some (s.add elements)))
  | .deleteElement _ elements, .set (some s) => some (.set (some (s.remove elements)))
  | .addObject kind name body, .object none => some (.object (some ⟨name, kind, body⟩))
  | .addObject _ _ _, .object (some o) => some (.object (some o))
  | _, _ => none

namespace KernelTable

/-- The cell of a target. -/
def view (t : KernelTable form) : Target → Cell form
  | .table => .table
  | .chain name => .chain (t.chains.get? name)
  | .set name => .set (t.sets.get? name)
  | .object name => .object (t.objects.get? name)

/-- The table with another cell at a target. -/
def write (t : KernelTable form) : Target → Cell form → KernelTable form
  | .chain name, .chain (some c) => { t with chains := t.chains.set name c }
  | .chain name, .chain none => { t with chains := t.chains.erase name }
  | .set name, .set (some s) => { t with sets := t.sets.set name s }
  | .object name, .object (some o) => { t with objects := t.objects.set name o }
  | _, _ => t

/-- What a command does to the table. -/
def exec (family : String) (c : Command) (t : KernelTable form) : Option (KernelTable form) :=
  (cellStep family c (t.view c.target)).map (t.write c.target)

/-- Writing a cell leaves the others as they are. -/
theorem view_write_of_ne (t : KernelTable form) {k k' : Target} (cell : Cell form) (h : k' ≠ k) :
    (t.write k cell).view k' = t.view k' := by
  cases k <;> cases cell <;> try rfl
  case chain.chain name c =>
    cases c <;> cases k' <;> try rfl
    all_goals
      have hn := fun e => h (congrArg Target.chain e)
      simp only [write, view, Dict.get?_erase, Dict.get?_set, if_neg hn]
  case set.set name s =>
    cases s <;> cases k' <;> try rfl
    all_goals
      have hn := fun e => h (congrArg Target.set e)
      simp only [write, view, Dict.get?_set, if_neg hn]
  case object.object name o =>
    cases o <;> cases k' <;> try rfl
    all_goals
      have hn := fun e => h (congrArg Target.object e)
      simp only [write, view, Dict.get?_set, if_neg hn]

/-- The cell a command has worked on is what the command makes of it. -/
theorem view_write_cellStep (family : String) (t : KernelTable form) (c : Command) (cell : Cell form)
    (h : cellStep family c (t.view c.target) = some cell) : (t.write c.target cell).view c.target = cell := by
  cases c <;> simp only [Command.target, view] at h ⊢
  case addTable => cases h; rfl
  case flushTable => cases h
  case deleteTable => cases h
  case addObject kind name body => cases ho : t.objects.get? name <;> rw [ho] at h <;> cases h <;> simp [write]
  case addSet name statements => cases hs : t.sets.get? name <;> rw [hs] at h <;> cases h <;> simp [write]
  case addElement name elements => cases hs : t.sets.get? name <;> rw [hs] at h <;> cases h; simp [write]
  case deleteElement name elements => cases hs : t.sets.get? name <;> rw [hs] at h <;> cases h; simp [write]
  case addChain name header => cases hc : t.chains.get? name <;> rw [hc] at h <;> cases h <;> simp [write]
  case flushChain name => cases hc : t.chains.get? name <;> rw [hc] at h <;> cases h; simp [write]
  case deleteChain name =>
    cases hc : t.chains.get? name <;> rw [hc] at h <;> cases h
    simp [write, Dict.get?_erase]
  case addRule name body => cases hc : t.chains.get? name <;> rw [hc] at h <;> cases h; simp [write]

/-- Every command works on its own cell only. -/
theorem exec_keyed (family : String) :
    Keyed (fun _ => True) (exec family : Command → KernelTable form → Option (KernelTable form)) view Command.target
      (cellStep family) where
  here := by
    intro c t t' _ h
    obtain ⟨cell, hcell, rfl⟩ := Option.map_eq_some_iff.1 h
    rw [view_write_cellStep family t c cell hcell, hcell]
  frame := by
    intro c t t' _ h k hk
    obtain ⟨cell, _, rfl⟩ := Option.map_eq_some_iff.1 h
    exact view_write_of_ne t cell hk
  total := by
    intro c t _ h
    rwa [exec, Option.isSome_map]

/-- What a listing of the table is read as. -/
def parsed (t : KernelTable form) : ParsedTable where
  chains := t.chains.mapValues KernelChain.parsed
  sets := t.sets.mapWithKey KernelSet.parsed
  objects := t.objects

end KernelTable

/-! ## Scripts -/

/-- What a line does to the kernel, which has the table or does not. Every line is for the family and the table `ferm`. -/
def execLine (family : String) (line : ScriptLine) (t : Option (KernelTable form)) : Option (Option (KernelTable form)) :=
  if line.family ≠ family ∨ line.table ≠ NFT_TABLE_NAME then none
  else
    match line.command, t with
    | .addTable, _ => some (some (t.getD {}))
    | _, none => none
    | .deleteTable, some _ => some none
    | .flushTable, some t => some (some { t with chains := t.chains.mapValues fun c => { c with rules := [] } })
    | command, some t => (t.exec family command).map some

/-- A whole script, line by line. -/
def execScript (family : String) (lines : List ScriptLine) (t : Option (KernelTable form)) :
    Option (Option (KernelTable form)) :=
  runScript (execLine family) lines t

end Ferm
