import Ferm.Lib.KeyedSort
import Ferm.Lib.Unidiff
import Ferm.Nft.Sets
import Ferm.Plan.Diff
import Mathlib.Data.List.Dedup

/-!
# The plan as a unified diff

The text form of a plan: its changes are written as two blobs of lines, one for what is and one for what will be, and the report
is the unified diff of the two. A change whose lines are the same in both blobs does not show.
-/

namespace Ferm

/-! ## The blobs -/

/-- A plan: a diff for each family that has one, and the families without. -/
structure Plan where
  families : Dict String PlanDiff := Dict.empty
  unsupported : List String := []

/-- True if some family's diff carries a change. -/
def Plan.hasChanges (plan : Plan) : Bool := plan.families.entries.any fun e => e.2.hasChanges

/-- What a line of a blob is about. -/
inductive Place where
  | table (table : String)
  | chain (table chain : String)
  | set (table name : String)
  | object (table name : String)
  deriving DecidableEq, Repr

/-- One line of a blob. -/
inductive BlobLine where
  | table (table : String)
  | policy (table chain : String) (policy : List String)
  | priority (table chain priority : String)
  | foreign (table chain : String)
  | desuet (table chain : String)
  | rule (table chain rule : String)
  | set (table name : String) (elements : Option (List String))
  | object (table name kind : String)
  deriving DecidableEq, Repr

/-- The table a place is in. -/
def Place.tableName : Place → String
  | table t => t
  | chain t _ => t
  | set t _ => t
  | object t _ => t

namespace BlobLine

/-- What the line is about. -/
def place : BlobLine → Place
  | table t => .table t
  | policy t c _ => .chain t c
  | priority t c _ => .chain t c
  | foreign t c => .chain t c
  | desuet t c => .chain t c
  | rule t c _ => .chain t c
  | set t n _ => .set t n
  | object t n _ => .object t n

/-- The text of the line. -/
def text : BlobLine → String
  | table t => "*" ++ t
  | policy _ c p => ":" ++ c ++ " " ++ String.intercalate " " p
  | priority _ c p => ":" ++ c ++ " priority " ++ p
  | foreign _ c => "# foreign chain " ++ c ++ " will be flushed"
  | desuet _ c => "# base chain " ++ c ++ " removed (no longer declared)"
  | rule _ c r => "-A " ++ c ++ " " ++ r
  | set t n (some elements) => "add set " ++ t ++ " " ++ n ++ " \x7b " ++ String.intercalate ", " elements ++ " \x7d"
  | set t n none => "add set " ++ t ++ " " ++ n
  | object t n kind => "add " ++ kind ++ " " ++ t ++ " " ++ n

end BlobLine

namespace SetChangeKind

/-- True for add and modify. -/
def touchesElements : SetChangeKind → Bool
  | add => true
  | modify => true
  | remove => false

/-- True for remove and modify. -/
def isRemoval : SetChangeKind → Bool
  | remove => true
  | modify => true
  | add => false

end SetChangeKind

/-! ### The lines of one change, on the side of the kernel and on the side of the configuration -/

def PolicyChange.before (c : PolicyChange) : List BlobLine := [.policy c.table c.chain c.old]

def PolicyChange.after (c : PolicyChange) : List BlobLine := [.policy c.table c.chain c.new]

def ChainRebuild.before (c : ChainRebuild) : List BlobLine := [.priority c.table c.chain c.old]

def ChainRebuild.after (c : ChainRebuild) : List BlobLine := [.priority c.table c.chain c.new]

def ForeignChain.before (c : ForeignChain) : List BlobLine := [.foreign c.table c.chain]

def DesuetChain.before (c : DesuetChain) : List BlobLine := [.desuet c.table c.chain]

/-- A rule's line, on the side it is removed from or added to. -/
def RuleChange.lines (r : RuleChange) : List BlobLine := [.rule r.table r.chain r.rule]

def SetChange.before (sc : SetChange) : List BlobLine :=
  if sc.kind.isRemoval then
    [.set sc.table sc.name (if sc.currentElements = [] then none else some sc.currentElements)]
  else []

def SetChange.after (sc : SetChange) : List BlobLine :=
  if sc.kind.touchesElements then [.set sc.table sc.name (some sc.elements)] else []

def ObjectChange.before (oc : ObjectChange) : List BlobLine :=
  if oc.added then [] else [.object oc.table oc.name oc.kind]

def ObjectChange.after (oc : ObjectChange) : List BlobLine :=
  if oc.added then [.object oc.table oc.name oc.kind] else []

/-- `_in_table`: the items of a table, sorted by their key; the sort is stable. -/
def inTable {α : Type} (table key : α → String) (items : List α) (t : String) : List α :=
  (items.filter fun x => table x = t).insertionSort fun a b => key a ≤ key b

/-- The tables a diff has changes for. -/
def PlanDiff.tables (d : PlanDiff) : List String :=
  sortedNames ((d.policyChanges.map PolicyChange.table ++ d.rulesRemoved.map RuleChange.table ++
    d.rulesAdded.map RuleChange.table ++ d.foreignChains.map ForeignChain.table ++ d.desuetChains.map DesuetChain.table ++
    d.chainRebuilds.map ChainRebuild.table ++ d.setChanges.map SetChange.table ++
    d.objectChanges.map ObjectChange.table).dedup)

/-- The lines of one table on the side of the kernel. -/
def PlanDiff.tableBefore (d : PlanDiff) (t : String) : List BlobLine :=
  .table t ::
    ((inTable PolicyChange.table PolicyChange.chain d.policyChanges t).flatMap PolicyChange.before ++
      (inTable ChainRebuild.table ChainRebuild.chain d.chainRebuilds t).flatMap ChainRebuild.before ++
      (inTable ForeignChain.table ForeignChain.chain d.foreignChains t).flatMap ForeignChain.before ++
      (inTable DesuetChain.table DesuetChain.chain d.desuetChains t).flatMap DesuetChain.before ++
      (inTable RuleChange.table RuleChange.chain d.rulesRemoved t).flatMap RuleChange.lines ++
      (inTable SetChange.table SetChange.name d.setChanges t).flatMap SetChange.before ++
      (inTable ObjectChange.table ObjectChange.name d.objectChanges t).flatMap ObjectChange.before)

/-- The lines of one table on the side of the configuration. -/
def PlanDiff.tableAfter (d : PlanDiff) (t : String) : List BlobLine :=
  .table t ::
    ((inTable PolicyChange.table PolicyChange.chain d.policyChanges t).flatMap PolicyChange.after ++
      (inTable ChainRebuild.table ChainRebuild.chain d.chainRebuilds t).flatMap ChainRebuild.after ++
      (inTable RuleChange.table RuleChange.chain d.rulesAdded t).flatMap RuleChange.lines ++
      (inTable SetChange.table SetChange.name d.setChanges t).flatMap SetChange.after ++
      (inTable ObjectChange.table ObjectChange.name d.objectChanges t).flatMap ObjectChange.after)

/-- `_diff_blob`. -/
def diffBlob (d : PlanDiff) : List BlobLine × List BlobLine :=
  (d.tables.flatMap d.tableBefore, d.tables.flatMap d.tableAfter)

/-! ## The report -/

/-- The lines of the report. -/
def unifiedLines (matcher : Matcher String) (plan : Plan) : List (DiffLine BlobLine) :=
  plan.unsupported.map (fun f => .header ("family " ++ f ++ ": plan not supported for this family")) ++
    (sortedNames plan.families.keys).flatMap fun f =>
      match plan.families.get? f with
      | some d =>
        unifiedDiff matcher BlobLine.text (diffBlob d).1 (diffBlob d).2 (f ++ " (current)") (f ++ " (desired)")
      | none => []

/-- The text of a line of the report. -/
def reportText : DiffLine BlobLine → String
  | .header text => text
  | .context line => " " ++ line.text
  | .removed line => "-" ++ line.text
  | .added line => "+" ++ line.text

/-- The report on a plan without a line to show. -/
def NO_CHANGES : String := "No changes. Live ruleset matches the configuration.\n"

/-- `render_unified`. -/
def renderUnified (matcher : Matcher String) (plan : Plan) : String :=
  let lines := unifiedLines matcher plan
  if lines = [] then NO_CHANGES else String.intercalate "\n" (lines.map reportText) ++ "\n"

/-! ## The lines at a place -/

/-- The items about one thing of one table, in their order. -/
def itemsAt {α : Type} (table key : α → String) (items : List α) (t k : String) : List α :=
  items.filter fun x => table x = t ∧ key x = k

/-- What the plan says about a place on the side of the kernel. -/
def PlanDiff.before (d : PlanDiff) : Place → List BlobLine
  | .table t => if t ∈ d.tables then [.table t] else []
  | .chain t c =>
    (itemsAt PolicyChange.table PolicyChange.chain d.policyChanges t c).flatMap PolicyChange.before ++
      (itemsAt ChainRebuild.table ChainRebuild.chain d.chainRebuilds t c).flatMap ChainRebuild.before ++
      (itemsAt ForeignChain.table ForeignChain.chain d.foreignChains t c).flatMap ForeignChain.before ++
      (itemsAt DesuetChain.table DesuetChain.chain d.desuetChains t c).flatMap DesuetChain.before ++
      (itemsAt RuleChange.table RuleChange.chain d.rulesRemoved t c).flatMap RuleChange.lines
  | .set t n => (itemsAt SetChange.table SetChange.name d.setChanges t n).flatMap SetChange.before
  | .object t n => (itemsAt ObjectChange.table ObjectChange.name d.objectChanges t n).flatMap ObjectChange.before

/-- What the plan says about a place on the side of the configuration. -/
def PlanDiff.after (d : PlanDiff) : Place → List BlobLine
  | .table t => if t ∈ d.tables then [.table t] else []
  | .chain t c =>
    (itemsAt PolicyChange.table PolicyChange.chain d.policyChanges t c).flatMap PolicyChange.after ++
      (itemsAt ChainRebuild.table ChainRebuild.chain d.chainRebuilds t c).flatMap ChainRebuild.after ++
      (itemsAt RuleChange.table RuleChange.chain d.rulesAdded t c).flatMap RuleChange.lines
  | .set t n => (itemsAt SetChange.table SetChange.name d.setChanges t n).flatMap SetChange.after
  | .object t n => (itemsAt ObjectChange.table ObjectChange.name d.objectChanges t n).flatMap ObjectChange.after

/-- The lines about a place among some lines. -/
def linesAt (p : Place) (lines : List BlobLine) : List BlobLine := lines.filter fun l => l.place = p

@[simp] theorem linesAt_append (p : Place) (as bs : List BlobLine) : linesAt p (as ++ bs) = linesAt p as ++ linesAt p bs :=
  List.filter_append ..

/-- A sort by a key leaves the items with one key in their order. -/
theorem filter_insertionSort_key {α : Type} (key : α → String) (k : String) (items : List α) :
    (items.insertionSort fun a b => key a ≤ key b).filter (fun x => key x = k) = items.filter fun x => key x = k := by
  refine filter_insertionSort (List.pairwise_of_forall_mem_list fun a ha b hb => ?_)
  have ha : key a = k := of_decide_eq_true (List.mem_filter.1 ha).2
  have hb : key b = k := of_decide_eq_true (List.mem_filter.1 hb).2
  simpa only [ha, hb] using String.le_refl k

/-- The lines of a sorted kind of changes at a place are those of the changes about it. -/
theorem linesAt_inTable {α : Type} {table key : α → String} {f : α → List BlobLine} {place : String → String → Place}
    (hinj : ∀ t k t' k', place t k = place t' k' ↔ t = t' ∧ k = k') (hf : ∀ x, ∀ l ∈ f x, l.place = place (table x) (key x))
    (items : List α) (t t' k : String) :
    linesAt (place t' k) ((inTable table key items t).flatMap f) =
      if t = t' then (itemsAt table key items t' k).flatMap f else [] := by
  have hsame : ∀ x, table x = t → linesAt (place t' k) (f x) = if t = t' ∧ key x = k then f x else [] := by
    intro x hx
    split
    · rename_i h
      refine List.filter_eq_self.2 fun l hl => ?_
      rw [hf x l hl, decide_eq_true_eq, hinj]
      exact ⟨hx.trans h.1, h.2⟩
    · rename_i h
      refine List.filter_eq_nil_iff.2 fun l hl => ?_
      rw [hf x l hl, decide_eq_true_eq, hinj]
      exact fun he => h ⟨hx.symm.trans he.1, he.2⟩
  have hmem : ∀ x ∈ inTable table key items t, table x = t := by
    intro x hx
    have := (List.perm_insertionSort _ _).mem_iff.1 hx
    simpa using (List.mem_filter.1 this).2
  have hlines : linesAt (place t' k) ((inTable table key items t).flatMap f) =
      (inTable table key items t).flatMap fun x => if t = t' ∧ key x = k then f x else [] := by
    rw [linesAt, List.filter_flatMap]
    exact List.flatMap_congr fun x hx => hsame x (hmem x hx)
  rw [hlines]
  split
  · rename_i ht
    subst ht
    have hfilter : ∀ l : List α, (l.flatMap fun x => if t = t ∧ key x = k then f x else []) =
        (l.filter fun x => key x = k).flatMap f := by
      intro l
      induction l with
      | nil => rfl
      | cons x l ih =>
        rw [List.flatMap_cons, ih]
        by_cases hx : key x = k <;> simp [hx]
    rw [hfilter, inTable, filter_insertionSort_key, List.filter_filter, itemsAt]
    congr 1
    refine List.filter_congr fun x _ => ?_
    simp [Bool.and_comm]
  · rename_i ht
    refine List.flatMap_eq_nil_iff.2 fun x _ => ?_
    rw [if_neg fun h => ht h.1]

/-- Lines that are about other things. -/
theorem linesAt_eq_nil {α : Type} {f : α → List BlobLine} {place : α → Place} {p : Place}
    (hf : ∀ x, ∀ l ∈ f x, l.place = place x) (hne : ∀ x, place x ≠ p) (items : List α) :
    linesAt p (items.flatMap f) = [] := by
  refine List.filter_eq_nil_iff.2 fun l hl => ?_
  obtain ⟨x, -, hx⟩ := List.mem_flatMap.1 hl
  simpa [hf x l hx] using hne x

theorem linesAt_table_cons (p : Place) (u : String) (rest : List BlobLine) :
    linesAt p (.table u :: rest) = (if p = .table u then [.table u] else []) ++ linesAt p rest := by
  rw [linesAt, List.filter_cons]
  by_cases h : p = .table u
  · simp [BlobLine.place, h, linesAt]
  · have h' : ¬ Place.table u = p := fun he => h he.symm
    simp [BlobLine.place, h, h', linesAt]

/-- A walk over different tables meets one of them once. -/
theorem flatMap_ite_eq {α : Type} {tables : List String} (hn : tables.Nodup) (t : String) (lines : List α) :
    (tables.flatMap fun u => if u = t then lines else []) = if t ∈ tables then lines else [] := by
  induction tables with
  | nil => rfl
  | cons u tables ih =>
    obtain ⟨hu, hn⟩ := List.nodup_cons.1 hn
    rw [List.flatMap_cons, ih hn]
    by_cases hut : u = t
    · subst hut
      simp [hu]
    · have htu : t ≠ u := Ne.symm hut
      simp [hut, htu]

section

variable (d : PlanDiff)

theorem nodup_tables : d.tables.Nodup := nodup_sortedNames (List.nodup_dedup _)

/-- The tables of the changes are the tables of the plan. -/
theorem mem_tables {t : String} :
    t ∈ d.tables ↔ (∃ c ∈ d.policyChanges, c.table = t) ∨ (∃ r ∈ d.rulesRemoved, r.table = t) ∨
      (∃ r ∈ d.rulesAdded, r.table = t) ∨ (∃ f ∈ d.foreignChains, f.table = t) ∨ (∃ c ∈ d.desuetChains, c.table = t) ∨
      (∃ c ∈ d.chainRebuilds, c.table = t) ∨ (∃ s ∈ d.setChanges, s.table = t) ∨ ∃ o ∈ d.objectChanges, o.table = t := by
  simp only [PlanDiff.tables, mem_sortedNames, List.mem_dedup, List.mem_append, List.mem_map, or_assoc]

theorem place_setBefore (sc : SetChange) : ∀ l ∈ sc.before, l.place = .set sc.table sc.name := by
  unfold SetChange.before
  split <;> simp [BlobLine.place]

theorem place_setAfter (sc : SetChange) : ∀ l ∈ sc.after, l.place = .set sc.table sc.name := by
  unfold SetChange.after
  split <;> simp [BlobLine.place]

theorem place_objectBefore (oc : ObjectChange) : ∀ l ∈ oc.before, l.place = .object oc.table oc.name := by
  unfold ObjectChange.before
  split <;> simp [BlobLine.place]

theorem place_objectAfter (oc : ObjectChange) : ∀ l ∈ oc.after, l.place = .object oc.table oc.name := by
  unfold ObjectChange.after
  split <;> simp [BlobLine.place]

theorem chain_inj (t k t' k' : String) : Place.chain t k = .chain t' k' ↔ t = t' ∧ k = k' := by simp

theorem set_inj (t k t' k' : String) : Place.set t k = .set t' k' ↔ t = t' ∧ k = k' := by simp

theorem object_inj (t k t' k' : String) : Place.object t k = .object t' k' ↔ t = t' ∧ k = k' := by simp

/-- The places of the lines of each kind of change. -/
theorem place_chainLines :
    (∀ c : PolicyChange, ∀ l ∈ c.before, l.place = .chain c.table c.chain) ∧
      (∀ c : PolicyChange, ∀ l ∈ c.after, l.place = .chain c.table c.chain) ∧
      (∀ c : ChainRebuild, ∀ l ∈ c.before, l.place = .chain c.table c.chain) ∧
      (∀ c : ChainRebuild, ∀ l ∈ c.after, l.place = .chain c.table c.chain) ∧
      (∀ c : ForeignChain, ∀ l ∈ c.before, l.place = .chain c.table c.chain) ∧
      (∀ c : DesuetChain, ∀ l ∈ c.before, l.place = .chain c.table c.chain) ∧
      ∀ r : RuleChange, ∀ l ∈ r.lines, l.place = .chain r.table r.chain := by
  simp [PolicyChange.before, PolicyChange.after, ChainRebuild.before, ChainRebuild.after, ForeignChain.before,
    DesuetChain.before, RuleChange.lines, BlobLine.place]

/-- The lines of a table about a place are what the plan says about it. -/
theorem linesAt_tableBefore {p : Place} {u : String} (hu : u ∈ d.tables) :
    linesAt p (d.tableBefore u) = if u = p.tableName then d.before p else [] := by
  obtain ⟨hpolicy, -, hrebuild, -, hforeign, hdesuet, hrule⟩ := place_chainLines
  rw [PlanDiff.tableBefore, linesAt_table_cons]
  simp only [linesAt_append]
  cases p with
  | table t =>
    rw [linesAt_eq_nil hpolicy (by simp), linesAt_eq_nil hrebuild (by simp), linesAt_eq_nil hforeign (by simp), linesAt_eq_nil hdesuet (by simp),
      linesAt_eq_nil hrule (by simp), linesAt_eq_nil place_setBefore (by simp), linesAt_eq_nil place_objectBefore (by simp)]
    by_cases ht : u = t
    · subst ht
      simp [PlanDiff.before, Place.tableName, hu]
    · have ht' : ¬ t = u := fun he => ht he.symm
      simp [Place.tableName, ht, ht']
  | chain t c =>
    rw [linesAt_inTable chain_inj hpolicy, linesAt_inTable chain_inj hrebuild, linesAt_inTable chain_inj hforeign,
      linesAt_inTable chain_inj hdesuet, linesAt_inTable chain_inj hrule, linesAt_eq_nil place_setBefore (by simp),
      linesAt_eq_nil place_objectBefore (by simp)]
    by_cases ht : u = t <;> simp [PlanDiff.before, Place.tableName, ht]
  | set t n =>
    rw [linesAt_inTable set_inj place_setBefore, linesAt_eq_nil hpolicy (by simp), linesAt_eq_nil hrebuild (by simp),
      linesAt_eq_nil hforeign (by simp), linesAt_eq_nil hdesuet (by simp), linesAt_eq_nil hrule (by simp), linesAt_eq_nil place_objectBefore (by simp)]
    by_cases ht : u = t <;> simp [PlanDiff.before, Place.tableName, ht]
  | object t n =>
    rw [linesAt_inTable object_inj place_objectBefore, linesAt_eq_nil hpolicy (by simp), linesAt_eq_nil hrebuild (by simp),
      linesAt_eq_nil hforeign (by simp), linesAt_eq_nil hdesuet (by simp), linesAt_eq_nil hrule (by simp), linesAt_eq_nil place_setBefore (by simp)]
    by_cases ht : u = t <;> simp [PlanDiff.before, Place.tableName, ht]

theorem linesAt_tableAfter {p : Place} {u : String} (hu : u ∈ d.tables) :
    linesAt p (d.tableAfter u) = if u = p.tableName then d.after p else [] := by
  obtain ⟨-, hpolicy, -, hrebuild, -, -, hrule⟩ := place_chainLines
  rw [PlanDiff.tableAfter, linesAt_table_cons]
  simp only [linesAt_append]
  cases p with
  | table t =>
    rw [linesAt_eq_nil hpolicy (by simp), linesAt_eq_nil hrebuild (by simp), linesAt_eq_nil hrule (by simp), linesAt_eq_nil place_setAfter (by simp),
      linesAt_eq_nil place_objectAfter (by simp)]
    by_cases ht : u = t
    · subst ht
      simp [PlanDiff.after, Place.tableName, hu]
    · have ht' : ¬ t = u := fun he => ht he.symm
      simp [Place.tableName, ht, ht']
  | chain t c =>
    rw [linesAt_inTable chain_inj hpolicy, linesAt_inTable chain_inj hrebuild, linesAt_inTable chain_inj hrule,
      linesAt_eq_nil place_setAfter (by simp), linesAt_eq_nil place_objectAfter (by simp)]
    by_cases ht : u = t <;> simp [PlanDiff.after, Place.tableName, ht]
  | set t n =>
    rw [linesAt_inTable set_inj place_setAfter, linesAt_eq_nil hpolicy (by simp), linesAt_eq_nil hrebuild (by simp), linesAt_eq_nil hrule (by simp),
      linesAt_eq_nil place_objectAfter (by simp)]
    by_cases ht : u = t <;> simp [PlanDiff.after, Place.tableName, ht]
  | object t n =>
    rw [linesAt_inTable object_inj place_objectAfter, linesAt_eq_nil hpolicy (by simp), linesAt_eq_nil hrebuild (by simp),
      linesAt_eq_nil hrule (by simp), linesAt_eq_nil place_setAfter (by simp)]
    by_cases ht : u = t <;> simp [PlanDiff.after, Place.tableName, ht]

/-- A plan says nothing about the places of other tables. -/
theorem before_after_eq_nil {p : Place} (h : p.tableName ∉ d.tables) : d.before p = [] ∧ d.after p = [] := by
  rw [mem_tables] at h
  simp only [not_or, not_exists, not_and] at h
  obtain ⟨hpolicy, hremoved, hadded, hforeign, hdesuet, hrebuild, hset, hobject⟩ := h
  have hitems {α : Type} {table key : α → String} {items : List α} {t : String} (hno : ∀ x ∈ items, table x ≠ t)
      (k : String) : itemsAt table key items t k = [] :=
    List.filter_eq_nil_iff.2 fun x hx => by simp [hno x hx]
  cases p <;> simp only [Place.tableName] at hpolicy hremoved hadded hforeign hdesuet hrebuild hset hobject
  case table t =>
    have ht : t ∉ d.tables := by
      rw [mem_tables]
      simpa only [not_or, not_exists, not_and] using
        ⟨hpolicy, hremoved, hadded, hforeign, hdesuet, hrebuild, hset, hobject⟩
    simp [PlanDiff.before, PlanDiff.after, ht]
  case chain t c =>
    simp only [PlanDiff.before, PlanDiff.after]
    rw [hitems hpolicy, hitems hremoved, hitems hadded, hitems hforeign, hitems hdesuet, hitems hrebuild]
    exact ⟨rfl, rfl⟩
  case set t n =>
    simp only [PlanDiff.before, PlanDiff.after]
    rw [hitems hset]
    exact ⟨rfl, rfl⟩
  case object t n =>
    simp only [PlanDiff.before, PlanDiff.after]
    rw [hitems hobject]
    exact ⟨rfl, rfl⟩

/-- The blobs' lines about a place are what the plan says about it. -/
theorem linesAt_diffBlob (p : Place) : linesAt p (diffBlob d).1 = d.before p ∧ linesAt p (diffBlob d).2 = d.after p := by
  have hwalk : ∀ (f : String → List BlobLine) (said : List BlobLine),
      (∀ u ∈ d.tables, linesAt p (f u) = if u = p.tableName then said else []) → (p.tableName ∉ d.tables → said = []) →
        linesAt p (d.tables.flatMap f) = said := by
    intro f said hf hno
    have : linesAt p (d.tables.flatMap f) = d.tables.flatMap fun u => if u = p.tableName then said else [] := by
      rw [linesAt, List.filter_flatMap]
      exact List.flatMap_congr hf
    rw [this, flatMap_ite_eq (nodup_tables d)]
    split
    · rfl
    · rename_i ht
      exact (hno ht).symm
  exact ⟨hwalk _ _ (fun u hu => linesAt_tableBefore d hu) fun h => (before_after_eq_nil d h).1,
    hwalk _ _ (fun u hu => linesAt_tableAfter d hu) fun h => (before_after_eq_nil d h).2⟩

end

/-! ## What the report shows -/

/-- The plan has a change of the thing a place names. -/
inductive Touches (d : PlanDiff) : Place → Prop where
  | policy {c : PolicyChange} (h : c ∈ d.policyChanges) : Touches d (.chain c.table c.chain)
  | rebuild {c : ChainRebuild} (h : c ∈ d.chainRebuilds) : Touches d (.chain c.table c.chain)
  | foreign {f : ForeignChain} (h : f ∈ d.foreignChains) : Touches d (.chain f.table f.chain)
  | desuet {c : DesuetChain} (h : c ∈ d.desuetChains) : Touches d (.chain c.table c.chain)
  | removed {r : RuleChange} (h : r ∈ d.rulesRemoved) : Touches d (.chain r.table r.chain)
  | added {r : RuleChange} (h : r ∈ d.rulesAdded) : Touches d (.chain r.table r.chain)
  | set {s : SetChange} (h : s ∈ d.setChanges) : Touches d (.set s.table s.name)
  | object {o : ObjectChange} (h : o ∈ d.objectChanges) : Touches d (.object o.table o.name)

/-- The report is honest: it says that there are no changes only of a plan without one, and everything a plan changes has a
changed line in it. -/
structure HonestReport (matcher : Matcher String) (plan : Plan) : Prop where
  noChanges : renderUnified matcher plan = NO_CHANGES → plan.hasChanges = false
  shows : ∀ f d, plan.families.get? f = some d → ∀ p, Touches d p →
    ∃ line : BlobLine, line.place = p ∧
      (.removed line ∈ unifiedLines matcher plan ∨ .added line ∈ unifiedLines matcher plan)

/-- What a plan says about the things it changes can be told apart: of each, the two sides differ, and no line about one thing
is the text of a line about another thing on the other side. -/
structure Distinct (d : PlanDiff) : Prop where
  differ : ∀ p, Touches d p → (d.before p).map BlobLine.text ≠ (d.after p).map BlobLine.text
  apart : ∀ p q, p ≠ q → ∀ x ∈ d.before p, ∀ y ∈ d.after q, x.text ≠ y.text

/-- A plan with changes changes something. -/
theorem exists_touches {d : PlanDiff} (h : d.hasChanges = true) : ∃ p, Touches d p := by
  have hmem {α : Type} {l : List α} (hl : l.isEmpty = false) : ∃ x, x ∈ l :=
    List.exists_mem_of_ne_nil l (by rintro rfl; cases hl)
  simp only [PlanDiff.hasChanges, Bool.or_eq_true, Bool.not_eq_true'] at h
  rcases h with ((((((h | h) | h) | h) | h) | h) | h) | h <;> obtain ⟨x, hx⟩ := hmem h
  · exact ⟨_, .policy hx⟩
  · exact ⟨_, .added hx⟩
  · exact ⟨_, .removed hx⟩
  · exact ⟨_, .foreign hx⟩
  · exact ⟨_, .desuet hx⟩
  · exact ⟨_, .rebuild hx⟩
  · exact ⟨_, .set hx⟩
  · exact ⟨_, .object hx⟩

/-- Every line of the report begins with another letter than the report on no changes. -/
theorem head_reportText {matcher : Matcher String} {plan : Plan} {line : DiffLine BlobLine}
    (h : line ∈ unifiedLines matcher plan) : ∃ c rest, (reportText line).toList = c :: rest ∧ c ≠ 'N' := by
  have hdiff : ∀ (d : PlanDiff) (fromfile tofile : String),
      line ∈ unifiedDiff matcher BlobLine.text (diffBlob d).1 (diffBlob d).2 fromfile tofile →
        ∃ c rest, (reportText line).toList = c :: rest ∧ c ≠ 'N' := by
    intro d fromfile tofile hl
    rcases mem_headers_or_marked hl with rfl | rfl | ⟨ranges, rfl⟩ | ⟨x, rfl | rfl | rfl⟩ <;>
      simp [reportText]
  rcases List.mem_append.1 h with h | h
  · obtain ⟨f, -, rfl⟩ := List.mem_map.1 h
    simp [reportText]
  · obtain ⟨f, -, h⟩ := List.mem_flatMap.1 h
    split at h
    · exact hdiff _ _ _ h
    · cases h

/-- A report with a line does not say that there are no changes. -/
theorem unifiedLines_eq_nil {matcher : Matcher String} {plan : Plan} (h : renderUnified matcher plan = NO_CHANGES) :
    unifiedLines matcher plan = [] := by
  by_contra hne
  unfold renderUnified at h
  rw [if_neg hne] at h
  obtain ⟨line, lines, hlines⟩ := List.exists_cons_of_ne_nil hne
  obtain ⟨c, rest, htext, hc⟩ := head_reportText (hlines ▸ List.mem_cons_self : line ∈ unifiedLines matcher plan)
  rw [hlines, List.map_cons] at h
  have hhead : ∃ rest, (String.intercalate "\n" (reportText line :: lines.map reportText) ++ "\n").toList = c :: rest := by
    rcases lines with _ | ⟨next, lines⟩
    · rw [List.map_nil, String.intercalate_singleton, String.toList_append, htext]
      exact ⟨_, rfl⟩
    · rw [List.map_cons, String.intercalate_cons_cons, String.toList_append, String.toList_append, String.toList_append,
        htext]
      exact ⟨_, rfl⟩
  obtain ⟨rest, hhead⟩ := hhead
  rw [h] at hhead
  exact hc (List.cons.inj hhead).1.symm

/-- The lines of a family's diff are in the report. -/
theorem mem_unifiedLines {matcher : Matcher String} {plan : Plan} {f : String} {d : PlanDiff}
    (hd : plan.families.get? f = some d) {line : DiffLine BlobLine}
    (hl : line ∈ unifiedDiff matcher BlobLine.text (diffBlob d).1 (diffBlob d).2 (f ++ " (current)") (f ++ " (desired)")) :
    line ∈ unifiedLines matcher plan := by
  refine List.mem_append_right _ (List.mem_flatMap.2 ⟨f, mem_sortedNames.2 (Dict.mem_of_get? hd), ?_⟩)
  rw [hd]
  exact hl

/-- The lines of the two blobs about different things are told apart when what is said about different places is. -/
theorem apart_iff_diffBlob {d : PlanDiff} : (∀ p q, p ≠ q → ∀ x ∈ d.before p, ∀ y ∈ d.after q, x.text ≠ y.text) ↔
    ∀ x ∈ (diffBlob d).1, ∀ y ∈ (diffBlob d).2, x.place ≠ y.place → x.text ≠ y.text := by
  have hbefore : ∀ p x, x ∈ d.before p ↔ x ∈ (diffBlob d).1 ∧ x.place = p := fun p x => by
    rw [← (linesAt_diffBlob d p).1, linesAt, List.mem_filter, decide_eq_true_iff]
  have hafter : ∀ p y, y ∈ d.after p ↔ y ∈ (diffBlob d).2 ∧ y.place = p := fun p y => by
    rw [← (linesAt_diffBlob d p).2, linesAt, List.mem_filter, decide_eq_true_iff]
  simp only [hbefore, hafter]
  constructor
  · intro h x hx y hy hne
    exact h x.place y.place hne x ⟨hx, rfl⟩ y ⟨hy, rfl⟩
  · rintro h p q hne x ⟨hx, rfl⟩ y ⟨hy, rfl⟩
    exact h x hx y hy hne

/-- The report is honest when what the plan says can be told apart: whatever matcher finds the difference of the two blobs. -/
theorem report_honest (matcher : Matcher String) {plan : Plan}
    (h : ∀ f d, plan.families.get? f = some d → Distinct d) : HonestReport matcher plan := by
  have hshows : ∀ f d, plan.families.get? f = some d → ∀ p, Touches d p → ∃ line : BlobLine, line.place = p ∧
      (.removed line ∈ unifiedLines matcher plan ∨ .added line ∈ unifiedLines matcher plan) := by
    intro f d hd p hp
    obtain ⟨hdiffer, hapart⟩ := h f d hd
    have hplace : ∀ x ∈ (diffBlob d).1, ∀ y ∈ (diffBlob d).2, x.text = y.text → x.place = y.place := by
      intro x hx y hy htext
      by_contra hne
      exact apart_iff_diffBlob.1 hapart x hx y hy hne htext
    have hne : ((diffBlob d).1.filter fun x => x.place = p).map BlobLine.text ≠
        ((diffBlob d).2.filter fun y => y.place = p).map BlobLine.text := by
      change (linesAt p _).map _ ≠ (linesAt p _).map _
      rw [(linesAt_diffBlob d p).1, (linesAt_diffBlob d p).2]
      exact hdiffer p hp
    obtain ⟨line, hline, hshown⟩ := exists_changed_line matcher (f ++ " (current)") (f ++ " (desired)") hplace hne
    exact ⟨line, hline, hshown.imp (mem_unifiedLines hd) (mem_unifiedLines hd)⟩
  refine ⟨fun hno => ?_, hshows⟩
  by_contra hchanges
  obtain ⟨e, he, hd⟩ := List.any_eq_true.1 (Bool.not_eq_false _ ▸ hchanges)
  obtain ⟨p, hp⟩ := exists_touches hd
  obtain ⟨line, -, hline⟩ := hshows e.1 e.2 (Dict.get?_eq_some_iff.2 he) p hp
  rw [unifiedLines_eq_nil hno] at hline
  rcases hline with hline | hline <;> cases hline

/-- The plan of one family. -/
def planOf (family : String) (d : PlanDiff) : Plan := { families := Dict.empty.set family d }

/-- A policy, a rule to add and a rule to remove, in two chains, and a set with another element. -/
def changedTable : PlanDiff where
  policyChanges := [⟨"ferm", "INPUT", ["policy", "accept"], ["policy", "drop"]⟩]
  rulesAdded := [⟨"ferm", "INPUT", "ip saddr @web accept"⟩]
  rulesRemoved := [⟨"ferm", "FORWARD", "tcp dport 22 drop"⟩]
  setChanges := [⟨"ferm", "web", .modify, ["10.0.0.1"], ["10.0.0.2"]⟩]

theorem report_honest_changedTable : HonestReport Matcher.plain (planOf "ip" changedTable) := by
  refine report_honest Matcher.plain fun f d hd => ?_
  have hmem := Dict.get?_eq_some_iff.1 hd
  obtain ⟨-, rfl⟩ := Prod.mk.inj (List.mem_singleton.1 hmem)
  refine ⟨fun p hp => ?_, apart_iff_diffBlob.2 (by decide)⟩
  cases hp with
  | policy h | added h | removed h | set h =>
    obtain rfl := List.mem_singleton.1 h
    decide
  | rebuild h | foreign h | desuet h | object h => cases h

/-- The swapped rules of a chain: the differ removes one and adds the same one, so that both blobs are the same. -/
theorem report_hides_move :
    ¬ ∀ current desired : Dict String ParsedTable,
      HonestReport Matcher.plain (planOf "ip" (diffTables current desired false)) := by
  intro h
  have := (h (Dict.empty.set "filter" { chains := Dict.empty.set "INPUT" ⟨["ACCEPT"], ["-s 10.0.0.1 -j ACCEPT", "-j DROP"]⟩ })
    (Dict.empty.set "filter" { chains := Dict.empty.set "INPUT" ⟨["ACCEPT"], ["-j DROP", "-s 10.0.0.1 -j ACCEPT"]⟩ })).noChanges
    (by decide)
  revert this
  decide

end Ferm
