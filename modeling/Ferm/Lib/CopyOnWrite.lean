import Mathlib.Data.List.Chain
import Mathlib.Logic.Relation

/-!
# Cells shared until the first write

A tree of levels, each with a cell of its own or one it shares. A new level shares the cell of its parent; before a level that
shares writes, it takes a copy. Some cells are frozen: levels may read them, but none owns one.

`Intact` is what makes this safe: whoever reads the cell of a level that owns it is below that level. Then a write is seen by
the levels below the one that writes and by no other (`read_update_of_not_below`).
-/

namespace Ferm.CopyOnWrite

universe u

variable {α : Type u}

/-- A level: its parent, the cell it reads, and whether it shares it. -/
structure Level where
  parent : Option Nat
  cell : Nat
  shared : Bool

/-- The cells and the levels, both numbered in the order they were made. -/
structure Store (α : Type u) where
  cells : List α
  levels : List Level

namespace Store

variable {s : Store α} {frozen : List α} {l p r : Nat}

/-! ## The operations -/

/-- The parent of a level. -/
def parentOf (s : Store α) (l : Nat) : Option Nat := s.levels[l]?.bind Level.parent

/-- What a level reads. -/
def read (s : Store α) (l : Nat) : Option α := s.levels[l]?.bind fun level => s.cells[level.cell]?

/-- A new level. -/
def push (s : Store α) (level : Level) : Store α := { s with levels := s.levels ++ [level] }

/-- Let a level read another cell. -/
def point (s : Store α) (l cell : Nat) (shared : Bool) : Store α :=
  { s with levels := s.levels.modify l fun level => { level with cell := cell, shared := shared } }

/-- A new cell. -/
def alloc (s : Store α) (v : α) : Store α := { s with cells := s.cells ++ [v] }

/-- Write to a cell. -/
def write (s : Store α) (cell : Nat) (f : α → α) : Store α := { s with cells := s.cells.modify cell f }

/-- Let a level read a new cell. -/
def refresh (s : Store α) (l : Nat) (v : α) (shared : Bool) : Store α := (s.alloc v).point l s.cells.length shared

/-- A level without a parent. -/
def openRoot (s : Store α) (v : α) : Store α := (s.alloc v).push ⟨none, s.cells.length, false⟩

/-- A level below `p`, which shares the cell of `p`. -/
def openChild (s : Store α) (p : Nat) : Store α :=
  match s.levels[p]? with
  | some level => s.push ⟨some p, level.cell, true⟩
  | none => s

/-- Let a level that shares its cell have a copy of it. -/
def detach (s : Store α) (l : Nat) : Store α :=
  match s.levels[l]? with
  | some ⟨_, cell, true⟩ =>
    match s.cells[cell]? with
    | some v => s.refresh l v false
    | none => s
  | _ => s

/-- Write to the cell of a level, after a copy where it is shared. -/
def update (s : Store α) (l : Nat) (f : α → α) : Store α :=
  match (s.detach l).levels[l]? with
  | some level => (s.detach l).write level.cell f
  | none => s

/-- A level that shares its cell writes to a copy. -/
theorem update_of_shared {parent : Option Nat} {cell : Nat} {v : α} (hl : s.levels[l]? = some ⟨parent, cell, true⟩)
    (hcell : s.cells[cell]? = some v) (f : α → α) : s.update l f = (s.refresh l v false).write s.cells.length f := by
  have hnew : (s.refresh l v false).levels[l]? = some ⟨parent, s.cells.length, false⟩ := by
    simp only [refresh, point, alloc, List.getElem?_modify, hl, if_true, Option.map_eq_map, Option.map_some]
  simp only [update, detach, hl, hcell, hnew]

/-- A level that owns its cell writes in place. -/
theorem update_of_owned {parent : Option Nat} {cell : Nat} (hl : s.levels[l]? = some ⟨parent, cell, false⟩) (f : α → α) :
    s.update l f = s.write cell f := by
  simp only [update, detach, hl]

/-! ## The tree -/

/-- `r` is `l` or below it. -/
def Below (s : Store α) (l r : Nat) : Prop := Relation.ReflTransGen (fun a b => s.parentOf b = some a) l r

theorem Below.refl (s : Store α) (l : Nat) : s.Below l l := Relation.ReflTransGen.refl

/-- The tree of one store is part of the tree of another. -/
theorem Below.mono {t : Store α} (hmono : ∀ r a, s.parentOf r = some a → t.parentOf r = some a) (h : s.Below l r) : t.Below l r :=
  Relation.ReflTransGen.mono (fun a b => hmono b a) l r h

theorem parentOf_point (c : Nat) (b : Bool) : (s.point l c b).parentOf r = s.parentOf r := by
  unfold parentOf point
  rw [List.getElem?_modify]
  cases hr : s.levels[r]? with
  | none => rfl
  | some level =>
    by_cases hl : l = r
    · simp [hl]
    · simp [hl]

@[simp] theorem parentOf_alloc (v : α) : (s.alloc v).parentOf r = s.parentOf r := rfl

@[simp] theorem parentOf_write (c : Nat) (f : α → α) : (s.write c f).parentOf r = s.parentOf r := rfl

theorem parentOf_refresh (v : α) (b : Bool) : (s.refresh l v b).parentOf r = s.parentOf r := parentOf_point _ _

theorem lt_length_of_parentOf (h : s.parentOf r = some p) : r < s.levels.length := by
  obtain ⟨level, hlevel, -⟩ := Option.bind_eq_some_iff.1 h
  exact (List.getElem?_eq_some_iff.1 hlevel).1

theorem parentOf_push (level : Level) (h : s.parentOf r = some p) : (s.push level).parentOf r = some p := by
  unfold parentOf push
  rw [List.getElem?_append_left (lt_length_of_parentOf h)]
  exact h

theorem parentOf_push_self (level : Level) : (s.push level).parentOf s.levels.length = level.parent := by
  unfold parentOf push
  rw [List.getElem?_concat_length]
  rfl

/-- The levels after a new one. -/
theorem levels_push {level reader : Level} (h : (s.push level).levels[r]? = some reader) :
    s.levels[r]? = some reader ∨ r = s.levels.length ∧ reader = level := by
  rw [push, List.getElem?_append] at h
  split at h
  · exact .inl h
  · obtain ⟨hlen, heq⟩ := List.getElem?_eq_some_iff.1 h
    have hzero : r - s.levels.length = 0 := Nat.lt_one_iff.1 hlen
    refine .inr ⟨by omega, ?_⟩
    rw [← heq]
    simp only [hzero, List.getElem_cons_zero]

/-- The levels after one of them was given another cell. -/
theorem levels_point {c : Nat} {b : Bool} {reader : Level} (h : (s.point l c b).levels[r]? = some reader) :
    (r ≠ l ∧ s.levels[r]? = some reader) ∨ r = l ∧ reader.cell = c ∧ reader.shared = b := by
  rw [point, List.getElem?_modify] at h
  by_cases hr : l = r
  · obtain ⟨level, -, rfl⟩ := Option.map_eq_some_iff.1 h
    simp [hr]
  · obtain ⟨level, hlevel, heq⟩ := Option.map_eq_some_iff.1 h
    rw [if_neg hr] at heq
    exact .inl ⟨Ne.symm hr, heq ▸ hlevel⟩

theorem read_point_of_ne {c : Nat} {b : Bool} (hr : r ≠ l) : (s.point l c b).read r = s.read r := by
  unfold read point
  rw [List.getElem?_modify]
  cases s.levels[r]? with
  | none => rfl
  | some level => simp only [Ne.symm hr, if_false, Option.map_eq_map, Option.map_some, Option.bind_some]

theorem read_point_self {c : Nat} {b : Bool} (hl : l < s.levels.length) : (s.point l c b).read l = s.cells[c]? := by
  unfold read point
  rw [List.getElem?_modify, List.getElem?_eq_getElem hl]
  simp only [if_true, Option.map_eq_map, Option.map_some, Option.bind_some]

/-! ## What keeps the levels apart -/

/-- The frozen cells are the first ones and are as they were; parents are older than their children; every level reads a cell;
the cell of a level that owns it is not frozen, and only levels below the owner read it. -/
structure Intact (frozen : List α) (s : Store α) : Prop where
  kept : frozen <+: s.cells
  older : ∀ {r p : Nat}, s.parentOf r = some p → p < r
  allocated : ∀ {r : Nat} {level : Level}, s.levels[r]? = some level → level.cell < s.cells.length
  unfrozen : ∀ {r : Nat} {level : Level}, s.levels[r]? = some level → level.shared = false → frozen.length ≤ level.cell
  owned : ∀ {l r : Nat} {owner reader : Level}, s.levels[l]? = some owner → owner.shared = false →
    s.levels[r]? = some reader → reader.cell = owner.cell → s.Below l r

namespace Intact

/-- A store without levels. -/
theorem initial (frozen : List α) : Intact frozen ⟨frozen, []⟩ :=
  ⟨List.prefix_refl _, fun h => absurd h (by simp [parentOf]), fun h => absurd h (by simp), fun h => absurd h (by simp),
    fun h => absurd h (by simp)⟩

variable (h : Intact frozen s)

include h

theorem le_of_below (hlr : s.Below l r) : l ≤ r := by
  induction hlr with
  | refl => exact Nat.le_refl _
  | tail _ hstep ih => exact Nat.le_trans ih (Nat.le_of_lt (h.older hstep))

/-- No level is below its child. -/
theorem not_below_parent (hp : s.parentOf l = some p) : ¬ s.Below l p := fun hb =>
  Nat.not_le_of_lt (h.older hp) (h.le_of_below hb)

/-- No level is below its sibling. -/
theorem not_below_sibling (hne : r ≠ l) (hp : s.parentOf r = s.parentOf l) : ¬ s.Below l r := by
  intro hb
  rcases Relation.ReflTransGen.cases_tail hb with heq | ⟨q, hlq, hq⟩
  · exact hne heq
  · exact h.not_below_parent (hp ▸ hq) hlq

/-! ### A new cell -/

theorem alloc (v : α) : Intact frozen (s.alloc v) where
  kept := h.kept.trans (List.prefix_append _ _)
  older hp := h.older hp
  allocated hr := Nat.lt_of_lt_of_le (h.allocated hr) (by simp [Store.alloc])
  unfrozen := h.unfrozen
  owned := h.owned

theorem read_alloc (v : α) (r : Nat) : (s.alloc v).read r = s.read r := by
  unfold read Store.alloc
  cases hr : s.levels[r]? with
  | none => rfl
  | some level => simp only [Option.bind_some, List.getElem?_append_left (h.allocated hr)]

/-! ### A new level -/

/-- A level that shares a cell, below a level that reads the cell. -/
theorem pushChild {level : Level} (hp : s.levels[p]? = some level) : Intact frozen (s.push ⟨some p, level.cell, true⟩) := by
  have hlt : p < s.levels.length := (List.getElem?_eq_some_iff.1 hp).1
  have hmono : ∀ r a, s.parentOf r = some a → (s.push ⟨some p, level.cell, true⟩).parentOf r = some a :=
    fun _ _ => parentOf_push _
  have hself : (s.push ⟨some p, level.cell, true⟩).parentOf s.levels.length = some p := parentOf_push_self _
  refine ⟨h.kept, ?_, ?_, ?_, ?_⟩
  · intro r q hq
    obtain ⟨reader, hreader, hqr⟩ := Option.bind_eq_some_iff.1 hq
    rcases levels_push hreader with hold | ⟨rfl, rfl⟩
    · exact h.older (Option.bind_eq_some_iff.2 ⟨reader, hold, hqr⟩)
    · exact Option.some.inj hqr ▸ hlt
  · intro r reader hr
    rcases levels_push hr with hold | ⟨-, rfl⟩
    · exact h.allocated hold
    · exact (h.allocated hp : level.cell < s.cells.length)
  · intro r reader hr hshared
    rcases levels_push hr with hold | ⟨-, rfl⟩
    · exact h.unfrozen hold hshared
    · cases hshared
  · intro l r owner reader hl hshared hr hcell
    rcases levels_push hl with hl | ⟨-, rfl⟩
    · rcases levels_push hr with hr | ⟨rfl, rfl⟩
      · exact (h.owned hl hshared hr hcell).mono hmono
      · exact Relation.ReflTransGen.tail ((h.owned hl hshared hp hcell).mono hmono) hself
    · cases hshared

/-- A level that shares the cell of its parent. -/
theorem openChild (p : Nat) : Intact frozen (s.openChild p) := by
  unfold Store.openChild
  split
  · exact h.pushChild ‹_›
  · exact h

/-- A level without a parent, which owns a new cell. -/
theorem openRoot (v : α) : Intact frozen (s.openRoot v) := by
  have halloc := h.alloc v
  have hlt : s.cells.length < (s.alloc v).cells.length := by simp [Store.alloc]
  refine ⟨halloc.kept, ?_, ?_, ?_, ?_⟩
  · intro r q hq
    obtain ⟨reader, hreader, hqr⟩ := Option.bind_eq_some_iff.1 hq
    rcases levels_push hreader with hold | ⟨rfl, rfl⟩
    · exact h.older (Option.bind_eq_some_iff.2 ⟨reader, hold, hqr⟩)
    · cases hqr
  · intro r reader hr
    rcases levels_push hr with hold | ⟨-, rfl⟩
    · exact halloc.allocated hold
    · exact hlt
  · intro r reader hr hshared
    rcases levels_push hr with hold | ⟨-, rfl⟩
    · exact h.unfrozen hold hshared
    · exact h.kept.length_le
  · intro l r owner reader hl hshared hr hcell
    rcases levels_push hl with hl | ⟨rfl, rfl⟩
    · rcases levels_push hr with hr | ⟨rfl, rfl⟩
      · exact (h.owned hl hshared hr hcell).mono fun _ _ => parentOf_push _
      · exact absurd hcell.symm (Nat.ne_of_lt (h.allocated hl))
    · rcases levels_push hr with hr | ⟨rfl, rfl⟩
      · exact absurd hcell (Nat.ne_of_lt (h.allocated hr))
      · exact Below.refl _ _

/-! ### Another cell -/

/-- Another cell for a level: where the level is to own it, or where another one owns a cell, the two are different. -/
theorem point {c : Nat} {b : Bool} (hc : c < s.cells.length) (hb : b = false → frozen.length ≤ c)
    (hfree : ∀ {r : Nat} {level : Level}, s.levels[r]? = some level → level.shared = false ∨ b = false → level.cell ≠ c) :
    Intact frozen (s.point l c b) := by
  refine ⟨h.kept, fun hp => h.older (parentOf_point c b ▸ hp), ?_, ?_, ?_⟩
  · intro r reader hr
    rcases levels_point hr with ⟨-, hold⟩ | ⟨-, rfl, -⟩
    · exact h.allocated hold
    · exact hc
  · intro r reader hr hshared
    rcases levels_point hr with ⟨-, hold⟩ | ⟨-, rfl, rfl⟩
    · exact h.unfrozen hold hshared
    · exact hb hshared
  · intro m r owner reader hm hshared hr hcell
    rcases levels_point hm with ⟨-, hm⟩ | ⟨rfl, hmcell, hmshared⟩
    · rcases levels_point hr with ⟨-, hr⟩ | ⟨-, hrcell, -⟩
      · exact (h.owned hm hshared hr hcell).mono fun _ _ hp => (parentOf_point c b).trans hp
      · exact absurd (hcell.symm.trans hrcell) (hfree hm (.inl hshared))
    · rcases levels_point hr with ⟨-, hr⟩ | ⟨rfl, -, -⟩
      · exact absurd (hcell.trans hmcell) (hfree hr (.inr (hmshared.symm.trans hshared)))
      · exact Below.refl _ _

/-- A frozen cell for a level. -/
theorem rebind {c : Nat} (hc : c < frozen.length) : Intact frozen (s.point l c true) :=
  h.point (Nat.lt_of_lt_of_le hc h.kept.length_le) (fun hb => by cases hb) fun hr hshared heq =>
    hshared.elim (fun hshared => Nat.not_le_of_lt hc (heq ▸ h.unfrozen hr hshared)) fun hb => by cases hb

/-- A new cell for a level. -/
theorem refresh (v : α) (b : Bool) : Intact frozen (s.refresh l v b) :=
  (h.alloc v).point (by simp [Store.alloc]) (fun _ => h.kept.length_le) fun hr _ => Nat.ne_of_lt (h.allocated hr)

theorem read_refresh_of_ne {v : α} {b : Bool} (hr : r ≠ l) : (s.refresh l v b).read r = s.read r :=
  (read_point_of_ne hr).trans (h.read_alloc v r)

omit h in
theorem read_refresh_self {v : α} {b : Bool} (hl : l < s.levels.length) : (s.refresh l v b).read l = some v := by
  refine Eq.trans (read_point_self (s := s.alloc v) hl) ?_
  rw [Store.alloc, List.getElem?_concat_length]

/-! ### Writes -/

/-- A write to the cell of a level that owns it. -/
theorem write {level : Level} (hl : s.levels[l]? = some level) (hshared : level.shared = false) (f : α → α) :
    Intact frozen (s.write level.cell f) := by
  refine ⟨?_, h.older, fun hr => ?_, h.unfrozen, h.owned⟩
  · refine List.prefix_iff_getElem?.2 fun i hi => ?_
    have hne : level.cell ≠ i := fun heq => Nat.not_le_of_lt hi (heq ▸ h.unfrozen hl hshared)
    rw [Store.write, List.getElem?_modify, List.prefix_iff_getElem?.1 h.kept i hi]
    simp only [hne, if_false, Option.map_eq_map, Option.map_some]
  · rw [Store.write, List.length_modify]
    exact h.allocated hr

/-- A write to the cell of an owner is not seen outside the levels below it. -/
theorem read_write_of_not_below {level : Level} (hl : s.levels[l]? = some level) (hshared : level.shared = false) (f : α → α)
    (hr : ¬ s.Below l r) : (s.write level.cell f).read r = s.read r := by
  unfold read Store.write
  cases hreader : s.levels[r]? with
  | none => rfl
  | some reader =>
    have hne : level.cell ≠ reader.cell := fun heq => hr (h.owned hl hshared hreader heq.symm)
    simp only [Option.bind_some, List.getElem?_modify, hne, if_false]
    cases s.cells[reader.cell]? <;> rfl

omit h in
theorem read_write_self {level : Level} (hl : s.levels[l]? = some level) (f : α → α) :
    (s.write level.cell f).read l = (s.read l).map f := by
  unfold read Store.write
  simp only [hl, Option.bind_some, List.getElem?_modify, if_true, Option.map_eq_map]

/-- An update writes in place where the level owns its cell, and to a copy where it does not. -/
theorem update_cases (f : α → α) (hl : l < s.levels.length) :
    (∃ level, s.levels[l]? = some level ∧ level.shared = false ∧ s.update l f = s.write level.cell f) ∨
    ∃ v level, s.read l = some v ∧ (s.refresh l v false).levels[l]? = some level ∧ level.shared = false ∧
      s.update l f = (s.refresh l v false).write level.cell f := by
  have hlevel := List.getElem?_eq_getElem hl
  generalize s.levels[l] = level at hlevel
  obtain ⟨parent, cell, shared⟩ := level
  cases shared with
  | false => exact .inl ⟨_, hlevel, rfl, update_of_owned hlevel f⟩
  | true =>
    have hlt : cell < s.cells.length := h.allocated hlevel
    have hcell := List.getElem?_eq_getElem hlt
    have hnew : (s.refresh l s.cells[cell] false).levels[l]? = some ⟨parent, s.cells.length, false⟩ := by
      simp only [Store.refresh, Store.point, Store.alloc, List.getElem?_modify, hlevel, if_true, Option.map_eq_map, Option.map_some]
    refine .inr ⟨_, _, ?_, hnew, rfl, update_of_shared hlevel hcell f⟩
    rw [read, hlevel, Option.bind_some, hcell]

/-- Updates keep the levels apart. -/
theorem update (f : α → α) (hl : l < s.levels.length) : Intact frozen (s.update l f) := by
  rcases h.update_cases f hl with ⟨level, hlevel, hshared, heq⟩ | ⟨v, level, -, hlevel, hshared, heq⟩
  · exact heq ▸ h.write hlevel hshared f
  · exact heq ▸ (h.refresh v false).write hlevel hshared f

/-- An update is not seen outside the levels below the one that is updated. -/
theorem read_update_of_not_below (f : α → α) (hl : l < s.levels.length) (hr : ¬ s.Below l r) : (s.update l f).read r = s.read r := by
  rcases h.update_cases f hl with ⟨level, hlevel, hshared, heq⟩ | ⟨v, level, -, hlevel, hshared, heq⟩
  · exact heq ▸ h.read_write_of_not_below hlevel hshared f hr
  · have hne : r ≠ l := fun heq => hr (heq ▸ Below.refl s l)
    have hbelow : ¬ (s.refresh l v false).Below l r := fun hb =>
      hr (hb.mono fun q a hq => parentOf_refresh v false ▸ hq)
    rw [heq, (h.refresh v false).read_write_of_not_below hlevel hshared f hbelow, h.read_refresh_of_ne hne]

/-- The level that is updated reads what the update made of what it read. -/
theorem read_update_self (f : α → α) (hl : l < s.levels.length) : (s.update l f).read l = (s.read l).map f := by
  rcases h.update_cases f hl with ⟨level, hlevel, -, heq⟩ | ⟨v, level, hread, hlevel, -, heq⟩
  · rw [heq, read_write_self hlevel]
  · rw [heq, read_write_self hlevel, read_refresh_self hl, hread]

omit h in
theorem parentOf_update (f : α → α) : (s.update l f).parentOf r = s.parentOf r := by
  have hdetach : (s.detach l).parentOf r = s.parentOf r := by
    unfold detach
    split
    · split
      · exact parentOf_refresh _ _
      · rfl
    · rfl
  unfold Store.update
  split
  · exact hdetach
  · rfl

end Intact

/-! ## A stack of levels -/

theorem read_push (level : Level) (hr : r < s.levels.length) : (s.push level).read r = s.read r := by
  unfold read push
  rw [List.getElem?_append_left hr]

/-- The open levels from the inside out: each is the parent of the one before it, and `values` is what they read. -/
structure Reads (s : Store α) (opened : List Nat) (values : List α) : Prop where
  chain : opened.IsChain fun a b => s.parentOf a = some b
  exist : ∀ l ∈ opened, l < s.levels.length
  reads : opened.map s.read = values.map some

namespace Reads

variable {opened : List Nat} {v : α} {values : List α}

theorem leave (h : s.Reads (l :: opened) (v :: values)) : s.Reads opened values :=
  ⟨h.chain.tail, fun m hm => h.exist m (List.mem_cons_of_mem _ hm), (List.cons_eq_cons.1 h.reads).2⟩

theorem lt_length (h : s.Reads (l :: opened) values) : l < s.levels.length := h.exist l List.mem_cons_self

theorem read_head (h : s.Reads (l :: opened) (v :: values)) : s.read l = some v := (List.cons_eq_cons.1 h.reads).1

/-- A level without a parent is opened. -/
theorem openRoot (s : Store α) (v : α) : (s.openRoot v).Reads [s.levels.length] [v] := by
  refine ⟨List.isChain_singleton _, ?_, ?_⟩
  · intro l hl
    rw [List.mem_singleton.1 hl, Store.openRoot, push, List.length_append]
    exact Nat.lt_succ_self _
  · have hcell : (s.cells ++ [v])[s.cells.length]? = some v := List.getElem?_concat_length
    simp only [List.map_cons, List.map_nil, read, Store.openRoot, push, alloc, List.getElem?_concat_length, Option.bind_some, hcell]

/-- A level below the innermost one is opened: it reads what its parent reads. -/
theorem openChild (h : s.Reads (p :: opened) (v :: values)) :
    (s.openChild p).Reads (s.levels.length :: p :: opened) (v :: v :: values) := by
  have hlt := h.lt_length
  have hp := List.getElem?_eq_getElem hlt
  generalize s.levels[p] = level at hp
  have hdef : s.openChild p = s.push ⟨some p, level.cell, true⟩ := by simp only [Store.openChild, hp]
  rw [hdef]
  refine ⟨List.isChain_cons_cons.2 ⟨parentOf_push_self _, h.chain.imp fun _ _ => parentOf_push _⟩, ?_, ?_⟩
  · intro l hl
    rw [push, List.length_append]
    rcases List.mem_cons.1 hl with rfl | hl
    · exact Nat.lt_succ_self _
    · exact Nat.lt_succ_of_lt (h.exist l hl)
  · have hself : (s.push ⟨some p, level.cell, true⟩).read s.levels.length = some v := by
      have hread := h.read_head
      rw [read, hp, Option.bind_some] at hread
      simp only [read, push, List.getElem?_concat_length, Option.bind_some, hread]
    have hrest : (p :: opened).map (s.push ⟨some p, level.cell, true⟩).read = (p :: opened).map s.read :=
      List.map_congr_left fun l hl => read_push _ (h.exist l hl)
    rw [List.map_cons, hrest, hself, h.reads]
    rfl

/-- The levels around the innermost one are older. -/
theorem lt_of_mem (hs : Intact frozen s) (h : s.Reads (l :: opened) values) : ∀ m ∈ opened, m < l := by
  have hchain : (l :: opened).IsChain (· > ·) := h.chain.imp fun _ _ hp => hs.older hp
  exact fun m hm => List.rel_of_pairwise_cons hchain.pairwise hm

/-- Another store in which the tree is the same, the levels around read what they read, and the innermost one reads `w`. -/
theorem replace {t : Store α} {w : α} (h : s.Reads (l :: opened) (v :: values)) (hlength : t.levels.length = s.levels.length)
    (hparent : ∀ m, t.parentOf m = s.parentOf m) (hread : ∀ m ∈ opened, t.read m = s.read m) (hself : t.read l = some w) :
    t.Reads (l :: opened) (w :: values) := by
  refine ⟨h.chain.imp fun a b hp => (hparent a).trans hp, fun m hm => hlength ▸ h.exist m hm, ?_⟩
  rw [List.map_cons, List.map_cons, hself, List.map_congr_left hread, (List.cons_eq_cons.1 h.reads).2]

/-- The innermost level gets a frozen cell. -/
theorem rebind {c : Nat} {w : α} (hs : Intact frozen s) (h : s.Reads (l :: opened) (v :: values)) (hc : frozen[c]? = some w) :
    (s.point l c true).Reads (l :: opened) (w :: values) := by
  refine h.replace (by rw [point, List.length_modify]) (fun _ => parentOf_point _ _)
    (fun m hm => read_point_of_ne (Nat.ne_of_lt (h.lt_of_mem hs m hm))) ?_
  obtain ⟨hlt, hw⟩ := List.getElem?_eq_some_iff.1 hc
  rw [read_point_self h.lt_length, List.prefix_iff_getElem?.1 hs.kept c hlt, hw]

/-- The innermost level gets a new cell. -/
theorem refresh {b : Bool} (hs : Intact frozen s) (h : s.Reads (l :: opened) (v :: values)) (w : α) :
    (s.refresh l w b).Reads (l :: opened) (w :: values) :=
  h.replace (by rw [Store.refresh, point, List.length_modify, alloc]) (fun _ => parentOf_refresh _ _)
    (fun m hm => hs.read_refresh_of_ne (Nat.ne_of_lt (h.lt_of_mem hs m hm))) (Intact.read_refresh_self h.lt_length)

/-- The innermost level is updated: the levels around read what they read. -/
theorem update (hs : Intact frozen s) (h : s.Reads (l :: opened) (v :: values)) (f : α → α) :
    (s.update l f).Reads (l :: opened) (f v :: values) := by
  refine h.replace ?_ (fun _ => Intact.parentOf_update f) (fun m hm => hs.read_update_of_not_below f h.lt_length ?_) ?_
  · rcases hs.update_cases f h.lt_length with ⟨level, -, -, heq⟩ | ⟨_, level, -, -, -, heq⟩
    · rw [heq, write]
    · rw [heq, write, Store.refresh, point, List.length_modify, alloc]
  · exact fun hb => Nat.not_le_of_lt (h.lt_of_mem hs m hm) (hs.le_of_below hb)
  · rw [hs.read_update_self f h.lt_length, h.read_head, Option.map_some]

end Reads

end Store

end Ferm.CopyOnWrite
