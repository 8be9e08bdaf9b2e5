import Mathlib.Data.List.Nodup
import Mathlib.Data.List.Lookmap
import Mathlib.Tactic.Common

/-!
# Insertion-ordered dictionaries

A `Dict κ α` is a list of entries with distinct keys: assigning to a key that is there keeps its place, assigning to a new
key puts it last. The distinctness of the keys is a field, so that a lookup and a walk over the entries always agree.
-/

namespace Ferm

universe u v w

/-- A dictionary that remembers the order in which its keys were first assigned. -/
structure Dict (κ : Type u) (α : Type v) where
  entries : List (κ × α)
  nodup : (entries.map Prod.fst).Nodup

namespace Dict

variable {κ : Type u} {α : Type v} {β : Type w}

instance [DecidableEq κ] [DecidableEq α] : DecidableEq (Dict κ α) := fun d e =>
  decidable_of_iff (d.entries = e.entries) ⟨fun h => by cases d; cases e; cases h; rfl, fun h => h ▸ rfl⟩

theorem ext {d e : Dict κ α} (h : d.entries = e.entries) : d = e := by
  cases d
  cases e
  cases h
  rfl

/-- The dictionary without entries. -/
def empty : Dict κ α := ⟨[], List.nodup_nil⟩

instance : Inhabited (Dict κ α) := ⟨empty⟩

/-- The keys in the order of their first assignment. -/
def keys (d : Dict κ α) : List κ := d.entries.map Prod.fst

theorem nodup_keys (d : Dict κ α) : d.keys.Nodup := d.nodup

instance : Membership κ (Dict κ α) := ⟨fun d k => k ∈ d.keys⟩

theorem mem_iff_mem_keys {d : Dict κ α} {k : κ} : k ∈ d ↔ k ∈ d.keys := Iff.rfl

theorem mem_of_mem_entries {d : Dict κ α} {e : κ × α} (h : e ∈ d.entries) : e.1 ∈ d :=
  List.mem_map_of_mem h

@[simp] theorem keys_empty : (empty : Dict κ α).keys = [] := rfl

@[simp] theorem not_mem_empty (k : κ) : k ∉ (empty : Dict κ α) := List.not_mem_nil

variable [DecidableEq κ]

instance (d : Dict κ α) (k : κ) : Decidable (k ∈ d) := inferInstanceAs (Decidable (k ∈ d.keys))

/-- The value of the first entry with key `k`. -/
def lookupEntries (k : κ) : List (κ × α) → Option α
  | [] => none
  | e :: es => if e.1 = k then some e.2 else lookupEntries k es

/-- Assign `v` to `k` in a list of entries: in place when `k` is there, at the end otherwise. -/
def setEntries (k : κ) (v : α) : List (κ × α) → List (κ × α)
  | [] => [(k, v)]
  | e :: es => if e.1 = k then (k, v) :: es else e :: setEntries k v es

/-- The keys after an assignment: the same ones, or one more at the end. -/
theorem map_fst_setEntries (k : κ) (v : α) (es : List (κ × α)) :
    (setEntries k v es).map Prod.fst =
      if k ∈ es.map Prod.fst then es.map Prod.fst else es.map Prod.fst ++ [k] := by
  induction es with
  | nil => simp [setEntries]
  | cons e es ih =>
    by_cases he : e.1 = k
    · simp [setEntries, he]
    · simp only [setEntries, he, if_false, List.map_cons, ih, List.mem_cons, Ne.symm he, false_or]
      split <;> simp

/-- The value of a key. -/
def get? (d : Dict κ α) (k : κ) : Option α := lookupEntries k d.entries

/-- Assign a value to a key. -/
def set (d : Dict κ α) (k : κ) (v : α) : Dict κ α where
  entries := setEntries k v d.entries
  nodup := by
    rw [map_fst_setEntries]
    split
    · exact d.nodup
    · rename_i h
      exact List.nodup_append.2 ⟨d.nodup, List.nodup_singleton k, fun a ha b hb => by
        rw [List.mem_singleton.1 hb]; exact fun h' => h (h' ▸ ha)⟩

/-- Remove a key. -/
def erase (d : Dict κ α) (k : κ) : Dict κ α where
  entries := d.entries.filter (fun e => e.1 ≠ k)
  nodup := d.nodup.sublist (List.filter_sublist.map Prod.fst)

/-! ## Lookups -/

theorem lookupEntries_eq_none_iff {k : κ} {es : List (κ × α)} :
    lookupEntries k es = none ↔ k ∉ es.map Prod.fst := by
  induction es with
  | nil => simp [lookupEntries]
  | cons e es ih =>
    by_cases he : e.1 = k
    · simp [lookupEntries, he]
    · simp [lookupEntries, he, Ne.symm he, ih]

theorem lookupEntries_eq_some_iff {k : κ} {v : α} {es : List (κ × α)} (h : (es.map Prod.fst).Nodup) :
    lookupEntries k es = some v ↔ (k, v) ∈ es := by
  induction es with
  | nil => simp [lookupEntries]
  | cons e es ih =>
    obtain ⟨he, hes⟩ := List.nodup_cons.1 h
    by_cases hk : e.1 = k
    · subst hk
      have hne : (e.1, v) ∉ es := fun hm => he (List.mem_map.2 ⟨_, hm, rfl⟩)
      simp only [lookupEntries, if_true, Option.some.injEq, List.mem_cons, hne, or_false, Prod.ext_iff, true_and]
      exact eq_comm
    · simp only [lookupEntries, hk, if_false, ih hes, List.mem_cons, Prod.ext_iff, Ne.symm hk, false_and, false_or]

/-- A key has the value `v` exactly when the pair is an entry. -/
theorem get?_eq_some_iff {d : Dict κ α} {k : κ} {v : α} : d.get? k = some v ↔ (k, v) ∈ d.entries :=
  lookupEntries_eq_some_iff d.nodup

theorem get?_eq_none_iff {d : Dict κ α} {k : κ} : d.get? k = none ↔ k ∉ d :=
  lookupEntries_eq_none_iff

theorem mem_iff_isSome {d : Dict κ α} {k : κ} : k ∈ d ↔ (d.get? k).isSome = true := by
  rw [← Option.ne_none_iff_isSome, Ne, get?_eq_none_iff, not_not]

theorem mem_iff_exists {d : Dict κ α} {k : κ} : k ∈ d ↔ ∃ v, d.get? k = some v := by
  rw [mem_iff_isSome, Option.isSome_iff_exists]

theorem mem_of_get? {d : Dict κ α} {k : κ} {v : α} (h : d.get? k = some v) : k ∈ d :=
  mem_iff_exists.2 ⟨v, h⟩

/-- What holds of every entry, by key. -/
theorem forall_entries_iff {d : Dict κ α} {P : κ → α → Prop} :
    (∀ e ∈ d.entries, P e.1 e.2) ↔ ∀ k v, d.get? k = some v → P k v :=
  ⟨fun h k v hv => h (k, v) (get?_eq_some_iff.1 hv), fun h e he => h e.1 e.2 (get?_eq_some_iff.2 he)⟩

@[simp] theorem get?_empty (k : κ) : (empty : Dict κ α).get? k = none := rfl

theorem lookupEntries_setEntries (k k' : κ) (v : α) (es : List (κ × α)) :
    lookupEntries k' (setEntries k v es) = if k' = k then some v else lookupEntries k' es := by
  induction es with
  | nil => simp [setEntries, lookupEntries, eq_comm]
  | cons e es ih =>
    by_cases he : e.1 = k
    · by_cases h : k' = k
      · simp [setEntries, lookupEntries, he, h]
      · simp [setEntries, lookupEntries, he, h, Ne.symm h]
    · by_cases h : k' = k
      · subst h
        simp [setEntries, lookupEntries, he, ih]
      · simp only [setEntries, he, if_false, lookupEntries, ih, h]

/-- A lookup after an assignment. -/
theorem get?_set (d : Dict κ α) (k k' : κ) (v : α) :
    (d.set k v).get? k' = if k' = k then some v else d.get? k' :=
  lookupEntries_setEntries k k' v d.entries

@[simp] theorem get?_set_self (d : Dict κ α) (k : κ) (v : α) : (d.set k v).get? k = some v := by
  simp [get?_set]

theorem get?_set_of_ne (d : Dict κ α) {k k' : κ} (v : α) (h : k' ≠ k) : (d.set k v).get? k' = d.get? k' := by
  simp [get?_set, h]

/-- The last of two assignments to a key counts. -/
theorem set_set (d : Dict κ α) (k : κ) (v w : α) : (d.set k v).set k w = d.set k w := by
  have h : ∀ es : List (κ × α), setEntries k w (setEntries k v es) = setEntries k w es := by
    intro es
    induction es with
    | nil => simp [setEntries]
    | cons e es ih =>
      by_cases he : e.1 = k
      · simp [setEntries, he]
      · simp only [setEntries, he, if_false, ih]
  simp only [set, h]

theorem mem_set {d : Dict κ α} {k k' : κ} {v : α} : k' ∈ d.set k v ↔ k' = k ∨ k' ∈ d := by
  rw [mem_iff_isSome, mem_iff_isSome, get?_set]
  by_cases h : k' = k <;> simp [h]

theorem setEntries_of_not_mem {k : κ} {es : List (κ × α)} (h : k ∉ es.map Prod.fst) (v : α) : setEntries k v es = es ++ [(k, v)] := by
  induction es with
  | nil => rfl
  | cons e es ih =>
    rw [List.map_cons, List.mem_cons, not_or] at h
    rw [setEntries, if_neg (Ne.symm h.1), ih h.2, List.cons_append]

/-- A new key comes last. -/
theorem entries_set_of_get?_none {d : Dict κ α} {k : κ} (h : d.get? k = none) (v : α) :
    (d.set k v).entries = d.entries ++ [(k, v)] := setEntries_of_not_mem (get?_eq_none_iff.1 h) v

/-- A known key keeps its place. -/
theorem length_entries_set {d : Dict κ α} {k : κ} (h : k ∈ d) (v : α) : (d.set k v).entries.length = d.entries.length := by
  have hkeys := map_fst_setEntries k v d.entries
  rw [if_pos (show k ∈ d.entries.map Prod.fst from h)] at hkeys
  have hlength := congrArg List.length hkeys
  rwa [List.length_map, List.length_map] at hlength

/-- Without the key the entries are those of the other keys. -/
theorem entries_perm_erase {d : Dict κ α} {k : κ} {v : α} (h : d.get? k = some v) :
    d.entries.Perm ((k, v) :: (d.erase k).entries) := by
  have hmem := get?_eq_some_iff.1 h
  have hn := d.nodup
  simp only [erase]
  generalize d.entries = es at hmem hn
  induction es with
  | nil => cases hmem
  | cons e es ih =>
    obtain ⟨he, hn⟩ := List.nodup_cons.1 hn
    rcases List.mem_cons.1 hmem with rfl | hmem
    · have hrest : es.filter (fun e => e.1 ≠ k) = es :=
        List.filter_eq_self.2 fun e' he' => decide_eq_true fun hk => he (List.mem_map.2 ⟨e', he', hk⟩)
      rw [List.filter_cons_of_neg (by simp), hrest]
    · have hne : e.1 ≠ k := fun hk => he (List.mem_map.2 ⟨(k, v), hmem, hk.symm⟩)
      rw [List.filter_cons_of_pos (by simpa using hne)]
      exact ((ih hmem hn).cons e).trans (List.Perm.swap ..)

theorem get?_erase (d : Dict κ α) (k k' : κ) : (d.erase k).get? k' = if k' = k then none else d.get? k' := by
  by_cases h : k' = k
  · subst h
    rw [if_pos rfl, get?_eq_none_iff, mem_iff_mem_keys]
    simp [keys, erase]
  · rw [if_neg h]
    apply Option.ext
    intro v
    rw [get?_eq_some_iff, get?_eq_some_iff]
    simp [erase, h]

theorem mem_erase {d : Dict κ α} {k k' : κ} : k' ∈ d.erase k ↔ k' ≠ k ∧ k' ∈ d := by
  rw [mem_iff_isSome, mem_iff_isSome, get?_erase]
  by_cases h : k' = k <;> simp [h]

/-! ## Mapping the values -/

omit [DecidableEq κ] in
theorem map_fst_map_entries (f : κ → α → β) (es : List (κ × α)) :
    (es.map fun e => (e.1, f e.1 e.2)).map Prod.fst = es.map Prod.fst := by
  rw [List.map_map]
  rfl

/-- The same keys with every value mapped, which may look at its key. -/
def mapWithKey (f : κ → α → β) (d : Dict κ α) : Dict κ β where
  entries := d.entries.map fun e => (e.1, f e.1 e.2)
  nodup := by rw [map_fst_map_entries]; exact d.nodup

theorem lookupEntries_map_entries (f : κ → α → β) (k : κ) (es : List (κ × α)) :
    lookupEntries k (es.map fun e => (e.1, f e.1 e.2)) = (lookupEntries k es).map (f k) := by
  induction es with
  | nil => rfl
  | cons e es ih =>
    by_cases h : e.1 = k
    · subst h
      simp [lookupEntries]
    · simp only [List.map_cons, lookupEntries, h, if_false, ih]

@[simp] theorem get?_mapWithKey (f : κ → α → β) (d : Dict κ α) (k : κ) :
    (d.mapWithKey f).get? k = (d.get? k).map (f k) :=
  lookupEntries_map_entries f k d.entries

omit [DecidableEq κ] in
@[simp] theorem mem_mapWithKey (f : κ → α → β) (d : Dict κ α) (k : κ) : k ∈ d.mapWithKey f ↔ k ∈ d := by
  rw [mem_iff_mem_keys, mem_iff_mem_keys, show (d.mapWithKey f).keys = d.keys from map_fst_map_entries f d.entries]

/-- The same keys with every value mapped. -/
def mapValues (f : α → β) (d : Dict κ α) : Dict κ β := d.mapWithKey fun _ => f

@[simp] theorem get?_mapValues (f : α → β) (d : Dict κ α) (k : κ) : (d.mapValues f).get? k = (d.get? k).map f :=
  get?_mapWithKey _ d k

omit [DecidableEq κ] in
@[simp] theorem mem_mapValues (f : α → β) (d : Dict κ α) (k : κ) : k ∈ d.mapValues f ↔ k ∈ d :=
  mem_mapWithKey _ d k

omit [DecidableEq κ] in
@[simp] theorem keys_mapValues (f : α → β) (d : Dict κ α) : (d.mapValues f).keys = d.keys :=
  map_fst_map_entries (fun _ => f) d.entries

/-- A value that is set is mapped like the others. -/
theorem mapValues_set (f : α → β) (d : Dict κ α) (k : κ) (v : α) : (d.set k v).mapValues f = (d.mapValues f).set k (f v) := by
  have hentries (es : List (κ × α)) :
      (setEntries k v es).map (fun e => (e.1, f e.2)) = setEntries k (f v) (es.map fun e => (e.1, f e.2)) := by
    induction es with
    | nil => rfl
    | cons e es ih =>
      by_cases h : e.1 = k
      · simp [setEntries, h]
      · simp [setEntries, h, ih]
  exact ext (hentries d.entries)

/-- The entries whose value passes a test. -/
def filterValues (p : α → Bool) (d : Dict κ α) : Dict κ α where
  entries := d.entries.filter fun e => p e.2
  nodup := (List.filter_sublist.map Prod.fst).nodup d.nodup

theorem get?_filterValues (p : α → Bool) (d : Dict κ α) (k : κ) : (d.filterValues p).get? k = (d.get? k).filter p := by
  cases hk : d.get? k with
  | none =>
    rw [Option.filter_none, get?_eq_none_iff]
    intro hmem
    obtain ⟨e, he, rfl⟩ := List.mem_map.1 hmem
    exact get?_eq_none_iff.1 hk (mem_of_mem_entries (List.mem_filter.1 he).1)
  | some v =>
    have hentry := get?_eq_some_iff.1 hk
    by_cases hp : p v = true
    · rw [Option.filter_some_pos hp, get?_eq_some_iff]
      exact List.mem_filter.2 ⟨hentry, hp⟩
    · rw [Option.filter_some_neg (Bool.not_eq_true _ ▸ hp), get?_eq_none_iff]
      intro hmem
      obtain ⟨e, he, rfl⟩ := List.mem_map.1 hmem
      obtain ⟨he, hpe⟩ := List.mem_filter.1 he
      rw [get?_eq_some_iff.2 he] at hk
      exact hp (Option.some.inj hk ▸ hpe)

/-- The entries whose key passes a test. -/
def filterKeys (p : κ → Bool) (d : Dict κ α) : Dict κ α where
  entries := d.entries.filter fun e => p e.1
  nodup := (List.filter_sublist.map Prod.fst).nodup d.nodup

theorem get?_filterKeys (p : κ → Bool) (d : Dict κ α) (k : κ) :
    (d.filterKeys p).get? k = if p k then d.get? k else none := by
  split
  · rename_i hp
    cases hk : d.get? k with
    | none =>
      refine get?_eq_none_iff.2 fun hmem => ?_
      obtain ⟨e, he, rfl⟩ := List.mem_map.1 hmem
      exact get?_eq_none_iff.1 hk (mem_of_mem_entries (List.mem_filter.1 he).1)
    | some v => exact get?_eq_some_iff.2 (List.mem_filter.2 ⟨get?_eq_some_iff.1 hk, hp⟩)
  · rename_i hp
    refine get?_eq_none_iff.2 fun hmem => ?_
    obtain ⟨e, he, rfl⟩ := List.mem_map.1 hmem
    exact hp (List.mem_filter.1 he).2

/-! ## Merging -/

/-- Every key of `e` assigned to `d` in turn, with a value that may look at the one that is there. -/
def merge (f : α → Option α → α) (e d : Dict κ α) : Dict κ α :=
  e.entries.foldl (fun acc entry => acc.set entry.1 (f entry.2 (acc.get? entry.1))) d

theorem get?_foldl_merge (f : α → Option α → α) (es : List (κ × α)) (hn : (es.map Prod.fst).Nodup) (d : Dict κ α) (k : κ) :
    (es.foldl (fun acc entry => acc.set entry.1 (f entry.2 (acc.get? entry.1))) d).get? k =
      ((lookupEntries k es).map fun v => f v (d.get? k)).or (d.get? k) := by
  induction es generalizing d with
  | nil => rfl
  | cons e es ih =>
    obtain ⟨he, hes⟩ := List.nodup_cons.1 hn
    rw [List.foldl_cons, ih hes]
    by_cases h : e.1 = k
    · subst h
      rw [lookupEntries_eq_none_iff.2 he]
      simp [lookupEntries]
    · simp only [lookupEntries, if_neg h, get?_set_of_ne _ _ (Ne.symm h)]

theorem get?_merge (f : α → Option α → α) (e d : Dict κ α) (k : κ) :
    (merge f e d).get? k = ((e.get? k).map fun v => f v (d.get? k)).or (d.get? k) :=
  get?_foldl_merge f e.entries e.nodup d k

/-! ## Walks -/

/-- What a walk over the entries says about one key is what its step for the key says. -/
theorem filter_flatMap_entries {β : Type v} (d : Dict κ α) {f : κ × α → List β} {q : β → Bool} (k : κ)
    (hother : ∀ e ∈ d.entries, e.1 ≠ k → ∀ x ∈ f e, q x = false) :
    (d.entries.flatMap f).filter q = ((d.get? k).map fun v => (f (k, v)).filter q).getD [] := by
  have hnone : ∀ es : List (κ × α), (∀ e ∈ es, e.1 ≠ k → ∀ x ∈ f e, q x = false) → k ∉ es.map Prod.fst →
      (es.flatMap f).filter q = [] := by
    intro es hes hk
    refine List.filter_eq_nil_iff.2 fun x hx => ?_
    obtain ⟨e, he, hx⟩ := List.mem_flatMap.1 hx
    rw [hes e he (fun hek => hk (List.mem_map.2 ⟨e, he, hek⟩)) x hx]
    exact Bool.false_ne_true
  have hwalk : ∀ es : List (κ × α), (∀ e ∈ es, e.1 ≠ k → ∀ x ∈ f e, q x = false) → (es.map Prod.fst).Nodup →
      (es.flatMap f).filter q = ((lookupEntries k es).map fun v => (f (k, v)).filter q).getD [] := by
    intro es hes hn
    induction es with
    | nil => rfl
    | cons e es ih =>
      obtain ⟨he, hn⟩ := List.nodup_cons.1 hn
      have hes' : ∀ e' ∈ es, e'.1 ≠ k → ∀ x ∈ f e', q x = false := fun e' he' => hes e' (List.mem_cons_of_mem _ he')
      rw [List.flatMap_cons, List.filter_append, lookupEntries]
      split
      · rename_i hek
        rw [hnone es hes' (hek ▸ he), List.append_nil, Option.map_some, Option.getD_some, ← hek]
      · rename_i hek
        rw [ih hes' hn, List.filter_eq_nil_iff.2 fun x hx => by rw [hes e List.mem_cons_self hek x hx]; exact Bool.false_ne_true,
          List.nil_append]
  exact hwalk d.entries hother d.nodup

/-! ## Agreement -/

/-- Two dictionaries hold the same values, whatever the order of their keys. -/
def Agree (d e : Dict κ α) : Prop := ∀ k, d.get? k = e.get? k

theorem Agree.refl (d : Dict κ α) : d.Agree d := fun _ => rfl

theorem Agree.symm {d e : Dict κ α} (h : d.Agree e) : e.Agree d := fun k => (h k).symm

theorem Agree.trans {d e f : Dict κ α} (h : d.Agree e) (h' : e.Agree f) : d.Agree f :=
  fun k => (h k).trans (h' k)

end Dict

end Ferm
