import Ferm.Lib.Dict
import Ferm.Lib.Monadic

/-!
# Groups of a dictionary

A walk over a list that can fail collects what it gives by a key; a second walk over the groups makes one value of each. What
comes out for a key depends on the items with that key alone.
-/

namespace Ferm

universe u

variable {κ α β γ ε : Type u} [DecidableEq κ]

/-- A list, unless it is empty. -/
def nonEmpty (l : List α) : Option (List α) := if l = [] then none else some l

theorem nonEmpty_append_singleton (l : List α) (a : α) : nonEmpty (l ++ [a]) = some (l ++ [a]) := if_neg (by simp)

theorem nonEmpty_getD (l : List α) : (nonEmpty l).getD [] = l := by
  unfold nonEmpty
  split
  · rename_i h
    rw [h]
    rfl
  · rfl

theorem nonEmpty_eq_some_iff {l m : List α} : nonEmpty l = some m ↔ l ≠ [] ∧ l = m := by
  unfold nonEmpty
  split
  · rename_i h
    exact iff_of_false nofun fun hl => hl.1 h
  · rename_i h
    rw [Option.some.injEq]
    exact (and_iff_right h).symm

/-! ## Collecting -/

/-- `d.setdefault(k, []).append(a)`. -/
def Dict.push (d : Dict κ (List α)) (k : κ) (a : α) : Dict κ (List α) := d.set k ((d.get? k).getD [] ++ [a])

/-- Collect what a walk gives by its key. -/
def groupM (f : β → Except ε (Option α)) (key : α → κ) (groups : Dict κ (List α)) (l : List β) : Except ε (Dict κ (List α)) :=
  l.foldlM (fun groups b => do
    match ← f b with
    | some a => return groups.push (key a) a
    | none => return groups) groups

/-- What the items give that have a key. -/
def picked (f : β → Except ε (Option α)) (key : α → κ) (k : κ) (l : List β) : List α :=
  l.filterMap fun b => match f b with
    | .ok (some a) => if key a = k then some a else none
    | _ => none

variable {f : β → Except ε (Option α)} {key : α → κ}

theorem picked_perm {k : κ} {l l' : List β} (h : l.Perm l') : (picked f key k l).Perm (picked f key k l') := h.filterMap _

theorem mem_picked {k : κ} {l : List β} {a : α} : a ∈ picked f key k l ↔ ∃ b ∈ l, f b = .ok (some a) ∧ key a = k := by
  rw [picked, List.mem_filterMap]
  refine exists_congr fun b => and_congr_right fun _ => ?_
  split
  · rename_i a' hb
    rw [hb]
    split
    · rename_i hk
      constructor
      · rintro ⟨⟩
        exact ⟨rfl, hk⟩
      · rintro ⟨⟨⟩, -⟩
        rfl
    · rename_i hk
      refine iff_of_false nofun ?_
      rintro ⟨⟨⟩, hk'⟩
      exact hk hk'
  · rename_i hb
    exact iff_of_false nofun fun h => hb a h.1

/-- The walk comes to its end when every item gives something. -/
theorem exists_groupM_iff {groups : Dict κ (List α)} {l : List β} :
    (∃ d, groupM f key groups l = .ok d) ↔ ∀ b ∈ l, ∃ a, f b = .ok a := by
  induction l generalizing groups with
  | nil => exact iff_of_true ⟨groups, rfl⟩ nofun
  | cons b l ih =>
    rw [List.forall_mem_cons, groupM, List.foldlM_cons]
    cases hb : f b with
    | error e => exact iff_of_false (fun ⟨d, h⟩ => nomatch h) fun h => nomatch h.1
    | ok a =>
      rw [and_iff_right ⟨a, rfl⟩]
      cases a with
      | none => exact ih
      | some a => exact ih

/-- The group of a key: what the items gave that have it. -/
theorem get?_groupM {groups d : Dict κ (List α)} {l : List β} {k : κ} {before : List α} (hbefore : groups.get? k = nonEmpty before)
    (h : groupM f key groups l = .ok d) : d.get? k = nonEmpty (before ++ picked f key k l) := by
  induction l generalizing groups before with
  | nil =>
    cases h
    rw [hbefore, picked, List.filterMap_nil, List.append_nil]
  | cons b l ih =>
    rw [groupM, List.foldlM_cons] at h
    obtain ⟨groups', hstep, h⟩ := Except.bind_eq_ok.1 h
    obtain ⟨a, hb, hstep⟩ := Except.bind_eq_ok.1 hstep
    rw [picked, List.filterMap_cons, hb]
    cases a with
    | none =>
      cases hstep
      exact ih hbefore h
    | some a =>
      cases hstep
      have hgroup := Dict.get?_set groups (key a) k ((groups.get? (key a)).getD [] ++ [a])
      by_cases hk : key a = k
      · rw [if_pos hk.symm, hk, hbefore, nonEmpty_getD, ← nonEmpty_append_singleton] at hgroup
        rw [ih (by rw [Dict.push, hk, hbefore, nonEmpty_getD]; exact hgroup) h]
        simp [hk, picked]
      · rw [if_neg (Ne.symm hk), hbefore] at hgroup
        rw [ih hgroup h]
        simp [hk, picked]

/-! ## One value for each group -/

/-- A value for each entry, made by a walk that can fail. -/
def Dict.traverse (g : κ → α → Except ε γ) (d : Dict κ α) : Except ε (Dict κ γ) :=
  d.entries.foldlM (fun made e => do
    let value ← g e.1 e.2
    return made.set e.1 value) Dict.empty

theorem exists_foldlM_set_iff {g : κ → α → Except ε γ} {made : Dict κ γ} {es : List (κ × α)} :
    (∃ r, es.foldlM (fun made e => do
      let value ← g e.1 e.2
      return made.set e.1 value) made = .ok r) ↔ ∀ e ∈ es, ∃ c, g e.1 e.2 = .ok c := by
  induction es generalizing made with
  | nil => exact iff_of_true ⟨made, rfl⟩ nofun
  | cons e es ih =>
    rw [List.forall_mem_cons, List.foldlM_cons]
    cases he : g e.1 e.2 with
    | error err => exact iff_of_false (fun ⟨r, h⟩ => nomatch h) fun h => nomatch h.1
    | ok c => exact ih.trans (and_iff_right ⟨c, rfl⟩).symm

theorem Dict.exists_traverse_iff {g : κ → α → Except ε γ} {d : Dict κ α} :
    (∃ r, d.traverse g = .ok r) ↔ ∀ k a, d.get? k = some a → ∃ c, g k a = .ok c := by
  rw [Dict.traverse, exists_foldlM_set_iff]
  constructor
  · exact fun h k a hk => h (k, a) (Dict.get?_eq_some_iff.1 hk)
  · exact fun h e he => h e.1 e.2 (Dict.get?_eq_some_iff.2 he)

/-- What comes out for a key is made of what went in for it. -/
theorem Dict.get?_traverse {g : κ → α → Except ε γ} {d : Dict κ α} {r : Dict κ γ} (h : d.traverse g = .ok r) (k : κ) :
    r.get? k = (d.get? k).bind fun a => (g k a).toOption := by
  have hwalk : ∀ (es : List (κ × α)) (made : Dict κ γ), (es.map Prod.fst).Nodup → es.foldlM (fun made e => do
      let value ← g e.1 e.2
      return made.set e.1 value) made = .ok r →
      r.get? k = match lookupEntries k es with
        | some a => (g k a).toOption
        | none => made.get? k := by
    intro es
    induction es with
    | nil =>
      rintro made - ⟨⟩
      rfl
    | cons e es ih =>
      intro made hn h
      obtain ⟨he, hn⟩ := List.nodup_cons.1 hn
      rw [List.foldlM_cons] at h
      obtain ⟨made', hstep, h⟩ := Except.bind_eq_ok.1 h
      obtain ⟨c, hc, hstep⟩ := Except.bind_eq_ok.1 hstep
      cases hstep
      rw [ih _ hn h]
      by_cases hek : e.1 = k
      · subst hek
        rw [lookupEntries_eq_none_iff.2 he, lookupEntries, if_pos rfl, Dict.get?_set_self]
        exact congrArg Except.toOption hc.symm
      · rw [lookupEntries, if_neg hek, Dict.get?_set_of_ne _ _ (Ne.symm hek)]
  have hget : d.get? k = lookupEntries k d.entries := rfl
  rw [hwalk d.entries Dict.empty d.nodup h, hget]
  cases lookupEntries k d.entries <;> rfl

end Ferm
