import Mathlib.Data.List.Basic
import Mathlib.Tactic.Common

/-!
# Walks that can fail

A walk over a list in a monad with failure succeeds when every step does, with what the steps give in order.
-/

namespace Ferm

universe u

variable {α β ε : Type u}

/-- What a computation gives, or a default when it fails. -/
def Except.getD (x : Except ε β) (default : β) : β :=
  match x with
  | .ok b => b
  | .error _ => default

/-- A step and what follows it succeed when both do. -/
theorem Except.bind_eq_ok {x : Except ε α} {f : α → Except ε β} {b : β} : x >>= f = .ok b ↔ ∃ a, x = .ok a ∧ f a = .ok b := by
  cases x with
  | error e => simp [bind, Except.bind]
  | ok a => simp [bind, Except.bind]

theorem Except.return_eq_ok_iff {a b : α} : (return a : Except ε α) = .ok b ↔ b = a :=
  ⟨fun h => (Except.ok.inj h).symm, fun h => congrArg Except.ok h.symm⟩

/-- The same where what is asked for a result is there anyway. -/
theorem Except.return_eq_ok_iff_of {P : Prop} (hP : P) {a b : α} : (return a : Except ε α) = .ok b ↔ P ∧ b = a :=
  Except.return_eq_ok_iff.trans (and_iff_right hP).symm

/-- A step that succeeds under a condition with a known result. -/
theorem Except.bind_eq_ok_of_spec {x : Except ε α} {P : Prop} {a : α} {f : α → Except ε β} {b : β} (hx : ∀ r, x = .ok r ↔ P ∧ r = a) :
    x >>= f = .ok b ↔ P ∧ f a = .ok b := by
  rw [Except.bind_eq_ok]
  simp only [hx]
  constructor
  · rintro ⟨r, ⟨hP, rfl⟩, h⟩
    exact ⟨hP, h⟩
  · rintro ⟨hP, h⟩
    exact ⟨a, ⟨hP, rfl⟩, h⟩

theorem Except.eq_ok_iff_getD {x : Except ε β} {b : β} (default : β) :
    x = .ok b ↔ (∃ b, x = .ok b) ∧ b = Except.getD x default := by
  constructor
  · intro h
    rw [h]
    exact ⟨⟨b, rfl⟩, rfl⟩
  · rintro ⟨⟨b', h⟩, rfl⟩
    rw [h]
    rfl

theorem Except.toOption_eq_some_iff {x : Except ε α} {a : α} : x.toOption = some a ↔ x = .ok a := by
  cases x with
  | error e => exact iff_of_false (fun h => by cases h) fun h => by cases h
  | ok b => exact ⟨fun h => congrArg Except.ok (Option.some.inj h), fun h => congrArg some (Except.ok.inj h)⟩

/-- A walk whose steps succeed under a condition, each with a known result. -/
theorem mapM_eq_ok_iff {f : α → Except ε β} {P : α → Prop} {g : α → β} {l : List α} {r : List β}
    (hf : ∀ a ∈ l, ∀ r, f a = .ok r ↔ P a ∧ r = g a) : l.mapM f = .ok r ↔ (∀ a ∈ l, P a) ∧ r = l.map g := by
  induction l generalizing r with
  | nil => simp [pure, Except.pure, eq_comm]
  | cons a l ih =>
    obtain ⟨ha, hl⟩ := List.forall_mem_cons.1 hf
    rw [List.mapM_cons, List.forall_mem_cons, List.map_cons]
    cases hfa : f a with
    | error e =>
      have hno : ¬ P a := fun hP => by
        have := (ha (g a)).2 ⟨hP, rfl⟩
        rw [hfa] at this
        cases this
      exact iff_of_false (fun h => by cases h) fun h => hno h.1.1
    | ok b =>
      obtain ⟨hP, rfl⟩ := (ha b).1 hfa
      cases hm : l.mapM f with
      | error e =>
        have hno : ¬ ∀ a ∈ l, P a := fun hall => by
          have := (ih hl).2 ⟨hall, rfl⟩
          rw [hm] at this
          cases this
        exact iff_of_false (fun h => by cases h) fun h => hno h.1.2
      | ok bs =>
        obtain ⟨hall, rfl⟩ := (ih hl).1 hm
        exact ⟨fun h => ⟨⟨hP, hall⟩, (Except.ok.inj h).symm⟩, fun h => congrArg Except.ok h.2.symm⟩

theorem mapM_spec_ok_iff {γ : Type u} {f : α → Except ε β} {P : α → Prop} {g : α → β} {l : List α} {h : List β → γ} {y : γ}
    (hf : ∀ a ∈ l, ∀ r, f a = .ok r ↔ P a ∧ r = g a) :
    (do
      let r ← l.mapM f
      return h r) = .ok y ↔ (∀ a ∈ l, P a) ∧ y = h (l.map g) := by
  rw [Except.bind_eq_ok]
  simp only [mapM_eq_ok_iff hf]
  constructor
  · rintro ⟨r, ⟨hall, rfl⟩, hy⟩
    exact ⟨hall, (Except.ok.inj hy).symm⟩
  · rintro ⟨hall, rfl⟩
    exact ⟨_, ⟨hall, rfl⟩, rfl⟩

/-- A walk of checks passes when every check does. -/
theorem forM_ok_iff {f : α → Except ε PUnit} {l : List α} : l.forM f = .ok .unit ↔ ∀ a ∈ l, f a = .ok .unit := by
  induction l with
  | nil => simp [pure, Except.pure]
  | cons a l ih =>
    rw [List.forall_mem_cons, ← ih, List.forM]
    cases f a with
    | error e => exact iff_of_false (fun h => by cases h) fun h => by cases h.1
    | ok u => exact ⟨fun h => ⟨rfl, h⟩, fun h => h.2⟩

/-- What a walk gives is what its steps give. -/
theorem mem_mapM_ok_iff {f : α → Except ε β} {l : List α} {r : List β} (h : l.mapM f = .ok r) {b : β} :
    b ∈ r ↔ ∃ a ∈ l, f a = .ok b := by
  induction l generalizing r with
  | nil =>
    cases h
    simp
  | cons a l ih =>
    rw [List.mapM_cons] at h
    cases hfa : f a with
    | error e =>
      rw [hfa] at h
      cases h
    | ok c =>
      cases hm : l.mapM f with
      | error e =>
        rw [hfa, hm] at h
        cases h
      | ok cs =>
        rw [hfa, hm] at h
        cases h
        rw [List.mem_cons, List.exists_mem_cons_iff, ih hm, hfa, Except.ok.injEq, eq_comm]

theorem mapM_some_of_forall {f : α → Option β} {g : α → β} {l : List α} (h : ∀ a ∈ l, f a = some (g a)) :
    l.mapM f = some (l.map g) := by
  induction l with
  | nil => rfl
  | cons a l ih =>
    obtain ⟨ha, hl⟩ := List.forall_mem_cons.1 h
    simp [List.mapM_cons, ha, ih hl]

/-- Values that are all read back from what is written for them. -/
theorem mapM_map_eq_some {read : β → Option α} {write : α → β} {l : List α} (h : ∀ a ∈ l, read (write a) = some a) :
    (l.map write).mapM read = some l := by
  induction l with
  | nil => rfl
  | cons a l ih =>
    obtain ⟨ha, hl⟩ := List.forall_mem_cons.1 h
    simp [List.mapM_cons, ha, ih hl]

theorem mapM_some_length {f : α → Option β} {l : List α} {r : List β} (h : l.mapM f = some r) : r.length = l.length := by
  induction l generalizing r with
  | nil =>
    cases h
    rfl
  | cons a l ih =>
    rw [List.mapM_cons] at h
    obtain ⟨b, -, h⟩ := Option.bind_eq_some_iff.1 h
    obtain ⟨bs, hbs, h⟩ := Option.bind_eq_some_iff.1 h
    cases h
    rw [List.length_cons, List.length_cons, ih hbs]

theorem mapM_isSome_iff {f : α → Option β} {l : List α} : (l.mapM f).isSome = true ↔ ∀ a ∈ l, (f a).isSome = true := by
  induction l with
  | nil => simp
  | cons a l ih =>
    rw [List.mapM_cons, List.forall_mem_cons, ← ih]
    cases f a with
    | none => simp
    | some b => cases l.mapM f <;> simp

/-- Two walks over the same list give the same exactly when all their steps do. -/
theorem exists_mapM_both_iff {f g : α → Option β} {l : List α} :
    (∃ r, l.mapM f = some r ∧ l.mapM g = some r) ↔ ∀ a ∈ l, ∃ b, f a = some b ∧ g a = some b := by
  induction l with
  | nil => simp
  | cons a l ih =>
    rw [List.mapM_cons, List.mapM_cons, List.forall_mem_cons, ← ih]
    constructor
    · rintro ⟨r, hf, hg⟩
      obtain ⟨b, hb, hf⟩ := Option.bind_eq_some_iff.1 hf
      obtain ⟨bs, hbs, hf⟩ := Option.bind_eq_some_iff.1 hf
      obtain ⟨c, hc, hg⟩ := Option.bind_eq_some_iff.1 hg
      obtain ⟨cs, hcs, hg⟩ := Option.bind_eq_some_iff.1 hg
      cases hf
      cases hg
      exact ⟨⟨_, hb, hc⟩, _, hbs, hcs⟩
    · rintro ⟨⟨b, hb, hc⟩, bs, hbs, hcs⟩
      rw [hb, hc, hbs, hcs]
      exact ⟨b :: bs, rfl, rfl⟩

/-- A walk whose steps never fail does not fail. -/
theorem exists_foldlM_ok {σ : Type u} {f : σ → α → Except ε σ} {l : List α} (h : ∀ a ∈ l, ∀ s, ∃ s', f s a = .ok s') (s : σ) :
    ∃ s', l.foldlM f s = .ok s' := by
  induction l generalizing s with
  | nil => exact ⟨s, rfl⟩
  | cons a l ih =>
    obtain ⟨ha, hl⟩ := List.forall_mem_cons.1 h
    obtain ⟨s', hs'⟩ := ha s
    rw [List.foldlM_cons, hs']
    exact ih hl s'

/-- The same of a walk that collects what its steps give. -/
theorem exists_mapM_ok {f : α → Except ε β} {l : List α} (h : ∀ a ∈ l, ∃ b, f a = .ok b) : ∃ bs, l.mapM f = .ok bs := by
  induction l with
  | nil => exact ⟨[], rfl⟩
  | cons a l ih =>
    obtain ⟨⟨b, hb⟩, hl⟩ := List.forall_mem_cons.1 h
    obtain ⟨bs, hbs⟩ := ih hl
    exact ⟨b :: bs, by rw [List.mapM_cons, hb, hbs]; rfl⟩

/-- What every step of a walk preserves holds after the walk. -/
theorem foldlM_ok_invariant {σ : Type u} {P : σ → Prop} {f : σ → α → Except ε σ} (hstep : ∀ s a s', f s a = .ok s' → P s → P s')
    {l : List α} {s s' : σ} (h : l.foldlM f s = .ok s') (hs : P s) : P s' := by
  induction l generalizing s with
  | nil =>
    cases h
    exact hs
  | cons a l ih =>
    rw [List.foldlM_cons] at h
    obtain ⟨t, ht, h⟩ := Except.bind_eq_ok.1 h
    exact ih h (hstep s a t ht hs)

/-- A walk that fails does so in one of its steps. -/
theorem exists_step_of_foldlM_error {σ : Type u} {f : σ → α → Except ε σ} {l : List α} {s : σ} {e : ε} (h : l.foldlM f s = .error e) :
    ∃ s, ∃ a ∈ l, f s a = .error e := by
  induction l generalizing s with
  | nil => cases h
  | cons a l ih =>
    rw [List.foldlM_cons] at h
    cases hstep : f s a with
    | error e' =>
      rw [hstep] at h
      cases h
      exact ⟨s, a, List.mem_cons_self, hstep⟩
    | ok t =>
      rw [hstep] at h
      obtain ⟨s', a', ha', herror⟩ := ih h
      exact ⟨s', a', List.mem_cons_of_mem _ ha', herror⟩

/-! ## Which errors -/

/-- All errors of a computation have a property. -/
def RaisesOnly (P : ε → Prop) (x : Except ε α) : Prop := ∀ e, x = .error e → P e

section

variable {P : ε → Prop} {x : Except ε α} {f : α → Except ε β}

theorem RaisesOnly.ok (a : α) : RaisesOnly P (.ok a : Except ε α) := nofun

theorem RaisesOnly.error {e : ε} (h : P e) : RaisesOnly P (.error e : Except ε α) := by
  rintro e' ⟨⟩
  exact h

/-- A step raises what is expected when it does so where the steps before it succeed. -/
theorem RaisesOnly.bind (hx : RaisesOnly P x) (hf : ∀ a, x = .ok a → RaisesOnly P (f a)) : RaisesOnly P (x >>= f) := by
  cases x with
  | error e =>
    rintro e' ⟨⟩
    exact hx e rfl
  | ok a => exact hf a rfl

end

end Ferm
