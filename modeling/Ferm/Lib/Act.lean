import Mathlib.Data.List.Basic
import Mathlib.Tactic.Common

/-!
# Actions that can be aborted

An action works on a state and ends with a value, or is aborted with an exception; the state it has reached by then is there in
both cases. A loop over a list is aborted by the first of its actions that is.
-/

namespace Ferm

universe u

/-- An action on a state `σ` that ends with a value or is aborted. -/
def Act (σ ε α : Type) : Type := σ → Except ε α × σ

namespace Act

variable {σ ε α β : Type}

instance : Monad (Act σ ε) where
  pure a := fun s => (.ok a, s)
  bind x f := fun s =>
    match x s with
    | (.ok a, s') => f a s'
    | (.error e, s') => (.error e, s')

instance : MonadExceptOf ε (Act σ ε) where
  throw e := fun s => (.error e, s)
  tryCatch x handle := fun s =>
    match x s with
    | (.ok a, s') => (.ok a, s')
    | (.error e, s') => handle e s'

/-- Work on the state that gives a value. -/
def ofState (f : σ → α × σ) : Act σ ε α := fun s => (.ok (f s).1, (f s).2)

/-- An action on a part of the state. -/
def zoom {τ : Type} (get : σ → τ) (set : τ → σ → σ) (x : Act τ ε α) : Act σ ε α := fun s => ((x (get s)).1, set (x (get s)).2 s)

/-- Work on the state after an action, whether it is aborted or not. -/
def ensuring {α : Type} (x : Act σ ε α) (f : σ → σ) : Act σ ε α := fun s => ((x s).1, f (x s).2)

/-- Work on the state. -/
def modify (f : σ → σ) : Act σ ε Unit := fun s => (.ok (), f s)

/-- An action that is done under a condition. -/
def when (c : Bool) (x : Act σ ε Unit) : Act σ ε Unit := if c then x else pure ()

@[simp] theorem pure_apply (a : α) (s : σ) : (pure a : Act σ ε α) s = (.ok a, s) := rfl

@[simp] theorem throw_apply (e : ε) (s : σ) : (throw e : Act σ ε α) s = (.error e, s) := rfl

@[simp] theorem ofState_apply (f : σ → α × σ) (s : σ) : (ofState f : Act σ ε α) s = (.ok (f s).1, (f s).2) := rfl

@[simp] theorem zoom_apply {τ : Type} (get : σ → τ) (set : τ → σ → σ) (x : Act τ ε α) (s : σ) :
    zoom get set x s = ((x (get s)).1, set (x (get s)).2 s) := rfl

@[simp] theorem modify_apply (f : σ → σ) (s : σ) : (modify f : Act σ ε Unit) s = (.ok (), f s) := rfl

theorem bind_of_ok {x : Act σ ε α} {f : α → Act σ ε β} {s s' : σ} {a : α} (h : x s = (.ok a, s')) :
    (x >>= f) s = f a s' := by
  change (match x s with | (.ok a, s') => f a s' | (.error e, s') => (.error e, s')) = _
  rw [h]

theorem bind_of_error {x : Act σ ε α} {f : α → Act σ ε β} {s s' : σ} {e : ε} (h : x s = (.error e, s')) :
    (x >>= f) s = (.error e, s') := by
  change (match x s with | (.ok a, s') => f a s' | (.error e, s') => (.error e, s')) = _
  rw [h]

/-- A step and what follows it end with a value when both do. -/
theorem bind_eq_ok {x : Act σ ε α} {f : α → Act σ ε β} {s s' : σ} {b : β} :
    (x >>= f) s = (.ok b, s') ↔ ∃ a s₁, x s = (.ok a, s₁) ∧ f a s₁ = (.ok b, s') := by
  constructor
  · intro h
    rcases hx : x s with ⟨e | a, s₁⟩
    · rw [bind_of_error hx] at h
      cases h
    · exact ⟨a, s₁, rfl, by rwa [bind_of_ok hx] at h⟩
  · rintro ⟨a, s₁, hx, hf⟩
    rw [bind_of_ok hx, hf]

/-- A step and what follows it are aborted when the one or the other is. -/
theorem bind_eq_error {x : Act σ ε α} {f : α → Act σ ε β} {s s' : σ} {e : ε} :
    (x >>= f) s = (.error e, s') ↔ x s = (.error e, s') ∨ ∃ a s₁, x s = (.ok a, s₁) ∧ f a s₁ = (.error e, s') := by
  constructor
  · intro h
    rcases hx : x s with ⟨e' | a, s₁⟩
    · rw [bind_of_error hx] at h
      obtain ⟨he, rfl⟩ := Prod.mk.inj h
      obtain rfl := Except.error.inj he
      exact .inl rfl
    · exact .inr ⟨a, s₁, rfl, by rwa [bind_of_ok hx] at h⟩
  · rintro (hx | ⟨a, s₁, hx, hf⟩)
    · rw [bind_of_error hx]
    · rw [bind_of_ok hx, hf]

theorem when_eq_error {c : Bool} {x : Act σ ε Unit} {s s' : σ} {e : ε} :
    when c x s = (.error e, s') ↔ c = true ∧ x s = (.error e, s') := by
  cases c with
  | false => exact ⟨fun h => (by cases h), fun h => (by cases h.1)⟩
  | true => exact ⟨fun h => ⟨rfl, h⟩, fun h => h.2⟩

theorem tryCatch_of_ok {x : Act σ ε α} {handle : ε → Act σ ε α} {s s' : σ} {a : α} (h : x s = (.ok a, s')) :
    (tryCatch x handle) s = (.ok a, s') := by
  change (match x s with | (.ok a, s') => (Except.ok a, s') | (.error e, s') => handle e s') = _
  rw [h]

theorem tryCatch_of_error {x : Act σ ε α} {handle : ε → Act σ ε α} {s s' : σ} {e : ε} (h : x s = (.error e, s')) :
    (tryCatch x handle) s = handle e s' := by
  change (match x s with | (.ok a, s') => (Except.ok a, s') | (.error e, s') => handle e s') = _
  rw [h]

/-- An action ends with a value or is aborted. -/
theorem ok_or_error (x : Act σ ε α) (s : σ) : (∃ a s', x s = (.ok a, s')) ∨ ∃ e s', x s = (.error e, s') := by
  rcases h : x s with ⟨e | a, s'⟩
  · exact .inr ⟨e, s', rfl⟩
  · exact .inl ⟨a, s', rfl⟩

/-! ## Loops -/

/-- Do something for every element of a list. -/
def each (f : α → Act σ ε Unit) : List α → Act σ ε Unit
  | [] => pure ()
  | a :: as => do
    f a
    each f as

/-- A loop that is aborted is so by one of its actions. -/
theorem each_error {f : α → Act σ ε Unit} {as : List α} {s s' : σ} {e : ε} (h : each f as s = (.error e, s')) :
    ∃ a ∈ as, ∃ s₁, f a s₁ = (.error e, s') := by
  induction as generalizing s with
  | nil => cases h
  | cons a as ih =>
    rcases bind_eq_error.1 h with h | ⟨_, s₁, -, h⟩
    · exact ⟨a, List.mem_cons_self, s, h⟩
    · obtain ⟨b, hb, hfails⟩ := ih h
      exact ⟨b, List.mem_cons_of_mem _ hb, hfails⟩

/-- A loop that ends with a value has run all of its actions. -/
theorem each_ok {f : α → Act σ ε Unit} {as : List α} {s s' : σ} {u : Unit} (h : each f as s = (.ok u, s')) :
    ∀ a ∈ as, ∃ s₁ s₂, f a s₁ = (.ok (), s₂) := by
  induction as generalizing s with
  | nil => exact fun _ ha => absurd ha List.not_mem_nil
  | cons a as ih =>
    obtain ⟨_, s₁, ha, h⟩ := bind_eq_ok.1 h
    rw [List.forall_mem_cons]
    exact ⟨⟨s, s₁, ha⟩, ih h⟩

/-- The elements up to the first that satisfies `p`, with that one. -/
def takeThrough (p : α → Bool) : List α → List α
  | [] => []
  | a :: as => if p a then [a] else a :: takeThrough p as

theorem mem_takeThrough {p : α → Bool} {as : List α} {a : α} :
    a ∈ takeThrough p as ↔ ∃ before after, as = before ++ a :: after ∧ ∀ b ∈ before, p b = false := by
  induction as with
  | nil => simp [takeThrough]
  | cons b as ih =>
    rw [takeThrough]
    constructor
    · intro h
      split at h
      · rw [List.mem_singleton.1 h]
        exact ⟨[], as, rfl, fun _ h => absurd h List.not_mem_nil⟩
      · rename_i hb
        rcases List.mem_cons.1 h with rfl | h
        · exact ⟨[], as, rfl, fun _ h => absurd h List.not_mem_nil⟩
        · obtain ⟨before, after, rfl, hbefore⟩ := ih.1 h
          exact ⟨b :: before, after, rfl, List.forall_mem_cons.2 ⟨Bool.eq_false_iff.2 hb, hbefore⟩⟩
    · rintro ⟨_ | ⟨c, before⟩, after, h, hbefore⟩
      · cases h
        split <;> simp
      · cases h
        obtain ⟨hb, hbefore⟩ := List.forall_mem_cons.1 hbefore
        rw [if_neg (by rw [hb]; exact Bool.false_ne_true)]
        exact List.mem_cons_of_mem _ (ih.2 ⟨before, after, rfl, hbefore⟩)

/-- The elements with `q` are all among the first ones when none stands behind one with `p`. -/
theorem forall_mem_takeThrough_iff {p : α → Bool} {q : α → Prop} {as : List α} (hn : as.Nodup) :
    (∀ a ∈ as, q a → a ∈ takeThrough p as) ↔ as.Pairwise fun a b => p a = true → ¬ q b := by
  induction as with
  | nil => simp
  | cons a as ih =>
    obtain ⟨ha, hn⟩ := List.nodup_cons.1 hn
    rw [List.pairwise_cons, List.forall_mem_cons]
    by_cases hp : p a = true
    · have htake : takeThrough p (a :: as) = [a] := if_pos hp
      simp only [htake, List.mem_singleton, implies_true, true_and, hp, true_implies]
      constructor
      · intro h
        have hno : ∀ b ∈ as, ¬ q b := fun b hb hq => ha (h b hb hq ▸ hb)
        exact ⟨hno, List.pairwise_of_forall_mem_list fun _ _ b hb _ => hno b hb⟩
      · rintro ⟨hno, -⟩ b hb hq
        exact absurd hq (hno b hb)
    · have htake : takeThrough p (a :: as) = a :: takeThrough p as := if_neg hp
      simp only [htake, List.mem_cons, true_or, implies_true, true_and, hp, Bool.false_eq_true, false_implies]
      rw [← ih hn]
      refine forall₃_congr fun b hb _ => ?_
      have hne : b ≠ a := fun he => ha (he ▸ hb)
      rw [or_iff_right hne]

theorem takeThrough_congr {p p' : α → Bool} {as : List α} (h : ∀ a ∈ as, p a = p' a) :
    takeThrough p as = takeThrough p' as := by
  induction as with
  | nil => rfl
  | cons a as ih =>
    obtain ⟨ha, has⟩ := List.forall_mem_cons.1 h
    rw [takeThrough, takeThrough, ha, ih has]

/-! ## Actions that write a log -/

/-- The action writes `log` and ends with `r`, whatever is in the log before. -/
def Logs {τ : Type} (x : Act (List τ) ε α) (r : Except ε α) (log : List τ) : Prop := ∀ s, x s = (r, s ++ log)

/-- An exception ends an action. -/
def isError : Except ε α → Bool
  | .ok _ => false
  | .error _ => true

/-- The outcome of a loop: the first exception. -/
def firstError (r : α → Except ε Unit) : List α → Except ε Unit
  | [] => .ok ()
  | a :: as =>
    match r a with
    | .ok _ => firstError r as
    | .error e => .error e

section

variable {τ : Type}

theorem Logs.pure (a : α) : Logs (pure a : Act (List τ) ε α) (.ok a) [] := fun s => by simp

theorem Logs.bind {x : Act (List τ) ε α} {f : α → Act (List τ) ε β} {a : α} {r : Except ε β} {log log' : List τ}
    (h : Logs x (.ok a) log) (h' : Logs (f a) r log') : Logs (x >>= f) r (log ++ log') := fun s => by
  rw [bind_of_ok (h s), h', List.append_assoc]

theorem Logs.bind_error {x : Act (List τ) ε α} {f : α → Act (List τ) ε β} {e : ε} {log : List τ}
    (h : Logs x (.error e) log) : Logs (x >>= f) (.error e) log := fun s => bind_of_error (h s)

/-- A loop writes what its actions write, up to the first that is aborted. -/
theorem Logs.each {f : α → Act (List τ) ε Unit} {r : α → Except ε Unit} {log : α → List τ} (as : List α)
    (h : ∀ a ∈ as, Logs (f a) (r a) (log a)) :
    Logs (Act.each f as) (firstError r as) ((takeThrough (fun a => isError (r a)) as).flatMap log) := by
  induction as with
  | nil => exact Logs.pure ()
  | cons a as ih =>
    obtain ⟨ha, has⟩ := List.forall_mem_cons.1 h
    rw [takeThrough, firstError]
    cases hr : r a with
    | error e =>
      rw [hr] at ha
      have hthis : (if isError (Except.error e : Except ε Unit) = true then [a]
          else a :: takeThrough (fun a => isError (r a)) as) = [a] := if_pos rfl
      rw [hthis, List.flatMap_singleton]
      exact ha.bind_error
    | ok u =>
      rw [hr] at ha
      have hthis : (if isError (Except.ok u : Except ε Unit) = true then [a]
          else a :: takeThrough (fun a => isError (r a)) as) = a :: takeThrough (fun a => isError (r a)) as :=
        if_neg Bool.false_ne_true
      rw [hthis, List.flatMap_cons]
      exact ha.bind (ih has)

/-- A loop is aborted when one of its actions is. -/
theorem isError_firstError (r : α → Except ε Unit) (as : List α) :
    isError (firstError r as) = as.any fun a => isError (r a) := by
  induction as with
  | nil => rfl
  | cons a as ih =>
    rw [firstError, List.any_cons]
    cases r a with
    | error e => rfl
    | ok u => exact ih

theorem exists_of_firstError {r : α → Except ε Unit} {as : List α} {e : ε} (h : firstError r as = .error e) :
    ∃ a ∈ as, r a = .error e := by
  induction as with
  | nil => cases h
  | cons a as ih =>
    rw [firstError] at h
    cases hr : r a with
    | error e' =>
      rw [hr] at h
      exact ⟨a, List.mem_cons_self, hr.trans (congrArg _ (Except.error.inj h))⟩
    | ok u =>
      rw [hr] at h
      obtain ⟨b, hb, hbe⟩ := ih h
      exact ⟨b, List.mem_cons_of_mem a hb, hbe⟩

end

end Act

end Ferm
