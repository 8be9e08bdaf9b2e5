import Ferm.Lib.Dict
import Mathlib.Data.List.Basic
import Mathlib.Tactic.Common

/-!
# Runs that factor over keys

A script of commands runs on a state and stops at the first command that fails. When every command works on one cell of the
state only, a whole run is one run for each cell, of the commands that target it: what happens to a cell does not depend on
where the other commands stand between its own.
-/

namespace Ferm

universe u

variable {C σ K V : Type u}

/-- Run a script; `none` when a command fails. -/
def runScript (step : C → σ → Option σ) : List C → σ → Option σ
  | [], s => some s
  | c :: cs, s => (step c s).bind (runScript step cs)

section

variable {step : C → σ → Option σ}

@[simp] theorem runScript_nil (s : σ) : runScript step [] s = some s := rfl

@[simp] theorem runScript_cons (c : C) (cs : List C) (s : σ) :
    runScript step (c :: cs) s = (step c s).bind (runScript step cs) := rfl

theorem runScript_map {D : Type u} (f : D → C) (ds : List D) (s : σ) :
    runScript step (ds.map f) s = runScript (fun d => step (f d)) ds s := by
  induction ds generalizing s with
  | nil => rfl
  | cons d ds ih =>
    rw [List.map_cons, runScript_cons, runScript_cons]
    congr 1
    funext t
    exact ih t

theorem runScript_append (cs ds : List C) (s : σ) :
    runScript step (cs ++ ds) s = (runScript step cs s).bind (runScript step ds) := by
  induction cs generalizing s with
  | nil => rfl
  | cons c cs ih =>
    simp only [List.cons_append, runScript_cons, Option.bind_assoc]
    congr 1
    funext s'
    exact ih s'

/-- A run that succeeds passes through a state after each of its prefixes. -/
theorem runScript_append_eq_some {cs ds : List C} {s s'' : σ} :
    runScript step (cs ++ ds) s = some s'' ↔ ∃ s', runScript step cs s = some s' ∧ runScript step ds s' = some s'' := by
  rw [runScript_append, Option.bind_eq_some_iff]

end

/-- Every command of the script is safe in the state it runs in, and runs. -/
def SafeRun (step : C → σ → Option σ) (safe : C → σ → Prop) : List C → σ → Prop
  | [], _ => True
  | c :: cs, s => safe c s ∧ ∃ s', step c s = some s' ∧ SafeRun step safe cs s'

namespace SafeRun

variable {step : C → σ → Option σ} {safe : C → σ → Prop}

@[simp] theorem nil (s : σ) : SafeRun step safe [] s ↔ True := Iff.rfl

theorem cons (c : C) (cs : List C) (s : σ) :
    SafeRun step safe (c :: cs) s ↔ safe c s ∧ ∃ s', step c s = some s' ∧ SafeRun step safe cs s' := Iff.rfl

/-- A script in two parts is safe when each part is where it runs. -/
theorem append {cs ds : List C} {s : σ} :
    SafeRun step safe (cs ++ ds) s ↔
      SafeRun step safe cs s ∧ ∃ s', runScript step cs s = some s' ∧ SafeRun step safe ds s' := by
  induction cs generalizing s with
  | nil => simp
  | cons c cs ih =>
    simp only [List.cons_append, cons, ih, runScript_cons, Option.bind_eq_some_iff]
    constructor
    · rintro ⟨hsafe, s', hs', hcs, s'', hs'', hds⟩
      exact ⟨⟨hsafe, s', hs', hcs⟩, s'', ⟨s', hs', hs''⟩, hds⟩
    · rintro ⟨⟨hsafe, s', hs', hcs⟩, s'', ⟨t, ht, hs''⟩, hds⟩
      rw [hs'] at ht
      cases ht
      exact ⟨hsafe, s', hs', hcs, s'', hs'', hds⟩

/-- A script whose commands are all safe in every state is safe when it runs. -/
theorem of_forall {cs : List C} {s s' : σ} (h : ∀ c ∈ cs, ∀ t, safe c t) (hr : runScript step cs s = some s') :
    SafeRun step safe cs s := by
  induction cs generalizing s with
  | nil => trivial
  | cons c cs ih =>
    obtain ⟨hc, hcs⟩ := List.forall_mem_cons.1 h
    obtain ⟨t, ht, hr⟩ := Option.bind_eq_some_iff.1 hr
    exact ⟨hc s, t, ht, ih hcs hr⟩

/-- Safety at every place of a script that runs. -/
theorem iff_forall {cs : List C} {s s' : σ} (hr : runScript step cs s = some s') :
    SafeRun step safe cs s ↔
      ∀ before c after, cs = before ++ c :: after → ∃ t, runScript step before s = some t ∧ safe c t := by
  constructor
  · rintro h before c after rfl
    obtain ⟨_, t, ht, hc, _⟩ := append.1 h
    exact ⟨t, ht, hc⟩
  · intro h
    induction cs generalizing s with
    | nil => trivial
    | cons c cs ih =>
      obtain ⟨t, ht, hr⟩ := Option.bind_eq_some_iff.1 hr
      obtain ⟨t₀, ht₀, hsafe⟩ := h [] c cs rfl
      cases ht₀
      refine ⟨hsafe, t, ht, ih hr ?_⟩
      rintro before d after rfl
      obtain ⟨t', ht', hd⟩ := h (c :: before) d after rfl
      rw [runScript_cons, ht] at ht'
      exact ⟨t', ht', hd⟩

end SafeRun

/-- Every command that satisfies `P` works on the cell `target c` only, as `localStep` says. -/
structure Keyed (P : C → Prop) (step : C → σ → Option σ) (view : σ → K → V) (target : C → K) (localStep : C → V → Option V) :
    Prop where
  here : ∀ c s s', P c → step c s = some s' → localStep c (view s (target c)) = some (view s' (target c))
  frame : ∀ c s s', P c → step c s = some s' → ∀ k, k ≠ target c → view s' k = view s k
  total : ∀ c s, P c → (localStep c (view s (target c))).isSome = true → (step c s).isSome = true

namespace Keyed

variable [DecidableEq K] {P : C → Prop} {step : C → σ → Option σ} {view : σ → K → V} {target : C → K}
  {localStep : C → V → Option V}

/-- The commands of a script that work on the cell `k`. -/
def onKey (target : C → K) (k : K) (cs : List C) : List C := cs.filter fun c => target c = k

@[simp] theorem onKey_nil (k : K) : onKey target k [] = [] := rfl

theorem onKey_append (k : K) (cs ds : List C) : onKey target k (cs ++ ds) = onKey target k cs ++ onKey target k ds :=
  List.filter_append ..

theorem onKey_cons (k : K) (c : C) (cs : List C) :
    onKey target k (c :: cs) = if target c = k then c :: onKey target k cs else onKey target k cs := by
  by_cases h : target c = k <;> simp [onKey, h]

/-- The commands for one cell are none when no command targets it. -/
theorem onKey_eq_nil {k : K} {cs : List C} (h : ∀ c ∈ cs, target c ≠ k) : onKey target k cs = [] := by
  rw [onKey, List.filter_eq_nil_iff]
  intro c hc
  simpa using h c hc

/-- The commands for one cell are all when every command targets it. -/
theorem onKey_eq_self {k : K} {cs : List C} (h : ∀ c ∈ cs, target c = k) : onKey target k cs = cs := by
  rw [onKey, List.filter_eq_self]
  intro c hc
  simpa using h c hc

/-- A walk over distinct names, each of which works on its own cell, works on a cell as its name's step does. -/
theorem onKey_flatMap {α : Type u} {names : List α} {g : α → K} {f : α → List C} (hn : names.Nodup)
    (hkey : ∀ a ∈ names, ∀ b ∈ names, g a = g b → a = b) (ht : ∀ a ∈ names, ∀ c ∈ f a, target c = g a) {a : α}
    (ha : a ∈ names) : onKey target (g a) (names.flatMap f) = f a := by
  induction names with
  | nil => cases ha
  | cons b names ih =>
    obtain ⟨hb, hn⟩ := List.nodup_cons.1 hn
    rw [List.flatMap_cons, onKey_append]
    rcases List.mem_cons.1 ha with rfl | ha'
    · rw [onKey_eq_self (ht a List.mem_cons_self), onKey_eq_nil, List.append_nil]
      intro c hc he
      obtain ⟨d, hd, hc⟩ := List.mem_flatMap.1 hc
      rw [ht d (List.mem_cons_of_mem _ hd) c hc] at he
      have := hkey d (List.mem_cons_of_mem _ hd) a List.mem_cons_self he
      exact hb (this ▸ hd)
    · have hne : g b ≠ g a := by
        intro he
        have := hkey b List.mem_cons_self a ha he
        exact hb (this ▸ ha')
      have hb : onKey target (g a) (f b) = [] := onKey_eq_nil fun c hc he => by
        rw [ht b List.mem_cons_self c hc] at he
        exact hne he
      rw [hb, List.nil_append]
      exact ih hn (fun a h b h' => hkey a (List.mem_cons_of_mem _ h) b (List.mem_cons_of_mem _ h'))
        (fun a h => ht a (List.mem_cons_of_mem _ h)) ha'

/-- A walk does not work on a cell that is none of its names'. -/
theorem onKey_flatMap_of_ne {α : Type u} {names : List α} {f : α → List C} {k : K}
    (h : ∀ a ∈ names, ∀ c ∈ f a, target c ≠ k) : onKey target k (names.flatMap f) = [] := by
  refine onKey_eq_nil fun c hc => ?_
  obtain ⟨a, ha, hc⟩ := List.mem_flatMap.1 hc
  exact h a ha c hc

/-- What one command does to a cell, whether it targets it or not. -/
theorem view_step (h : Keyed P step view target localStep) {c : C} {s s' : σ} (hP : P c) (hs : step c s = some s') (k : K) :
    runScript localStep (onKey target k [c]) (view s k) = some (view s' k) := by
  by_cases hk : target c = k
  · subst hk
    rw [onKey_cons, if_pos rfl, onKey_nil, runScript_cons, h.here c s s' hP hs]
    rfl
  · rw [onKey_cons, if_neg hk, onKey_nil, runScript_nil, h.frame c s s' hP hs k (fun e => hk e.symm)]

/-- What a run does to a cell is the run of the commands for the cell. -/
theorem view_run (h : Keyed P step view target localStep) {cs : List C} {s s' : σ} (hP : ∀ c ∈ cs, P c)
    (hr : runScript step cs s = some s') (k : K) :
    runScript localStep (onKey target k cs) (view s k) = some (view s' k) := by
  induction cs generalizing s with
  | nil =>
    simp only [runScript_nil, Option.some.injEq] at hr
    rw [hr]
    rfl
  | cons c cs ih =>
    obtain ⟨hc, hcs⟩ := List.forall_mem_cons.1 hP
    obtain ⟨t, ht, hr⟩ := Option.bind_eq_some_iff.1 hr
    rw [← List.singleton_append, onKey_append, runScript_append, view_step h hc ht k]
    exact ih hcs hr

/-- A run succeeds when its run on every cell does. -/
theorem run_isSome (h : Keyed P step view target localStep) {cs : List C} (s : σ) (hP : ∀ c ∈ cs, P c)
    (hl : ∀ k, (runScript localStep (onKey target k cs) (view s k)).isSome = true) :
    (runScript step cs s).isSome = true := by
  induction cs generalizing s with
  | nil => rfl
  | cons c cs ih =>
    obtain ⟨hPc, hPcs⟩ := List.forall_mem_cons.1 hP
    have hc : (localStep c (view s (target c))).isSome = true := by
      have := hl (target c)
      rw [onKey_cons, if_pos rfl, runScript_cons] at this
      exact Option.isSome_of_isSome_bind this
    obtain ⟨t, ht⟩ := Option.isSome_iff_exists.1 (h.total c s hPc hc)
    rw [runScript_cons, ht]
    refine ih _ hPcs fun k => ?_
    have := hl k
    rwa [← List.singleton_append, onKey_append, runScript_append, view_step h hPc ht k] at this

/-- A run of commands that all work on one cell is their run on the cell. -/
theorem run_onCell (h : Keyed P step view target localStep) {cs : List C} {s : σ} {k : K} {v : V} (hP : ∀ c ∈ cs, P c)
    (ht : ∀ c ∈ cs, target c = k) (hl : runScript localStep cs (view s k) = some v) :
    ∃ s', runScript step cs s = some s' ∧ view s' k = v ∧ ∀ k', k' ≠ k → view s' k' = view s k' := by
  have hother : ∀ k', k' ≠ k → onKey target k' cs = [] := fun k' hk => onKey_eq_nil fun c hc he => hk (he.symm.trans (ht c hc))
  obtain ⟨s', hs'⟩ := Option.isSome_iff_exists.1 (h.run_isSome s hP fun k' => by
    by_cases hk : k' = k
    · rw [hk, onKey_eq_self ht, hl]
      rfl
    · rw [hother k' hk]
      rfl)
  refine ⟨s', hs', ?_, fun k' hk => ?_⟩
  · have hview := h.view_run hP hs' k
    rw [onKey_eq_self ht, hl] at hview
    exact (Option.some.inj hview).symm
  · have hview := h.view_run hP hs' k'
    rw [hother k' hk] at hview
    exact (Option.some.inj hview).symm

end Keyed

/-- Every command that satisfies `P` does to each cell what `localStep` says, and succeeds when it does on every cell. -/
structure Pointwise (P : C → Prop) (step : C → σ → Option σ) (view : σ → K → V) (localStep : K → C → V → Option V) : Prop where
  sound : ∀ c s s', P c → step c s = some s' → ∀ k, localStep k c (view s k) = some (view s' k)
  complete : ∀ c s, P c → (∀ k, (localStep k c (view s k)).isSome = true) → (step c s).isSome = true

namespace Pointwise

variable {P : C → Prop} {step : C → σ → Option σ} {view : σ → K → V} {localStep : K → C → V → Option V}

theorem run_sound (h : Pointwise P step view localStep) {cs : List C} {s s' : σ} (hP : ∀ c ∈ cs, P c)
    (hr : runScript step cs s = some s') (k : K) : runScript (localStep k) cs (view s k) = some (view s' k) := by
  induction cs generalizing s with
  | nil =>
    rw [runScript_nil, Option.some.injEq] at hr
    rw [hr]
    rfl
  | cons c cs ih =>
    obtain ⟨hc, hcs⟩ := List.forall_mem_cons.1 hP
    obtain ⟨t, ht, hr⟩ := Option.bind_eq_some_iff.1 hr
    rw [runScript_cons, h.sound c s t hc ht k]
    exact ih hcs hr

theorem run_complete (h : Pointwise P step view localStep) {cs : List C} {s : σ} (hP : ∀ c ∈ cs, P c)
    (hl : ∀ k, (runScript (localStep k) cs (view s k)).isSome = true) : (runScript step cs s).isSome = true := by
  induction cs generalizing s with
  | nil => rfl
  | cons c cs ih =>
    obtain ⟨hc, hcs⟩ := List.forall_mem_cons.1 hP
    obtain ⟨t, ht⟩ := Option.isSome_iff_exists.1 (h.complete c s hc fun k => Option.isSome_of_isSome_bind (hl k))
    rw [runScript_cons, ht]
    refine ih hcs fun k => ?_
    have := hl k
    rwa [runScript_cons, h.sound c s t hc ht k] at this

end Pointwise

/-- In a walk over the entries of a dictionary, a cell that is only worked on under one key sees the commands for the key. -/
theorem runScript_walk {α : Type v} [DecidableEq K] (d : Dict K α) {f : K × α → List C} {step : C → V → Option V} {k : K}
    (hother : ∀ e, e.1 ≠ k → ∀ c ∈ f e, ∀ v, step c v = some v) (v : V) :
    runScript step (d.entries.flatMap f) v = runScript step (((d.get? k).map fun a => f (k, a)).getD []) v := by
  have hskip : ∀ cs : List C, (∀ c ∈ cs, ∀ v, step c v = some v) → ∀ v, runScript step cs v = some v := by
    intro cs hcs v
    induction cs with
    | nil => rfl
    | cons c cs ih =>
      obtain ⟨hc, hcs⟩ := List.forall_mem_cons.1 hcs
      rw [runScript_cons, hc v, Option.bind_some, ih hcs]
  have hwalk : ∀ es : List (K × α), (es.map Prod.fst).Nodup →
      runScript step (es.flatMap f) v = runScript step (((Dict.lookupEntries k es).map fun a => f (k, a)).getD []) v := by
    intro es hn
    induction es with
    | nil => rfl
    | cons e es ih =>
      obtain ⟨he, hn⟩ := List.nodup_cons.1 hn
      rw [List.flatMap_cons, runScript_append, Dict.lookupEntries]
      split
      · rename_i hek
        have hrest : ∀ c ∈ es.flatMap f, ∀ w, step c w = some w := by
          intro c hc
          obtain ⟨e', he', hc⟩ := List.mem_flatMap.1 hc
          exact hother e' (fun hek' => he (List.mem_map.2 ⟨e', he', hek'.trans hek.symm⟩)) c hc
        rw [Option.map_some, Option.getD_some, ← hek]
        cases runScript step (f e) v with
        | none => rfl
        | some w => exact hskip _ hrest w
      · rename_i hek
        rw [hskip (f e) (hother e hek), Option.bind_some, ih hn]
  exact hwalk d.entries d.nodup

end Ferm
