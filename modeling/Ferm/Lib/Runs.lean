import Ferm.Lib.Monadic
import Mathlib.Data.List.Basic
import Mathlib.Data.List.Chain
import Mathlib.Tactic.Common

/-!
# Greedy runs

A list is cut into runs from left to right: a run starts with one element, and takes in the next element as long as it extends
the run. Passes that fold adjacent elements into one work on these runs.
-/

namespace Ferm

universe u

variable {α β : Type u}

/-- The runs of a list whose first run has begun. -/
def greedyRunsFrom (joins : List α → α → Bool) : List α → List α → List (List α)
  | run, [] => [run]
  | run, a :: as => if joins run a then greedyRunsFrom joins (run ++ [a]) as else run :: greedyRunsFrom joins [a] as

/-- The runs of a list. -/
def greedyRuns (joins : List α → α → Bool) : List α → List (List α)
  | [] => []
  | a :: as => greedyRunsFrom joins [a] as

/-- An element joins a run when it matches the run's first element. -/
def headJoins (joins : α → α → Bool) (run : List α) (a : α) : Bool :=
  match run with
  | [] => false
  | first :: _ => joins first a

/-- A list built from its first element by extensions. -/
inductive IsRun (joins : List α → α → Bool) : List α → Prop
  | single (a : α) : IsRun joins [a]
  | snoc {run : List α} {a : α} (h : IsRun joins run) (ha : joins run a = true) : IsRun joins (run ++ [a])

section

variable {joins : List α → α → Bool}

theorem IsRun.ne_nil {run : List α} (h : IsRun joins run) : run ≠ [] := by
  cases h <;> simp

/-- The runs put together are the list. -/
theorem flatten_greedyRuns (joins : List α → α → Bool) (l : List α) : (greedyRuns joins l).flatten = l := by
  have hfrom : ∀ (as run : List α), (greedyRunsFrom joins run as).flatten = run ++ as := by
    intro as
    induction as with
    | nil => simp [greedyRunsFrom]
    | cons a as ih =>
      intro run
      rw [greedyRunsFrom]
      split
      · rw [ih, List.append_assoc]
        rfl
      · rw [List.flatten_cons, ih]
        rfl
  cases l with
  | nil => rfl
  | cons a as => exact hfrom as [a]

theorem mem_of_mem_greedyRuns {l run : List α} {a : α} (hrun : run ∈ greedyRuns joins l) (ha : a ∈ run) : a ∈ l := by
  rw [← flatten_greedyRuns joins l]
  exact List.mem_flatten_of_mem hrun ha

theorem isRun_of_mem {l run : List α} (h : run ∈ greedyRuns joins l) : IsRun joins run := by
  have hfrom : ∀ (as first : List α), IsRun joins first → ∀ run ∈ greedyRunsFrom joins first as,
      IsRun joins run := by
    intro as
    induction as with
    | nil =>
      intro first hf run hr
      cases List.mem_singleton.1 hr
      exact hf
    | cons a as ih =>
      intro first hf run hr
      rw [greedyRunsFrom] at hr
      split at hr
      · rename_i ha
        exact ih _ (hf.snoc ha) run hr
      · rcases List.mem_cons.1 hr with rfl | hr
        · exact hf
        · exact ih [a] (.single a) run hr
  cases l with
  | nil => cases h
  | cons a as => exact hfrom as [a] (.single a) run h

/-- A run whose elements match its first element. -/
theorem isRun_headJoins {joins : α → α → Bool} {run : List α} (h : IsRun (headJoins joins) run) :
    ∃ first rest, run = first :: rest ∧ ∀ a ∈ rest, joins first a = true := by
  induction h with
  | single a => exact ⟨a, [], rfl, fun b hb => absurd hb List.not_mem_nil⟩
  | snoc h ha ih =>
    obtain ⟨first, rest, rfl, hrest⟩ := ih
    refine ⟨first, rest ++ [_], rfl, fun b hb => ?_⟩
    rcases List.mem_append.1 hb with hb | hb
    · exact hrest b hb
    · rw [List.mem_singleton.1 hb]
      exact ha

/-- There are as many runs as elements when every run is one element, and fewer otherwise. -/
theorem length_greedyRuns_lt {l : List α} (h : ∃ run ∈ greedyRuns joins l, 2 ≤ run.length) :
    (greedyRuns joins l).length < l.length := by
  have hlen : ∀ runs : List (List α), (∀ run ∈ runs, run ≠ []) → runs.length ≤ runs.flatten.length ∧
      ((∃ run ∈ runs, 2 ≤ run.length) → runs.length < runs.flatten.length) := by
    intro runs
    induction runs with
    | nil => simp
    | cons run runs ih =>
      intro hne
      obtain ⟨hrun, hruns⟩ := List.forall_mem_cons.1 hne
      obtain ⟨hle, hlt⟩ := ih hruns
      have hpos : 0 < run.length := List.length_pos_of_ne_nil hrun
      simp only [List.length_cons, List.flatten_cons, List.length_append]
      refine ⟨by omega, ?_⟩
      rintro ⟨r, hr, h2⟩
      rcases List.mem_cons.1 hr with rfl | hr
      · omega
      · have := hlt ⟨r, hr, h2⟩
        omega
  have := (hlen (greedyRuns joins l) fun run hr => (isRun_of_mem hr).ne_nil).2 h
  rwa [flatten_greedyRuns] at this

/-- When every run is one element, the runs are the elements. -/
theorem greedyRuns_eq_singletons {l : List α} (h : ∀ run ∈ greedyRuns joins l, run.length < 2) :
    greedyRuns joins l = l.map fun a => [a] := by
  have hsingle : ∀ runs : List (List α), (∀ run ∈ runs, run ≠ []) → (∀ run ∈ runs, run.length < 2) →
      runs = runs.flatten.map fun a => [a] := by
    intro runs
    induction runs with
    | nil => simp
    | cons run runs ih =>
      intro hne hlt
      obtain ⟨hrun, hruns⟩ := List.forall_mem_cons.1 hne
      obtain ⟨hlt1, hlt2⟩ := List.forall_mem_cons.1 hlt
      match run, hrun, hlt1 with
      | [a], _, _ =>
        rw [List.flatten_cons, List.map_append, ← ih hruns hlt2]
        rfl
  have := hsingle (greedyRuns joins l) (fun run hr => (isRun_of_mem hr).ne_nil) h
  rwa [flatten_greedyRuns] at this

/-- A run ends where the next element does not extend it. -/
theorem isChain_greedyRuns (l : List α) :
    List.IsChain (fun run next => ∀ a ∈ next.head?, joins run a = false) (greedyRuns joins l) := by
  have hfrom : ∀ (as run : List α), run ≠ [] →
      List.IsChain (fun run next => ∀ a ∈ next.head?, joins run a = false) (greedyRunsFrom joins run as) ∧
        ∀ first ∈ (greedyRunsFrom joins run as).head?, first.head? = run.head? := by
    intro as
    induction as with
    | nil =>
      intro run _
      exact ⟨List.isChain_singleton run, fun first hfirst => by cases hfirst; rfl⟩
    | cons a as ih =>
      intro run hne
      rw [greedyRunsFrom]
      split
      · obtain ⟨hchain, hhead⟩ := ih (run ++ [a]) (List.append_ne_nil_of_left_ne_nil hne _)
        exact ⟨hchain, fun first hfirst => (hhead first hfirst).trans (List.head?_append_of_ne_nil run hne)⟩
      · rename_i ha
        obtain ⟨hchain, hhead⟩ := ih [a] (List.cons_ne_nil _ _)
        refine ⟨List.isChain_cons.2 ⟨fun next hnext b hb => ?_, hchain⟩, fun first hfirst => by cases hfirst; rfl⟩
        rw [hhead next hnext, List.head?_cons, Option.mem_some_iff] at hb
        exact hb ▸ Bool.eq_false_iff.2 ha
  cases l with
  | nil => exact List.isChain_nil
  | cons a as => exact (hfrom as [a] (List.cons_ne_nil _ _)).1

/-- Every run is one element exactly if no element joins the one in front of it. -/
theorem greedyRuns_eq_singletons_iff {l : List α} :
    (greedyRuns joins l = l.map fun a => [a]) ↔ List.IsChain (fun a b => joins [a] b = false) l := by
  constructor
  · intro h
    have hchain := @isChain_greedyRuns _ joins l
    rw [h, List.isChain_map] at hchain
    exact hchain.imp fun a b hab => hab b rfl
  · intro h
    have hfrom : ∀ (as : List α) (a : α), List.IsChain (fun a b => joins [a] b = false) (a :: as) →
        greedyRunsFrom joins [a] as = (a :: as).map fun a => [a] := by
      intro as
      induction as with
      | nil => intro a _; rfl
      | cons b as ih =>
        intro a hchain
        obtain ⟨hab, hrest⟩ := List.isChain_cons_cons.1 hchain
        rw [greedyRunsFrom, hab, if_neg Bool.false_ne_true, ih b hrest]
        rfl
    cases l with
    | nil => rfl
    | cons a as => exact hfrom as a h

/-- A search in which at most one element is found does not depend on the order of the list. -/
theorem find?_eq_of_perm {p : α → Bool} {l l' : List α} (h : l.Perm l')
    (hone : ∀ a ∈ l, ∀ b ∈ l, p a = true → p b = true → a = b) : l.find? p = l'.find? p := by
  cases hl : l.find? p with
  | none =>
    rw [List.find?_eq_none] at hl
    exact (List.find?_eq_none.2 fun a ha => hl a (h.mem_iff.2 ha)).symm
  | some a =>
    have ha := List.mem_of_find?_eq_some hl
    obtain ⟨b, hb⟩ := Option.isSome_iff_exists.1 (List.find?_isSome.2 ⟨a, h.mem_iff.1 ha, List.find?_some hl⟩)
    rw [hb, hone a ha b (h.mem_iff.2 (List.mem_of_find?_eq_some hb)) (List.find?_some hl) (List.find?_some hb)]

end

/-! ## A test that can fail -/

section

variable {α ε : Type}

/-- The runs of a list whose first run has begun, cut by a test that can fail. -/
def greedyRunsFromM (joins : List α → α → Except ε Bool) : List α → List α → Except ε (List (List α))
  | run, [] => return [run]
  | run, a :: as => do
    if ← joins run a then greedyRunsFromM joins (run ++ [a]) as
    else
      let runs ← greedyRunsFromM joins [a] as
      return run :: runs

/-- The runs of a list, cut by a test that can fail. -/
def greedyRunsM (joins : List α → α → Except ε Bool) : List α → Except ε (List (List α))
  | [] => return []
  | a :: as => greedyRunsFromM joins [a] as

/-- What a run's first element has been compared with: the other elements of the run, and the first one of the next run. -/
def RunsCompared (rel : α → α → Prop) (runs : List (List α)) : Prop :=
  (∀ run ∈ runs, ∀ first ∈ run.head?, ∀ a ∈ run.tail, rel first a) ∧
    List.IsChain (fun run next => ∀ first ∈ run.head?, ∀ a ∈ next.head?, rel first a) runs

variable {rel : α → α → Prop} {joins : List α → α → Bool} {joinsM : List α → α → Except ε Bool}

/-- The run that has begun is the beginning of the first run. -/
theorem exists_greedyRunsFrom_eq_cons (joins : List α → α → Bool) (run as : List α) :
    ∃ more runs, greedyRunsFrom joins run as = (run ++ more) :: runs := by
  induction as generalizing run with
  | nil => exact ⟨[], [], by rw [greedyRunsFrom, List.append_nil]⟩
  | cons a as ih =>
    rw [greedyRunsFrom]
    split
    · obtain ⟨more, runs, h⟩ := ih (run ++ [a])
      exact ⟨a :: more, runs, by rw [h, List.append_assoc]; rfl⟩
    · exact ⟨[], _, by rw [List.append_nil]⟩

/-- What has been compared when a run ends where the next one begins with an element. -/
theorem runsCompared_cons_iff {first a : α} {rest more : List α} {runs : List (List α)} :
    RunsCompared rel ((first :: rest) :: (a :: more) :: runs) ↔
      (∀ c ∈ rest, rel first c) ∧ rel first a ∧ RunsCompared rel ((a :: more) :: runs) := by
  unfold RunsCompared
  rw [List.forall_mem_cons, List.isChain_cons_cons]
  simp only [List.head?_cons, List.tail_cons, Option.mem_some_iff, forall_eq']
  constructor
  · rintro ⟨⟨hrest, hruns⟩, ha, hchain⟩
    exact ⟨hrest, ha, hruns, hchain⟩
  · rintro ⟨hrest, ha, hruns, hchain⟩
    exact ⟨⟨hrest, hruns⟩, ha, hchain⟩

/-- The cut succeeds when all its comparisons do, a comparison depending on the run's first element once the elements of the run
have been compared with it. -/
theorem greedyRunsFromM_eq_ok_iff (hjoins : ∀ first rest a b, (∀ c ∈ rest, rel first c) →
      (joinsM (first :: rest) a = .ok b ↔ rel first a ∧ b = joins (first :: rest) a))
    {as : List α} {first : α} {rest : List α} (hrest : ∀ c ∈ rest, rel first c) {runs : List (List α)} :
    greedyRunsFromM joinsM (first :: rest) as = .ok runs ↔
      RunsCompared rel (greedyRunsFrom joins (first :: rest) as) ∧ runs = greedyRunsFrom joins (first :: rest) as := by
  induction as generalizing first rest runs with
  | nil =>
    rw [greedyRunsFromM, greedyRunsFrom]
    have hone : RunsCompared rel [first :: rest] :=
      ⟨List.forall_mem_singleton.2 fun _ hfirst => by cases hfirst; exact hrest, List.isChain_singleton _⟩
    exact Except.return_eq_ok_iff_of hone
  | cons a as ih =>
    rw [greedyRunsFromM, greedyRunsFrom, Except.bind_eq_ok_of_spec fun b => hjoins first rest a b hrest]
    by_cases ha : joins (first :: rest) a = true
    · rw [if_pos ha, if_pos ha, List.cons_append]
      have hlonger : rel first a → ∀ c ∈ rest ++ [a], rel first c := fun hrel c hc =>
        (List.mem_append.1 hc).elim (hrest c) fun hc => List.mem_singleton.1 hc ▸ hrel
      constructor
      · rintro ⟨hrel, h⟩
        exact (ih (hlonger hrel)).1 h
      · rintro ⟨hcompared, hruns⟩
        obtain ⟨more, runs', h⟩ := exists_greedyRunsFrom_eq_cons joins (first :: (rest ++ [a])) as
        have hrel : rel first a := hcompared.1 (first :: (rest ++ [a]) ++ more) (h ▸ List.mem_cons_self) first rfl a (by simp)
        exact ⟨hrel, (ih (hlonger hrel)).2 ⟨hcompared, hruns⟩⟩
    · obtain ⟨more, runs', h⟩ := exists_greedyRunsFrom_eq_cons joins [a] as
      rw [if_neg ha, if_neg ha, Except.bind_eq_ok_of_spec fun r => ih (List.forall_mem_nil _), h, List.singleton_append,
        Except.return_eq_ok_iff, runsCompared_cons_iff, and_iff_right hrest, and_assoc]

theorem greedyRunsM_eq_ok_iff (hjoins : ∀ first rest a b, (∀ c ∈ rest, rel first c) →
      (joinsM (first :: rest) a = .ok b ↔ rel first a ∧ b = joins (first :: rest) a)) {l : List α} {runs : List (List α)} :
    greedyRunsM joinsM l = .ok runs ↔ RunsCompared rel (greedyRuns joins l) ∧ runs = greedyRuns joins l := by
  cases l with
  | nil =>
    have hnil : RunsCompared rel ([] : List (List α)) := ⟨List.forall_mem_nil _, List.isChain_nil⟩
    exact Except.return_eq_ok_iff_of hnil
  | cons a as => exact greedyRunsFromM_eq_ok_iff hjoins (List.forall_mem_nil _)

/-- Where every run is one element, the elements next to each other have been compared. -/
theorem runsCompared_singletons_iff {l : List α} : RunsCompared rel (l.map fun a => [a]) ↔ List.IsChain rel l := by
  unfold RunsCompared
  rw [List.forall_mem_map, List.isChain_map]
  simp

end

end Ferm
