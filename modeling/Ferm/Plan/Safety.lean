import Ferm.Plan.Convergence

/-!
# References while a delta runs

A rule may only be added when the chains and sets it refers to are there, and a chain may only be deleted when no rule refers to
it. A delta adds sets first, then handles the chains of the configuration by name, then deletes the chains that only the kernel
has.
-/

namespace Ferm

open Keyed

variable {form : NftForm} {family : String}

/-- What a canonical rule refers to: the chains it jumps or goes to, its verdict map's included, and the named sets. -/
structure Refs where
  chains : String → List String
  sets : String → List String

/-- Every chain and set that the rules of a table refer to is in the table. -/
def Closed (refs : Refs) (t : ParsedTable) : Prop :=
  ∀ name c, t.chains.get? name = some c → ∀ r ∈ c.rules,
    (∀ x ∈ refs.chains r, x ∈ t.chains) ∧ ∀ x ∈ refs.sets r, x ∈ t.sets

/-- Closedness, chain by chain. -/
theorem closed_iff {refs : Refs} {t : ParsedTable} :
    Closed refs t ↔ ∀ e ∈ t.chains.entries, ∀ r ∈ e.2.rules,
      (∀ x ∈ refs.chains r, x ∈ t.chains) ∧ ∀ x ∈ refs.sets r, x ∈ t.sets :=
  ⟨fun h e he => h e.1 e.2 (Dict.get?_eq_some_iff.2 he), fun h name c hc => h (name, c) (Dict.get?_eq_some_iff.1 hc)⟩

/-- A command keeps the references of the table's rules intact. -/
def CommandSafe (refs : Refs) (family : String) (command : Command) (t : KernelTable form) : Prop :=
  match command with
  | .addRule chain body =>
    chain ∈ t.chains ∧ (∀ x ∈ refs.chains (form.canonicalizeNftRule family body), x ∈ t.chains) ∧
      ∀ x ∈ refs.sets (form.canonicalizeNftRule family body), x ∈ t.sets
  | .deleteChain chain => ∀ name k, t.chains.get? name = some k → ∀ r ∈ k.rules, chain ∉ refs.chains r
  | _ => True

/-- Every line of a script keeps the references intact in the state that the lines before it reach. -/
def ScriptSafe (refs : Refs) (family : String) (script : List ScriptLine) (kernel : KernelTable form) : Prop :=
  ∀ before line after, script = before ++ line :: after →
    ∃ t, execScript family before (some kernel) = some (some t) ∧ CommandSafe refs family line.command t

/-! ## Commands on chains -/

namespace KernelTable

variable {t : KernelTable form} {name : String}

theorem exec_addChain (family : String) (t : KernelTable form) (name : String) (header : Option ChainHeader) :
    ∃ k, t.exec family (.addChain name header) = some { t with chains := t.chains.set name k } := by
  unfold exec
  simp only [Command.target, view]
  cases t.chains.get? name with
  | none => exact ⟨_, rfl⟩
  | some k => exact ⟨_, rfl⟩

theorem exec_flushChain {k : KernelChain} (h : t.chains.get? name = some k) :
    t.exec family (.flushChain name) = some { t with chains := t.chains.set name { k with rules := [] } } := by
  unfold exec
  simp only [Command.target, view, h]
  rfl

theorem exec_deleteChain {k : KernelChain} (h : t.chains.get? name = some k) :
    t.exec family (.deleteChain name) = some { t with chains := t.chains.erase name } := by
  unfold exec
  simp only [Command.target, view, h]
  rfl

theorem exec_addRule {k : KernelChain} (h : t.chains.get? name = some k) (body : String) :
    t.exec family (.addRule name body) =
      some { t with chains := t.chains.set name { k with rules := k.rules ++ [form.canonicalizeNftRule family body] } } := by
  unfold exec
  simp only [Command.target, view, h]
  rfl

end KernelTable

/-- What the rules need that a chain is filled with: every reference is there. -/
def RefsThere (refs : Refs) (rules : List String) (t : KernelTable form) (name : String) : Prop :=
  ∀ r ∈ rules, (∀ x ∈ refs.chains r, x = name ∨ x ∈ t.chains) ∧ ∀ x ∈ refs.sets r, x ∈ t.sets

/-- Nothing refers to a chain. -/
def Unreferenced (refs : Refs) (t : KernelTable form) (name : String) : Prop :=
  ∀ other k, t.chains.get? other = some k → ∀ r ∈ k.rules, name ∉ refs.chains r

section

variable {refs : Refs}

/-- A chain that is written may be the one the rules are filled into. -/
theorem refsThere_set {t : KernelTable form} {name : String} {k : KernelChain} {rules : List String} :
    RefsThere refs rules { t with chains := t.chains.set name k } name ↔ RefsThere refs rules t name := by
  simp [RefsThere, Dict.mem_set]

theorem refsThere_erase {t : KernelTable form} {name : String} {rules : List String} :
    RefsThere refs rules { t with chains := t.chains.erase name } name ↔ RefsThere refs rules t name := by
  have hmem : ∀ x, (x = name ∨ x ∈ t.chains.erase name) ↔ (x = name ∨ x ∈ t.chains) := by
    intro x
    rw [Dict.mem_erase]
    tauto
  simp only [RefsThere, hmem]

theorem refsThere_of_mem {t : KernelTable form} {name : String} {rules : List String} (hname : name ∈ t.chains) :
    RefsThere refs rules t name ↔ ∀ r ∈ rules, (∀ x ∈ refs.chains r, x ∈ t.chains) ∧ ∀ x ∈ refs.sets r, x ∈ t.sets := by
  have hmem : ∀ x, (x = name ∨ x ∈ t.chains) ↔ x ∈ t.chains := fun x =>
    ⟨fun h => h.elim (fun h => h ▸ hname) id, .inr⟩
  simp only [RefsThere, hmem]

/-- Filling a chain that is there is safe when every reference of its rules is there. -/
theorem safe_addRules (name : String) (bodies : List String) {t : KernelTable form} (hname : name ∈ t.chains) :
    SafeRun (KernelTable.exec family) (CommandSafe refs family) (bodies.map (.addRule name)) t ↔
      RefsThere refs (bodies.map (form.canonicalizeNftRule family)) t name := by
  induction bodies generalizing t with
  | nil => simp [RefsThere]
  | cons body bodies ih =>
    obtain ⟨k, hk⟩ := Dict.mem_iff_exists.1 hname
    rw [List.map_cons, SafeRun.cons, KernelTable.exec_addRule hk, List.map_cons]
    simp only [Option.some.injEq, exists_eq_left']
    rw [ih (Dict.mem_set.2 (.inl rfl)), refsThere_set]
    rw [refsThere_of_mem hname, refsThere_of_mem hname, List.forall_mem_cons]
    exact and_congr_left fun _ => and_iff_right hname

/-- Declaring a chain is safe, and the chain is there afterwards. -/
theorem safe_addChain (refs : Refs) (family name : String) (header : Option ChainHeader) (commands : List Command) (t : KernelTable form) :
    ∃ k, SafeRun (KernelTable.exec family) (CommandSafe refs family) (.addChain name header :: commands) t ↔
      SafeRun (KernelTable.exec family) (CommandSafe refs family) commands { t with chains := t.chains.set name k } := by
  obtain ⟨k, hk⟩ := KernelTable.exec_addChain family t name header
  refine ⟨k, ?_⟩
  rw [SafeRun.cons, hk]
  simp [CommandSafe]

variable {rules : Dict String (List NftRule)}

/-- The commands of a chain are safe when nothing refers to the chain as it is deleted to be rebuilt, and every reference is there
for the rules that are written. -/
theorem safe_chainCommands (current : ParsedTable) (c : NftChain) (t : KernelTable form)
    (hcell : current.chains.get? c.name = (t.chains.get? c.name).map KernelChain.parsed) :
    SafeRun (KernelTable.exec family) (CommandSafe refs family) (chainCommands form family rules current c) t ↔
      (deltaAction form family rules current c = .rebuild → Unreferenced refs t c.name) ∧
        (deltaAction form family rules current c ∈ [.add, .rebuild, .refill] →
          RefsThere refs (parsedChain form family rules c).rules t c.name) := by
  have hmem : ∀ (t : KernelTable form) k, c.name ∈ (t.chains.set c.name k) := fun t k => Dict.mem_set.2 (.inl rfl)
  have hfill : ∀ t : KernelTable form, c.name ∈ t.chains →
      (SafeRun (KernelTable.exec family) (CommandSafe refs family)
        ((ruleBodies rules c.name).map (Command.addRule c.name)) t ↔
        RefsThere refs (parsedChain form family rules c).rules t c.name) := fun t ht => safe_addRules _ _ ht
  have hthere : deltaAction form family rules current c ≠ .add → ∃ k, t.chains.get? c.name = some k := by
    intro h
    by_contra hn
    refine h ?_
    rw [deltaAction, hcell, Option.eq_none_iff_forall_ne_some.2 fun k hk => hn ⟨k, hk⟩]
    rfl
  unfold chainCommands
  cases ha : deltaAction form family rules current c with
  | add =>
    obtain ⟨k, hk⟩ := safe_addChain refs family c.name (chainHeader c)
      ((ruleBodies rules c.name).map (Command.addRule c.name)) t
    rw [ChainAction.commands, hk, hfill _ (hmem t k), refsThere_set]
    simp
  | rebuild =>
    obtain ⟨k₀, hk₀⟩ := hthere (by simp [ha])
    obtain ⟨k, hk⟩ := safe_addChain refs family c.name (chainHeader c)
      ((ruleBodies rules c.name).map (Command.addRule c.name)) { t with chains := t.chains.erase c.name }
    rw [ChainAction.commands, SafeRun.cons, KernelTable.exec_deleteChain hk₀]
    simp only [Option.some.injEq, exists_eq_left']
    rw [hk, hfill _ (Dict.mem_set.2 (.inl rfl)), refsThere_set (t := { t with chains := t.chains.erase c.name }),
      refsThere_erase]
    simp [CommandSafe, Unreferenced]
  | refill =>
    obtain ⟨k₀, hk₀⟩ := hthere (by simp [ha])
    obtain ⟨k, hk⟩ := safe_addChain refs family c.name (chainHeader c)
      (.flushChain c.name :: (ruleBodies rules c.name).map (Command.addRule c.name)) t
    have hget : ({ t with chains := t.chains.set c.name k } : KernelTable form).chains.get? c.name = some k :=
      Dict.get?_set_self ..
    rw [ChainAction.commands, hk, SafeRun.cons, KernelTable.exec_flushChain hget]
    simp only [Option.some.injEq, exists_eq_left']
    rw [hfill _ (Dict.mem_set.2 (.inl rfl)), refsThere_set (t := { t with chains := t.chains.set c.name k }), refsThere_set]
    simp [CommandSafe]
  | redeclare =>
    obtain ⟨k, hk⟩ := safe_addChain refs family c.name (chainHeader c) [] t
    rw [ChainAction.commands, hk]
    simp
  | keep => simp [ChainAction.commands]

/-! ## The chain phase -/

variable {chains : List NftChain} {kernel : KernelTable form} {desired : ParsedTable}

/-- The state when the delta has handled some of the chains: these have the rules of the configuration, the others are the
kernel's, and every set of the configuration is there. -/
structure Midway (family : String) (rules : Dict String (List NftRule)) (kernel : KernelTable form) (desired : ParsedTable)
    (done : List NftChain) (t : KernelTable form) : Prop where
  handled : ∀ c ∈ done, ∃ k, t.chains.get? c.name = some k ∧ k.rules = (parsedChain form family rules c).rules
  others : ∀ name, (∀ c ∈ done, c.name ≠ name) → t.chains.get? name = kernel.chains.get? name
  sets : ∀ name ∈ desired.sets, name ∈ t.sets

/-- The chains of such a state are those that are handled and those of the kernel. -/
theorem Midway.mem_chains {done : List NftChain} {t : KernelTable form} (h : Midway family rules kernel desired done t)
    {name : String} : name ∈ t.chains ↔ (∃ c ∈ done, c.name = name) ∨ name ∈ kernel.chains := by
  by_cases hd : ∃ c ∈ done, c.name = name
  · obtain ⟨c, hc, rfl⟩ := hd
    obtain ⟨k, hk, _⟩ := h.handled c hc
    exact iff_of_true (Dict.mem_of_get? hk) (.inl ⟨c, hc, rfl⟩)
  · rw [or_iff_right hd, Dict.mem_iff_isSome, Dict.mem_iff_isSome, h.others name fun c hc he => hd ⟨c, hc, he⟩]

/-- The delta's commands for one chain run, and the chain is handled. -/
theorem Midway.step {done : List NftChain} {t : KernelTable form} (h : Midway family rules kernel desired done t)
    {c : NftChain} (hc : ∀ d ∈ done, d.name ≠ c.name) :
    ∃ t', runScript (KernelTable.exec family) (chainCommands form family rules kernel.parsed c) t = some t' ∧
      Midway family rules kernel desired (done ++ [c]) t' := by
  obtain ⟨k, hk, hrules, _⟩ := runScript_chainCommands form family rules kernel.parsed c (t.chains.get? c.name)
    (by rw [chains_parsed, h.others c.name hc])
  obtain ⟨t', ht', hcell, hother⟩ := (KernelTable.exec_keyed family).run_onCell (fun _ _ => trivial)
    (fun x hx => (target_chainCommands x hx).1) hk
  have hchain : ∀ name, name ≠ c.name → t'.chains.get? name = t.chains.get? name := fun name hname =>
    Cell.chain.inj (hother (.chain name) fun he => hname (Target.chain.inj he))
  refine ⟨t', ht', fun d hd => ?_, fun name hname => ?_, fun name hname => ?_⟩
  · rcases List.mem_append.1 hd with hd | hd
    · rw [hchain d.name (hc d hd)]
      exact h.handled d hd
    · cases List.mem_singleton.1 hd
      exact ⟨k, Cell.chain.inj hcell, hrules⟩
  · rw [hchain name fun he => hname c (by simp) he.symm]
    exact h.others name fun d hd => hname d (List.mem_append_left _ hd)
  · have hset := Cell.set.inj (hother (.set name) (by simp))
    rw [Dict.mem_iff_isSome, hset, ← Dict.mem_iff_isSome]
    exact h.sets name hname

/-- What the order of the chains has to give when the chains in `done` are handled and it is the turn of `c`. -/
structure TurnSafe (refs : Refs) (form : NftForm) (family : String) (rules : Dict String (List NftRule))
    (current : ParsedTable) (done : List NftChain) (c : NftChain) : Prop where
  /-- A chain to be rebuilt is referred to neither by the new rules of a chain before it nor by the old rules of another. -/
  rebuild : deltaAction form family rules current c = .rebuild →
    (∀ d ∈ done, ∀ r ∈ (parsedChain form family rules d).rules, c.name ∉ refs.chains r) ∧
      ∀ name k, (∀ d ∈ done, d.name ≠ name) → current.chains.get? name = some k → ∀ r ∈ k.rules, c.name ∉ refs.chains r
  /-- A rule to be written refers to no chain that is still to be added. -/
  fill : deltaAction form family rules current c ∈ [.add, .rebuild, .refill] →
    ∀ r ∈ (parsedChain form family rules c).rules, ∀ x ∈ refs.chains r,
      x = c.name ∨ (∃ d ∈ done, d.name = x) ∨ x ∈ current.chains

/-- The commands for one chain are safe when it is their turn. -/
theorem Midway.safe_iff {done : List NftChain} {t : KernelTable form} (h : Midway family rules kernel desired done t)
    {c : NftChain} (hc : ∀ d ∈ done, d.name ≠ c.name)
    (hsets : ∀ r ∈ (parsedChain form family rules c).rules, ∀ x ∈ refs.sets r, x ∈ desired.sets) :
    SafeRun (KernelTable.exec family) (CommandSafe refs family) (chainCommands form family rules kernel.parsed c) t ↔
      TurnSafe refs form family rules kernel.parsed done c := by
  rw [safe_chainCommands kernel.parsed c t (by rw [chains_parsed, h.others c.name hc])]
  have hunref : Unreferenced refs t c.name ↔
      (∀ d ∈ done, ∀ r ∈ (parsedChain form family rules d).rules, c.name ∉ refs.chains r) ∧
        ∀ name k, (∀ d ∈ done, d.name ≠ name) → kernel.parsed.chains.get? name = some k →
          ∀ r ∈ k.rules, c.name ∉ refs.chains r := by
    constructor
    · intro hu
      refine ⟨fun d hd r hr => ?_, fun name k hname hk r hr => ?_⟩
      · obtain ⟨k, hk, hrules⟩ := h.handled d hd
        exact hu d.name k hk r (hrules ▸ hr)
      · rw [chains_parsed] at hk
        obtain ⟨k₀, hk₀, rfl⟩ := Option.map_eq_some_iff.1 hk
        exact hu name k₀ (by rw [h.others name hname, hk₀]) r hr
    · rintro ⟨hnew, hold⟩ name k hk r hr
      by_cases hname : ∃ d ∈ done, d.name = name
      · obtain ⟨d, hd, rfl⟩ := hname
        obtain ⟨k', hk', hrules⟩ := h.handled d hd
        rw [hk] at hk'
        cases hk'
        exact hnew d hd r (hrules ▸ hr)
      · have hno : ∀ d ∈ done, d.name ≠ name := fun d hd he => hname ⟨d, hd, he⟩
        refine hold name k.parsed hno ?_ r hr
        rw [chains_parsed, ← h.others name hno, hk]
        rfl
  have hfill : RefsThere refs (parsedChain form family rules c).rules t c.name ↔
      ∀ r ∈ (parsedChain form family rules c).rules, ∀ x ∈ refs.chains r,
        x = c.name ∨ (∃ d ∈ done, d.name = x) ∨ x ∈ kernel.parsed.chains := by
    refine forall_congr' fun r => forall_congr' fun hr => ?_
    rw [and_iff_left fun x hx => h.sets x (hsets r hr x hx)]
    simp only [h.mem_chains, KernelTable.parsed, Dict.mem_mapValues]
  rw [hunref, hfill]
  exact ⟨fun h => ⟨h.1, h.2⟩, fun h => ⟨h.1, h.2⟩⟩

/-- The chain phase runs, and it is safe when every chain is at its turn. -/
theorem Midway.safe_chains (refs : Refs) {done : List NftChain} (cs : List NftChain) {t : KernelTable form}
    (h : Midway family rules kernel desired done t) (hn : ((done ++ cs).map NftChain.name).Nodup)
    (hsets : ∀ c ∈ cs, ∀ r ∈ (parsedChain form family rules c).rules, ∀ x ∈ refs.sets r, x ∈ desired.sets) :
    ∃ t', runScript (KernelTable.exec family) (cs.flatMap (chainCommands form family rules kernel.parsed)) t = some t' ∧
      Midway family rules kernel desired (done ++ cs) t' ∧
      (SafeRun (KernelTable.exec family) (CommandSafe refs family)
          (cs.flatMap (chainCommands form family rules kernel.parsed)) t ↔
        ∀ before c after, cs = before ++ c :: after → TurnSafe refs form family rules kernel.parsed (done ++ before) c) := by
  induction cs generalizing done t with
  | nil => exact ⟨t, rfl, by rwa [List.append_nil], by simp⟩
  | cons c cs ih =>
    obtain ⟨hc, hcs⟩ := List.forall_mem_cons.1 hsets
    have hfresh : ∀ d ∈ done, d.name ≠ c.name := by
      rw [List.map_append, List.map_cons] at hn
      intro d hd he
      exact (List.nodup_append.1 hn).2.2 _ (List.mem_map_of_mem hd) _ List.mem_cons_self he
    obtain ⟨t₁, ht₁, h₁⟩ := h.step hfresh
    obtain ⟨t', ht', h', hsafe⟩ := ih h₁ (by simpa using hn) hcs
    refine ⟨t', ?_, by simpa using h', ?_⟩
    · rw [List.flatMap_cons, runScript_append, ht₁]
      exact ht'
    · rw [List.flatMap_cons, SafeRun.append, h.safe_iff hfresh hc, ht₁]
      simp only [Option.some.injEq, exists_eq_left']
      rw [hsafe]
      constructor
      · rintro ⟨hfirst, hrest⟩ before d after he
        cases before with
        | nil =>
          cases he
          rwa [List.append_nil]
        | cons b before =>
          obtain ⟨rfl, rfl⟩ := List.cons.inj he
          have := hrest before d after rfl
          rwa [List.append_assoc] at this
      · intro hall
        refine ⟨?_, fun before d after he => ?_⟩
        · have := hall [] c cs rfl
          rwa [List.append_nil] at this
        · have := hall (c :: before) d after (by rw [he]; rfl)
          rwa [List.append_assoc]

/-! ## The deletions -/

/-- The state while the chains that only the kernel has are deleted: the rest of them is the kernel's, the other chains have the
rules of the configuration. -/
structure Deleting (family : String) (rules : Dict String (List NftRule)) (chains : List NftChain) (kernel : KernelTable form)
    (names : List String) (t : KernelTable form) : Prop where
  left : ∀ name ∈ names, ∃ k, t.chains.get? name = some k ∧ kernel.chains.get? name = some k
  others : ∀ name k, t.chains.get? name = some k → name ∉ names →
    ∃ c ∈ chains, k.rules = (parsedChain form family rules c).rules

/-- The deletions are safe when none of the chains refers to a chain that is deleted with it or before it. -/
theorem Deleting.safe_iff (refs : Refs) {names : List String} {t : KernelTable form} (h : Deleting family rules chains kernel names t)
    (hn : names.Nodup)
    (hnew : ∀ c ∈ chains, ∀ r ∈ (parsedChain form family rules c).rules, ∀ x ∈ refs.chains r, x ∉ names) :
    SafeRun (KernelTable.exec family) (CommandSafe refs family) (names.map .deleteChain) t ↔
      ∀ before x after, names = before ++ x :: after → ∀ y ∈ x :: after, ∀ k, kernel.chains.get? y = some k →
        ∀ r ∈ k.rules, x ∉ refs.chains r := by
  induction names generalizing t with
  | nil => simp
  | cons name names ih =>
    obtain ⟨hname, hnames⟩ := List.nodup_cons.1 hn
    obtain ⟨k, hk, hkernel⟩ := h.left name List.mem_cons_self
    have h' : Deleting family rules chains kernel names { t with chains := t.chains.erase name } := by
      refine ⟨fun y hy => ?_, fun y k hk hy => ?_⟩
      · have hne : y ≠ name := fun he => hname (he ▸ hy)
        simp only [Dict.get?_erase, if_neg hne]
        exact h.left y (List.mem_cons_of_mem _ hy)
      · simp only [Dict.get?_erase] at hk
        split at hk
        · cases hk
        · rename_i hne
          exact h.others y k hk fun hmem => (List.mem_cons.1 hmem).elim hne hy
    have hfirst : CommandSafe refs family (.deleteChain name) t ↔ ∀ y ∈ name :: names, ∀ k, kernel.chains.get? y = some k →
        ∀ r ∈ k.rules, name ∉ refs.chains r := by
      constructor
      · intro hsafe y hy k hk r hr
        obtain ⟨k', hk', hkernel'⟩ := h.left y hy
        rw [hk] at hkernel'
        cases hkernel'
        exact hsafe y k hk' r hr
      · intro hall y k hk r hr hmem
        by_cases hy : y ∈ name :: names
        · obtain ⟨k', hk', hkernel'⟩ := h.left y hy
          rw [hk] at hk'
          cases hk'
          exact hall y hy k hkernel' r hr hmem
        · obtain ⟨c, hc, hrules⟩ := h.others y k hk hy
          exact hnew c hc r (hrules ▸ hr) name hmem List.mem_cons_self
    rw [List.map_cons, SafeRun.cons, KernelTable.exec_deleteChain hk, hfirst]
    simp only [Option.some.injEq, exists_eq_left']
    rw [ih h' hnames fun c hc r hr x hx hmem => hnew c hc r hr x hx (List.mem_cons_of_mem _ hmem)]
    constructor
    · rintro ⟨hhead, htail⟩ before x after he
      cases before with
      | nil =>
        cases he
        exact hhead
      | cons b before =>
        obtain ⟨rfl, rfl⟩ := List.cons.inj he
        exact htail before x after rfl
    · intro hall
      exact ⟨hall [] name names rfl, fun before x after he => hall (name :: before) x after (by rw [he]; rfl)⟩

/-! ## The order of the names -/

/-- In a list that is strictly ordered by a relation, what stands before an element is what is related to it. -/
theorem mem_before_iff {α : Type} {R : α → α → Prop} {l before after : List α} {x y : α} (hl : l.Pairwise R) (hn : l.Nodup)
    (hanti : ∀ y ∈ l, R x y → R y x → x = y) (he : l = before ++ x :: after) (hy : y ∈ l) :
    y ∈ before ↔ y ≠ x ∧ R y x := by
  subst he
  have hpair := List.pairwise_append.1 hl
  have hnodup := List.nodup_append.1 hn
  constructor
  · intro hb
    refine ⟨fun h => ?_, hpair.2.2 y hb x List.mem_cons_self⟩
    exact hnodup.2.2 y hb x List.mem_cons_self h
  · rintro ⟨hne, hR⟩
    rcases List.mem_append.1 hy with hb | ha
    · exact hb
    · rcases List.mem_cons.1 ha with rfl | ha
      · exact absurd rfl hne
      · have hxy := (List.pairwise_cons.1 hpair.2.1).1 y ha
        exact absurd (hanti y hy hxy hR).symm hne

/-- The plan rebuilds a chain: a base chain of the kernel whose priority is another one in the configuration. -/
def Rebuilt (current : Option ParsedChain) (desired : ParsedChain) : Prop :=
  ∃ c, current = some c ∧ isBuiltin c = true ∧ headerPriority c.policy ≠ headerPriority desired.policy

/-- The plan writes a chain's rules: the chain is new, rebuilt, or has other rules. -/
def Rewritten (current : Option ParsedChain) (desired : ParsedChain) : Prop :=
  current = none ∨ Rebuilt current desired ∨ ∃ c, current = some c ∧ c.rules ≠ desired.rules

theorem chainAction_eq_rebuild_iff (current : Option ParsedChain) (desired : ParsedChain) :
    chainAction current desired = .rebuild ↔ Rebuilt current desired := by
  cases current with
  | none => simp [chainAction, Rebuilt]
  | some c =>
    have hpolicy : headerPriority c.policy ≠ headerPriority desired.policy → desired.policy ≠ c.policy :=
      fun h he => h (congrArg headerPriority he.symm)
    obtain ⟨ha, hb, _, hp⟩ | ⟨hno, hrest⟩ := chainAction_cases c desired
    · exact iff_of_true ha ⟨c, rfl, hb, hp⟩
    · refine iff_of_false ?_ ?_
      · rcases hrest with ha | ⟨ha, _⟩ | ⟨ha, _⟩ <;> simp [ha]
      · rintro ⟨c', hc', hb, hp⟩
        cases hc'
        exact hno ⟨hb, hpolicy hp, hp⟩

theorem chainAction_mem_iff (current : Option ParsedChain) (desired : ParsedChain) :
    chainAction current desired ∈ [ChainAction.add, .rebuild, .refill] ↔ Rewritten current desired := by
  rw [Rewritten, ← chainAction_eq_rebuild_iff]
  cases current with
  | none => simp [chainAction]
  | some c =>
    obtain ⟨ha, _⟩ | ⟨_, ha | ⟨ha, hr⟩ | ⟨ha, hr, _⟩⟩ := chainAction_cases c desired
    · simp [ha]
    · have hr : c.rules ≠ desired.rules := by
        intro hr
        rw [chainAction] at ha
        split at ha
        · cases ha
        · rw [if_neg (not_not.2 hr)] at ha
          split at ha <;> cases ha
      simp [ha, hr]
    · simp [ha, hr]
    · simp [ha, hr]

/-- The order in which the chains that only the kernel has are deleted: base chains first, each kind by name. -/
def DeletedBefore (x : String) (kx : ParsedChain) (y : String) (ky : ParsedChain) : Prop :=
  (isBuiltin kx = true ∧ isBuiltin ky = false) ∨ (isBuiltin kx = isBuiltin ky ∧ x ≤ y)

/-- What two models have to give for the delta between them to keep references intact. -/
structure SafeOrder (refs : Refs) (current desired : ParsedTable) : Prop where
  /-- Rules that are written refer to no new chain that comes later by name. -/
  added : ∀ name d, desired.chains.get? name = some d → Rewritten (current.chains.get? name) d →
    ∀ r ∈ d.rules, ∀ x ∈ refs.chains r, x ∉ current.chains → x ≤ name
  /-- Neither the new rules of a chain before it by name nor the old rules of another chain refer to a chain that is rebuilt. -/
  rebuilt : ∀ name d, desired.chains.get? name = some d → Rebuilt (current.chains.get? name) d →
    (∀ other e, desired.chains.get? other = some e → other ≠ name → other ≤ name → ∀ r ∈ e.rules, name ∉ refs.chains r) ∧
      ∀ other k, current.chains.get? other = some k → (other ∈ desired.chains → name ≤ other) →
        ∀ r ∈ k.rules, name ∉ refs.chains r
  /-- No chain that is deleted refers to one that is deleted before it, or to itself. -/
  deleted : ∀ x y kx ky, current.chains.get? x = some kx → current.chains.get? y = some ky → x ∉ desired.chains →
    y ∉ desired.chains → DeletedBefore x kx y ky → ∀ r ∈ ky.rules, x ∉ refs.chains r

/-- The chains by name, cut at one of them. -/
theorem mem_before_chain (hn : (chains.map NftChain.name).Nodup) {before after : List NftChain} {c d : NftChain}
    (he : sortedChains chains = before ++ c :: after) (hd : d ∈ chains) :
    d ∈ before ↔ d.name ≠ c.name ∧ d.name ≤ c.name := by
  have hc : c ∈ chains := mem_sortedChains.1 (by rw [he]; simp)
  have hinj : d.name = c.name ↔ d = c := ⟨fun h => List.inj_on_of_nodup_map hn hd hc h, fun h => h ▸ rfl⟩
  have hpair : (sortedChains chains).Pairwise fun a b => a.name ≤ b.name := List.pairwise_insertionSort ..
  rw [mem_before_iff hpair ((sortedChains_perm chains).nodup_iff.2 hn.of_map) (fun y hy h h' =>
    List.inj_on_of_nodup_map hn hc (mem_sortedChains.1 hy) (String.le_antisymm h h')) he (mem_sortedChains.2 hd), Ne, Ne, hinj]

/-- Every chain of a rendered table is a configured one. -/
theorem ReadsAs.chain_eq {decls : Dict String Decl} (hr : ReadsAs form family chains rules decls desired) {name : String}
    {d : ParsedChain} (hd : desired.chains.get? name = some d) :
    ∃ c ∈ chains, c.name = name ∧ d = parsedChain form family rules c := by
  obtain ⟨c, hc, rfl⟩ := hr.mem_chains.1 (Dict.mem_of_get? hd)
  have hchain : desired.chains.get? c.name = some (parsedChain form family rules c) := hr.chain c hc
  rw [hd] at hchain
  exact ⟨c, hc, rfl, Option.some.inj hchain⟩

/-- The turns of all chains are safe when the order of the names is. -/
theorem turnSafe_iff (hn : (chains.map NftChain.name).Nodup) {decls : Dict String Decl} {current : ParsedTable}
    (hr : ReadsAs form family chains rules decls desired) (hclosed : Closed refs desired) :
    (∀ before c after, sortedChains chains = before ++ c :: after → TurnSafe refs form family rules current before c) ↔
      (∀ name d, desired.chains.get? name = some d → Rewritten (current.chains.get? name) d →
          ∀ r ∈ d.rules, ∀ x ∈ refs.chains r, x ∉ current.chains → x ≤ name) ∧
        ∀ name d, desired.chains.get? name = some d → Rebuilt (current.chains.get? name) d →
          (∀ other e, desired.chains.get? other = some e → other ≠ name → other ≤ name → ∀ r ∈ e.rules, name ∉ refs.chains r) ∧
            ∀ other k, current.chains.get? other = some k → (other ∈ desired.chains → name ≤ other) →
              ∀ r ∈ k.rules, name ∉ refs.chains r := by
  constructor
  · intro hall
    have hturn : ∀ c ∈ chains, ∃ before after, sortedChains chains = before ++ c :: after ∧
        TurnSafe refs form family rules current before c := by
      intro c hc
      obtain ⟨before, after, he⟩ := List.append_of_mem (mem_sortedChains.2 hc)
      exact ⟨before, after, he, hall before c after he⟩
    refine ⟨fun name d hd hw r hr' x hx hcur => ?_, fun name d hd hb => ⟨fun other e he hne hle r hr' => ?_,
      fun other k hk hle r hr' => ?_⟩⟩ <;> obtain ⟨c, hc, rfl, rfl⟩ := hr.chain_eq hd <;>
      obtain ⟨before, after, hcut, hsafe⟩ := hturn c hc
    · rcases hsafe.fill ((chainAction_mem_iff _ _).2 hw) r hr' x hx with rfl | ⟨b, hb, rfl⟩ | h
      · exact String.le_refl _
      · have hbc : b ∈ chains := mem_sortedChains.1 (by rw [hcut]; exact List.mem_append_left _ hb)
        exact ((mem_before_chain hn hcut hbc).1 hb).2
      · exact absurd h hcur
    · obtain ⟨b, hbc, rfl, rfl⟩ := hr.chain_eq he
      have hb' := (mem_before_chain hn hcut hbc).2 ⟨hne, hle⟩
      exact (hsafe.rebuild ((chainAction_eq_rebuild_iff _ _).2 hb)).1 b hb' r hr'
    · refine (hsafe.rebuild ((chainAction_eq_rebuild_iff _ _).2 hb)).2 other k (fun b hb' he => ?_) hk r hr'
      have hbc : b ∈ chains := mem_sortedChains.1 (by rw [hcut]; exact List.mem_append_left _ hb')
      obtain ⟨hne, hle'⟩ := (mem_before_chain hn hcut hbc).1 hb'
      exact hne (String.le_antisymm hle' (he ▸ hle (he ▸ hr.mem_chains.2 ⟨b, hbc, rfl⟩)))
  · rintro ⟨hadded, hrebuilt⟩ before c after hcut
    have hc : c ∈ chains := mem_sortedChains.1 (by rw [hcut]; simp)
    have hd : desired.chains.get? c.name = some (parsedChain form family rules c) := hr.chain c hc
    have hbefore : ∀ b ∈ before, b ∈ chains := fun b hb =>
      mem_sortedChains.1 (by rw [hcut]; exact List.mem_append_left _ hb)
    refine ⟨fun ha => ?_, fun ha r hr' x hx => ?_⟩
    · obtain ⟨hnew, hold⟩ := hrebuilt c.name _ hd ((chainAction_eq_rebuild_iff _ _).1 ha)
      refine ⟨fun b hb r hr' => ?_, fun name k hname hk r hr' => hold name k hk (fun hmem => ?_) r hr'⟩
      · obtain ⟨hne, hle⟩ := (mem_before_chain hn hcut (hbefore b hb)).1 hb
        exact hnew b.name _ (hr.chain b (hbefore b hb)) hne hle r hr'
      · obtain ⟨b, hbc, rfl⟩ := hr.mem_chains.1 hmem
        by_contra hle
        have hlt := (String.le_total c.name b.name).resolve_left hle
        have hne : b.name ≠ c.name := fun he => hle (he ▸ String.le_refl _)
        exact hname b ((mem_before_chain hn hcut hbc).2 ⟨hne, hlt⟩) rfl
    · by_cases hcur : x ∈ current.chains
      · exact .inr (.inr hcur)
      · have hle := hadded c.name _ hd ((chainAction_mem_iff _ _).1 ha) r hr' x hx hcur
        obtain ⟨b, hbc, rfl⟩ := hr.mem_chains.1 ((hclosed c.name _ hd r hr').1 x hx)
        by_cases hne : b.name = c.name
        · exact .inl hne
        · exact .inr (.inl ⟨b, (mem_before_chain hn hcut hbc).2 ⟨hne, hle⟩, rfl⟩)

/-- The deletions come in their order. -/
theorem pairwise_extraChains (current desired : ParsedTable) :
    (extraChains current desired).Pairwise fun x y => ∀ kx ky, current.chains.get? x = some kx →
      current.chains.get? y = some ky → DeletedBefore x kx y ky := by
  have hbuiltin : ∀ {b : Bool} {names : List String}, names = (current.chains.entries.filter fun e =>
      e.1 ∉ desired.chains ∧ isBuiltin e.2 = b).map Prod.fst → ∀ x ∈ sortedNames names, ∀ k,
        current.chains.get? x = some k → isBuiltin k = b := by
    rintro b _ rfl x hx k hk
    obtain ⟨e, he, rfl⟩ := List.mem_map.1 (mem_sortedNames.1 hx)
    obtain ⟨he, hp⟩ := List.mem_filter.1 he
    have hv : current.chains.get? e.1 = some e.2 := Dict.get?_eq_some_iff.2 he
    rw [hk] at hv
    cases hv
    exact (decide_eq_true_iff.1 hp).2
  have hdesuet := hbuiltin (map_extraChains current desired).1
  have hforeign := hbuiltin (map_extraChains current desired).2
  refine List.pairwise_append.2 ⟨?_, ?_, fun x hx y hy kx ky hkx hky => ?_⟩
  · refine (List.pairwise_insertionSort (· ≤ ·) _).imp_of_mem fun {x y} hx hy hle kx ky hkx hky => .inr ⟨?_, hle⟩
    rw [hdesuet x hx kx hkx, hdesuet y hy ky hky]
  · refine (List.pairwise_insertionSort (· ≤ ·) _).imp_of_mem fun {x y} hx hy hle kx ky hkx hky => .inr ⟨?_, hle⟩
    rw [hforeign x hx kx hkx, hforeign y hy ky hky]
  · exact .inl ⟨hdesuet x hx kx hkx, hforeign y hy ky hky⟩

theorem DeletedBefore.refl (x : String) (k : ParsedChain) : DeletedBefore x k x k := .inr ⟨rfl, String.le_refl _⟩

theorem DeletedBefore.antisymm {x y : String} {kx ky : ParsedChain} (h : DeletedBefore x kx y ky)
    (h' : DeletedBefore y ky x kx) : x = y := by
  rcases h with ⟨hx, hy⟩ | ⟨he, hle⟩ <;> rcases h' with ⟨hy', hx'⟩ | ⟨he', hle'⟩
  · rw [hx] at hx'
    cases hx'
  · rw [hx, hy] at he'
    cases he'
  · rw [hy', hx'] at he
    cases he
  · exact String.le_antisymm hle hle'

/-- The deletions are safe when no chain refers to one before it in their order. -/
theorem deletions_iff (current desired : ParsedTable) :
    (∀ before x after, extraChains current desired = before ++ x :: after → ∀ y ∈ x :: after, ∀ k,
        current.chains.get? y = some k → ∀ r ∈ k.rules, x ∉ refs.chains r) ↔
      ∀ x y kx ky, current.chains.get? x = some kx → current.chains.get? y = some ky → x ∉ desired.chains →
        y ∉ desired.chains → DeletedBefore x kx y ky → ∀ r ∈ ky.rules, x ∉ refs.chains r := by
  have hpair := pairwise_extraChains current desired
  constructor
  · intro hall x y kx ky hkx hky hx hy hbefore
    have hxl : x ∈ extraChains current desired := mem_extraChains.2 ⟨Dict.mem_of_get? hkx, hx⟩
    have hyl : y ∈ extraChains current desired := mem_extraChains.2 ⟨Dict.mem_of_get? hky, hy⟩
    obtain ⟨before, after, hcut⟩ := List.append_of_mem hxl
    refine hall before x after hcut y ?_ ky hky
    rw [hcut] at hyl hpair
    refine (List.mem_append.1 hyl).resolve_left fun hyb => ?_
    have hyx := (List.pairwise_append.1 hpair).2.2 y hyb x List.mem_cons_self ky kx hky hkx
    have hn := nodup_extraChains current desired
    rw [hcut] at hn
    exact (List.nodup_append.1 hn).2.2 y hyb x List.mem_cons_self (hyx.antisymm hbefore)
  · intro hall before x after hcut y hy ky hky
    have hmem : ∀ z ∈ x :: after, z ∈ current.chains ∧ z ∉ desired.chains := fun z hz =>
      mem_extraChains.1 (by rw [hcut]; exact List.mem_append_right _ hz)
    obtain ⟨hxc, hxd⟩ := hmem x List.mem_cons_self
    obtain ⟨kx, hkx⟩ := Dict.mem_iff_exists.1 hxc
    refine hall x y kx ky hkx hky hxd (hmem y hy).2 ?_
    rcases List.mem_cons.1 hy with rfl | hy
    · rw [hkx] at hky
      cases hky
      exact .refl _ _
    · rw [hcut] at hpair
      exact (List.pairwise_cons.1 (List.pairwise_append.1 hpair).2.1).1 y hy kx ky hkx hky

/-! ## The whole script -/

/-- Safety of a script's lines is safety of its commands. -/
theorem scriptSafe_iff {commands : List Command} (hcells : ∀ c ∈ commands, c.onCell) {t : KernelTable form}
    (hr : runScript (KernelTable.exec family) commands kernel = some t) :
    ScriptSafe refs family (fermLines family commands) kernel ↔
      SafeRun (KernelTable.exec family) (CommandSafe refs family) commands kernel := by
  have hexec : ∀ before after, commands = before ++ after → execScript family (fermLines family before) (some kernel) =
      (runScript (KernelTable.exec family) before kernel).map some := by
    rintro before after rfl
    rw [execScript_eq]
    · simp [fermLines, Function.comp_def]
    · intro line hline
      obtain ⟨c, hc, rfl⟩ := List.mem_map.1 hline
      exact ⟨rfl, hcells c (List.mem_append_left _ hc)⟩
  rw [SafeRun.iff_forall hr]
  constructor
  · rintro hsafe before c after rfl
    obtain ⟨t, ht, hc⟩ := hsafe (fermLines family before) (deltaLine family c) (fermLines family after) (by simp [fermLines])
    rw [hexec before _ rfl] at ht
    obtain ⟨t', ht', he⟩ := Option.map_eq_some_iff.1 ht
    cases he
    exact ⟨t, ht', hc⟩
  · intro hsafe before line after he
    obtain ⟨cs, ds, rfl, rfl, hds⟩ := List.map_eq_append_iff.1 he
    obtain ⟨c, ds, rfl, rfl, rfl⟩ := List.map_eq_cons_iff.1 hds
    obtain ⟨t, ht, hc⟩ := hsafe cs c ds rfl
    refine ⟨t, ?_, hc⟩
    have := hexec cs (c :: ds) rfl
    rw [ht] at this
    exact this

/-- The state before the chain phase. -/
theorem midway_sets {decls : Dict String Decl} {script : List ScriptLine}
    (hd : DeltaSpec form family chains rules decls kernel.parsed desired script)
    (he : Emits form family chains rules decls kernel.parsed desired script) {sets phase : List Command}
    (hsets : ∀ c ∈ sets, ∀ name, c.target ≠ .chain name) (hphase : ∀ c ∈ phase, ∀ name, c.target ≠ .set name)
    (hscript : script.map ScriptLine.command = sets ++ phase) {t : KernelTable form}
    (ht : runScript (KernelTable.exec family) sets kernel = some t) : Midway family rules kernel desired [] t := by
  have hview := (KernelTable.exec_keyed family).view_run (fun _ _ => trivial) ht
  refine ⟨fun c hc => absurd hc List.not_mem_nil, fun name _ => ?_, fun name hname => ?_⟩
  · have hcell := hview (.chain name)
    rw [onKey_eq_nil fun c hc => hsets c hc name] at hcell
    exact (Cell.chain.inj (Option.some.inj hcell)).symm
  · obtain ⟨s', hs', hmem, _⟩ := runScript_setCell hd he name
    rw [hscript, onKey_append, onKey_eq_nil fun c hc => hphase c hc name, List.append_nil] at hs'
    have hcell := Cell.set.inj (Option.some.inj ((hview (.set name)).symm.trans hs'))
    rw [Dict.mem_iff_isSome, hcell]
    exact hmem.2 hname

/-- After the chain phase the chains that are to be deleted are the kernel's, and the others those of the configuration. -/
theorem Midway.deleting {decls : Dict String Decl} {t : KernelTable form} (hr : ReadsAs form family chains rules decls desired)
    (h : Midway family rules kernel desired (sortedChains chains) t) :
    Deleting family rules chains kernel (extraChains kernel.parsed desired) t := by
  refine ⟨fun name hname => ?_, fun name k hk hname => ?_⟩
  · obtain ⟨hcur, hdes⟩ := mem_extraChains.1 hname
    rw [KernelTable.parsed, Dict.mem_mapValues] at hcur
    obtain ⟨k, hk⟩ := Dict.mem_iff_exists.1 hcur
    refine ⟨k, ?_, hk⟩
    rw [h.others name fun c hc he => hdes (hr.mem_chains.2 ⟨c, mem_sortedChains.1 hc, he⟩), hk]
  · by_cases hc : ∃ c ∈ chains, c.name = name
    · obtain ⟨c, hc, rfl⟩ := hc
      obtain ⟨k', hk', hrules⟩ := h.handled c (mem_sortedChains.2 hc)
      rw [hk] at hk'
      cases hk'
      exact ⟨c, hc, hrules⟩
    · rw [h.others name fun c hm he => hc ⟨c, mem_sortedChains.1 hm, he⟩] at hk
      refine absurd (mem_extraChains.2 ⟨?_, fun hdes => hc (hr.mem_chains.1 hdes)⟩) hname
      rw [KernelTable.parsed, Dict.mem_mapValues]
      exact Dict.mem_of_get? hk

/-- Models between which the differ sees no difference leave nothing to order. -/
theorem safeOrder_of_unseen {current : ParsedTable} (h : ¬ TableSeen current desired) : SafeOrder refs current desired := by
  refine ⟨fun name d hd hw r hr => ?_, fun name d hd hb => ?_, fun x y kx ky hkx _ hx => ?_⟩
  · refine absurd (TableSeen.chain hd ?_) h
    rcases hw with hn | ⟨c, hc, hb, hp⟩ | ⟨c, hc, hr'⟩
    · rw [hn]
      exact .inl fun he => List.ne_nil_of_mem hr he.symm
    · exact .inr ⟨c, hc, decide_eq_true_iff.1 hb, fun he => hp (congrArg headerPriority he.symm)⟩
    · rw [hc]
      exact .inl hr'
  · obtain ⟨c, hc, hb, hp⟩ := hb
    exact absurd (TableSeen.chain hd (.inr ⟨c, hc, decide_eq_true_iff.1 hb, fun he => hp (congrArg headerPriority he.symm)⟩)) h
  · exact absurd (.extraChain (Dict.mem_of_get? hkx) hx) h

/-- A delta to a closed model keeps every reference intact exactly when the order of the names does. -/
theorem delta_safe_iff {decls : Dict String Decl} {noflush : Bool} {save script : List ScriptLine}
    {tables : Dict String ParsedTable} (hn : (chains.map NftChain.name).Nodup)
    (hsave : serializeTable ⟨family, NFT_TABLE_NAME⟩ chains rules decls noflush = .ok save)
    (hparse : parseNftScript form save = .ok tables)
    (hdelta : buildNftDelta form (fermTables (some kernel.parsed)) save family = .ok (some script))
    (hclosed : Closed refs (tableOf tables NFT_TABLE_NAME)) :
    ScriptSafe refs family script kernel ↔ SafeOrder refs kernel.parsed (tableOf tables NFT_TABLE_NAME) := by
  obtain ⟨desired, hparse', hd⟩ := buildNftDelta_spec hn hsave hdelta
  rw [hparse] at hparse'
  cases hparse'
  change Closed refs desired at hclosed
  change _ ↔ SafeOrder refs kernel.parsed desired
  have hr := hd.reads
  cases hc : (fermDiff kernel.parsed desired).hasChanges with
  | false =>
    have hseen : ¬ TableSeen kernel.parsed desired := by
      intro h
      have : (fermDiff kernel.parsed desired).hasChanges = true :=
        (hasChanges_iff_seen _ _).2 ⟨NFT_TABLE_NAME, desired, rfl, h⟩
      rw [hc] at this
      cases this
    rw [hd.nothing hc]
    exact iff_of_true (fun before line after he => by simp at he) (safeOrder_of_unseen hseen)
  | true =>
    have he := hd.emits hc
    obtain ⟨t, ht, _⟩ := exec_emits hd he
    obtain ⟨sets, hsets, hscript⟩ := he.phases
    rw [execScript_eq he.onCells] at ht
    obtain ⟨t, ht, _⟩ := Option.map_eq_some_iff.1 ht
    have hcommands : script.map ScriptLine.command = (.addTable :: sets) ++
        ((sortedChains chains).flatMap (chainCommands form family rules kernel.parsed) ++
          (extraChains kernel.parsed desired).map .deleteChain) := by
      rw [hscript]
      simp [fermLines, Function.comp_def]
    have hcells : ∀ c ∈ script.map ScriptLine.command, c.onCell := by
      intro c hc
      obtain ⟨line, hline, rfl⟩ := List.mem_map.1 hc
      exact (he.onCells line hline).2
    rw [hscript, ← List.cons_append]
    rw [hcommands] at ht hcells
    rw [scriptSafe_iff hcells ht]
    -- the phases in order, with the state between them
    obtain ⟨t₁, ht₁, ht⟩ := runScript_append_eq_some.1 ht
    have hmid : Midway family rules kernel desired [] t₁ := by
      refine midway_sets hd he ?_ ?_ hcommands ht₁
      · intro c hc name h
        rcases List.mem_cons.1 hc with rfl | hc
        · cases h
        · obtain ⟨set, hset⟩ := hsets c hc
          rw [hset] at h
          cases h
      · intro c hc name h
        rcases List.mem_append.1 hc with hc | hc
        · obtain ⟨chain, _, hc⟩ := List.mem_flatMap.1 hc
          rw [(target_chainCommands c hc).1] at h
          cases h
        · obtain ⟨_, _, rfl⟩ := List.mem_map.1 hc
          cases h
    have hsetsSafe : SafeRun (KernelTable.exec family) (CommandSafe refs family) (.addTable :: sets) kernel := by
      refine SafeRun.of_forall (fun c hc t => ?_) ht₁
      rcases List.mem_cons.1 hc with rfl | hc
      · trivial
      · obtain ⟨set, hset⟩ := hsets c hc
        cases c <;> trivial
    obtain ⟨t₂, ht₂, hmid', hchains⟩ := hmid.safe_chains refs (sortedChains chains)
      (((sortedChains_perm chains).map NftChain.name).nodup_iff.2 hn)
      fun c hc r hr' x hx => (hclosed c.name _ (hr.chain c (mem_sortedChains.1 hc)) r hr').2 x hx
    have hdeletions := (hmid'.deleting hr).safe_iff refs (nodup_extraChains _ _)
      fun c hc r hr' x hx hmem => (mem_extraChains.1 hmem).2 ((hclosed c.name _ (hr.chain c hc) r hr').1 x hx)
    rw [SafeRun.append, and_iff_right hsetsSafe, ht₁]
    simp only [Option.some.injEq, exists_eq_left']
    rw [SafeRun.append, ht₂]
    simp only [Option.some.injEq, exists_eq_left']
    rw [hchains, hdeletions]
    have hparsed : ∀ (y x : String), (∀ k, kernel.chains.get? y = some k → ∀ r ∈ k.rules, x ∉ refs.chains r) ↔
        ∀ k, kernel.parsed.chains.get? y = some k → ∀ r ∈ k.rules, x ∉ refs.chains r := by
      intro y x
      rw [chains_parsed]
      cases kernel.chains.get? y <;> simp [KernelChain.parsed]
    simp only [List.nil_append, hparsed]
    rw [turnSafe_iff hn hr hclosed, deletions_iff]
    constructor
    · rintro ⟨⟨hadded, hrebuilt⟩, hdeleted⟩
      exact ⟨hadded, hrebuilt, hdeleted⟩
    · rintro ⟨hadded, hrebuilt, hdeleted⟩
      exact ⟨⟨hadded, hrebuilt⟩, hdeleted⟩

end

/-- The words that follow `jump` and `goto`. -/
def jumpTargets : List String → List String
  | "jump" :: target :: rest => target :: jumpTargets rest
  | "goto" :: target :: rest => target :: jumpTargets rest
  | _ :: rest => jumpTargets rest
  | [] => []

/-- References read off the words of a rule; the pairs of a verdict map end in commas. -/
def Refs.ofWords : Refs where
  chains rule := jumpTargets ((words rule).map fun word => String.ofList (word.toList.filter (· ≠ ',')))
  sets rule := (words rule).filterMap fun word =>
    match word.toList with
    | '@' :: name => some (String.ofList name)
    | _ => none

/-- A user chain gets a rule that jumps to a new chain before it by name. -/
theorem delta_safe_jump :
    ScriptSafe .ofWords "ip" [deltaLine "ip" .addTable, deltaLine "ip" (.addChain "b" none),
        deltaLine "ip" (.addChain "c" none), deltaLine "ip" (.flushChain "c"), deltaLine "ip" (.addRule "c" "jump b")]
        ({ chains := Dict.empty.set "c" ⟨.user, ["accept"]⟩ } : KernelTable .verbatim) ↔
      SafeOrder .ofWords ({ chains := Dict.empty.set "c" ⟨.user, ["accept"]⟩ } : KernelTable .verbatim).parsed
        (tableOf (fermTables (some { chains := (Dict.empty.set "b" ⟨["-"], []⟩).set "c" ⟨["-"], ["jump b"]⟩ }))
          NFT_TABLE_NAME) :=
  delta_safe_iff (by decide)
    (show serializeTable ⟨"ip", NFT_TABLE_NAME⟩ [.regular "b", .regular "c"]
      (Dict.empty.set "c" [{ statements := [.nftVerdict "jump b"] }]) Dict.empty false = .ok _ from rfl)
    rfl rfl (closed_iff.2 (by decide))

/-- A user chain gets a rule that jumps to a new chain after it by name: the rule is written before the chain is there. -/
theorem delta_not_safe :
    ∃ (kernel : KernelTable .verbatim) (chains : List NftChain) (rules : Dict String (List NftRule))
      (save script : List ScriptLine) (tables : Dict String ParsedTable),
      (chains.map NftChain.name).Nodup ∧
      serializeTable ⟨"ip", NFT_TABLE_NAME⟩ chains rules Dict.empty false = .ok save ∧
      parseNftScript .verbatim save = .ok tables ∧
      buildNftDelta .verbatim (fermTables (some kernel.parsed)) save "ip" = .ok (some script) ∧
      Closed .ofWords kernel.parsed ∧ Closed .ofWords (tableOf tables NFT_TABLE_NAME) ∧
      ¬ ScriptSafe .ofWords "ip" script kernel := by
  refine ⟨{ chains := Dict.empty.set "a" ⟨.user, ["accept"]⟩ }, [.regular "a", .regular "b"],
    Dict.empty.set "a" [{ statements := [.nftVerdict "jump b"] }], _, _, _, by decide, rfl, rfl, rfl,
    closed_iff.2 (by decide), closed_iff.2 (by decide), ?_⟩
  intro h
  obtain ⟨t, ht, _, hchains, _⟩ := h [deltaLine "ip" .addTable, deltaLine "ip" (.addChain "a" none),
    deltaLine "ip" (.flushChain "a")] (deltaLine "ip" (.addRule "a" "jump b")) [deltaLine "ip" (.addChain "b" none)] rfl
  cases ht
  have := hchains "b" (by decide)
  revert this
  decide

end Ferm
