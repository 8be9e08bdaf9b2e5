import Ferm.Plan.Emitted
import Mathlib.Data.Finset.Card

/-!
# Convergence of a delta

What a delta script makes of the kernel's table, and when that is the table of the configuration.
-/

namespace Ferm

open Keyed

variable {form : NftForm} {family : String}

/-- The kernel's table is the table of the configuration. -/
structure Converged (t : KernelTable form) (desired : ParsedTable) : Prop where
  chains : ∀ name, (t.chains.get? name).map KernelChain.parsed = desired.chains.get? name
  setNames : ∀ name, name ∈ t.sets ↔ name ∈ desired.sets
  sets : ∀ name s d, t.sets.get? name = some s → desired.sets.get? name = some d →
    s.type_ = d.type_ ∧ s.flags = d.flags ∧
      (d.isDynamic = false → ∀ e, e ∈ form.canonicalizeSetElements s.elements ↔ e ∈ d.elements)
  objects : ∀ name, name ∈ t.objects ↔ name ∈ desired.objects

/-- A chain of the kernel gets the header of a declaration: another priority rebuilds it; without one a user chain stays a user
chain, and a base chain keeps its hook and gets its policy from the line, which has to state one other than `accept`'s. -/
def Reshapes (family : String) (header : Option ChainHeader) : ChainKind → Prop
  | .user => header = none
  | .base decl policy =>
    headerPriority (ChainKind.base decl policy).policyField ≠ headerPriority (ChainKind.ofHeader family header).policyField ∨
      ∃ h, header = some h ∧ ChainKind.ofHeader family h = .base decl (h.policy.getD "accept") ∧
        (h.policy = none → policy = "accept")

/-- The elements of a set that is there become the desired ones: of the listed texts, the deletion takes all of those whose canonical
forms are not desired and leaves one of each of the others; and the elements that are added are read back as these elements. -/
structure ElementsReach (form : NftForm) (listed desired : List String) : Prop where
  left : ∀ e ∈ form.canonicalizeSetElements listed,
    (∃ x ∈ listed, form.canonicalizeElement x = e ∧
      x ∉ ((form.canonicalizeSetElements listed).filter (· ∉ desired)).map form.listElement) ↔ e ∈ desired
  added : ∀ e, e ∈ (desired.filter (· ∉ form.canonicalizeSetElements listed)).map form.readElement ↔
    e ∈ desired.filter (· ∉ form.canonicalizeSetElements listed)

/-- The elements of a set become those declared; a set that is not there is declared with them as they are written. -/
def SetReaches (declared : List String) : Option (KernelSet form) → Prop
  | none => ∀ e, e ∈ declared.map form.readElement ↔ e ∈ declared.map form.canonicalizeElement
  | some s => ElementsReach form s.elements (form.canonicalizeSetElements declared)

/-- The elements of every set that is not dynamic become those declared. -/
def SetsReach (decls : Dict String Decl) (kernel : KernelTable form) : Prop :=
  ∀ name d, decls.get? name = some d → declTarget name d = .set name → (d.parsedSet form name).isDynamic = false →
    SetReaches d.elements (kernel.sets.get? name)

/-- When a delta reaches the configuration: the chains that are there get their headers, a chain that is missing comes with a
difference that the differ sees, and elements are read back from nft's listing as they are meant. -/
structure DeltaReaches (family : String) (chains : List NftChain) (decls : Dict String Decl) (kernel : KernelTable form)
    (desired : Dict String ParsedTable) : Prop where
  reshapes : ∀ c ∈ chains, ∀ k, kernel.chains.get? c.name = some k → Reshapes family (chainHeader c) k.kind
  fresh : (∃ c ∈ chains, c.name ∉ kernel.chains) → SeenDifference (fermTables (some kernel.parsed)) desired
  elements : SetsReach decls kernel

/-! ## One chain -/

namespace ChainKind

/-- A declaration leaves the chain it makes as it is. -/
theorem redeclare_ofHeader (header : Option ChainHeader) :
    (ofHeader family header).redeclare header = ofHeader family header := by
  cases header with
  | none => rfl
  | some h =>
    cases hp : h.policy with
    | none => simp [ofHeader, redeclare, hp]
    | some p => simp [ofHeader, redeclare, hp]

end ChainKind

/-- A chain that is not rebuilt has the header of its declaration when the declaration leaves it with that header. -/
theorem reshapes_iff (header : Option ChainHeader) (kind : ChainKind) :
    Reshapes family header kind ↔
      (kind ≠ .user ∧ headerPriority kind.policyField ≠ headerPriority (ChainKind.ofHeader family header).policyField) ∨
        kind.redeclare header = ChainKind.ofHeader family header := by
  cases kind with
  | user => cases header <;> simp [Reshapes, ChainKind.redeclare, ChainKind.ofHeader]
  | base decl policy =>
    cases header with
    | none => simp [Reshapes, ChainKind.redeclare, ChainKind.ofHeader]
    | some h =>
      cases hp : h.policy with
      | none => simp [Reshapes, ChainKind.redeclare, ChainKind.ofHeader, hp, eq_comm]
      | some p => simp [Reshapes, ChainKind.redeclare, ChainKind.ofHeader, hp, eq_comm]

/-- Rules are appended in order. -/
theorem runScript_fill (name : String) (bodies : List String) (k : KernelChain) :
    runScript (cellStep family) (bodies.map (Command.addRule name)) (.chain (some k) : Cell form) =
      some (.chain (some { k with rules := k.rules ++ bodies.map (form.canonicalizeNftRule family) })) := by
  induction bodies generalizing k with
  | nil => simp
  | cons body bodies ih =>
    rw [List.map_cons, runScript_cons]
    refine (ih _).trans ?_
    simp

section

variable {chains : List NftChain} {rules : Dict String (List NftRule)} {decls : Dict String Decl}

/-- A chain with the rules of the configuration is the chain of the configuration when its kind is the declared one. -/
theorem parsed_eq_parsedChain_iff {c : NftChain} {k : KernelChain}
    (hr : k.rules = (ruleBodies rules c.name).map (form.canonicalizeNftRule family)) :
    k.parsed = parsedChain form family rules c ↔ k.kind = ChainKind.ofHeader family (chainHeader c) := by
  rw [KernelChain.parsed, parsedChain, ParsedChain.mk.injEq, hr, ChainKind.policyField_injective.eq_iff]
  exact and_iff_left rfl

/-- Another priority of a base chain. -/
theorem rebuilds_iff (header : Option ChainHeader) (k : KernelChain) {d : ParsedChain}
    (hd : d.policy = (ChainKind.ofHeader family header).policyField) :
    (isBuiltin k.parsed ∧ d.policy ≠ k.parsed.policy ∧ headerPriority k.parsed.policy ≠ headerPriority d.policy) ↔
      k.kind ≠ .user ∧ headerPriority k.kind.policyField ≠ headerPriority (ChainKind.ofHeader family header).policyField := by
  have hb : isBuiltin k.parsed = true ↔ k.kind ≠ .user := by
    rw [isBuiltin, decide_eq_true_iff, Ne, Ne, ← ChainKind.policyField_eq_user_iff]
    rfl
  rw [hb, hd]
  constructor
  · rintro ⟨hu, _, hp⟩
    exact ⟨hu, hp⟩
  · rintro ⟨hu, hp⟩
    exact ⟨hu, fun h => hp (congrArg headerPriority h.symm), hp⟩

/-- What the delta makes of one chain: its rules are those of the configuration, its header is when the chain reshapes. -/
theorem runScript_chainCommands (form : NftForm) (family : String) (rules : Dict String (List NftRule))
    (current : ParsedTable) (c : NftChain) (k : Option KernelChain)
    (hk : current.chains.get? c.name = k.map KernelChain.parsed) :
    ∃ k', runScript (cellStep family) (chainCommands form family rules current c) (.chain k : Cell form) =
        some (.chain (some k')) ∧
      k'.rules = (parsedChain form family rules c).rules ∧
      (k'.kind = .ofHeader family (chainHeader c) ↔ ∀ k₀, k = some k₀ → Reshapes family (chainHeader c) k₀.kind) := by
  unfold chainCommands deltaAction
  rw [hk]
  have hfill : ∀ k, runScript (cellStep family) ((ruleBodies rules c.name).map (Command.addRule c.name))
      (.chain (some k) : Cell form) = _ := runScript_fill c.name (ruleBodies rules c.name)
  cases k with
  | none =>
    exact ⟨_, hfill ⟨ChainKind.ofHeader family (chainHeader c), []⟩, List.nil_append _, by simp⟩
  | some k =>
    have hall : (∀ k₀, some k = some k₀ → Reshapes family (chainHeader c) k₀.kind) ↔
        Reshapes family (chainHeader c) k.kind := by simp
    rw [Option.map_some, hall]
    obtain ⟨ha, hrebuild⟩ | ⟨hno, hrest⟩ := chainAction_cases k.parsed (parsedChain form family rules c)
    · rw [ha]
      refine ⟨_, hfill ⟨ChainKind.ofHeader family (chainHeader c), []⟩, List.nil_append _, ?_⟩
      rw [reshapes_iff]
      exact iff_of_true rfl (.inl ((rebuilds_iff _ k rfl).1 hrebuild))
    · rw [rebuilds_iff (chainHeader c) k rfl] at hno
      rw [reshapes_iff, or_iff_right hno]
      rcases hrest with ha | ⟨ha, hrules⟩ | ⟨ha, hrules, hpolicy⟩ <;> rw [ha]
      · exact ⟨_, hfill ⟨k.kind.redeclare (chainHeader c), []⟩, List.nil_append _, Iff.rfl⟩
      · exact ⟨⟨k.kind.redeclare (chainHeader c), k.rules⟩, rfl, hrules, Iff.rfl⟩
      · refine ⟨k, rfl, hrules, ?_⟩
        -- a chain that is kept is a user chain, or has the declared header already
        constructor
        · intro h
          rw [h, ChainKind.redeclare_ofHeader]
        · intro h
          by_cases hu : k.kind = .user
          · rw [hu] at h ⊢
            exact h
          · by_contra hne
            refine hpolicy ⟨?_, fun he => hne (ChainKind.policyField_injective he).symm⟩
            rw [isBuiltin, decide_eq_true_iff]
            exact fun h => hu (ChainKind.policyField_eq_user_iff.1 h)

/-! ## One set -/

/-- A map onto a finite list permutes it. -/
theorem map_subset_of_subset_map {α : Type} [DecidableEq α] {f : α → α} {l : List α} (h : l ⊆ l.map f) : l.map f ⊆ l := by
  have hsub : l.toFinset ⊆ l.toFinset.image f := by
    intro e he
    obtain ⟨x, hx, rfl⟩ := List.mem_map.1 (h (List.mem_toFinset.1 he))
    exact Finset.mem_image_of_mem f (List.mem_toFinset.2 hx)
  have himage := Finset.eq_of_subset_of_card_le hsub Finset.card_image_le
  intro e he
  obtain ⟨x, hx, rfl⟩ := List.mem_map.1 he
  rw [← List.mem_toFinset, himage]
  exact Finset.mem_image_of_mem f (List.mem_toFinset.2 hx)

/-- Elements that are read as the desired ones already. -/
theorem ElementsReach.of_read {listed desired : List String} (h : ∀ e, e ∈ form.canonicalizeSetElements listed ↔ e ∈ desired) :
    ElementsReach form listed desired := by
  have hdelete : (form.canonicalizeSetElements listed).filter (· ∉ desired) = [] :=
    List.filter_eq_nil_iff.2 fun e he hnot => of_decide_eq_true hnot ((h e).1 he)
  have hadd : desired.filter (· ∉ form.canonicalizeSetElements listed) = [] :=
    List.filter_eq_nil_iff.2 fun e he hnot => of_decide_eq_true hnot ((h e).2 he)
  refine ⟨fun e he => ?_, fun e => by rw [hadd]; exact Iff.rfl⟩
  obtain ⟨x, hx, hxe⟩ := form.mem_canonicalizeSetElements.1 he
  rw [hdelete]
  exact iff_of_true ⟨x, hx, hxe, List.not_mem_nil⟩ ((h e).1 he)

/-- What is read after elements were deleted and added. -/
theorem read_iff_elementsReach {listed desired after : List String}
    (hafter : ∀ x, x ∈ after ↔
      (x ∈ listed ∧ x ∉ ((form.canonicalizeSetElements listed).filter (· ∉ desired)).map form.listElement) ∨
        x ∈ (desired.filter (· ∉ form.canonicalizeSetElements listed)).map form.listElement) :
    (∀ e, e ∈ form.canonicalizeSetElements after ↔ e ∈ desired) ↔ ElementsReach form listed desired := by
  have hread : ∀ e, e ∈ form.canonicalizeSetElements after ↔
      (∃ x ∈ listed, form.canonicalizeElement x = e ∧
        x ∉ ((form.canonicalizeSetElements listed).filter (· ∉ desired)).map form.listElement) ∨
      e ∈ (desired.filter (· ∉ form.canonicalizeSetElements listed)).map form.readElement := by
    intro e
    rw [form.mem_canonicalizeSetElements, List.mem_map]
    constructor
    · rintro ⟨x, hx, rfl⟩
      rcases (hafter x).1 hx with ⟨hlisted, hleft⟩ | hadded
      · exact .inl ⟨x, hlisted, rfl, hleft⟩
      · obtain ⟨a, ha, rfl⟩ := List.mem_map.1 hadded
        exact .inr ⟨a, ha, rfl⟩
    · rintro (⟨x, hlisted, rfl, hleft⟩ | ⟨a, ha, rfl⟩)
      · exact ⟨x, (hafter x).2 (.inl ⟨hlisted, hleft⟩), rfl⟩
      · exact ⟨_, (hafter _).2 (.inr (List.mem_map_of_mem ha)), rfl⟩
  have hnew : ∀ e, e ∈ desired.filter (· ∉ form.canonicalizeSetElements listed) ↔
      e ∈ desired ∧ e ∉ form.canonicalizeSetElements listed := by
    intro e
    rw [List.mem_filter, decide_eq_true_iff]
  constructor
  · intro h
    -- what is missing comes from what is added, so that the added elements are read as one another
    have hsub : desired.filter (· ∉ form.canonicalizeSetElements listed) ⊆
        (desired.filter (· ∉ form.canonicalizeSetElements listed)).map form.readElement := by
      intro e he
      obtain ⟨hdesired, hmissing⟩ := (hnew e).1 he
      rcases (hread e).1 ((h e).2 hdesired) with ⟨x, hx, rfl, -⟩ | hadded
      · exact absurd (form.mem_canonicalizeSetElements.2 ⟨x, hx, rfl⟩) hmissing
      · exact hadded
    have hback := map_subset_of_subset_map hsub
    refine ⟨fun e he => ⟨fun hleft => (h e).1 ((hread e).2 (.inl hleft)), fun hdesired => ?_⟩, fun e => ⟨(hback ·), (hsub ·)⟩⟩
    rcases (hread e).1 ((h e).2 hdesired) with hleft | hadded
    · exact hleft
    · exact absurd he ((hnew e).1 (hback hadded)).2
  · intro h e
    rw [hread, h.added, hnew]
    by_cases he : e ∈ form.canonicalizeSetElements listed
    · rw [h.left e he]
      tauto
    · refine ⟨?_, fun hdesired => .inr ⟨hdesired, he⟩⟩
      rintro (⟨x, hx, rfl, -⟩ | hadded)
      · exact absurd (form.mem_canonicalizeSetElements.2 ⟨x, hx, rfl⟩) he
      · exact hadded.1

/-- Elements that are too many are deleted, elements that are missing are added. -/
theorem runScript_modify (family name : String) (s : KernelSet form) (current desired : List String) :
    ∃ s', runScript (cellStep family)
        ((if current.filter (· ∉ desired) = [] then [] else [.deleteElement name (current.filter (· ∉ desired))]) ++
          if desired.filter (· ∉ current) = [] then [] else [.addElement name (desired.filter (· ∉ current))])
        (.set (some s) : Cell form) = some (.set (some s')) ∧
      s'.type_ = s.type_ ∧ s'.flags = s.flags ∧
      ∀ x, x ∈ s'.elements ↔ (x ∈ s.elements ∧ x ∉ (current.filter (· ∉ desired)).map form.listElement) ∨
        x ∈ (desired.filter (· ∉ current)).map form.listElement := by
  have hdelete : ∃ s₁, runScript (cellStep family)
      (if current.filter (· ∉ desired) = [] then [] else [.deleteElement name (current.filter (· ∉ desired))])
        (.set (some s) : Cell form) = some (.set (some s₁)) ∧
      s₁.type_ = s.type_ ∧ s₁.flags = s.flags ∧
      ∀ x, x ∈ s₁.elements ↔ x ∈ s.elements ∧ x ∉ (current.filter (· ∉ desired)).map form.listElement := by
    by_cases h : current.filter (· ∉ desired) = []
    · rw [if_pos h]
      refine ⟨s, rfl, rfl, rfl, fun x => ?_⟩
      rw [h]
      exact ⟨fun hx => ⟨hx, List.not_mem_nil⟩, And.left⟩
    · rw [if_neg h]
      exact ⟨_, rfl, rfl, rfl, fun _ => KernelSet.mem_remove⟩
  obtain ⟨s₁, hrun, htype, hflags, hmem⟩ := hdelete
  rw [runScript_append, hrun]
  by_cases h : desired.filter (· ∉ current) = []
  · rw [if_pos h]
    refine ⟨s₁, rfl, htype, hflags, fun x => ?_⟩
    rw [h, hmem]
    simp
  · rw [if_neg h]
    refine ⟨_, rfl, htype, hflags, fun x => ?_⟩
    rw [KernelSet.mem_add, hmem]

/-- What the delta makes of one set. -/
theorem runScript_setCommands (family : String) {name : String} {d : Decl} (s : Option (KernelSet form))
    (hs : ∀ s₀, s = some s₀ → s₀.type_ = (d.parsedSet form name).type_ ∧ s₀.flags = (d.parsedSet form name).flags) :
    ∃ s', runScript (cellStep family) (setCommands name d (s.map (KernelSet.parsed name)) (d.parsedSet form name))
        (.set s : Cell form) = some (.set (some s')) ∧
      s'.type_ = (d.parsedSet form name).type_ ∧ s'.flags = (d.parsedSet form name).flags ∧
      ((d.parsedSet form name).isDynamic = false →
        ((∀ e, e ∈ form.canonicalizeSetElements s'.elements ↔ e ∈ (d.parsedSet form name).elements) ↔ SetReaches d.elements s)) := by
  have hdeclared : ∀ e, e ∈ (d.parsedSet form name).elements ↔ e ∈ d.elements.map form.canonicalizeElement := fun e => by
    rw [Decl.parsedSet, NftForm.mem_canonicalizeSetElements, List.mem_map]
  cases s with
  | none =>
    have hfresh : ∀ elements : List String, (∀ x, x ∈ elements ↔ x ∈ d.elements.map form.listElement) →
        ((∀ e, e ∈ form.canonicalizeSetElements elements ↔ e ∈ (d.parsedSet form name).elements) ↔
          SetReaches d.elements (none : Option (KernelSet form))) := by
      intro elements helements
      refine forall_congr' fun e => ?_
      rw [hdeclared, NftForm.mem_canonicalizeSetElements, ← List.mem_map]
      refine Iff.of_eq (congrArg (· ↔ _) (propext ?_))
      simp only [List.mem_map, helements, NftForm.readElement, exists_exists_and_eq_and]
    by_cases he : d.elements = []
    · refine ⟨{ type_ := (parseSetHeader d.statements).1, flags := (parseSetHeader d.statements).2 }, ?_, rfl, rfl, fun _ => hfresh _ ?_⟩
      · simp only [Option.map_none, setCommands, if_pos he]
        rfl
      · simp [he]
    · refine ⟨KernelSet.add { type_ := (parseSetHeader d.statements).1, flags := (parseSetHeader d.statements).2 }
        d.elements, ?_, rfl, rfl, fun _ => hfresh _ fun x => ?_⟩
      · simp only [Option.map_none, setCommands, if_neg he]
        rfl
      · rw [KernelSet.mem_add]
        simp
  | some s =>
    obtain ⟨htype, hflags⟩ := hs s rfl
    by_cases hm : (!(d.parsedSet form name).isDynamic &&
        (KernelSet.parsed name s).elements ≠ (d.parsedSet form name).elements) = true
    · obtain ⟨s', hrun, htype', hflags', hmem⟩ := runScript_modify family name s (s.parsed name).elements (d.parsedSet form name).elements
      refine ⟨s', ?_, htype'.trans htype, hflags'.trans hflags, fun _ => read_iff_elementsReach hmem⟩
      rw [Option.map_some, setCommands, if_pos hm]
      exact hrun
    · refine ⟨s, ?_, htype, hflags, ?_⟩
      · rw [Option.map_some, setCommands, if_neg hm]
        rfl
      · intro hdyn
        have he : form.canonicalizeSetElements s.elements = (d.parsedSet form name).elements := by
          by_contra hn
          exact hm (by simp [hdyn, KernelSet.parsed, hn])
        have hread : ∀ e, e ∈ form.canonicalizeSetElements s.elements ↔ e ∈ (d.parsedSet form name).elements := fun e => by rw [he]
        exact iff_of_true hread (.of_read hread)

/-! ## The whole table -/

theorem chains_parsed (t : KernelTable form) (name : String) :
    t.parsed.chains.get? name = (t.chains.get? name).map KernelChain.parsed := by
  rw [KernelTable.parsed, Dict.get?_mapValues]

theorem sets_parsed (t : KernelTable form) (name : String) :
    t.parsed.sets.get? name = (t.sets.get? name).map (KernelSet.parsed name) := by
  rw [KernelTable.parsed, Dict.get?_mapWithKey]

theorem mem_sets_parsed (t : KernelTable form) (name : String) : name ∈ t.parsed.sets ↔ name ∈ t.sets := by
  rw [KernelTable.parsed, Dict.mem_mapWithKey]

/-- A table without further chains, and with the sets and objects of the configuration, is the table of the configuration when
its chains and the elements of its sets are. -/
theorem converged_iff (reach : Prop) {t : KernelTable form} {desired : ParsedTable} (hr : ReadsAs form family chains rules decls desired)
    (habsent : ∀ name, (∀ c ∈ chains, c.name ≠ name) → t.chains.get? name = none)
    (hnames : ∀ name, name ∈ t.sets ↔ name ∈ desired.sets)
    (hsets : ∀ name d, decls.get? name = some d → declTarget name d = .set name → ∀ s, t.sets.get? name = some s →
      s.type_ = (d.parsedSet form name).type_ ∧ s.flags = (d.parsedSet form name).flags)
    (helements : reach ↔ ∀ name d, decls.get? name = some d → declTarget name d = .set name →
      (d.parsedSet form name).isDynamic = false → ∀ s, t.sets.get? name = some s →
        ∀ e, e ∈ form.canonicalizeSetElements s.elements ↔ e ∈ (d.parsedSet form name).elements)
    (hobjects : ∀ name, name ∈ t.objects ↔ name ∈ desired.objects) :
    Converged t desired ↔
      (∀ c ∈ chains, (t.chains.get? c.name).map KernelChain.parsed = some (parsedChain form family rules c)) ∧ reach := by
  constructor
  · intro h
    refine ⟨fun c hc => ?_, helements.2 fun name d hd ht hdyn s hs => ?_⟩
    · rw [h.chains c.name]
      exact hr.chain c hc
    · exact (h.sets name s _ hs (hr.set name d hd ht)).2.2 hdyn
  · rintro ⟨h, hreach⟩
    refine ⟨fun name => ?_, hnames, fun name s d hs hd => ?_, hobjects⟩
    swap
    · obtain ⟨decl, hdecl, ht, rfl⟩ := hr.set_decl hd
      obtain ⟨htype, hflags⟩ := hsets name decl hdecl ht s hs
      exact ⟨htype, hflags, fun hdyn => helements.1 hreach name decl hdecl ht hdyn s hs⟩
    by_cases hname : ∃ c ∈ chains, c.name = name
    · obtain ⟨c, hc, rfl⟩ := hname
      rw [h c hc]
      exact (hr.chain c hc).symm
    · have hno : ∀ c ∈ chains, c.name ≠ name := fun c hc he => hname ⟨c, hc, he⟩
      rw [habsent name hno, hr.noChain name hno]
      rfl

variable {kernel : KernelTable form} {desired : ParsedTable} {script : List ScriptLine}

/-- What the script makes of a set. -/
theorem runScript_setCell (hd : DeltaSpec form family chains rules decls kernel.parsed desired script)
    (he : Emits form family chains rules decls kernel.parsed desired script) (name : String) :
    ∃ s' : Option (KernelSet form),
      runScript (cellStep family) (onKey Command.target (.set name) (script.map ScriptLine.command))
        (.set (kernel.sets.get? name)) = some (.set s') ∧
      (s'.isSome = true ↔ name ∈ desired.sets) ∧
      ∀ d, decls.get? name = some d → declTarget name d = .set name → ∃ s, s' = some s ∧
        s.type_ = (d.parsedSet form name).type_ ∧ s.flags = (d.parsedSet form name).flags ∧
        ((d.parsedSet form name).isDynamic = false →
          ((∀ e, e ∈ form.canonicalizeSetElements s.elements ↔ e ∈ (d.parsedSet form name).elements) ↔
            SetReaches d.elements (kernel.sets.get? name))) := by
  cases hs : desired.sets.get? name with
  | none =>
    have hmem : name ∉ desired.sets := Dict.get?_eq_none_iff.1 hs
    have hcur : kernel.sets.get? name = none :=
      Dict.get?_eq_none_iff.2 fun h => hmem (hd.noExtraSet name ((mem_sets_parsed _ _).2 h))
    have hno : ∀ d, decls.get? name = some d → declTarget name d ≠ .set name := by
      intro d hdecl ht
      have := hd.reads.set name d hdecl ht
      rw [hs] at this
      cases this
    rw [he.noSet name hno, hcur]
    exact ⟨none, rfl, by simp [hmem], fun d hdecl ht => absurd ht (hno d hdecl)⟩
  | some s =>
    obtain ⟨d, hdecl, ht, rfl⟩ := hd.reads.set_decl hs
    have hheader : ∀ s₀, kernel.sets.get? name = some s₀ →
        s₀.type_ = (d.parsedSet form name).type_ ∧ s₀.flags = (d.parsedSet form name).flags := by
      intro s₀ h₀
      exact hd.sameHeader name (s₀.parsed name) _ (by rw [sets_parsed, h₀]; rfl) hs
    obtain ⟨s', hrun, htype, hflags, hmem⟩ := runScript_setCommands family _ hheader
    refine ⟨some s', ?_, iff_of_true rfl (Dict.mem_of_get? hs), ?_⟩
    · rw [he.set name d hdecl ht, sets_parsed]
      exact hrun
    · intro d' hdecl' _
      rw [hdecl] at hdecl'
      cases hdecl'
      exact ⟨s', rfl, htype, hflags, hmem⟩

/-- A chain that is not in the configuration is not there afterwards. -/
theorem runScript_extraChain (he : Emits form family chains rules decls kernel.parsed desired script) {name : String}
    (hname : ∀ c ∈ chains, c.name ≠ name) :
    runScript (cellStep family) (onKey Command.target (.chain name) (script.map ScriptLine.command))
      (.chain (kernel.chains.get? name) : Cell form) = some (.chain none) := by
  have hmem : name ∈ kernel.parsed.chains ↔ (kernel.chains.get? name).isSome = true := by
    rw [Dict.mem_iff_isSome, chains_parsed, Option.isSome_map]
  rw [he.extraChain name hname]
  cases hk : kernel.chains.get? name with
  | none =>
    rw [if_neg (by rw [hmem, hk]; simp)]
    rfl
  | some k =>
    rw [if_pos (by rw [hmem, hk]; rfl)]
    rfl

/-- A script that is not empty runs, and every cell of the table is known after it. -/
theorem exec_emits (hd : DeltaSpec form family chains rules decls kernel.parsed desired script)
    (he : Emits form family chains rules decls kernel.parsed desired script) :
    ∃ t, execScript family script (some kernel) = some (some t) ∧
      (Converged t desired ↔
        (∀ c ∈ chains, ∀ k, kernel.chains.get? c.name = some k → Reshapes family (chainHeader c) k.kind) ∧
          SetsReach decls kernel) := by
  have hchain := fun c => runScript_chainCommands form family rules kernel.parsed c _ (chains_parsed kernel c.name)
  have hset := runScript_setCell hd he
  have hcells : ∀ k, (runScript (cellStep family) (onKey Command.target k (script.map ScriptLine.command))
      (kernel.view k)).isSome = true := by
    intro k
    cases k with
    | table => rw [he.table]; rfl
    | object name => rw [he.object name]; rfl
    | set name =>
      obtain ⟨s', hs', _⟩ := hset name
      exact Option.isSome_iff_exists.2 ⟨_, hs'⟩
    | chain name =>
      by_cases hname : ∃ c ∈ chains, c.name = name
      · obtain ⟨c, hc, rfl⟩ := hname
        obtain ⟨k', hk', _⟩ := hchain c
        rw [he.chain c hc]
        exact Option.isSome_iff_exists.2 ⟨_, hk'⟩
      · exact Option.isSome_iff_exists.2 ⟨_, runScript_extraChain he fun c hc h => hname ⟨c, hc, h⟩⟩
  obtain ⟨t, ht⟩ := Option.isSome_iff_exists.1
    ((KernelTable.exec_keyed family).run_isSome _ (fun _ _ => trivial) hcells)
  have hview := (KernelTable.exec_keyed family).view_run (fun _ _ => trivial) ht
  refine ⟨t, by rw [execScript_eq he.onCells, ht]; rfl, ?_⟩
  have hcell : ∀ name s', runScript (cellStep family) (onKey Command.target (.set name) (script.map ScriptLine.command))
      (.set (kernel.sets.get? name)) = some (.set s') → t.sets.get? name = s' := fun name s' hs' =>
    Cell.set.inj (Option.some.inj ((hview (.set name)).symm.trans hs'))
  rw [converged_iff (SetsReach decls kernel) hd.reads]
  · refine and_congr_left fun _ => forall_congr' fun c => forall_congr' fun hc => ?_
    obtain ⟨k', hk', hrules, hiff⟩ := hchain c
    have hcell := hview (.chain c.name)
    rw [he.chain c hc] at hcell
    rw [Cell.chain.inj (Option.some.inj (hcell.symm.trans hk')), Option.map_some, Option.some.injEq,
      parsed_eq_parsedChain_iff hrules]
    exact hiff
  · intro name hname
    exact Cell.chain.inj (Option.some.inj ((hview (.chain name)).symm.trans (runScript_extraChain he hname)))
  · intro name
    obtain ⟨s', hs', hmem, -⟩ := hset name
    rw [Dict.mem_iff_isSome, hcell name s' hs']
    exact hmem
  · intro name d hdecl ht s hs
    obtain ⟨s', hs', -, hsame⟩ := hset name
    obtain ⟨s₁, rfl, htype, hflags, -⟩ := hsame d hdecl ht
    rw [hcell name _ hs'] at hs
    cases hs
    exact ⟨htype, hflags⟩
  · refine forall₄_congr fun name d hdecl ht => forall_congr' fun hdyn => ?_
    obtain ⟨s', hs', -, hsame⟩ := hset name
    obtain ⟨s₁, rfl, -, -, hread⟩ := hsame d hdecl ht
    rw [hcell name _ hs', ← hread hdyn]
    simp
  · intro name
    have hcell := hview (.object name)
    rw [he.object name, runScript_nil] at hcell
    rw [Dict.mem_iff_isSome, ← Cell.object.inj (Option.some.inj hcell), ← Dict.mem_iff_isSome]
    exact hd.sameObjects name

/-- Without a difference that the differ sees, the table is that of the configuration when every chain is there and reshapes, and
elements are not touched. -/
theorem converged_of_unseen (hr : ReadsAs form family chains rules decls desired)
    (hseen : ¬ TableSeen kernel.parsed desired) :
    SetsReach decls kernel ∧ (Converged kernel desired ↔ (∀ c ∈ chains, c.name ∈ kernel.chains) ∧
      ∀ c ∈ chains, ∀ k, kernel.chains.get? c.name = some k → Reshapes family (chainHeader c) k.kind) := by
  have hset : ∀ name d, desired.sets.get? name = some d → SameSet (kernel.parsed.sets.get? name) d :=
    fun name d hd => by_contra fun h => hseen (.set hd h)
  -- a set that is there is read as the declared one
  have hread : ∀ name d, decls.get? name = some d → declTarget name d = .set name → ∃ s, kernel.sets.get? name = some s ∧
      s.type_ = (d.parsedSet form name).type_ ∧ s.flags = (d.parsedSet form name).flags ∧
      ((d.parsedSet form name).isDynamic = false →
        form.canonicalizeSetElements s.elements = (d.parsedSet form name).elements) := by
    intro name d hdecl ht
    obtain ⟨s', hs', htype, hflags, helements⟩ := hset name _ (hr.set name d hdecl ht)
    rw [sets_parsed] at hs'
    obtain ⟨s, hs, rfl⟩ := Option.map_eq_some_iff.1 hs'
    exact ⟨s, hs, htype, hflags, helements⟩
  have hreach : SetsReach decls kernel := by
    intro name d hdecl ht hdyn
    obtain ⟨s, hs, -, -, helements⟩ := hread name d hdecl ht
    rw [hs]
    refine ElementsReach.of_read fun e => ?_
    rw [helements hdyn]
    exact Iff.rfl
  refine ⟨hreach, (converged_iff True hr ?_ ?_ ?_ ?_ ?_).trans ((and_iff_left trivial).trans ?_)⟩
  rotate_left 5
  · rw [← forall₂_and]
    refine forall_congr' fun c => forall_congr' fun hc => ?_
    have hunseen : ¬ ChainSeen (kernel.parsed.chains.get? c.name) (parsedChain form family rules c) :=
      fun h => hseen (.chain (hr.chain c hc) h)
    obtain ⟨k', hk', hrules, hiff⟩ := runScript_chainCommands form family rules kernel.parsed c _
      (chains_parsed kernel c.name)
    rw [Dict.mem_iff_isSome]
    rw [chains_parsed] at hunseen
    cases hk : kernel.chains.get? c.name with
    | none => simp
    | some k =>
      -- the chain is kept as it is
      rw [hk, Option.map_some] at hunseen
      rw [chainCommands, deltaAction, chains_parsed, hk, Option.map_some, chainAction_of_not_seen hunseen] at hk'
      rw [← Option.some.inj (Cell.chain.inj (Option.some.inj hk'))] at hrules hiff
      rw [Option.map_some, Option.some.injEq, parsed_eq_parsedChain_iff hrules, hiff, hk]
      simp
  · intro name hname
    refine Dict.get?_eq_none_iff.2 fun h => hseen (@TableSeen.extraChain _ _ name ?_ ?_)
    · rwa [KernelTable.parsed, Dict.mem_mapValues]
    · intro hd
      obtain ⟨c, hc, he⟩ := hr.mem_chains.1 hd
      exact hname c hc he
  · intro name
    rw [← mem_sets_parsed]
    refine ⟨fun h => by_contra fun hd => hseen (.extraSet h hd), fun h => ?_⟩
    obtain ⟨d, hd⟩ := Dict.mem_iff_exists.1 h
    obtain ⟨s, hs, _⟩ := hset name d hd
    exact Dict.mem_of_get? hs
  · intro name d hdecl ht s hs
    obtain ⟨s', hs', htype, hflags, -⟩ := hread name d hdecl ht
    rw [hs] at hs'
    cases hs'
    exact ⟨htype, hflags⟩
  · refine iff_of_true trivial fun name d hdecl ht hdyn s hs e => ?_
    obtain ⟨s', hs', -, -, helements⟩ := hread name d hdecl ht
    rw [hs] at hs'
    cases hs'
    rw [helements hdyn]
  · exact fun name => ⟨fun h => by_contra fun hd => hseen (.extraObject h hd),
      fun h => by_contra fun hc => hseen (.object h hc)⟩

/-! ## Convergence -/

/-- A delta script runs, and it makes the kernel's table the table of the configuration exactly when it reaches it: when the
chains that are there get their headers, no missing chain is the only difference, and elements are read back as they are meant. -/
theorem delta_converges_iff {noflush : Bool} {save : List ScriptLine} {tables : Dict String ParsedTable}
    (hn : (chains.map NftChain.name).Nodup)
    (hsave : serializeTable ⟨family, NFT_TABLE_NAME⟩ chains rules decls noflush = .ok save)
    (hparse : parseNftScript form save = .ok tables)
    (hdelta : buildNftDelta form (fermTables (some kernel.parsed)) save family = .ok (some script)) :
    (∃ t, execScript family script (some kernel) = some (some t) ∧ Converged t (tableOf tables NFT_TABLE_NAME)) ↔
      DeltaReaches family chains decls kernel tables := by
  obtain ⟨desired, hparse', hd⟩ := buildNftDelta_spec hn hsave hdelta
  rw [hparse] at hparse'
  cases hparse'
  have hchanges : (fermDiff kernel.parsed desired).hasChanges = true ↔
      SeenDifference (fermTables (some kernel.parsed)) (fermTables (some desired)) := hasChanges_iff_seen _ _
  cases hc : (fermDiff kernel.parsed desired).hasChanges with
  | true =>
    obtain ⟨t, ht, hiff⟩ := exec_emits hd (hd.emits hc)
    have hseen := hchanges.1 hc
    constructor
    · rintro ⟨t', ht', hconverged⟩
      rw [ht] at ht'
      cases ht'
      obtain ⟨hreshapes, helements⟩ := hiff.1 hconverged
      exact ⟨hreshapes, fun _ => hseen, helements⟩
    · intro h
      exact ⟨t, ht, hiff.2 ⟨h.reshapes, h.elements⟩⟩
  | false =>
    have hseen : ¬ SeenDifference (fermTables (some kernel.parsed)) (fermTables (some desired)) := by
      rw [← hchanges, hc]
      simp
    obtain ⟨helements, hiff⟩ := converged_of_unseen hd.reads fun h => hseen ⟨NFT_TABLE_NAME, desired, rfl, h⟩
    rw [hd.nothing hc]
    constructor
    · rintro ⟨t, ht, hconverged⟩
      cases ht
      obtain ⟨hthere, hreshapes⟩ := hiff.1 hconverged
      refine ⟨hreshapes, ?_, helements⟩
      rintro ⟨c, hc, hmissing⟩
      exact absurd (hthere c hc) hmissing
    · intro h
      refine ⟨kernel, rfl, hiff.2 ⟨fun c hc => ?_, h.reshapes⟩⟩
      by_contra hmissing
      exact hseen (h.fresh ⟨c, hc, hmissing⟩)

end

/-- A user chain whose rule changes from `accept` to `drop`, and a set of which one element goes and another one comes. -/
theorem delta_converges_refill :
    (∃ t, execScript "ip" [deltaLine "ip" .addTable, deltaLine "ip" (.deleteElement "s" ["22"]), deltaLine "ip" (.addElement "s" ["80"]),
        deltaLine "ip" (.addChain "c" none), deltaLine "ip" (.flushChain "c"), deltaLine "ip" (.addRule "c" "drop")]
        (some ⟨Dict.empty.set "c" ⟨.user, ["accept"]⟩, Dict.empty.set "s" ⟨["22"], some "inet_service", []⟩, Dict.empty⟩ :
          Option (KernelTable .verbatim)) = some (some t) ∧
      Converged t (tableOf (fermTables (some ⟨Dict.empty.set "c" ⟨["-"], ["drop"]⟩,
        Dict.empty.set "s" ⟨"s", ["80"], some "inet_service", []⟩, Dict.empty⟩)) NFT_TABLE_NAME)) ↔
    DeltaReaches "ip" [.regular "c"] (Dict.empty.set "s" (.static ⟨.inetService, false, ["80"]⟩))
      (⟨Dict.empty.set "c" ⟨.user, ["accept"]⟩, Dict.empty.set "s" ⟨["22"], some "inet_service", []⟩, Dict.empty⟩ :
        KernelTable .verbatim)
      (fermTables (some ⟨Dict.empty.set "c" ⟨["-"], ["drop"]⟩, Dict.empty.set "s" ⟨"s", ["80"], some "inet_service", []⟩, Dict.empty⟩)) :=
  delta_converges_iff (by decide)
    (show serializeTable ⟨"ip", NFT_TABLE_NAME⟩ [.regular "c"] (Dict.empty.set "c" [{ statements := [.nftVerdict "drop"] }])
      (Dict.empty.set "s" (.static ⟨.inetService, false, ["80"]⟩)) false = .ok _ from rfl)
    rfl rfl

/-- The kernel's base chain has the policy `drop`, the configuration has the chain without a policy: the script redeclares the
chain with a line without a policy, and the chain keeps `drop`. -/
theorem delta_keeps_policy :
    ∃ (kernel : KernelTable .verbatim) (chains : List NftChain) (rules : Dict String (List NftRule))
      (save script : List ScriptLine) (tables : Dict String ParsedTable),
      (chains.map NftChain.name).Nodup ∧
      serializeTable ⟨"ip", NFT_TABLE_NAME⟩ chains rules Dict.empty false = .ok save ∧
      parseNftScript .verbatim save = .ok tables ∧
      buildNftDelta .verbatim (fermTables (some kernel.parsed)) save "ip" = .ok (some script) ∧
      ¬ ∃ t, execScript "ip" script (some kernel) = some (some t) ∧ Converged t (tableOf tables NFT_TABLE_NAME) := by
  refine ⟨{ chains := Dict.empty.set "INPUT" ⟨.base ["type", "filter", "hook", "input", "priority", "0"] "drop", []⟩ },
    [.base { name := "INPUT", type := .filter, hook := .input, priority := 0, policy := none }], Dict.empty, _, _, _,
    by decide, rfl, rfl, rfl, ?_⟩
  rintro ⟨t, ht, hconverged⟩
  cases ht
  have := hconverged.chains "INPUT"
  revert this
  decide

end Ferm
