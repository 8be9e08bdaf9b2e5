import Ferm.Nft.Kernel

/-!
# Rolling a family back

The snapshot of the table `ferm` that is taken before a commit, and what the two ways back make of it: the live rollback, which
loads the snapshot over the table as it is by then, and the shell script's, which deletes the table first.
-/

namespace Ferm

variable {form : NftForm}

/-! ## Loading a listing -/

/-- The declaration a listing has of a chain. -/
def ChainKind.header : ChainKind → Option ChainHeader
  | user => none
  | base decl policy => some { decl, policy := some policy }

/-- A listed chain loaded over what is there: a missing chain is created, an existing one gets the rules in addition. -/
def KernelChain.load (listed : KernelChain) : Option KernelChain → KernelChain
  | none => listed
  | some c => { kind := c.kind.redeclare listed.kind.header, rules := c.rules ++ listed.rules }

/-- A listed set loaded over what is there: its elements are added, and an element that nft has listed is listed so again. -/
def KernelSet.load (listed : KernelSet form) : Option (KernelSet form) → KernelSet form
  | none => listed
  | some s => { s with elements := s.elements ++ listed.elements.filter (· ∉ s.elements) }

/-- A listed object loaded over what is there. -/
def ParsedObject.load (listed : ParsedObject) : Option ParsedObject → ParsedObject
  | none => listed
  | some o => o

/-- `nft -f` on the listing of a table. -/
def KernelTable.load (listed t : KernelTable form) : KernelTable form where
  chains := listed.chains.merge KernelChain.load t.chains
  sets := listed.sets.merge KernelSet.load t.sets
  objects := listed.objects.merge ParsedObject.load t.objects

/-! ## Snapshot and rollback -/

/-- What a rollback reads of a family: whether a rule enabled it, and the listing of the table, if there was one. -/
structure NftDomainInfo (form : NftForm) where
  enabled : Bool
  previous : Option (KernelTable form) := none

/-- `capture_previous` of a live run: the table is listed, or there is none. -/
def NftDomainInfo.capturePrevious (info : NftDomainInfo form) (kernel : Option (KernelTable form)) : NftDomainInfo form :=
  { info with previous := kernel }

/-- `rollback`: the snapshot is loaded over the table, and without a snapshot the table is deleted. The status of the deletion is
not looked at. -/
def NftDomainInfo.rollback (info : NftDomainInfo form) (kernel : Option (KernelTable form)) : Option (KernelTable form) :=
  if !info.enabled then kernel
  else
    match info.previous with
    | some previous => some (previous.load (kernel.getD {}))
    | none => none

/-- The restore of `shell_snapshot`: the table is deleted, if it is there, before the dump is loaded; an empty dump loads
nothing. -/
def NftDomainInfo.shellRestore (info : NftDomainInfo form) (_kernel : Option (KernelTable form)) :
    Option (KernelTable form) :=
  info.previous.map fun previous => previous.load {}

/-- Two tables have the same contents. -/
structure SameContents (t t' : KernelTable form) : Prop where
  chains : t.chains.Agree t'.chains
  setNames : ∀ name, name ∈ t.sets ↔ name ∈ t'.sets
  sets : ∀ name s s', t.sets.get? name = some s → t'.sets.get? name = some s' →
    s.type_ = s'.type_ ∧ s.flags = s'.flags ∧ ∀ e, e ∈ s.elements ↔ e ∈ s'.elements
  objects : t.objects.Agree t'.objects

/-- The kernel has what another kernel has: no table, or a table with the same contents. -/
def SameKernel : Option (KernelTable form) → Option (KernelTable form) → Prop
  | none, none => True
  | some t, some t' => SameContents t t'
  | _, _ => False

/-- Two user chains, or two base chains of one hook. -/
def ChainKind.SameHook : ChainKind → ChainKind → Prop
  | user, user => True
  | base decl _, base decl' _ => decl = decl'
  | _, _ => False

/-- A table that a snapshot adds nothing wrong to: its chains are chains of the snapshot without rules, its sets have part of the
snapshot's elements, its objects are the snapshot's. -/
structure PartOf (t previous : KernelTable form) : Prop where
  chains : ∀ name c, t.chains.get? name = some c →
    ∃ p, previous.chains.get? name = some p ∧ c.kind.SameHook p.kind ∧ c.rules = []
  sets : ∀ name s, t.sets.get? name = some s →
    ∃ p, previous.sets.get? name = some p ∧ s.type_ = p.type_ ∧ s.flags = p.flags ∧ ∀ e ∈ s.elements, e ∈ p.elements
  objects : ∀ name o, t.objects.get? name = some o → previous.objects.get? name = some o

/-- When loading a snapshot over a kernel gives the snapshot. -/
def RestoresExactly : Option (KernelTable form) → Option (KernelTable form) → Prop
  | some previous, some t => PartOf t previous
  | _, _ => True

/-! ## What loading a snapshot gives -/

theorem ChainKind.redeclare_header_iff (k p : ChainKind) : k.redeclare p.header = p ↔ k.SameHook p := by
  cases k <;> cases p <;> simp [redeclare, header, SameHook]

/-- A chain loaded over what is there is the listed one when there is none, or one of its kind without rules. -/
theorem KernelChain.load_eq_iff (listed : KernelChain) (c : Option KernelChain) :
    listed.load c = listed ↔ ∀ c₀, c = some c₀ → c₀.kind.SameHook listed.kind ∧ c₀.rules = [] := by
  cases c with
  | none => simp [load]
  | some c =>
    rw [load, KernelChain.ext_iff]
    simp [ChainKind.redeclare_header_iff]

/-- The elements of a listed set loaded over what is there. -/
theorem KernelSet.mem_load (listed : KernelSet form) (s : Option (KernelSet form)) (e : String) :
    e ∈ (listed.load s).elements ↔ (∃ s₀, s = some s₀ ∧ e ∈ s₀.elements) ∨ e ∈ listed.elements := by
  cases s with
  | none => simp [load]
  | some s =>
    simp only [load, List.mem_append, List.mem_filter, decide_not, Bool.not_eq_true', decide_eq_false_iff_not, Option.some.injEq,
      exists_eq_left']
    tauto

section

variable (listed t : KernelTable form)

/-- Loading leaves the listed chains when what is there is a part of them. -/
theorem load_chains_iff :
    (listed.load t).chains.Agree listed.chains ↔ ∀ name c, t.chains.get? name = some c →
      ∃ p, listed.chains.get? name = some p ∧ c.kind.SameHook p.kind ∧ c.rules = [] := by
  refine forall_congr' fun name => ?_
  rw [KernelTable.load, Dict.get?_merge]
  cases hp : listed.chains.get? name with
  | none =>
    rw [Option.map_none, Option.none_or]
    cases t.chains.get? name <;> simp
  | some p =>
    rw [Option.map_some, Option.some_or, Option.some.injEq, KernelChain.load_eq_iff]
    simp

/-- Loading leaves the listed sets when what is there is a part of them. -/
theorem load_sets_iff :
    ((∀ name, name ∈ (listed.load t).sets ↔ name ∈ listed.sets) ∧
      ∀ name s s', (listed.load t).sets.get? name = some s → listed.sets.get? name = some s' →
        s.type_ = s'.type_ ∧ s.flags = s'.flags ∧ ∀ e, e ∈ s.elements ↔ e ∈ s'.elements) ↔
      ∀ name s, t.sets.get? name = some s → ∃ p, listed.sets.get? name = some p ∧ s.type_ = p.type_ ∧ s.flags = p.flags ∧
        ∀ e ∈ s.elements, e ∈ p.elements := by
  rw [← forall_and]
  refine forall_congr' fun name => ?_
  rw [Dict.mem_iff_isSome, Dict.mem_iff_isSome, KernelTable.load, Dict.get?_merge]
  cases hp : listed.sets.get? name with
  | none =>
    rw [Option.map_none, Option.none_or]
    cases t.sets.get? name <;> simp
  | some p =>
    rw [Option.map_some, Option.some_or]
    have hmem := p.mem_load (t.sets.get? name)
    cases hs : t.sets.get? name with
    | none => simp [KernelSet.load]
    | some s =>
      rw [hs] at hmem
      constructor
      · rintro ⟨_, hsame⟩ s₀ hs₀
        cases hs₀
        obtain ⟨htype, hflags, helements⟩ := hsame _ _ rfl rfl
        exact ⟨p, rfl, htype, hflags, fun e he => (helements e).1 ((hmem e).2 (.inl ⟨s, rfl, he⟩))⟩
      · intro hall
        obtain ⟨p', hp', htype, hflags, helements⟩ := hall s rfl
        cases hp'
        refine ⟨iff_of_true rfl rfl, fun s₁ s₂ h₁ h₂ => ?_⟩
        cases h₁
        cases h₂
        refine ⟨htype, hflags, fun e => (hmem e).trans ⟨?_, .inr⟩⟩
        rintro (⟨s₀, hs₀, he⟩ | he)
        · cases hs₀
          exact helements e he
        · exact he

/-- Loading leaves the listed objects when what is there is among them. -/
theorem load_objects_iff :
    (listed.load t).objects.Agree listed.objects ↔
      ∀ name o, t.objects.get? name = some o → listed.objects.get? name = some o := by
  refine forall_congr' fun name => ?_
  rw [KernelTable.load, Dict.get?_merge]
  cases listed.objects.get? name with
  | none =>
    rw [Option.map_none, Option.none_or]
    cases t.objects.get? name <;> simp
  | some p =>
    rw [Option.map_some, Option.some_or]
    cases t.objects.get? name <;> simp [ParsedObject.load, eq_comm]

/-- Loading a listing over a table gives the listing exactly when the table is a part of it. -/
theorem load_sameContents_iff : SameContents (listed.load t) listed ↔ PartOf t listed := by
  constructor
  · intro h
    exact ⟨(load_chains_iff listed t).1 h.chains, (load_sets_iff listed t).1 ⟨h.setNames, h.sets⟩,
      (load_objects_iff listed t).1 h.objects⟩
  · intro h
    obtain ⟨hnames, hsets⟩ := (load_sets_iff listed t).2 h.sets
    exact ⟨(load_chains_iff listed t).2 h.chains, hnames, hsets, (load_objects_iff listed t).2 h.objects⟩

/-- Nothing is wrong with an empty table. -/
theorem partOf_empty : PartOf {} listed :=
  ⟨fun _ _ h => (by cases h), fun _ _ h => (by cases h), fun _ _ h => (by cases h)⟩

end

/-! ## The two ways back -/

/-- A live rollback gives back the snapshot exactly when the table by then is a part of it; a family without a snapshot is left
without a table. -/
theorem rollback_exact_iff (info : NftDomainInfo form) (kernel : Option (KernelTable form)) (henabled : info.enabled = true) :
    SameKernel (info.rollback kernel) info.previous ↔ RestoresExactly info.previous kernel := by
  rw [NftDomainInfo.rollback, henabled]
  cases info.previous with
  | none => simp [SameKernel, RestoresExactly]
  | some previous =>
    cases kernel with
    | none => exact iff_of_true ((load_sameContents_iff previous {}).2 (partOf_empty previous)) trivial
    | some t => exact load_sameContents_iff previous t

/-- The snapshot has a chain with a rule and a set of two elements; the table by then has the chain without rules and one of the
elements. -/
theorem rollback_exact_part :
    let chain (rules : List String) : Dict String KernelChain :=
      Dict.empty.set "INPUT" ⟨.base ["type", "filter", "hook", "input", "priority", "0"] "accept", rules⟩
    let set (elements : List String) : Dict String (KernelSet .verbatim) := Dict.empty.set "ports" ⟨elements, some "inet_service", []⟩
    SameKernel ((⟨true, some ⟨chain ["accept"], set ["22", "80"], Dict.empty⟩⟩ : NftDomainInfo .verbatim).rollback
        (some ⟨chain [], set ["22"], Dict.empty⟩))
      (some ⟨chain ["accept"], set ["22", "80"], Dict.empty⟩) := by
  intro chain set
  have hpart : PartOf (⟨chain [], set ["22"], Dict.empty⟩ : KernelTable .verbatim) ⟨chain ["accept"], set ["22", "80"], Dict.empty⟩ := by
    refine ⟨fun name c hc => ?_, fun name s hs => ?_, fun name o ho => by cases ho⟩
    · rw [Dict.get?_set] at hc
      split at hc
      · rename_i hname
        cases hc
        have hlisted : (chain ["accept"]).get? name = some ⟨.base ["type", "filter", "hook", "input", "priority", "0"] "accept", ["accept"]⟩ := by
          rw [hname]
          rfl
        exact ⟨_, hlisted, rfl, rfl⟩
      · cases hc
    · rw [Dict.get?_set] at hs
      split at hs
      · rename_i hname
        cases hs
        have hlisted : (set ["22", "80"]).get? name = some ⟨["22", "80"], some "inet_service", []⟩ := by
          rw [hname]
          rfl
        exact ⟨_, hlisted, rfl, rfl, by decide⟩
      · cases hs
  exact (rollback_exact_iff ⟨true, some ⟨chain ["accept"], set ["22", "80"], Dict.empty⟩⟩ (some ⟨chain [], set ["22"], Dict.empty⟩) rfl).2
    hpart

/-- The chain `INPUT` had the rule `accept` and is refilled with `drop`: the rollback leaves both rules. -/
theorem rollback_keeps_rules :
    ∃ (kernel committed : KernelTable .verbatim) (script : List ScriptLine),
      execScript "ip" script (some kernel) = some (some committed) ∧
      ¬ SameKernel (((⟨true, none⟩ : NftDomainInfo .verbatim).capturePrevious (some kernel)).rollback (some committed))
        (some kernel) := by
  let chain (rule : String) : KernelTable .verbatim :=
    { chains := Dict.empty.set "INPUT" ⟨.base ["type", "filter", "hook", "input", "priority", "0"] "accept", [rule]⟩ }
  refine ⟨chain "accept", chain "drop", [⟨"ip", NFT_TABLE_NAME, .flushChain "INPUT"⟩,
    ⟨"ip", NFT_TABLE_NAME, .addRule "INPUT" "drop"⟩], rfl, fun h => ?_⟩
  have := h.chains "INPUT"
  revert this
  decide

/-- The shell script's way back always gives the snapshot. -/
theorem shellRestore_exact (info : NftDomainInfo form) (kernel : Option (KernelTable form)) :
    SameKernel (info.shellRestore kernel) info.previous := by
  rw [NftDomainInfo.shellRestore]
  cases info.previous with
  | none => trivial
  | some previous => exact (load_sameContents_iff previous {}).2 (partOf_empty previous)

end Ferm
