import Ferm.Lib.KeyedRun
import Ferm.Lib.Monadic
import Ferm.Nft.Declarations
import Mathlib.Data.List.ReduceOption

/-!
# Declarations and the order of rules

What the declarations of a family depend on. Sightings of different names do not touch each other, and for one name the outcome
is a matter of which sightings there are, with one exception: two static uses of a set that disagree about its selector or its
elements are refused only as long as no set rule of a user's set has been seen.
-/

namespace Ferm

open Keyed

/-! ## Sightings -/

/-- One valid use of a name. -/
inductive Sighting where
  | update (d : DynSetDecl)
  | static (selector : String) (d : SetDecl)
  | object (d : ObjectDecl)
  deriving DecidableEq, Repr

/-- The name a statement uses, if it uses one. -/
def usedName : NftStatement → String
  | .nftSetUpdate u => u.name
  | .nftObjectRef o => o.name
  | .nftMatch m => (m.setref.map SetRef.name).getD ""
  | _ => ""

/-- The static use of a match's set; nothing if it is refused by itself. -/
def staticSighting (domain : Family) (m : NftMatch) (setref : SetRef) : Option Sighting :=
  match validateSetName setref.name, m.setSelector with
  | .ok _, some selector =>
    match setTypeAndElements domain selector setref with
    | .ok d => some (.static selector d)
    | .error _ => none
  | _, _ => none

/-- The use a statement makes of a name, if it makes one; a use that is refused by itself is there, and nothing. -/
def sightingOf (domain : Family) : NftStatement → Option (Option Sighting)
  | .nftSetUpdate u => some (if u.name = CONNLIMIT_SENTINEL then none else some (.update u.decl))
  | .nftObjectRef o => some (some (.object ⟨o.kind, o.body⟩))
  | .nftMatch m => m.setref.map (staticSighting domain m)
  | _ => none

/-- The declaration of a name so far, and the selector it was used at. -/
abbrev Slot := Option Decl × Option String

/-- What a use makes of its name's slot. -/
def Sighting.merge (s : Sighting) (slot : Slot) : Option Slot :=
  match s with
  | update d =>
    match slot.1 with
    | none => some (some (.dyn d), slot.2)
    | some existing =>
      if d.owned then if existing = .dyn d then some (some (.dyn d), slot.2) else none
      else
        match existing with
        | .object _ => none
        | .static d' => if d'.type_.word = d.type_ then some (some (.dyn d), slot.2) else none
        | .dyn d' =>
          if d'.owned ∨ d'.type_ ≠ d.type_ then none else some (some (.dyn { d' with timeout := d'.timeout <|> d.timeout }), slot.2)
  | static selector d =>
    match slot.1 with
    | some (.object _) => none
    | some (.dyn d') => if d'.owned ∨ d'.type_ ≠ d.type_.word then none else some slot
    | some (.static d') =>
      if slot.2.all (· = selector) ∧ d'.elements = d.elements then some (some (.static d), some selector) else none
    | none => if slot.2.all (· = selector) then some (some (.static d), some selector) else none
  | object d =>
    match slot.1 with
    | none => some (some (.object d), slot.2)
    | some prior => if prior = .object d then some slot else none

/-- What a statement makes of its name's slot. -/
def mergeSlot (domain : Family) (stmt : NftStatement) (slot : Slot) : Option Slot :=
  match sightingOf domain stmt with
  | none => some slot
  | some none => none
  | some (some s) => s.merge slot

/-- The slot of a name. -/
def Collected.slot (c : Collected) (name : String) : Slot := (c.decls.get? name, c.selectors.get? name)

/-- What a statement adds, if it is not refused. -/
def mergeStatement? (domain : Family) (stmt : NftStatement) (c : Collected) : Option Collected :=
  (mergeStatement domain c stmt).toOption

/-- A step works on the slot of one name: it makes `slot?` of it and keeps every other one, or it is refused where there is none. -/
def WorksOn (name : String) (slot? : Option Slot) (c : Collected) (step : Except FermError Collected) : Prop :=
  match step with
  | .ok c' => slot? = some (c'.slot name) ∧ ∀ other, other ≠ name → c'.slot other = c.slot other
  | .error _ => slot? = none

namespace WorksOn

theorem declare {c : Collected} {name : String} {decl : Decl} :
    WorksOn name (some (some decl, c.selectors.get? name)) c (.ok { c with decls := c.decls.set name decl }) := by
  refine ⟨?_, fun other hne => ?_⟩
  · simp [Collected.slot]
  · simp [Collected.slot, Dict.get?_set_of_ne _ _ hne]

theorem keep {c : Collected} {name : String} : WorksOn name (some (c.slot name)) c (.ok c) := ⟨rfl, fun _ _ => rfl⟩

theorem refuse {c : Collected} {name : String} (e : FermError) : WorksOn name none c (.error e) := rfl

end WorksOn

theorem worksOn_mergeDynamicDecl (c : Collected) {u : NftSetUpdate} (h : u.name ≠ CONNLIMIT_SENTINEL) :
    WorksOn u.name ((Sighting.update u.decl).merge (c.slot u.name)) c (mergeDynamicDecl c u) := by
  rw [mergeDynamicDecl, if_neg h]
  simp only [Sighting.merge, Collected.slot]
  cases hd : c.decls.get? u.name with
  | none => exact WorksOn.declare
  | some existing =>
    show WorksOn u.name (if u.owned then _ else _) c (if u.owned then _ else _)
    cases u.owned with
    | true =>
      by_cases he : existing = .dyn u.decl
      · simpa only [if_true, if_pos he] using WorksOn.declare
      · simpa only [if_true, if_neg he] using WorksOn.refuse _
    | false =>
      cases existing with
      | object d => exact WorksOn.refuse _
      | static d =>
        show WorksOn u.name (if d.type_.word = u.setType then _ else _) c (if d.type_.word = u.setType then _ else _)
        by_cases ht : d.type_.word = u.setType
        · simpa only [if_pos ht] using WorksOn.declare
        · simpa only [if_neg ht] using WorksOn.refuse _
      | dyn d =>
        show WorksOn u.name (if d.owned ∨ d.type_ ≠ u.setType then _ else _) c (if d.owned ∨ d.type_ ≠ u.setType then _ else _)
        by_cases ht : d.owned ∨ d.type_ ≠ u.setType
        · simpa only [if_pos ht] using WorksOn.refuse _
        · rw [if_neg ht, if_neg ht]
          exact WorksOn.declare

theorem worksOn_mergeObjectDecl (c : Collected) (o : NftObjectRef) :
    WorksOn o.name ((Sighting.object ⟨o.kind, o.body⟩).merge (c.slot o.name)) c (mergeObjectDecl c o) := by
  simp only [mergeObjectDecl, Sighting.merge, Collected.slot]
  cases hd : c.decls.get? o.name with
  | none => exact WorksOn.declare
  | some prior =>
    by_cases hp : prior = .object ⟨o.kind, o.body⟩
    · simpa only [if_pos hp, Collected.slot, hd] using (WorksOn.keep : WorksOn o.name _ c _)
    · simpa only [if_neg hp] using WorksOn.refuse _

theorem worksOn_mergeStaticDecl (c : Collected) (domain : Family) (m : NftMatch) (setref : SetRef) :
    WorksOn setref.name ((staticSighting domain m setref).bind fun s => s.merge (c.slot setref.name)) c
      (mergeStaticDecl c domain m setref) := by
  rw [mergeStaticDecl, staticSighting]
  cases hn : validateSetName setref.name with
  | error e => exact WorksOn.refuse e
  | ok name =>
    have hname : name = setref.name := by
      rw [validateSetName] at hn
      split at hn
      · exact (Except.ok.inj hn).symm
      · cases hn
    subst hname
    cases hs : m.setSelector with
    | none => exact WorksOn.refuse _
    | some selector =>
      cases hd : setTypeAndElements domain selector setref with
      | error e => 
        simp only [bind, Except.bind, pure, Except.pure, hd]
        exact WorksOn.refuse e
      | ok decl =>
        simp only [bind, Except.bind, pure, Except.pure, throw, throwThe, MonadExceptOf.throw, hd, Option.bind_some, Sighting.merge,
          Collected.slot]
        have hset : WorksOn setref.name (some (some (.static decl), some selector)) c
            (.ok ⟨c.decls.set setref.name (.static decl), c.selectors.set setref.name selector⟩) :=
          ⟨by simp [Collected.slot], fun other hne => by simp [Collected.slot, Dict.get?_set_of_ne _ _ hne]⟩
        have hsel := Option.eq_none_or_eq_some (c.selectors.get? setref.name)
        rcases hp : c.decls.get? setref.name with _ | (d | d | d)
        · obtain hs' | ⟨selector', hs'⟩ := hsel
          · simpa [hs'] using hset
          · by_cases heq : selector' = selector
            · simpa [hs', heq] using hset
            · simpa [hs', heq] using WorksOn.refuse _
        · obtain hs' | ⟨selector', hs'⟩ := hsel
          · by_cases he : d.elements = decl.elements
            · simpa [hs', he] using hset
            · simpa [hs', he] using WorksOn.refuse _
          · by_cases heq : selector' = selector
            · by_cases he : d.elements = decl.elements
              · simpa [hs', heq, he] using hset
              · simpa [hs', heq, he] using WorksOn.refuse _
            · simpa [hs', heq] using WorksOn.refuse _
        · by_cases ht : d.owned ∨ d.type_ ≠ decl.type_.word
          · simpa only [if_pos ht] using WorksOn.refuse _
          · simpa only [if_neg ht, Collected.slot, hp] using (WorksOn.keep : WorksOn setref.name _ c _)
        · exact WorksOn.refuse _

theorem worksOn_mergeStatement (domain : Family) (c : Collected) (stmt : NftStatement) :
    WorksOn (usedName stmt) (mergeSlot domain stmt (c.slot (usedName stmt))) c (mergeStatement domain c stmt) := by
  cases stmt with
  | nftSetUpdate u =>
    by_cases h : u.name = CONNLIMIT_SENTINEL
    · simpa only [mergeStatement, mergeDynamicDecl, mergeSlot, sightingOf, if_pos h] using WorksOn.refuse _
    · simpa only [mergeStatement, mergeSlot, sightingOf, usedName, if_neg h] using worksOn_mergeDynamicDecl c h
  | nftObjectRef o => exact worksOn_mergeObjectDecl c o
  | nftMatch m =>
    rcases hr : m.setref with _ | setref
    · simpa only [mergeStatement, mergeSlot, sightingOf, hr, Option.map_none] using WorksOn.keep
    · have hw := worksOn_mergeStaticDecl c domain m setref
      simp only [mergeStatement, mergeSlot, sightingOf, usedName, hr, Option.map_some, Option.getD_some]
      cases hs : staticSighting domain m setref <;> simpa only [hs, Option.bind_none, Option.bind_some] using hw
  | _ => exact WorksOn.keep

theorem keyed_mergeStatement (domain : Family) :
    Keyed (fun _ => True) (mergeStatement? domain) Collected.slot usedName (mergeSlot domain) := by
  refine ⟨fun stmt c c' _ h => ?_, fun stmt c c' _ h => ?_, fun stmt c _ h => ?_⟩
  all_goals
    have hw := worksOn_mergeStatement domain c stmt
    rw [mergeStatement?] at *
    cases hm : mergeStatement domain c stmt with
    | error e => simp_all [WorksOn, Except.toOption]
    | ok c₁ => simp_all [WorksOn, Except.toOption]

/-! ## The uses of one name -/

namespace Sighting

/-- A set rule's use of a set the user named. -/
def mutates : Sighting → Bool
  | update d => !d.owned
  | _ => false

/-- A use that gives its set's elements a timeout. -/
def timesOut : Sighting → Bool
  | update d => d.timeout.isSome
  | _ => false

/-- Two uses of one name that cannot stand together, whichever comes first. -/
def clashes : Sighting → Sighting → Bool
  | update d, update d' => if d.owned || d'.owned then d ≠ d' else d.type_ ≠ d'.type_
  | update d, static _ d' => d.owned || d.type_ ≠ d'.type_.word
  | static _ d', update d => d.owned || d.type_ ≠ d'.type_.word
  | static .., static .. => false
  | object d, object d' => d ≠ d'
  | _, _ => true

/-- Two static uses that disagree about the selector or the elements. -/
def disagrees : Sighting → Sighting → Bool
  | static selector d, static selector' d' => selector ≠ selector' || d.elements ≠ d'.elements
  | _, _ => false

/-- The slot a use makes of an empty one. -/
def slot : Sighting → Slot
  | update d => (some (.dyn d), none)
  | static selector d => (some (.static d), some selector)
  | object d => (some (.object d), none)

/-- The use is one of a set that rules mutate, of the type `type_`. -/
def OfType (type_ : String) : Sighting → Prop
  | update d => d.owned = false ∧ d.type_ = type_
  | static _ d => d.type_.word = type_
  | object _ => False

end Sighting

/-- The uses that come before the first set rule. -/
def early (uses : List Sighting) : List Sighting := uses.takeWhile fun s => !s.mutates

/-- No two uses clash, and no two early ones disagree. -/
structure Compatible (uses : List Sighting) : Prop where
  stand : ∀ s ∈ uses, ∀ s' ∈ uses, s.clashes s' = false
  agree : ∀ s ∈ early uses, ∀ s' ∈ early uses, s.disagrees s' = false

/-- What is used with one selector and the same elements is one declaration. -/
def Coherent (uses : List Sighting) : Prop :=
  ∀ selector d d', .static selector d ∈ uses → .static selector d' ∈ uses → d.elements = d'.elements → d = d'

/-- What the uses of a name have made of its slot. -/
inductive Made (uses : List Sighting) : Slot → Prop
  | unused : uses = [] → Made uses (none, none)
  | uniform (s : Sighting) : s ∈ uses → (∀ s' ∈ uses, s' = s) → s.mutates = false → Made uses s.slot
  | mutated (d : DynSetDecl) (selector : Option String) :
      d.owned = false → (∃ s ∈ uses, s.mutates) → (∀ s ∈ uses, s.OfType d.type_) →
        (∀ s ∈ early uses, ∀ s' ∈ early uses, s.disagrees s' = false) →
          (d.timeout.isSome ↔ ∃ s ∈ uses, s.timesOut) → Made uses (some (.dyn d), selector)

theorem early_subset {uses : List Sighting} : ∀ s ∈ early uses, s ∈ uses := fun _ h => List.takeWhile_subset _ h

theorem early_append_of_mutates {uses more : List Sighting} (h : ∃ s ∈ uses, s.mutates) : early (uses ++ more) = early uses := by
  induction uses with
  | nil => simp at h
  | cons s uses ih =>
    simp only [early, List.cons_append, List.takeWhile_cons]
    cases hs : s.mutates with
    | true => rfl
    | false =>
      have h' : ∃ s ∈ uses, s.mutates := by
        obtain ⟨t, ht, hm⟩ := h
        rcases List.mem_cons.1 ht with rfl | ht
        · rw [hs] at hm
          cases hm
        · exact ⟨t, ht, hm⟩
      simpa [early] using ih h'

theorem early_append {uses more : List Sighting} (h : ∀ s ∈ uses, s.mutates = false) :
    early (uses ++ more) = uses ++ early more :=
  List.takeWhile_append_of_pos fun s hs => by simp [h s hs]

theorem early_eq_self {uses : List Sighting} (h : ∀ s ∈ uses, s.mutates = false) : early uses = uses := by
  simpa [early] using @early_append uses [] h

/-- Uses that are compatible stay so without the last ones. -/
theorem Compatible.of_append {uses more : List Sighting} (h : Compatible (uses ++ more)) : Compatible uses := by
  refine ⟨fun s hs s' hs' => h.stand s (List.mem_append_left _ hs) s' (List.mem_append_left _ hs'), ?_⟩
  by_cases hm : ∃ s ∈ uses, s.mutates
  · rw [← early_append_of_mutates hm]
    exact h.agree
  · have hnone : ∀ s ∈ uses, s.mutates = false := by simpa using hm
    intro s hs s' hs'
    have happ := @early_append uses more hnone
    exact h.agree s (happ ▸ List.mem_append_left _ (early_subset s hs)) s' (happ ▸ List.mem_append_left _ (early_subset s' hs'))

namespace Made

theorem compatible {uses : List Sighting} {slot : Slot} (h : Made uses slot) : Compatible uses := by
  cases h with
  | unused hu =>
    subst hu
    exact ⟨by simp, by simp [early]⟩
  | uniform s _ hall hs =>
    have hself : s.clashes s = false ∧ s.disagrees s = false := by
      cases s <;> simp [Sighting.clashes, Sighting.disagrees]
    refine ⟨fun t ht t' ht' => ?_, fun t ht t' ht' => ?_⟩
    · rw [hall t ht, hall t' ht', hself.1]
    · rw [hall t (early_subset t ht), hall t' (early_subset t' ht'), hself.2]
  | mutated d _ _ _ htype hagree _ =>
    refine ⟨fun t ht t' ht' => ?_, hagree⟩
    have h₁ := htype t ht
    have h₂ := htype t' ht'
    cases t <;> cases t' <;> simp_all [Sighting.OfType, Sighting.clashes]

/-- The first use of a name. -/
theorem merge_unused (s : Sighting) : ∃ slot', s.merge (none, none) = some slot' ∧ Made [s] slot' := by
  cases s with
  | update d =>
    refine ⟨_, rfl, ?_⟩
    cases ho : d.owned with
    | true => exact uniform (.update d) (by simp) (by simp) (by simp [Sighting.mutates, ho])
    | false =>
      refine mutated d none ho ?_ ?_ ?_ ?_
      all_goals simp [Sighting.mutates, Sighting.OfType, Sighting.timesOut, Sighting.disagrees, early, ho]
  | static selector d => exact ⟨_, rfl, uniform (.static selector d) (by simp) (by simp) rfl⟩
  | object d => exact ⟨_, rfl, uniform (.object d) (by simp) (by simp) rfl⟩

/-- What a run comes to: a slot the uses have made, or a refusal of uses that are not compatible. -/
def Outcome (uses : List Sighting) : Option Slot → Prop
  | some slot => Made uses slot
  | none => ¬ Compatible uses

theorem step_clash {uses : List Sighting} {s₀ s : Sighting} (hmem : s₀ ∈ uses) (h : s₀.clashes s = true) : Outcome (uses ++ [s]) none := by
  intro hcomp
  have := hcomp.stand s₀ (by simp [hmem]) s (by simp)
  rw [h] at this
  cases this

section

variable {uses : List Sighting} {s₀ : Sighting} (hmem : s₀ ∈ uses) (hall : ∀ s' ∈ uses, s' = s₀)

include hall in
theorem step_again (hm : s₀.mutates = false) : Outcome (uses ++ [s₀]) (some s₀.slot) := by
  refine uniform s₀ (by simp) (fun s' hs' => ?_) hm
  rcases List.mem_append.1 hs' with hs' | hs'
  · exact hall s' hs'
  · exact List.mem_singleton.1 hs'

include hmem hall in
theorem step_disagree {s : Sighting} (hm : s₀.mutates = false) (hs : s.mutates = false) (h : s₀.disagrees s = true) :
    Outcome (uses ++ [s]) none := by
  intro hcomp
  have hself : early (uses ++ [s]) = uses ++ [s] := by
    refine early_eq_self fun t ht => ?_
    rcases List.mem_append.1 ht with ht | ht
    · rw [hall t ht, hm]
    · rw [List.mem_singleton.1 ht, hs]
  have := hcomp.agree s₀ (by simp [hself, hmem]) s (by simp [hself])
  rw [h] at this
  cases this

/-- A set rule that mutates a set looked up so far. -/
theorem step_upgrade {selector : String} {d₀ : SetDecl} {d : DynSetDecl} (hall : ∀ s' ∈ uses, s' = .static selector d₀)
    (hd : d.owned = false) (ht : d₀.type_.word = d.type_) (selector' : Option String) :
    Outcome (uses ++ [.update d]) (some (some (.dyn d), selector')) := by
  have hnone : ∀ t ∈ uses, t.mutates = false := fun t ht => hall t ht ▸ rfl
  have hearly : early (uses ++ [.update d]) = uses := by
    rw [early_append hnone]
    simp [early, Sighting.mutates, hd]
  refine mutated d _ hd ⟨.update d, by simp, by simp [Sighting.mutates, hd]⟩ (fun t ht' => ?_) (fun t ht' t' ht'' => ?_) ?_
  · rcases List.mem_append.1 ht' with ht' | ht'
    · rw [hall t ht']
      exact ht
    · rw [List.mem_singleton.1 ht']
      exact ⟨hd, rfl⟩
  · rw [hearly] at ht' ht''
    rw [hall t ht', hall t' ht'']
    simp [Sighting.disagrees]
  · have hno : ¬ ∃ t ∈ uses, t.timesOut = true := by
      rintro ⟨t, ht', htime⟩
      rw [hall t ht'] at htime
      cases htime
    simp only [List.mem_append, List.mem_singleton]
    constructor
    · exact fun htime => ⟨.update d, Or.inr rfl, htime⟩
    · rintro ⟨t, ht' | rfl, htime⟩
      · exact absurd ⟨t, ht', htime⟩ hno
      · exact htime

/-- A use after ones that are all the same one, of a set no rule of the user mutates. -/
theorem step_uniform (hmem : s₀ ∈ uses) (hall : ∀ s' ∈ uses, s' = s₀) (hm : s₀.mutates = false) (s : Sighting)
    (hc : Coherent (uses ++ [s])) : Outcome (uses ++ [s]) (s.merge s₀.slot) := by
  cases s₀ with
  | update d₀ =>
    have ho : d₀.owned = true := by simpa [Sighting.mutates] using hm
    cases s with
    | update d =>
      by_cases he : d₀ = d
      · subst he
        simpa [Sighting.merge, Sighting.slot, ho] using step_again hall hm
      · have hcl := step_clash hmem (s := .update d) (by simp [Sighting.clashes, ho, he])
        cases hd : d.owned <;> simpa [Sighting.merge, Sighting.slot, hd, ho, he] using hcl
    | static selector d =>
      simpa [Sighting.merge, Sighting.slot, ho] using step_clash hmem (s := .static selector d) (by simp [Sighting.clashes, ho])
    | object d => simpa [Sighting.merge, Sighting.slot] using step_clash hmem (s := .object d) rfl
  | static selector₀ d₀ =>
    cases s with
    | update d =>
      by_cases ht : d.owned = false ∧ d₀.type_.word = d.type_
      · simpa [Sighting.merge, Sighting.slot, ht.1, ht.2] using step_upgrade hall ht.1 ht.2 (some selector₀)
      · have hcl := step_clash hmem (s := .update d) (by grind [Sighting.clashes])
        cases hd : d.owned with
        | true => simpa [Sighting.merge, Sighting.slot, hd] using hcl
        | false =>
          have hne : d₀.type_.word ≠ d.type_ := fun h => ht ⟨hd, h⟩
          simpa [Sighting.merge, Sighting.slot, hd, hne] using hcl
    | static selector d =>
      by_cases heq : selector₀ = selector ∧ d₀.elements = d.elements
      · obtain ⟨rfl, he⟩ := heq
        obtain rfl := hc selector₀ d₀ d (by simp [hmem]) (by simp) he
        simpa [Sighting.merge, Sighting.slot] using step_again hall hm
      · have hdis := step_disagree hmem hall (s := .static selector d) hm rfl (by grind [Sighting.disagrees])
        simpa [Sighting.merge, Sighting.slot, heq] using hdis
    | object d => simpa [Sighting.merge, Sighting.slot] using step_clash hmem (s := .object d) rfl
  | object d₀ =>
    cases s with
    | update d => cases hd : d.owned <;> simpa [Sighting.merge, Sighting.slot, hd] using step_clash hmem (s := .update d) rfl
    | static selector d => simpa [Sighting.merge, Sighting.slot] using step_clash hmem (s := .static selector d) rfl
    | object d =>
      by_cases he : d₀ = d
      · subst he
        simpa [Sighting.merge, Sighting.slot] using step_again hall hm
      · simpa [Sighting.merge, Sighting.slot, he] using step_clash hmem (s := .object d) (by simp [Sighting.clashes, he])

end

/-- A use after ones of a set that rules mutate. -/
theorem step_mutated {uses : List Sighting} {d₀ : DynSetDecl} {selector₀ : Option String} (ho : d₀.owned = false)
    (hmut : ∃ s ∈ uses, s.mutates) (htype : ∀ s ∈ uses, s.OfType d₀.type_)
    (hagree : ∀ s ∈ early uses, ∀ s' ∈ early uses, s.disagrees s' = false)
    (htime : d₀.timeout.isSome ↔ ∃ s ∈ uses, s.timesOut) (s : Sighting) :
    Outcome (uses ++ [s]) (s.merge (some (.dyn d₀), selector₀)) := by
  obtain ⟨m, hm, hmutates⟩ := hmut
  have hearly : early (uses ++ [s]) = early uses := early_append_of_mutates ⟨m, hm, hmutates⟩
  -- the use fits: the set stays one that rules mutate, whatever has a timeout now
  have hfits : ∀ d : DynSetDecl, d.owned = false → d.type_ = d₀.type_ → s.OfType d₀.type_ →
      (d.timeout.isSome ↔ d₀.timeout.isSome ∨ s.timesOut) → Outcome (uses ++ [s]) (some (some (.dyn d), selector₀)) := by
    intro d hd ht hs htime'
    refine mutated d _ hd ⟨m, by simp [hm], hmutates⟩ (fun t ht' => ?_) (by rwa [hearly]) ?_
    · rw [ht]
      rcases List.mem_append.1 ht' with ht' | ht'
      · exact htype t ht'
      · rwa [List.mem_singleton.1 ht']
    · rw [htime', htime]
      simp only [List.mem_append, List.mem_singleton, or_and_right, exists_or, exists_eq_left]
  -- it does not: it clashes with the use that mutates
  have hclash : ¬ s.OfType d₀.type_ → Outcome (uses ++ [s]) none := by
    intro hs
    refine step_clash hm ?_
    have hmt := htype m hm
    cases m with
    | update dm => cases s <;> grind [Sighting.OfType, Sighting.clashes]
    | static selector d => cases hmutates
    | object d => cases hmutates
  cases s with
  | update d =>
    cases hd : d.owned with
    | true =>
      have hne : d₀ ≠ d := by
        rintro rfl
        rw [ho] at hd
        cases hd
      simpa [Sighting.merge, hd, hne] using hclash (by simp [Sighting.OfType, hd])
    | false =>
      by_cases ht : d₀.type_ = d.type_
      · have htime' : (d₀.timeout <|> d.timeout).isSome ↔ d₀.timeout.isSome ∨ d.timeout.isSome := by
          cases d₀.timeout <;> simp
        simpa [Sighting.merge, hd, ho, ht] using
          hfits { d₀ with timeout := d₀.timeout <|> d.timeout } ho rfl ⟨hd, ht.symm⟩ htime'
      · simpa [Sighting.merge, hd, ho, ht] using hclash (by simp [Sighting.OfType, hd, Ne.symm ht])
  | static selector d =>
    by_cases ht : d₀.type_ = d.type_.word
    · simpa [Sighting.merge, ho, ht] using hfits d₀ ho rfl ht.symm (by simp [Sighting.timesOut])
    · simpa [Sighting.merge, ho, ht] using hclash (by simp [Sighting.OfType, Ne.symm ht])
  | object d => simpa [Sighting.merge] using hclash (by simp [Sighting.OfType])

/-- One more use. -/
theorem step {uses : List Sighting} {slot : Slot} (h : Made uses slot) (s : Sighting) (hc : Coherent (uses ++ [s])) :
    Outcome (uses ++ [s]) (s.merge slot) := by
  cases h with
  | unused hu =>
    subst hu
    obtain ⟨slot', hs', hmade⟩ := merge_unused s
    rw [hs']
    exact hmade
  | uniform s₀ hmem hall hm => exact step_uniform hmem hall hm s hc
  | mutated d selector ho hmut htype hagree htime => exact step_mutated ho hmut htype hagree htime s

/-- A run over compatible uses makes their slot, and a run over others is refused. -/
theorem run {before uses : List Sighting} {slot : Slot} (h : Made before slot) (hc : Coherent (before ++ uses)) :
    Outcome (before ++ uses) (runScript Sighting.merge uses slot) := by
  induction uses generalizing before slot with
  | nil =>
    rw [List.append_nil]
    exact h
  | cons s uses ih =>
    rw [List.append_cons] at hc ⊢
    have hstep := h.step s fun selector d d' hd hd' =>
      hc selector d d' (List.mem_append_left _ hd) (List.mem_append_left _ hd')
    rw [runScript_cons]
    cases hs : s.merge slot with
    | none =>
      rw [hs] at hstep
      exact fun hcomp => hstep hcomp.of_append
    | some slot' =>
      rw [hs] at hstep
      exact ih hstep hc

end Made

/-! ## What is declared -/

/-- What a declaration says of a name: its kind, its type, its flags, its elements, its object. -/
inductive DeclView where
  | static (type_ : NftSetType) (flagsInterval : Bool) (elements : List String)
  | dyn (owned : Bool) (type_ : String) (timeout : Bool)
  | object (kind body : String)
  deriving DecidableEq, Repr

/-- What is seen of a declaration. -/
def Decl.view : Decl → DeclView
  | static d => .static d.type_ d.flagsInterval d.elements
  | dyn d => .dyn d.owned d.type_ d.timeout.isSome
  | object d => .object d.kind d.body

/-- The slots the same uses make in any order show the same. -/
theorem Made.view_eq {uses uses' : List Sighting} {slot slot' : Slot} (h : Made uses slot) (h' : Made uses' slot')
    (hmem : ∀ s, s ∈ uses ↔ s ∈ uses') : slot.1.map Decl.view = slot'.1.map Decl.view := by
  have hnil : uses = [] ↔ uses' = [] := by simp only [List.eq_nil_iff_forall_not_mem, hmem]
  cases h with
  | unused hu =>
    obtain rfl := hnil.1 hu
    cases h' with
    | unused => rfl
    | uniform s hs => cases hs
    | mutated d _ _ hmut => simp at hmut
  | uniform s hs hall hm =>
    cases h' with
    | unused hu => simp [hu, hmem] at hs
    | uniform s' hs' => rw [hall s' ((hmem s').2 hs')]
    | mutated d _ _ hmut =>
      obtain ⟨m, hmem', hmut⟩ := hmut
      rw [hall m ((hmem m).2 hmem'), hm] at hmut
      cases hmut
  | mutated d _ ho hmut htype _ htime =>
    obtain ⟨m, hmm, hmut⟩ := hmut
    cases h' with
    | unused hu => simp [hu, hmem] at hmm
    | uniform s hs hall hm =>
      rw [hall m ((hmem m).1 hmm), hm] at hmut
      cases hmut
    | mutated d' _ ho' _ htype' _ htime' =>
      have ht : d.type_ = d'.type_ := by
        have h₁ := htype m hmm
        have h₂ := htype' m ((hmem m).1 hmm)
        cases m with
        | update dm => exact h₁.2.symm.trans h₂.2
        | static selector dm => cases hmut
        | object dm => cases hmut
      have htimes : d.timeout.isSome = d'.timeout.isSome := by
        rw [Bool.eq_iff_iff, htime, htime']
        simp only [hmem]
      simp only [Option.map_some, Decl.view, ho, ho', ht, htimes]

/-! ## A family's declarations -/

/-- The uses a family's statements make of a name, in order. -/
def usesOf (domain : Family) (rules : Dict String (List NftRule)) (name : String) : List (Option Sighting) :=
  (onKey usedName name (familyStatements rules)).filterMap (sightingOf domain)

/-- The valid ones among them. -/
def validUses (domain : Family) (rules : Dict String (List NftRule)) (name : String) : List Sighting :=
  (usesOf domain rules name).reduceOption

/-- Some use is refused by itself, or two uses of one name clash. -/
def HasClash (domain : Family) (rules : Dict String (List NftRule)) : Prop :=
  ∃ name, none ∈ usesOf domain rules name ∨
    ∃ s ∈ validUses domain rules name, ∃ s' ∈ validUses domain rules name, s.clashes s' = true

/-- Two static uses of one name disagree, both before any set rule of the name's. -/
def DisagreesEarly (domain : Family) (rules : Dict String (List NftRule)) : Prop :=
  ∃ name, ∃ s ∈ early (validUses domain rules name), ∃ s' ∈ early (validUses domain rules name), s.disagrees s' = true

theorem flagsInterval_of_perm {elements elements' : List String} (h : elements.Perm elements') (type_ : NftSetType) :
    flagsInterval type_ elements = flagsInterval type_ elements' := by
  simp only [flagsInterval]
  rw [h.any_eq, h.any_eq]

/-- The type and the flag of a static set are a matter of its selector and its elements. -/
theorem setTypeAndElements_coherent {domain : Family} {selector : String} {r r' : SetRef} {d d' : SetDecl}
    (h : setTypeAndElements domain selector r = .ok d) (h' : setTypeAndElements domain selector r' = .ok d')
    (he : d.elements = d'.elements) : d = d' := by
  rw [setTypeAndElements] at h h'
  cases hk : selectorKind selector with
  | none =>
    rw [hk] at h
    cases h
  | some kind =>
    rw [hk] at h h'
    obtain ⟨elements, _, hd⟩ := Except.bind_eq_ok.1 h
    obtain ⟨elements', _, hd'⟩ := Except.bind_eq_ok.1 h'
    obtain rfl := Except.ok.inj hd
    obtain rfl := Except.ok.inj hd'
    have hperm : elements.Perm elements' :=
      (orderElements_perm elements).symm.trans ((List.Perm.of_eq he).trans (orderElements_perm elements'))
    rw [SetDecl.mk.injEq]
    exact ⟨rfl, flagsInterval_of_perm hperm _, he⟩

theorem exists_of_sightingOf_static {domain : Family} {stmt : NftStatement} {selector : String} {d : SetDecl}
    (h : sightingOf domain stmt = some (some (.static selector d))) :
    ∃ setref, setTypeAndElements domain selector setref = .ok d := by
  cases stmt with
  | nftSetUpdate u =>
    simp only [sightingOf, Option.some.injEq] at h
    split at h <;> cases h
  | nftMatch m =>
    simp only [sightingOf, Option.map_eq_some_iff] at h
    obtain ⟨setref, _, h⟩ := h
    rw [staticSighting] at h
    split at h
    · rename_i selector' _ _
      cases hd : setTypeAndElements domain selector' setref with
      | error e =>
        rw [hd] at h
        cases h
      | ok d' =>
        rw [hd] at h
        cases h
        exact ⟨setref, hd⟩
    · cases h
  | nftObjectRef o => cases h
  | _ => cases h

/-- What is used at one selector with the same elements is declared alike. -/
theorem coherent_validUses (domain : Family) (rules : Dict String (List NftRule)) (name : String) :
    Coherent (validUses domain rules name) := by
  intro selector d d' hd hd' he
  simp only [validUses, usesOf, List.reduceOption_mem_iff, List.mem_filterMap] at hd hd'
  obtain ⟨_, _, hd⟩ := hd
  obtain ⟨_, _, hd'⟩ := hd'
  obtain ⟨_, hd⟩ := exists_of_sightingOf_static hd
  obtain ⟨_, hd'⟩ := exists_of_sightingOf_static hd'
  exact setTypeAndElements_coherent hd hd' he

/-- The run over a name's statements is the run over its uses. -/
theorem runScript_mergeSlot (domain : Family) (stmts : List NftStatement) (slot : Slot) :
    runScript (mergeSlot domain) stmts slot =
      if none ∈ stmts.filterMap (sightingOf domain) then none
      else runScript Sighting.merge (stmts.filterMap (sightingOf domain)).reduceOption slot := by
  induction stmts generalizing slot with
  | nil => rfl
  | cons stmt stmts ih =>
    rw [runScript_cons, List.filterMap_cons, mergeSlot]
    rcases hs : sightingOf domain stmt with _ | (_ | s)
    · simpa using ih slot
    · simp
    · simp only [List.mem_cons, reduceCtorEq, false_or, List.reduceOption_cons_of_some, runScript_cons]
      cases hm : s.merge slot with
      | none => simp
      | some slot' => simpa using ih slot'

theorem toOption_foldlM (domain : Family) (stmts : List NftStatement) (c : Collected) :
    (stmts.foldlM (mergeStatement domain) c).toOption = runScript (mergeStatement? domain) stmts c := by
  induction stmts generalizing c with
  | nil => rfl
  | cons stmt stmts ih =>
    rw [List.foldlM_cons, runScript_cons, mergeStatement?]
    cases hm : mergeStatement domain c stmt with
    | error e => rfl
    | ok c' => exact ih c'

/-- What a family's run comes to for one name. -/
theorem outcome_uses (domain : Family) (rules : Dict String (List NftRule)) (name : String) :
    Made.Outcome (validUses domain rules name)
      (runScript Sighting.merge (validUses domain rules name) ((none, none) : Slot)) := by
  have hstart : Made [] ((none, none) : Slot) := .unused rfl
  have h := hstart.run (coherent_validUses domain rules name)
  exact h

theorem not_compatible_iff {domain : Family} {rules : Dict String (List NftRule)} :
    (∃ name, none ∈ usesOf domain rules name ∨ ¬ Compatible (validUses domain rules name)) ↔
      HasClash domain rules ∨ DisagreesEarly domain rules := by
  constructor
  · rintro ⟨name, h | h⟩
    · exact Or.inl ⟨name, Or.inl h⟩
    · by_contra hno
      simp only [not_or, HasClash, DisagreesEarly, not_exists, not_and, Bool.not_eq_true] at hno
      exact h ⟨(hno.1 name).2, hno.2 name⟩
  · rintro (⟨name, h | ⟨s, hs, s', hs', h⟩⟩ | ⟨name, s, hs, s', hs', h⟩)
    · exact ⟨name, Or.inl h⟩
    · refine ⟨name, Or.inr fun hcomp => ?_⟩
      rw [hcomp.stand s hs s' hs'] at h
      cases h
    · refine ⟨name, Or.inr fun hcomp => ?_⟩
      rw [hcomp.agree s hs s' hs'] at h
      cases h

/-- Collecting succeeds exactly when no uses clash and none disagree early, and makes of every name what its uses make. -/
theorem collectSetDeclarations_spec (domain : Family) (rules : Dict String (List NftRule)) :
    match collectSetDeclarations domain rules with
    | .ok decls =>
      ¬ (HasClash domain rules ∨ DisagreesEarly domain rules) ∧
        ∀ name, ∃ selector, Made (validUses domain rules name) (decls.get? name, selector)
    | .error _ => HasClash domain rules ∨ DisagreesEarly domain rules := by
  have hkeyed := keyed_mergeStatement domain
  have hrun := toOption_foldlM domain (familyStatements rules) {}
  have hlocal : ∀ name, runScript (mergeSlot domain) (onKey usedName name (familyStatements rules)) (none, none) =
      if none ∈ usesOf domain rules name then none else runScript Sighting.merge (validUses domain rules name) (none, none) :=
    fun name => runScript_mergeSlot domain _ _
  rw [collectSetDeclarations]
  cases hc : (familyStatements rules).foldlM (mergeStatement domain) {} with
  | ok c =>
    rw [hc] at hrun
    have hslot : ∀ name, none ∉ usesOf domain rules name ∧ Made (validUses domain rules name) (c.slot name) := by
      intro name
      have hview := hkeyed.view_run (fun _ _ => trivial) hrun.symm name
      have hmade := outcome_uses domain rules name
      rw [show Collected.slot {} name = (none, none) from rfl, hlocal name] at hview
      split at hview
      · cases hview
      · rename_i hno
        rw [hview] at hmade
        exact ⟨hno, hmade⟩
    refine ⟨?_, fun name => ⟨_, (hslot name).2⟩⟩
    rw [← not_compatible_iff]
    rintro ⟨name, h | h⟩
    · exact (hslot name).1 h
    · exact h (hslot name).2.compatible
  | error e =>
    rw [hc] at hrun
    show HasClash domain rules ∨ DisagreesEarly domain rules
    rw [← not_compatible_iff]
    by_contra hno
    simp only [not_exists, not_or, not_not] at hno
    have hsome : (runScript (mergeStatement? domain) (familyStatements rules) {}).isSome = true := by
      refine hkeyed.run_isSome {} (fun _ _ => trivial) fun name => ?_
      have hmade := outcome_uses domain rules name
      rw [show Collected.slot {} name = (none, none) from rfl, hlocal name, if_neg (hno name).1]
      cases hr : runScript Sighting.merge (validUses domain rules name) ((none, none) : Slot) with
      | none =>
        rw [hr] at hmade
        exact absurd (hno name).2 hmade
      | some slot => rfl
    rw [← hrun] at hsome
    cases hsome

/-! ## Other orders of a family's rules -/

/-- The same chains with the same rules, in some order of the chains and of the rules of each. -/
def Reordered (rules rules' : Dict String (List NftRule)) : Prop :=
  ∃ entries, rules.entries.Perm entries ∧ List.Forall₂ (fun e e' => e.1 = e'.1 ∧ e.2.Perm e'.2) entries rules'.entries

theorem Reordered.familyStatements_perm {rules rules' : Dict String (List NftRule)} (h : Reordered rules rules') :
    (familyStatements rules).Perm (familyStatements rules') := by
  obtain ⟨entries, hperm, hrules⟩ := h
  refine (hperm.flatMap_right _).trans ?_
  rw [familyStatements]
  clear hperm
  generalize rules'.entries = entries' at hrules ⊢
  induction hrules with
  | nil => rfl
  | cons he _ ih =>
    rw [List.flatMap_cons, List.flatMap_cons]
    exact (he.2.flatMap_right _).append ih

theorem Reordered.usesOf_perm {rules rules' : Dict String (List NftRule)} (h : Reordered rules rules') (domain : Family)
    (name : String) : (usesOf domain rules name).Perm (usesOf domain rules' name) :=
  (h.familyStatements_perm.filter _).filterMap _

theorem Reordered.mem_validUses {rules rules' : Dict String (List NftRule)} (h : Reordered rules rules') (domain : Family)
    (name : String) (s : Sighting) : s ∈ validUses domain rules name ↔ s ∈ validUses domain rules' name := by
  rw [validUses, validUses, List.reduceOption_mem_iff, List.reduceOption_mem_iff, (h.usesOf_perm domain name).mem_iff]

/-- A clash is one in every order. -/
theorem Reordered.hasClash_iff {rules rules' : Dict String (List NftRule)} (h : Reordered rules rules') (domain : Family) :
    HasClash domain rules ↔ HasClash domain rules' := by
  simp only [HasClash, (h.usesOf_perm domain _).mem_iff, h.mem_validUses domain]

/-- Both collections are refused, or both declare the same names alike. -/
def SameDeclarations : Except FermError (Dict String Decl) → Except FermError (Dict String Decl) → Prop
  | .ok decls, .ok decls' => ∀ name, (decls.get? name).map Decl.view = (decls'.get? name).map Decl.view
  | .error _, .error _ => True
  | _, _ => False

/-- A rule that looks a set without elements up. -/
def lookupRule (selector : String) : NftRule :=
  ⟨[.nftMatch { expr := selector ++ " @badguys", setref := some ⟨"badguys", []⟩, setSelector := some selector }], none⟩

/-- A rule that adds to the set. -/
def addRule : NftRule :=
  ⟨[.nftSetUpdate { name := "badguys", keyExpr := "ip saddr", setType := "ipv4_addr", verb := "add", owned := false }], none⟩

/-- One chain with the rules. -/
def oneChain (rules : List NftRule) : Dict String (List NftRule) := ⟨[("INPUT", rules)], List.nodup_singleton _⟩

/-- A set looked up by source and by destination before a rule adds to it. -/
def lookupsFirst : Dict String (List NftRule) := oneChain [lookupRule "ip saddr", lookupRule "ip daddr", addRule]

/-- The same rules, with the one that adds to the set first. -/
def addFirst : Dict String (List NftRule) := oneChain [addRule, lookupRule "ip saddr", lookupRule "ip daddr"]

theorem reordered_addFirst : Reordered lookupsFirst addFirst :=
  ⟨lookupsFirst.entries, .refl _, .cons ⟨rfl, by decide⟩ .nil⟩

theorem not_sameDeclarations_addFirst :
    ¬ SameDeclarations (collectSetDeclarations .ip lookupsFirst) (collectSetDeclarations .ip addFirst) := by
  have hrefused : (collectSetDeclarations .ip lookupsFirst).toOption.isSome = false := by decide +kernel
  have haccepted : (collectSetDeclarations .ip addFirst).toOption.isSome = true := by decide +kernel
  cases h : collectSetDeclarations .ip lookupsFirst with
  | ok decls =>
    rw [h] at hrefused
    cases hrefused
  | error e =>
    cases h' : collectSetDeclarations .ip addFirst with
    | ok decls => exact id
    | error e' =>
      rw [h'] at haccepted
      cases haccepted

end Ferm
