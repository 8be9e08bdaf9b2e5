import Ferm.Cli.Seams
import Ferm.Iptables.Model
import Ferm.Lib.Product
import Ferm.Parser.Structural

/-!
# Unfolding rules

A rule with array options is unfolded into one rule for every choice of their values. The values are recorded on the options one
after the other, and each finished choice is copied into the chain.
-/

namespace Ferm

namespace Unfold

open StructuralParser (SourcePosition)

/-! ## Rules and their options -/

/-- What an option is to the nft backend. -/
inductive OptionKind where
  | option
  | matchModule
  | proto
  | target
  deriving DecidableEq, Repr

/-- An option of the working rule. The value chosen for it is kept apart, since it changes. -/
structure RuleOption where
  name : String
  value : Value
  kind : OptionKind := .option
  moduleName : Option String := none
  deriving DecidableEq, Repr

/-- An option of an unfolded rule. -/
structure RenderedOption where
  name : String
  value : Value
  kind : OptionKind
  moduleName : Option String
  deriving DecidableEq, Repr

/-- An unfolded rule. -/
structure RenderedRule where
  options : List RenderedOption
  script : Option SourcePosition
  deriving DecidableEq, Repr

/-- The working rule, as far as it is unfolded. -/
structure Rule where
  options : List RuleOption
  script : Option SourcePosition := none

/-- What unfolding works on: the world the deferred calls look at, the value chosen for the option at each position, and the rules
of the chain. -/
structure UnfoldState (ω : Type) where
  world : ω
  chosen : Nat → Value
  chainRules : List RenderedRule

/-! ## Deferred calls -/

/-- The value may not be left in an unfolded rule. -/
def isUnrealized : Value → Bool
  | .array _ => true
  | .deferred _ _ => true
  | _ => false

mutual

/-- One value: a deferred call is replaced by the list it returns. -/
def realizeValue {m : Type → Type} [Monad m] (call : DeferredFunction → String → List Value → m (List Value)) (domain : String) :
    Value → m (List Value)
  | .deferred function params => do
    let args ← realizeDeferred call domain params
    call function domain args
  | value => pure [value]

/-- `realize_deferred`. -/
def realizeDeferred {m : Type → Type} [Monad m] (call : DeferredFunction → String → List Value → m (List Value)) (domain : String) :
    List Value → m (List Value)
  | [] => pure []
  | value :: values => do
    let spliced ← realizeValue call domain value
    let rest ← realizeDeferred call domain values
    return spliced ++ rest

end

mutual

/-- One value of `contains_deferred`. -/
def isDeferredWithin : Value → Bool
  | .deferred _ _ => true
  | .array values => containsDeferred values
  | _ => false

/-- `contains_deferred`. -/
def containsDeferred : List Value → Bool
  | [] => false
  | value :: values => isDeferredWithin value || containsDeferred values

end

/-! ## Unfolding -/

/-- The name of the value's type in a message. -/
def typeName : Value → String
  | .array _ => "list"
  | .deferred _ _ => "Deferred"
  | _ => ""

/-- The copy of one option with the value chosen for it. -/
def renderedOption (o : RuleOption) (chosen : Value) : Except Raised RenderedOption :=
  if isUnrealized chosen then
    .error (.ferm (internalError ("option " ++ pyRepr o.name ++ " reached append_rule with an unrealized " ++ typeName chosen ++
      " value")).message)
  else .ok ⟨o.name, chosen, o.kind, o.moduleName⟩

variable {ω : Type}

/-- `append_rule`. -/
def appendRule (rule : Rule) : Act (UnfoldState ω) Raised Unit := fun s =>
  match rule.options.zipIdx.mapM fun o => renderedOption o.1 (s.chosen o.2) with
  | .error e => (.error e, s)
  | .ok options => (.ok (), { s with chainRules := s.chainRules ++ [⟨options, rule.script⟩] })

/-- Record the value chosen for the option at a position. -/
def choose (slot : Nat) (value : Value) : Act (UnfoldState ω) Raised Unit :=
  Act.modify fun s => { s with chosen := Function.update s.chosen slot value }

/-- `unfold_rule`, with the positions and the arrays of the options that are left. -/
def unfoldRule (call : DeferredFunction → String → List Value → Act ω Raised (List Value)) (domain : String) (rule : Rule) :
    List (Nat × List Value) → Act (UnfoldState ω) Raised Unit
  | [] => appendRule rule
  | option :: rest => do
    let realized ← Act.zoom UnfoldState.world (fun world s => { s with world }) (realizeDeferred call domain option.2)
    Act.each (fun value => do
      choose option.1 value
      unfoldRule call domain rule rest) realized

/-- The positions and the arrays of the options that have one, counted from `start` on. -/
def arraySlots : Nat → List RuleOption → List (Nat × List Value)
  | _, [] => []
  | start, o :: options =>
    match o.value with
    | .array values => (start, values) :: arraySlots (start + 1) options
    | _ => arraySlots (start + 1) options

/-- The values of the options that are not arrays are the chosen ones. -/
def recordScalars : Nat → List RuleOption → (Nat → Value) → Nat → Value
  | _, [], chosen => chosen
  | start, o :: options, chosen =>
    match o.value with
    | .array _ => recordScalars (start + 1) options chosen
    | value => recordScalars (start + 1) options (Function.update chosen start value)

/-- The check of the number of rules. -/
def checkCount (before : Nat) (arrays : List (List Value)) : Act (UnfoldState ω) Raised Unit := fun s =>
  let expected := (arrays.map List.length).prod
  if !arrays.isEmpty && !arrays.any containsDeferred && s.chainRules.length - before ≠ expected then
    (.error (.ferm (internalError ("unfold produced " ++ toString (s.chainRules.length - before) ++ " rules, expected " ++
      toString expected)).message), s)
  else (.ok (), s)

/-- `mkrules2`. -/
def mkrules2 (call : DeferredFunction → String → List Value → Act ω Raised (List Value)) (domain : String) (rule : Rule) :
    Act (UnfoldState ω) Raised Unit := do
  let before ← Act.ofState fun s => (s.chainRules.length, s)
  Act.modify fun s => { s with chosen := recordScalars 0 rule.options s.chosen }
  unfoldRule call domain rule (arraySlots 0 rule.options)
  checkCount before ((arraySlots 0 rule.options).map Prod.snd)

/-! ## The combinations -/

/-- Every value may be left in an unfolded rule. -/
def allRealized (leaf : List Value) : Bool := leaf.all fun value => !isUnrealized value

/-- The unfolded rule with one value for every option. -/
def renderedRule (rule : Rule) (leaf : List Value) : RenderedRule :=
  ⟨(rule.options.zip leaf).map fun o => ⟨o.1.name, o.2, o.1.kind, o.1.moduleName⟩, rule.script⟩

/-- The values an option has to choose from: for an array what it is realized to, whenever it is, and for any other value itself. -/
def Choices (call : DeferredFunction → String → List Value → Act ω Raised (List Value)) (domain : String) (o : RuleOption)
    (choices : List Value) : Prop :=
  match o.value with
  | .array values => ∀ world, (realizeDeferred call domain values world).1 = .ok choices
  | value => choices = [value]

/-- The rules of the combinations are appended up to the first one with a value that may not be left, which is refused. -/
structure Appended (rule : Rule) (leaves : List (List Value)) (r : Except Raised Unit) (before after : List RenderedRule) : Prop where
  rules : after = before ++ (leaves.takeWhile allRealized).map (renderedRule rule)
  ok_iff : r = .ok () ↔ ∀ leaf ∈ leaves, allRealized leaf = true

/-- A rule that holds every option once, in order, with its name, kind and module. -/
def Holds (rule : Rule) (rendered : RenderedRule) : Prop :=
  rendered.script = rule.script ∧
    rendered.options.map (fun o => (o.name, o.kind, o.moduleName)) = rule.options.map fun o => (o.name, o.kind, o.moduleName)

theorem Appended.nil (rule : Rule) (before : List RenderedRule) : Appended rule [] (.ok ()) before before :=
  ⟨by simp, by simp⟩

/-- Further combinations after ones that were all appended. -/
theorem Appended.append {rule : Rule} {leaves leaves' : List (List Value)} {r : Except Raised Unit}
    {before between after : List RenderedRule} (h : Appended rule leaves (.ok ()) before between)
    (h' : Appended rule leaves' r between after) : Appended rule (leaves ++ leaves') r before after := by
  have hall := h.ok_iff.1 rfl
  refine ⟨?_, ?_⟩
  · rw [h'.rules, h.rules, List.takeWhile_append_of_pos hall, List.takeWhile_eq_self_iff.2 hall, List.map_append, List.append_assoc]
  · rw [h'.ok_iff]
    simp only [List.mem_append]
    exact ⟨fun hl leaf hleaf => hleaf.elim (hall leaf) (hl leaf), fun hl leaf hleaf => hl leaf (.inr hleaf)⟩

/-- What follows a combination that is refused is not looked at. -/
theorem Appended.of_error {rule : Rule} {leaves : List (List Value)} {e : Raised} {before after : List RenderedRule}
    (h : Appended rule leaves (.error e) before after) (leaves' : List (List Value)) :
    Appended rule (leaves ++ leaves') (.error e) before after := by
  have hnot : ¬ ∀ leaf ∈ leaves, allRealized leaf = true := fun hall => by
    have := h.ok_iff.2 hall
    cases this
  refine ⟨?_, ?_⟩
  · rw [h.rules, List.takeWhile_append, if_neg]
    exact fun hlength => hnot (List.takeWhile_eq_self_iff.1 ((List.takeWhile_prefix _).eq_of_length hlength))
  · refine iff_of_false (by simp) fun hall => hnot fun leaf hleaf => hall leaf (List.mem_append_left _ hleaf)

namespace UnfoldAux

/-- The chosen values of the options at `n` positions from `start` on. -/
def valuesAt (start n : Nat) (chosen : Nat → Value) : List Value := (List.range' start n).map chosen

@[simp] theorem valuesAt_zero (start : Nat) (chosen : Nat → Value) : valuesAt start 0 chosen = [] := rfl

@[simp] theorem valuesAt_succ (start n : Nat) (chosen : Nat → Value) :
    valuesAt start (n + 1) chosen = chosen start :: valuesAt (start + 1) n chosen := rfl

theorem renderedOptions_of_realized (options : List RuleOption) (start : Nat) (chosen : Nat → Value)
    (h : allRealized (valuesAt start options.length chosen) = true) :
    (options.zipIdx start).mapM (fun o => renderedOption o.1 (chosen o.2)) =
      .ok ((options.zip (valuesAt start options.length chosen)).map fun o => ⟨o.1.name, o.2, o.1.kind, o.1.moduleName⟩) := by
  induction options generalizing start with
  | nil => rfl
  | cons o options ih =>
    simp only [allRealized, List.length_cons, valuesAt_succ, List.all_cons, Bool.and_eq_true, Bool.not_eq_true'] at h
    rw [List.zipIdx_cons, List.mapM_cons, ih (start + 1) h.2]
    simp [renderedOption, h.1, bind, Except.bind, pure, Except.pure]

theorem renderedOptions_of_unrealized (options : List RuleOption) (start : Nat) (chosen : Nat → Value)
    (h : allRealized (valuesAt start options.length chosen) = false) :
    ∃ e, (options.zipIdx start).mapM (fun o => renderedOption o.1 (chosen o.2)) = .error e := by
  induction options generalizing start with
  | nil => simp [allRealized] at h
  | cons o options ih =>
    rw [List.zipIdx_cons, List.mapM_cons]
    by_cases ho : isUnrealized (chosen start) = true
    · exact ⟨_, by simp only [renderedOption, ho, if_true]; rfl⟩
    · simp only [allRealized, List.length_cons, valuesAt_succ, List.all_cons, ho, Bool.not_false, Bool.true_and] at h
      obtain ⟨e, he⟩ := ih (start + 1) h
      exact ⟨e, by rw [he]; simp [renderedOption, ho, bind, Except.bind]⟩

/-- The finished choice is copied, or refused. -/
theorem appended_appendRule (rule : Rule) (s : UnfoldState ω) :
    Appended rule [valuesAt 0 rule.options.length s.chosen] (appendRule rule s).1 s.chainRules (appendRule rule s).2.chainRules ∧
      (appendRule rule s).2.chosen = s.chosen := by
  by_cases h : allRealized (valuesAt 0 rule.options.length s.chosen) = true
  · have happend : appendRule rule s =
        (.ok (), { s with chainRules := s.chainRules ++ [renderedRule rule (valuesAt 0 rule.options.length s.chosen)] }) := by
      rw [appendRule, renderedOptions_of_realized rule.options 0 s.chosen h]
      rfl
    rw [happend]
    exact ⟨⟨by simp [h], by simp [h]⟩, rfl⟩
  · rw [Bool.not_eq_true] at h
    obtain ⟨e, he⟩ := renderedOptions_of_unrealized rule.options 0 s.chosen h
    have happend : appendRule rule s = (.error e, s) := by rw [appendRule, he]
    rw [happend]
    exact ⟨⟨by simp [h], by simp [h]⟩, rfl⟩

/-- The chosen values after one combination for the given positions. -/
def assign : List Nat → List Value → (Nat → Value) → Nat → Value
  | slot :: slots, value :: leaf, chosen => assign slots leaf (Function.update chosen slot value)
  | _, _, chosen => chosen

/-- A combination replaces whatever was chosen before for its positions. -/
theorem assign_congr {slots : List Nat} {leaf : List Value} (hlength : leaf.length = slots.length) {chosen chosen' : Nat → Value}
    (h : ∀ i, i ∉ slots → chosen i = chosen' i) : assign slots leaf chosen = assign slots leaf chosen' := by
  induction slots generalizing leaf chosen chosen' with
  | nil =>
    obtain rfl := List.eq_nil_of_length_eq_zero hlength
    exact funext fun i => h i List.not_mem_nil
  | cons slot slots ih =>
    obtain ⟨value, leaf, rfl⟩ := List.exists_cons_of_length_eq_add_one hlength
    refine ih (by simpa using hlength) fun i hi => ?_
    by_cases hslot : i = slot
    · rw [hslot, Function.update_self, Function.update_self]
    · rw [Function.update_of_ne hslot, Function.update_of_ne hslot, h i (by simp [hslot, hi])]

theorem assign_of_notMem {slots : List Nat} (leaf : List Value) (chosen : Nat → Value) {i : Nat} (h : i ∉ slots) :
    assign slots leaf chosen i = chosen i := by
  induction slots generalizing leaf chosen with
  | nil => rfl
  | cons slot slots ih =>
    rw [List.mem_cons, not_or] at h
    cases leaf with
    | nil => rfl
    | cons value leaf => rw [assign, ih leaf _ h.2, Function.update_of_ne h.1]

variable {call : DeferredFunction → String → List Value → Act ω Raised (List Value)} {domain : String} {rule : Rule}

/-- What unfolding the options at some positions appends: a rule for every combination, and nothing else is changed but the
values chosen at these positions. -/
def Unfolds (rule : Rule) (slots : List Nat) (leaves : List (List Value)) (x : Act (UnfoldState ω) Raised Unit) : Prop :=
  ∀ s, Appended rule (leaves.map fun leaf => valuesAt 0 rule.options.length (assign slots leaf s.chosen)) (x s).1 s.chainRules
      (x s).2.chainRules ∧ ∀ i, i ∉ slots → (x s).2.chosen i = s.chosen i

/-- The values of one option are taken one after the other, each with every combination of the options after it. -/
theorem unfolds_each {slot : Nat} {slots : List Nat} {leaves : List (List Value)} (hlength : ∀ leaf ∈ leaves, leaf.length = slots.length)
    {x : Act (UnfoldState ω) Raised Unit} (hx : Unfolds rule slots leaves x) (values : List Value) :
    Unfolds rule (slot :: slots) (values.flatMap fun value => leaves.map (value :: ·)) (Act.each (fun value => do
      choose slot value
      x) values) := by
  induction values with
  | nil => exact fun s => ⟨Appended.nil rule s.chainRules, fun i _ => rfl⟩
  | cons value values ih =>
    intro s
    obtain ⟨happend, hframe⟩ := hx { s with chosen := Function.update s.chosen slot value }
    have hone : (do
        choose slot value
        x : Act (UnfoldState ω) Raised Unit) s = x { s with chosen := Function.update s.chosen slot value } := rfl
    have hleaves : ((leaves.map (value :: ·)).map fun leaf => valuesAt 0 rule.options.length (assign (slot :: slots) leaf s.chosen)) =
        leaves.map fun leaf => valuesAt 0 rule.options.length (assign slots leaf (Function.update s.chosen slot value)) := by
      rw [List.map_map]
      rfl
    rw [List.flatMap_cons, List.map_append, hleaves]
    rcases hr : x { s with chosen := Function.update s.chosen slot value } with ⟨e | u, s₁⟩
    · rw [hr] at happend hframe
      have heach : Act.each (fun value => do
          choose slot value
          x) (value :: values) s = (.error e, s₁) := Act.bind_of_error (hone.trans hr)
      rw [heach]
      refine ⟨happend.of_error _, fun i hi => ?_⟩
      rw [List.mem_cons, not_or] at hi
      exact (hframe i hi.2).trans (Function.update_of_ne hi.1 _ _)
    · rw [hr] at happend hframe
      have heach : Act.each (fun value => do
          choose slot value
          x) (value :: values) s = Act.each (fun value => do
          choose slot value
          x) values s₁ := Act.bind_of_ok (hone.trans hr)
      rw [heach]
      obtain ⟨happend', hframe'⟩ := ih s₁
      have hsame : ∀ i, i ∉ slot :: slots → s₁.chosen i = s.chosen i := by
        intro i hi
        rw [List.mem_cons, not_or] at hi
        exact (hframe i hi.2).trans (Function.update_of_ne hi.1 _ _)
      have hrest : ((values.flatMap fun value => leaves.map (value :: ·)).map fun leaf =>
            valuesAt 0 rule.options.length (assign (slot :: slots) leaf s₁.chosen)) =
          (values.flatMap fun value => leaves.map (value :: ·)).map fun leaf =>
            valuesAt 0 rule.options.length (assign (slot :: slots) leaf s.chosen) := by
        refine List.map_congr_left fun leaf hleaf => ?_
        obtain ⟨v, -, hleaf⟩ := List.mem_flatMap.1 hleaf
        obtain ⟨tail, htail, rfl⟩ := List.mem_map.1 hleaf
        rw [assign_congr (by simp [hlength tail htail]) hsame]
      rw [hrest] at happend'
      exact ⟨happend.append happend', fun i hi => (hframe' i hi).trans (hsame i hi)⟩

/-- Unfolding gives the product of what the arrays are realized to. -/
theorem unfolds_unfoldRule {options : List (Nat × List Value)} {choices : List (List Value)}
    (h : List.Forall₂ (fun o c => ∀ world, (realizeDeferred call domain o.2 world).1 = .ok c) options choices) :
    Unfolds rule (options.map Prod.fst) (lexProduct choices) (unfoldRule call domain rule options) := by
  induction h with
  | nil =>
    intro s
    obtain ⟨happend, hchosen⟩ := appended_appendRule rule s
    exact ⟨happend, fun i _ => congrFun hchosen i⟩
  | @cons option choices options rest hoption hoptions ih =>
    intro s
    have hrealized : Act.zoom UnfoldState.world (fun world s => { s with world }) (realizeDeferred call domain option.2) s =
        (.ok choices, { s with world := (realizeDeferred call domain option.2 s.world).2 }) := by
      rw [Act.zoom_apply, hoption s.world]
    have hbind : unfoldRule call domain rule (option :: options) s = Act.each (fun value => do
        choose option.1 value
        unfoldRule call domain rule options) choices { s with world := (realizeDeferred call domain option.2 s.world).2 } :=
      Act.bind_of_ok hrealized
    have hlength : ∀ leaf ∈ lexProduct rest, leaf.length = (options.map Prod.fst).length := by
      intro leaf hleaf
      rw [length_of_mem_lexProduct hleaf, List.length_map, hoptions.length_eq]
    rw [hbind, List.map_cons, lexProduct_cons]
    exact unfolds_each hlength ih choices { s with world := (realizeDeferred call domain option.2 s.world).2 }

/-! ### All options -/

theorem lt_of_mem_arraySlots {start : Nat} {options : List RuleOption} {i : Nat}
    (h : i ∈ (arraySlots start options).map Prod.fst) : start ≤ i := by
  induction options generalizing start with
  | nil => simp [arraySlots] at h
  | cons o options ih =>
    rw [arraySlots] at h
    split at h
    · rw [List.map_cons, List.mem_cons] at h
      rcases h with rfl | h
      · exact le_refl _
      · exact (Nat.le_succ _).trans (ih h)
    · exact (Nat.le_succ _).trans (ih h)

/-- The chosen value of every option that is not an array is its own. -/
def ScalarsChosen (start : Nat) (options : List RuleOption) (chosen : Nat → Value) : Prop :=
  ∀ i o, options[i]? = some o → (∀ values, o.value ≠ .array values) → chosen (start + i) = o.value

theorem scalarsChosen_cons {start : Nat} {o : RuleOption} {options : List RuleOption} {chosen : Nat → Value} :
    ScalarsChosen start (o :: options) chosen ↔
      ((∀ values, o.value ≠ .array values) → chosen start = o.value) ∧ ScalarsChosen (start + 1) options chosen := by
  constructor
  · intro h
    refine ⟨fun ho => h 0 o rfl ho, fun i o' hi ho' => ?_⟩
    rw [Nat.add_right_comm, Nat.add_assoc]
    exact h (i + 1) o' hi ho'
  · rintro ⟨hhead, htail⟩ i o' hi ho'
    cases i with
    | zero =>
      obtain rfl : o = o' := by simpa using hi
      exact hhead ho'
    | succ i =>
      have := htail i o' hi ho'
      rwa [Nat.add_right_comm, Nat.add_assoc] at this

theorem scalarsChosen_update {start slot : Nat} {options : List RuleOption} {chosen : Nat → Value} (hslot : slot < start)
    (value : Value) (h : ScalarsChosen start options chosen) : ScalarsChosen start options (Function.update chosen slot value) := by
  intro i o hi ho
  rw [Function.update_of_ne (by omega), h i o hi ho]

theorem recordScalars_array {start : Nat} {o : RuleOption} {options : List RuleOption} {values : List Value}
    (h : o.value = .array values) (chosen : Nat → Value) :
    recordScalars start (o :: options) chosen = recordScalars (start + 1) options chosen := by
  simp only [recordScalars, h]

theorem recordScalars_scalar {start : Nat} {o : RuleOption} {options : List RuleOption} (h : ∀ values, o.value ≠ .array values)
    (chosen : Nat → Value) :
    recordScalars start (o :: options) chosen = recordScalars (start + 1) options (Function.update chosen start o.value) := by
  cases hvalue : o.value
  case array values => exact absurd hvalue (h values)
  all_goals simp only [recordScalars, hvalue]

theorem recordScalars_of_lt {start : Nat} {options : List RuleOption} {chosen : Nat → Value} {i : Nat} (h : i < start) :
    recordScalars start options chosen i = chosen i := by
  induction options generalizing start chosen with
  | nil => rfl
  | cons o options ih =>
    by_cases harray : ∃ values, o.value = .array values
    · obtain ⟨values, hvalue⟩ := harray
      rw [recordScalars_array hvalue, ih (by omega)]
    · rw [recordScalars_scalar fun values hvalue => harray ⟨values, hvalue⟩, ih (by omega), Function.update_of_ne (by omega)]

theorem scalarsChosen_recordScalars (start : Nat) (options : List RuleOption) (chosen : Nat → Value) :
    ScalarsChosen start options (recordScalars start options chosen) := by
  induction options generalizing start chosen with
  | nil => intro i o hi; simp at hi
  | cons o options ih =>
    rw [scalarsChosen_cons]
    by_cases harray : ∃ values, o.value = .array values
    · obtain ⟨values, hvalue⟩ := harray
      rw [recordScalars_array hvalue]
      exact ⟨fun ho => absurd hvalue (ho values), ih _ _⟩
    · rw [recordScalars_scalar fun values hvalue => harray ⟨values, hvalue⟩]
      refine ⟨fun _ => ?_, ih _ _⟩
      rw [recordScalars_of_lt (by omega), Function.update_self]

theorem choices_of_not_array {o : RuleOption} {choices : List Value} (ho : ∀ values, o.value ≠ .array values)
    (h : Choices call domain o choices) : choices = [o.value] := by
  unfold Choices at h
  split at h
  · rename_i values hvalue
    exact absurd hvalue (ho values)
  · exact h

/-- The combinations of the arrays, with the values of the other options in their places, are the product over all options. -/
theorem exists_choices_arrays {options : List RuleOption} {choices : List (List Value)}
    (h : List.Forall₂ (Choices call domain) options choices) (start : Nat) : ∃ arrays : List (List Value),
      List.Forall₂ (fun o c => ∀ world, (realizeDeferred call domain o.2 world).1 = .ok c) (arraySlots start options) arrays ∧
        ∀ chosen, ScalarsChosen start options chosen →
          (lexProduct arrays).map (fun leaf => valuesAt start options.length (assign ((arraySlots start options).map Prod.fst) leaf chosen)) =
            lexProduct choices := by
  induction h generalizing start with
  | nil => exact ⟨[], .nil, fun chosen _ => rfl⟩
  | @cons o c options choices ho hrest ih =>
    obtain ⟨arrays, harrays, hproduct⟩ := ih (start + 1)
    by_cases harray : ∃ values, o.value = .array values
    · obtain ⟨values, hvalue⟩ := harray
      have hslots : arraySlots start (o :: options) = (start, values) :: arraySlots (start + 1) options := by
        rw [arraySlots, hvalue]
      have hc : ∀ world, (realizeDeferred call domain values world).1 = .ok c := by
        rw [Choices, hvalue] at ho
        exact ho
      refine ⟨c :: arrays, hslots ▸ .cons hc harrays, fun chosen hchosen => ?_⟩
      rw [hslots, List.map_cons, lexProduct_cons, lexProduct_cons, List.map_flatMap]
      refine List.flatMap_congr fun value _ => ?_
      have htail := hproduct (Function.update chosen start value)
        (scalarsChosen_update (by omega) value (scalarsChosen_cons.1 hchosen).2)
      rw [← htail, List.map_map, List.map_map]
      refine List.map_congr_left fun leaf _ => ?_
      have hnot : start ∉ (arraySlots (start + 1) options).map Prod.fst := fun hmem => by
        have := lt_of_mem_arraySlots hmem
        omega
      simp only [Function.comp_apply, assign, List.length_cons, valuesAt_succ, assign_of_notMem _ _ hnot, Function.update_self]
    · have hscalar : ∀ values, o.value ≠ .array values := fun values hvalue => harray ⟨values, hvalue⟩
      have hslots : arraySlots start (o :: options) = arraySlots (start + 1) options := by
        rw [arraySlots]
        split
        · rename_i values hvalue
          exact absurd hvalue (hscalar values)
        · rfl
      refine ⟨arrays, hslots ▸ harrays, fun chosen hchosen => ?_⟩
      obtain ⟨hhead, htail⟩ := scalarsChosen_cons.1 hchosen
      rw [hslots, choices_of_not_array hscalar ho, lexProduct_singleton_cons, ← hproduct chosen htail, List.map_map]
      refine List.map_congr_left fun leaf _ => ?_
      have hnot : start ∉ (arraySlots (start + 1) options).map Prod.fst := fun hmem => by
        have := lt_of_mem_arraySlots hmem
        omega
      simp only [Function.comp_apply, List.length_cons, valuesAt_succ, assign_of_notMem _ _ hnot, hhead hscalar]

/-! ### The check of the number of rules -/

theorem realizeValue_of_not_deferred {value : Value} (h : isDeferredWithin value = false) :
    realizeValue call domain value = pure [value] := by
  cases value with
  | deferred function params => simp [isDeferredWithin] at h
  | _ => rfl

/-- Without deferred calls there is nothing to realize. -/
theorem realizeDeferred_of_not_contains {values : List Value} (h : containsDeferred values = false) (world : ω) :
    realizeDeferred call domain values world = (.ok values, world) := by
  induction values with
  | nil => rfl
  | cons value values ih =>
    rw [containsDeferred, Bool.or_eq_false_iff] at h
    rw [realizeDeferred, realizeValue_of_not_deferred h.1]
    rw [Act.bind_of_ok (Act.pure_apply _ _), Act.bind_of_ok (ih h.2)]
    rfl

/-- The number of rules is checked only when the arrays are what they are realized to. -/
theorem checkCount_of_appended {options : List (Nat × List Value)} {arrays : List (List Value)}
    (h : List.Forall₂ (fun o c => ∀ world, (realizeDeferred call domain o.2 world).1 = .ok c) options arrays)
    {s : UnfoldState ω} {before : Nat} (hlength : s.chainRules.length = before + (lexProduct arrays).length) :
    checkCount before (options.map Prod.snd) s = (.ok (), s) := by
  rw [checkCount]
  refine if_neg fun hcheck => ?_
  simp only [Bool.and_eq_true, Bool.not_eq_true', decide_eq_true_eq, List.any_eq_false] at hcheck
  obtain ⟨⟨-, hdeferred⟩, hcount⟩ := hcheck
  have hsame : arrays = options.map Prod.snd := by
    clear hlength hcount
    induction h with
    | nil => rfl
    | @cons o c options arrays ho hrest ih =>
      have hno : containsDeferred o.2 = false := by simpa using hdeferred o.2 (by simp)
      have hc : c = o.2 := by
        have := ho s.world
        rw [realizeDeferred_of_not_contains hno] at this
        exact (Except.ok.inj this).symm
      rw [hc, List.map_cons, ih fun values hvalues => hdeferred values (List.mem_cons_of_mem _ hvalues)]
  rw [length_lexProduct, hsame] at hlength
  exact hcount (by omega)

/-! ### What any calls leave -/

/-- The rules that were there stay, and what is added holds the options. -/
def Grows (rule : Rule) {α : Type} (x : Act (UnfoldState ω) Raised α) : Prop :=
  ∀ s, ∃ added, (x s).2.chainRules = s.chainRules ++ added ∧ ∀ rendered ∈ added, Holds rule rendered

theorem Grows.of_same {α : Type} {x : Act (UnfoldState ω) Raised α} (h : ∀ s, (x s).2.chainRules = s.chainRules) : Grows rule x :=
  fun s => ⟨[], by simp [h s], by simp⟩

theorem Grows.bind {α β : Type} {x : Act (UnfoldState ω) Raised α} {f : α → Act (UnfoldState ω) Raised β} (hx : Grows rule x)
    (hf : ∀ a, Grows rule (f a)) : Grows rule (x >>= f) := by
  intro s
  obtain ⟨added, hadded, hholds⟩ := hx s
  obtain ⟨a, s₁, hok⟩ | ⟨e, s₁, herror⟩ := Act.ok_or_error x s
  · obtain ⟨added', hadded', hholds'⟩ := hf a s₁
    rw [hok] at hadded
    rw [Act.bind_of_ok hok]
    refine ⟨added ++ added', by rw [hadded', hadded, List.append_assoc], fun rendered hmem => ?_⟩
    exact (List.mem_append.1 hmem).elim (hholds rendered) (hholds' rendered)
  · rw [herror] at hadded
    rw [Act.bind_of_error herror]
    exact ⟨added, hadded, hholds⟩

theorem Grows.each {f : Value → Act (UnfoldState ω) Raised Unit} (hf : ∀ value, Grows rule (f value)) (values : List Value) :
    Grows rule (Act.each f values) := by
  induction values with
  | nil => exact Grows.of_same fun s => rfl
  | cons value values ih => exact Grows.bind (hf value) fun _ => ih

theorem holds_renderedRule {leaf : List Value} (h : leaf.length = rule.options.length) : Holds rule (renderedRule rule leaf) := by
  refine ⟨rfl, ?_⟩
  rw [renderedRule, List.map_map]
  calc ((rule.options.zip leaf).map fun o => (o.1.name, o.1.kind, o.1.moduleName))
      = ((rule.options.zip leaf).map Prod.fst).map fun o => (o.name, o.kind, o.moduleName) := by rw [List.map_map]; rfl
    _ = rule.options.map fun o => (o.name, o.kind, o.moduleName) := by rw [List.map_fst_zip (by omega)]

theorem grows_appendRule : Grows rule (appendRule (ω := ω) rule) := by
  intro s
  obtain ⟨happend, -⟩ := appended_appendRule rule s
  refine ⟨_, happend.rules, fun rendered hmem => ?_⟩
  obtain ⟨leaf, hleaf, rfl⟩ := List.mem_map.1 hmem
  obtain rfl := List.mem_singleton.1 ((List.takeWhile_prefix _).subset hleaf)
  exact holds_renderedRule (by simp [valuesAt])

theorem grows_unfoldRule (options : List (Nat × List Value)) : Grows rule (unfoldRule call domain rule options) := by
  induction options with
  | nil => exact grows_appendRule
  | cons option options ih =>
    exact Grows.bind (Grows.of_same fun s => rfl) fun realized =>
      Grows.each (fun value => Grows.bind (Grows.of_same fun s => rfl) fun _ => ih) realized

theorem grows_checkCount (before : Nat) (arrays : List (List Value)) : Grows rule (checkCount (ω := ω) before arrays) := by
  refine Grows.of_same fun s => ?_
  rw [checkCount]
  split <;> rfl

end UnfoldAux

open UnfoldAux

variable (call : DeferredFunction → String → List Value → Act ω Raised (List Value)) (domain : String) (rule : Rule)

/-- Whatever the deferred calls do, the rules before stay and what is added holds every option. -/
theorem grows_mkrules2 : Grows rule (mkrules2 call domain rule) :=
  Grows.bind (Grows.of_same fun _ => rfl) fun before =>
    Grows.bind (Grows.of_same fun _ => rfl) fun _ => Grows.bind (grows_unfoldRule _) fun _ => grows_checkCount before _

/-- Unfolding a rule appends the product of its options' choices, in lexicographic order, up to the first combination with a value
that may not be left, which is refused. -/
theorem appended_mkrules2 {choices : List (List Value)} (h : List.Forall₂ (Choices call domain) rule.options choices)
    (s : UnfoldState ω) :
    Appended rule (lexProduct choices) (mkrules2 call domain rule s).1 s.chainRules (mkrules2 call domain rule s).2.chainRules := by
  obtain ⟨arrays, harrays, hproduct⟩ := exists_choices_arrays h 0
  have hrecorded := hproduct _ (scalarsChosen_recordScalars 0 rule.options s.chosen)
  let start : UnfoldState ω := { s with chosen := recordScalars 0 rule.options s.chosen }
  have hunfolds : Unfolds rule _ _ (unfoldRule call domain rule _) := unfolds_unfoldRule harrays
  obtain ⟨happend, -⟩ := hunfolds start
  rw [hrecorded] at happend
  have hrun : mkrules2 call domain rule s =
      (do
        unfoldRule call domain rule (arraySlots 0 rule.options)
        checkCount s.chainRules.length ((arraySlots 0 rule.options).map Prod.snd)) start := rfl
  obtain ⟨u, s₁, hok⟩ | ⟨e, s₁, herror⟩ := Act.ok_or_error (unfoldRule call domain rule (arraySlots 0 rule.options)) start
  · rw [hok] at happend
    have hlength : s₁.chainRules.length = s.chainRules.length + (lexProduct arrays).length := by
      have hall := happend.ok_iff.1 rfl
      rw [happend.rules, List.takeWhile_eq_self_iff.2 hall, List.length_append, List.length_map, ← hrecorded, List.length_map]
    rw [hrun, Act.bind_of_ok hok, checkCount_of_appended harrays hlength]
    exact happend
  · rw [herror] at happend
    rw [hrun, Act.bind_of_error herror]
    exact happend

/-- Whatever the deferred calls do, the rules before stay and every rule that is added holds the options of the rule. When every
array is realized to one list, whenever it is, what is added is the product in lexicographic order, up to the first combination
with a value that may not be left; that one is refused, and nothing else is. -/
theorem mkrules2_appends_product (s : UnfoldState ω) :
    (∃ added, (mkrules2 call domain rule s).2.chainRules = s.chainRules ++ added ∧ ∀ rendered ∈ added, Holds rule rendered) ∧
      ∀ choices, List.Forall₂ (Choices call domain) rule.options choices →
        (mkrules2 call domain rule s).2.chainRules =
            s.chainRules ++ ((lexProduct choices).takeWhile allRealized).map (renderedRule rule) ∧
          ((mkrules2 call domain rule s).1 = .ok () ↔ ∀ leaf ∈ lexProduct choices, allRealized leaf = true) := by
  refine ⟨grows_mkrules2 call domain rule s, fun choices h => ?_⟩
  have happended := appended_mkrules2 call domain rule h s
  exact ⟨happended.rules, happended.ok_iff⟩

/-- A call that finds two addresses. -/
def twoAddresses : DeferredFunction → String → List Value → Act Unit Raised (List Value) :=
  fun _ _ _ => pure [.scalar "10.0.0.1", .scalar "10.0.0.2"]

/-- Nothing is chosen and the chain is empty. -/
def freshState : UnfoldState Unit := ⟨(), fun _ => .undef, []⟩

/-- A protocol with two ports and an address that is looked up. -/
def portsRule : Rule :=
  ⟨[⟨"protocol", .scalar "tcp", .proto, none⟩, ⟨"dport", .array [.scalar "80", .scalar "443"], .option, none⟩,
    ⟨"daddr", .array [.deferred .resolve [.scalar "www"]], .option, none⟩], none⟩

/-- Two ports and two addresses give four rules. -/
theorem mkrules2_appends_ports :
    List.Forall₂ (Choices twoAddresses "ip") portsRule.options
        [[.scalar "tcp"], [.scalar "80", .scalar "443"], [.scalar "10.0.0.1", .scalar "10.0.0.2"]] ∧
      (mkrules2 twoAddresses "ip" portsRule freshState).2.chainRules.map (fun r => r.options.map RenderedOption.value) =
        [[.scalar "tcp", .scalar "80", .scalar "10.0.0.1"], [.scalar "tcp", .scalar "80", .scalar "10.0.0.2"],
          [.scalar "tcp", .scalar "443", .scalar "10.0.0.1"], [.scalar "tcp", .scalar "443", .scalar "10.0.0.2"]] := by
  have hchoices : List.Forall₂ (Choices twoAddresses "ip") portsRule.options
      [[.scalar "tcp"], [.scalar "80", .scalar "443"], [.scalar "10.0.0.1", .scalar "10.0.0.2"]] :=
    .cons rfl (.cons (fun _ => rfl) (.cons (fun _ => rfl) .nil))
  refine ⟨hchoices, ?_⟩
  rw [((mkrules2_appends_product twoAddresses "ip" portsRule freshState).2 _ hchoices).1]
  rfl

/-- A deferred call that is an option's value, not in an array, is refused although the option has this one choice, and a call that
raises an exception leaves no rule. -/
theorem mkrules2_refuses_deferred :
    (mkrules2 twoAddresses "ip" ⟨[⟨"outerface", .deferred .resolve [.scalar "lan"], .option, none⟩], none⟩ freshState).1 ≠ .ok () ∧
      (mkrules2 twoAddresses "ip" ⟨[⟨"outerface", .deferred .resolve [.scalar "lan"], .option, none⟩], none⟩
        freshState).2.chainRules = [] ∧
      (mkrules2 (fun _ _ _ => throw (.ferm "String expected")) "ip" portsRule freshState).1 ≠ .ok () ∧
      (mkrules2 (fun _ _ _ => throw (.ferm "String expected")) "ip" portsRule freshState).2.chainRules = [] := by
  refine ⟨fun h => ?_, rfl, fun h => ?_, rfl⟩
  · cases h
  · cases h

end Unfold

end Ferm
