import Ferm.Lib.Groups
import Ferm.Nft.Declarations
import Ferm.Nft.Time

/-!
# Recent lists

The rules of a family that name one list of recent addresses share one element of a set: how long it stays, and a rate that is
exceeded when the hits of the window have been seen. Both are gathered from all rules of the name, whatever their order.
-/

namespace Ferm

/-! ## The rate -/

/-- `_RATE_UNITS`: the smallest unit first. -/
def RATE_UNITS : List (String × Nat) := [("second", 1), ("minute", 60), ("hour", 3600), ("day", 86400)]

/-- The error of a division by zero. -/
def ZERO_DIVISION : Raised := .other "ZeroDivisionError"

/-- The loop over the units; `product % seconds` divides by the window. -/
def reduceRateIn (numerator seconds : Nat) : List (String × Nat) → Except Raised (Nat × String)
  | [] => do
    let top ← strOf numerator
    let bottom ← strOf seconds
    throw (.ferm ("average rate " ++ top ++ "/" ++ bottom ++ "s has no integer nft rate unit for the nft backend"))
  | (unit, span) :: units =>
    if seconds = 0 then .error ZERO_DIVISION
    else if numerator * span % seconds = 0 ∧ 1 ≤ numerator * span / seconds then .ok (numerator * span / seconds, unit)
    else reduceRateIn numerator seconds units

/-- `_reduce_rate`. -/
def reduceRate (numerator seconds : Nat) : Except Raised (Nat × String) := reduceRateIn numerator seconds RATE_UNITS

/-! ## The facts of a rule -/

/-- `_RecentFacts`. -/
structure RecentFacts where
  name : String
  isCheck : Bool
  seconds : Option String
  hitcount : Option String
  direction : String
  hasVerdict : Bool
  deriving DecidableEq, Repr

/-- `_RecentSpec`. -/
structure RecentSpec where
  direction : String
  timeout : String
  limit : Option String
  deriving DecidableEq, Repr

/-- `_recent_scalar`. -/
def recentScalar (rule : Unfold.RenderedRule) (key : String) : Except Raised (Option String) :=
  match moduleOption rule "recent" key with
  | none => .ok none
  | some option => do
    let (scalar, _) ← unwrapValue option.value
    if isAsciiUint scalar.toList then return some scalar
    else throw (.ferm ("invalid recent " ++ key ++ " '" ++ scalar ++ "' for the nft backend"))

/-- Options of the module that are negated are refused. -/
def checkRecentOption (option : Unfold.RenderedOption) : Except Raised Unit :=
  match option.value with
  | .negated _ => .error (.ferm ("mod recent '" ++ option.name ++ "' cannot be negated for the nft backend"))
  | .preNegated _ => .error (.ferm ("mod recent '" ++ option.name ++ "' cannot be negated for the nft backend"))
  | _ => .ok ()

/-- Options of the module that nft has nothing for are refused. -/
def checkRecentSupported (rule : Unfold.RenderedRule) : Except Raised Unit :=
  match ["remove", "rttl", "reap", "mask"].find? fun name => (moduleOption rule "recent" name).isSome with
  | some unsupported => .error (.ferm ("mod recent '" ++ unsupported ++ "' is not supported by the nft backend"))
  | none => .ok ()

/-- Whether the rule checks its list: its one verb is not `set`. -/
def recentIsCheck (rule : Unfold.RenderedRule) : Except Raised Bool :=
  match ["set", "rcheck", "update"].filter fun verb => (moduleOption rule "recent" verb).isSome with
  | [verb] => .ok (verb = "rcheck" || verb = "update")
  | _ => .error (.ferm "mod recent needs exactly one of set/rcheck/update for the nft backend")

/-- The name of the list. -/
def recentName (rule : Unfold.RenderedRule) : Except Raised String :=
  match moduleOption rule "recent" "name" with
  | none => .error (.ferm "mod recent needs a 'name' for the nft backend")
  | some option => do
    let (rawName, _) ← unwrapValue option.value
    match validateSetName ("recent_" ++ rawName) with
    | .ok _ => return rawName
    | .error _ => throw (.ferm ("invalid recent name '" ++ rawName ++ "' for the nft backend"))

/-- The side whose address is kept. -/
def recentDirection (rule : Unfold.RenderedRule) : Except Raised String :=
  match moduleOption rule "recent" "rsource", moduleOption rule "recent" "rdest" with
  | some _, some _ => .error (.ferm "mod recent cannot combine rsource and rdest for the nft backend")
  | _, some _ => .ok "daddr"
  | _, none => .ok "saddr"

/-- A hit count needs a window, and a check both. -/
def checkRecentWindow (isCheck : Bool) (seconds hitcount : Option String) : Except Raised Unit :=
  if hitcount.isSome ∧ seconds.isNone then .error (.ferm "mod recent 'hitcount' needs 'seconds' for the nft backend")
  else if isCheck ∧ (seconds.isNone ∨ hitcount.isNone) then
    .error (.ferm "mod recent rcheck/update needs 'seconds' and 'hitcount' for the nft backend")
  else .ok ()

/-- `_recent_facts`. -/
def recentFacts (domain : Family) (rule : Unfold.RenderedRule) : Except Raised (Option RecentFacts) :=
  let recentOpts := rule.options.filter fun o => o.moduleName = some "recent"
  if recentOpts = [] then .ok none
  else if domain = .ip ∨ domain = .ip6 then do
    recentOpts.forM checkRecentOption
    checkRecentSupported rule
    let isCheck ← recentIsCheck rule
    let name ← recentName rule
    let direction ← recentDirection rule
    let seconds ← recentScalar rule "seconds"
    let hitcount ← recentScalar rule "hitcount"
    checkRecentWindow isCheck seconds hitcount
    return some ⟨name, isCheck, seconds, hitcount, direction, rule.options.any fun o => o.kind = .target⟩
  else .error (.ferm "mod recent needs the ip or ip6 family for nft")

/-! ## The specification of a name -/

/-- A set of texts: empty, of one text, or of more. -/
inductive Sole where
  | none
  | one (text : String)
  | many
  deriving DecidableEq, Repr

/-- The set of the texts. -/
def sole (texts : List String) : Sole :=
  match texts with
  | [] => .none
  | text :: rest => if rest.all fun other => other = text then .one text else .many

/-- The window all rules of a name have. -/
def recentSeconds (name : String) (facts : List RecentFacts) : Except Raised String :=
  match sole (facts.filterMap RecentFacts.seconds) with
  | .many => .error (.ferm ("mod recent '" ++ name ++ "' has conflicting seconds for the nft backend"))
  | .none => .error (.ferm ("mod recent '" ++ name ++ "' has no seconds anywhere; the window is undefined for the nft backend"))
  | .one seconds => .ok seconds

/-- The side all rules of a name have. -/
def recentSide (name : String) (facts : List RecentFacts) : Except Raised String :=
  match sole (facts.map RecentFacts.direction) with
  | .many => .error (.ferm ("mod recent '" ++ name ++ "' mixes rsource and rdest for the nft backend"))
  | .none => .error (.other "StopIteration")
  | .one direction => .ok direction

/-- The checks of the hit counts and the verdicts of a name. -/
def checkRecentRules (name : String) (facts : List RecentFacts) : Except Raised Unit :=
  if sole (facts.filterMap RecentFacts.hitcount) = .many then
    .error (.ferm ("mod recent '" ++ name ++ "' has conflicting hitcounts for the nft backend"))
  else if (facts.any fun f => f.isCheck) && facts.any fun f => !f.isCheck && f.hasVerdict then
    .error (.ferm ("mod recent '" ++ name ++ "' set rule carries a verdict but the name has check rules for the nft backend"))
  else .ok ()

/-- The text of a limit that is exceeded with the last of `numerator` packets in a window. -/
def recentLimitText (numerator seconds : Nat) : Except Raised String := do
  let (rate, unit) ← reduceRate numerator seconds
  let rateText ← strOf rate
  let burst ← strOf (numerator - 1)
  return "rate over " ++ rateText ++ "/" ++ unit ++ " burst " ++ burst ++ " packets"

/-- The limit of a name, where it has a check. -/
def recentLimit (facts : List RecentFacts) (seconds : Nat) : Except Raised (Option String) :=
  if facts.any fun f => f.isCheck then
    match sole (facts.filterMap RecentFacts.hitcount) with
    | .one text => do
      let hits ← intOf text
      if 1 < facts.length * hits then return some (← recentLimitText (facts.length * hits) seconds)
      else return none
    | _ => .error (.other "StopIteration")
  else .ok none

/-- The specification of one name. -/
def recentSpec (name : String) (facts : List RecentFacts) : Except Raised RecentSpec := do
  let secondsText ← recentSeconds name facts
  let direction ← recentSide name facts
  checkRecentRules name facts
  let seconds ← intOf secondsText
  let timeout ← nftTimeCanon (seconds * 1000)
  let limit ← recentLimit facts seconds
  return ⟨direction, timeout, limit⟩

/-- `_build_recent_specs`. -/
def buildRecentSpecs (domain : Family) (rules : List Unfold.RenderedRule) : Except Raised (Dict String RecentSpec) := do
  let factsByName ← groupM (recentFacts domain) RecentFacts.name Dict.empty rules
  factsByName.traverse recentSpec

/-! ## The order of the rules -/

theorem sole_eq_none_iff {texts : List String} : sole texts = .none ↔ texts = [] := by
  cases texts with
  | nil => exact iff_of_true rfl rfl
  | cons text rest =>
    rw [sole]
    split <;> simp

theorem sole_eq_one_iff {texts : List String} {text : String} : sole texts = .one text ↔ texts ≠ [] ∧ ∀ other ∈ texts, other = text := by
  cases texts with
  | nil => simp [sole]
  | cons first rest =>
    rw [sole]
    split
    · rename_i hall
      simp only [List.all_eq_true, decide_eq_true_eq] at hall
      rw [Sole.one.injEq, List.forall_mem_cons]
      constructor
      · rintro rfl
        exact ⟨List.cons_ne_nil _ _, rfl, hall⟩
      · exact fun h => h.2.1
    · rename_i hall
      refine iff_of_false nofun fun h => hall ?_
      obtain ⟨hfirst, hrest⟩ := List.forall_mem_cons.1 h.2
      simp only [List.all_eq_true, decide_eq_true_eq, hfirst]
      exact hrest

theorem sole_perm {texts texts' : List String} (h : texts.Perm texts') : sole texts = sole texts' := by
  cases hs : sole texts with
  | none =>
    rw [sole_eq_none_iff.1 hs] at h
    rw [h.symm.eq_nil]
    rfl
  | one text =>
    obtain ⟨hne, hall⟩ := sole_eq_one_iff.1 hs
    exact (sole_eq_one_iff.2 ⟨fun hnil => hne (hnil ▸ h).eq_nil, fun other hother => hall other (h.mem_iff.2 hother)⟩).symm
  | many =>
    cases hs' : sole texts' with
    | none =>
      rw [sole_eq_none_iff.1 hs'] at h
      rw [h.eq_nil] at hs
      cases hs
    | one text =>
      obtain ⟨hne, hall⟩ := sole_eq_one_iff.1 hs'
      rw [sole_eq_one_iff.2 ⟨fun hnil => hne (hnil ▸ h).symm.eq_nil, fun other hother => hall other (h.mem_iff.1 hother)⟩] at hs
      cases hs
    | many => rfl

/-- The specification of a name does not depend on the order of its rules. -/
theorem recentSpec_perm (name : String) {facts facts' : List RecentFacts} (h : facts.Perm facts') :
    recentSpec name facts = recentSpec name facts' := by
  have hany : ∀ p : RecentFacts → Bool, facts.any p = facts'.any p := fun p => h.any_eq
  simp only [recentSpec, recentSeconds, recentSide, checkRecentRules, recentLimit, sole_perm (h.filterMap RecentFacts.seconds),
    sole_perm (h.map RecentFacts.direction), sole_perm (h.filterMap RecentFacts.hitcount), hany, h.length_eq]

/-- What the rules of a family with a name say about their list. -/
def recentFactsOf (domain : Family) (name : String) (rules : List Unfold.RenderedRule) : List RecentFacts :=
  picked (recentFacts domain) RecentFacts.name name rules

theorem get?_recentGroups {domain : Family} {rules : List Unfold.RenderedRule} {groups : Dict String (List RecentFacts)}
    (h : groupM (recentFacts domain) RecentFacts.name Dict.empty rules = .ok groups) (name : String) :
    groups.get? name = nonEmpty (recentFactsOf domain name rules) := by
  have hempty : (Dict.empty : Dict String (List RecentFacts)).get? name = nonEmpty [] := rfl
  exact get?_groupM hempty h

theorem buildRecentSpecs_ok_iff {domain : Family} {rules : List Unfold.RenderedRule} :
    (∃ specs, buildRecentSpecs domain rules = .ok specs) ↔ (∀ rule ∈ rules, ∃ f, recentFacts domain rule = .ok f) ∧
      ∀ name, recentFactsOf domain name rules ≠ [] → ∃ spec, recentSpec name (recentFactsOf domain name rules) = .ok spec := by
  constructor
  · rintro ⟨specs, h⟩
    obtain ⟨groups, hgroup, h⟩ := Except.bind_eq_ok.1 h
    refine ⟨exists_groupM_iff.1 ⟨groups, hgroup⟩, fun name hne => ?_⟩
    refine Dict.exists_traverse_iff.1 ⟨specs, h⟩ name _ ?_
    rw [get?_recentGroups hgroup, nonEmpty_eq_some_iff]
    exact ⟨hne, rfl⟩
  · rintro ⟨hrules, hnames⟩
    obtain ⟨groups, hgroup⟩ : ∃ groups, groupM (recentFacts domain) RecentFacts.name Dict.empty rules = .ok groups :=
      exists_groupM_iff.2 hrules
    have hspecs : ∃ specs, groups.traverse recentSpec = .ok specs := by
      refine Dict.exists_traverse_iff.2 fun name facts hfacts => ?_
      rw [get?_recentGroups hgroup, nonEmpty_eq_some_iff] at hfacts
      exact hfacts.2 ▸ hnames name hfacts.1
    obtain ⟨specs, hspecs⟩ := hspecs
    exact ⟨specs, Except.bind_eq_ok.2 ⟨groups, hgroup, hspecs⟩⟩

/-- The specification of a name is made of its rules. -/
theorem get?_buildRecentSpecs {domain : Family} {rules : List Unfold.RenderedRule} {specs : Dict String RecentSpec}
    (h : buildRecentSpecs domain rules = .ok specs) (name : String) : specs.get? name =
      (nonEmpty (recentFactsOf domain name rules)).bind fun facts => (recentSpec name facts).toOption := by
  obtain ⟨groups, hgroup, h⟩ := Except.bind_eq_ok.1 h
  rw [Dict.get?_traverse h, get?_recentGroups hgroup]

/-! ## The rate is exact -/

/-- The rate of a loop that ends in a unit: the unit before which no unit has a whole rate. -/
theorem reduceRateIn_eq_ok {numerator seconds rate : Nat} {unit : String} {units : List (String × Nat)}
    (h : reduceRateIn numerator seconds units = .ok (rate, unit)) :
    ∃ before span after, units = before ++ (unit, span) :: after ∧ 1 ≤ rate ∧ rate * seconds = numerator * span ∧
      ∀ other ∈ before, ∀ n, 1 ≤ n → n * seconds ≠ numerator * other.2 := by
  induction units with
  | nil =>
    obtain ⟨_, -, h⟩ := Except.bind_eq_ok.1 h
    obtain ⟨_, -, h⟩ := Except.bind_eq_ok.1 h
    cases h
  | cons first units ih =>
    obtain ⟨name, span⟩ := first
    rw [reduceRateIn] at h
    split at h
    · cases h
    · rename_i hseconds
      split at h
      · rename_i hwhole
        cases h
        exact ⟨[], span, units, rfl, hwhole.2, Nat.div_mul_cancel (Nat.dvd_of_mod_eq_zero hwhole.1), nofun⟩
      · rename_i hwhole
        obtain ⟨before, span', after, rfl, hone, hrate, hbefore⟩ := ih h
        refine ⟨(name, span) :: before, span', after, rfl, hone, hrate, List.forall_mem_cons.2 ⟨fun n hn he => hwhole ?_, hbefore⟩⟩
        rw [← he, Nat.mul_mod_left, Nat.mul_div_cancel _ (Nat.pos_of_ne_zero hseconds)]
        exact ⟨rfl, hn⟩

/-- The unit of a rate is the smallest with a whole rate. -/
theorem reduceRate_eq_ok {numerator seconds rate : Nat} {unit : String} (h : reduceRate numerator seconds = .ok (rate, unit)) :
    ∃ span, (unit, span) ∈ RATE_UNITS ∧ 1 ≤ rate ∧ rate * seconds = numerator * span ∧
      ∀ other ∈ RATE_UNITS, other.2 < span → ∀ n, 1 ≤ n → n * seconds ≠ numerator * other.2 := by
  obtain ⟨before, span, after, hunits, hone, hrate, hbefore⟩ := reduceRateIn_eq_ok h
  refine ⟨span, hunits ▸ List.mem_append_right _ List.mem_cons_self, hone, hrate, fun other hother hlt => ?_⟩
  have hsorted : RATE_UNITS.Pairwise fun a b => a.2 < b.2 := by decide
  rw [hunits] at hother hsorted
  rcases List.mem_append.1 hother with hother | hother
  · exact hbefore other hother
  · have hle : span ≤ other.2 := by
      rcases List.mem_cons.1 hother with rfl | hother
      · exact Nat.le_refl _
      · exact Nat.le_of_lt (List.rel_of_pairwise_cons (List.pairwise_append.1 hsorted).2.1 hother)
    exact absurd hlt (Nat.not_lt.2 hle)

/-! ## No division by zero -/

variable {α : Type}

/-- An error that is no division by zero. -/
def NoDivision (x : Except Raised α) : Prop := RaisesOnly (· ≠ ZERO_DIVISION) x

theorem noDivision_strOf (n : Nat) : NoDivision (strOf n) := by
  unfold strOf
  split
  · exact .error (by decide)
  · exact .ok _

theorem noDivision_intOf (text : String) : NoDivision (intOf text) := by
  unfold intOf
  split
  · exact .error (by decide)
  · exact .ok _

theorem noDivision_ferm (message : String) : NoDivision (.error (.ferm message) : Except Raised α) := .error nofun

theorem noDivision_unwrapValue (value : Value) : NoDivision (unwrapValue value) := by
  have hscalar : ∀ (negated : Bool) (value : Value), NoDivision (unwrapScalar negated value) := by
    intro negated value
    unfold unwrapScalar
    split <;> first | exact .ok _ | exact noDivision_ferm _
  have hnegated : ∀ value, NoDivision (unwrapNegated value) := by
    intro value
    unfold unwrapNegated
    split
    · exact .ok _
    · exact hscalar _ _
    · exact noDivision_ferm _
    · exact hscalar _ _
  unfold unwrapValue
  split
  · exact hnegated _
  · exact hnegated _
  · exact hscalar _ _

theorem noDivision_reduceRateIn {numerator seconds : Nat} (h : seconds ≠ 0) (units : List (String × Nat)) :
    NoDivision (reduceRateIn numerator seconds units) := by
  induction units with
  | nil => exact (noDivision_strOf _).bind fun _ _ => (noDivision_strOf _).bind fun _ _ => noDivision_ferm _
  | cons first units ih =>
    rw [reduceRateIn, if_neg h]
    split
    · exact .ok _
    · exact ih

theorem noDivision_recentFacts (domain : Family) (rule : Unfold.RenderedRule) : NoDivision (recentFacts domain rule) := by
  have hscalar : ∀ key, NoDivision (recentScalar rule key) := by
    intro key
    unfold recentScalar
    split
    · exact .ok _
    · refine (noDivision_unwrapValue _).bind fun _ _ => ?_
      dsimp only
      split
      · exact .ok _
      · exact noDivision_ferm _
  have hname : NoDivision (recentName rule) := by
    unfold recentName
    split
    · exact noDivision_ferm _
    · refine (noDivision_unwrapValue _).bind fun _ _ => ?_
      dsimp only
      split
      · exact .ok _
      · exact noDivision_ferm _
  have hoptions : ∀ options : List Unfold.RenderedOption, NoDivision (options.forM checkRecentOption) := by
    intro options
    induction options with
    | nil => exact .ok _
    | cons option options ih =>
      refine RaisesOnly.bind ?_ fun _ _ => ih
      unfold checkRecentOption
      split <;> first | exact .ok _ | exact noDivision_ferm _
  have hsupported : NoDivision (checkRecentSupported rule) := by
    unfold checkRecentSupported
    split <;> first | exact .ok _ | exact noDivision_ferm _
  have hcheck : NoDivision (recentIsCheck rule) := by
    unfold recentIsCheck
    split <;> first | exact .ok _ | exact noDivision_ferm _
  have hdirection : NoDivision (recentDirection rule) := by
    unfold recentDirection
    split <;> first | exact .ok _ | exact noDivision_ferm _
  have hwindow : ∀ isCheck seconds hitcount, NoDivision (checkRecentWindow isCheck seconds hitcount) := by
    intro isCheck seconds hitcount
    unfold checkRecentWindow
    split
    · exact noDivision_ferm _
    · split
      · exact noDivision_ferm _
      · exact .ok _
  unfold recentFacts
  dsimp only
  split
  · exact .ok _
  · split
    · exact (hoptions _).bind fun _ _ => hsupported.bind fun _ _ => hcheck.bind fun _ _ => hname.bind fun _ _ =>
        hdirection.bind fun _ _ => (hscalar _).bind fun _ _ => (hscalar _).bind fun _ _ => (hwindow _ _ _).bind fun _ _ => .ok _
    · exact noDivision_ferm _

/-- The window of a time that can be written is not zero. -/
theorem ne_zero_of_nftTimeCanon {milliseconds : Nat} {text : String} (h : nftTimeCanon milliseconds = .ok text) : milliseconds ≠ 0 := by
  rintro rfl
  cases h

theorem noDivision_recentLimit (facts : List RecentFacts) {seconds : Nat} (h : seconds ≠ 0) : NoDivision (recentLimit facts seconds) := by
  have htext : ∀ numerator, NoDivision (recentLimitText numerator seconds) := fun numerator =>
    (noDivision_reduceRateIn h _).bind fun _ _ => (noDivision_strOf _).bind fun _ _ => (noDivision_strOf _).bind fun _ _ => .ok _
  unfold recentLimit
  split
  · split
    · refine (noDivision_intOf _).bind fun _ _ => ?_
      split
      · exact (htext _).bind fun _ _ => .ok _
      · exact .ok _
    · exact .error (by decide)
  · exact .ok _

theorem noDivision_recentSpec (name : String) (facts : List RecentFacts) : NoDivision (recentSpec name facts) := by
  have hseconds : NoDivision (recentSeconds name facts) := by
    unfold recentSeconds
    split <;> first | exact .ok _ | exact noDivision_ferm _
  have hside : NoDivision (recentSide name facts) := by
    unfold recentSide
    split
    · exact noDivision_ferm _
    · exact .error (by decide)
    · exact .ok _
  have hrules : NoDivision (checkRecentRules name facts) := by
    unfold checkRecentRules
    split
    · exact noDivision_ferm _
    · split
      · exact noDivision_ferm _
      · exact .ok _
  have htime : ∀ milliseconds, NoDivision (nftTimeCanon milliseconds) := by
    intro milliseconds
    unfold nftTimeCanon
    split
    · exact noDivision_ferm _
    · refine RaisesOnly.bind ?_ fun _ _ => .ok _
      generalize MixedRadix.components TIME_UNITS_MS milliseconds = counts
      induction counts with
      | nil => exact .ok _
      | cons c counts ih =>
        rw [List.mapM_cons]
        exact ((noDivision_strOf _).bind fun _ _ => .ok _).bind fun _ _ => ih.bind fun _ _ => .ok _
  refine hseconds.bind fun _ _ => hside.bind fun _ _ => hrules.bind fun _ _ => (noDivision_intOf _).bind fun seconds _ =>
    (htime _).bind fun timeout htimeout => (noDivision_recentLimit facts ?_).bind fun _ _ => .ok _
  rintro rfl
  exact ne_zero_of_nftTimeCanon htimeout (Nat.zero_mul _)

theorem noDivision_buildRecentSpecs (domain : Family) (rules : List Unfold.RenderedRule) : NoDivision (buildRecentSpecs domain rules) := by
  refine RaisesOnly.bind ?_ fun groups _ => ?_
  · intro e he
    obtain ⟨_, rule, -, hstep⟩ := exists_step_of_foldlM_error he
    exact (noDivision_recentFacts domain rule).bind (fun a _ => by cases a <;> exact .ok _) e hstep
  · intro e he
    obtain ⟨_, entry, -, hstep⟩ := exists_step_of_foldlM_error he
    exact (noDivision_recentSpec entry.1 entry.2).bind (fun _ _ => .ok _) e hstep

/-! ## What a specification says -/

/-- A rule that checks its list has a window and a hit count. -/
theorem recentFacts_check {domain : Family} {rule : Unfold.RenderedRule} {facts : RecentFacts}
    (h : recentFacts domain rule = .ok (some facts)) (hcheck : facts.isCheck = true) :
    facts.seconds.isSome = true ∧ facts.hitcount.isSome = true := by
  unfold recentFacts at h
  dsimp only at h
  split at h
  · cases h
  · split at h
    · obtain ⟨_, -, h⟩ := Except.bind_eq_ok.1 h
      obtain ⟨_, -, h⟩ := Except.bind_eq_ok.1 h
      obtain ⟨isCheck, -, h⟩ := Except.bind_eq_ok.1 h
      obtain ⟨name, -, h⟩ := Except.bind_eq_ok.1 h
      obtain ⟨direction, -, h⟩ := Except.bind_eq_ok.1 h
      obtain ⟨seconds, -, h⟩ := Except.bind_eq_ok.1 h
      obtain ⟨hitcount, -, h⟩ := Except.bind_eq_ok.1 h
      obtain ⟨_, hwindow, h⟩ := Except.bind_eq_ok.1 h
      cases h
      unfold checkRecentWindow at hwindow
      split at hwindow
      · cases hwindow
      · split at hwindow
        · cases hwindow
        · rename_i hboth
          simpa [show isCheck = true from hcheck, Option.isSome_iff_ne_none] using hboth
    · cases h

/-- The element of `rules` rules with a window of `seconds` and a hit count of `hits`: the rate is exceeded with the last of the
packets that the hits of all rules are, in the smallest unit with a whole rate. -/
def RecentSpec.Calibrated (spec : RecentSpec) (rules hits seconds : Nat) : Prop :=
  ∃ rate unit span, (unit, span) ∈ RATE_UNITS ∧ 1 ≤ rate ∧ rate * seconds = rules * hits * span ∧
    (∀ other ∈ RATE_UNITS, other.2 < span → ∀ n, 1 ≤ n → n * seconds ≠ rules * hits * other.2) ∧
    spec.limit = some ("rate over " ++ String.ofList (Nat.toDigits 10 rate) ++ "/" ++ unit ++ " burst " ++
      String.ofList (Nat.toDigits 10 (rules * hits - 1)) ++ " packets")

theorem recentLimitText_eq_ok {numerator seconds : Nat} {text : String} (h : recentLimitText numerator seconds = .ok text) :
    ∃ rate unit, reduceRate numerator seconds = .ok (rate, unit) ∧ text = "rate over " ++ String.ofList (Nat.toDigits 10 rate) ++ "/" ++
      unit ++ " burst " ++ String.ofList (Nat.toDigits 10 (numerator - 1)) ++ " packets" := by
  obtain ⟨⟨rate, unit⟩, hrate, h⟩ := Except.bind_eq_ok.1 h
  obtain ⟨rateText, hrateText, h⟩ := Except.bind_eq_ok.1 h
  obtain ⟨burst, hburst, h⟩ := Except.bind_eq_ok.1 h
  cases h
  rw [(strOf_eq_ok_iff.1 hrateText).2, (strOf_eq_ok_iff.1 hburst).2]
  exact ⟨rate, unit, hrate, rfl⟩

/-- The specification of a name has its window as the timeout and the calibrated rate as the limit. -/
theorem recentSpec_eq_ok {name : String} {facts : List RecentFacts} {spec : RecentSpec} (h : recentSpec name facts = .ok spec) :
    (∀ text, some text ∈ facts.map RecentFacts.seconds →
      readTime 0 0 [] spec.timeout.toList = some (uintValue 10 text.toList * 1000)) ∧
      ∀ seconds hits, some seconds ∈ facts.map RecentFacts.seconds → some hits ∈ facts.map RecentFacts.hitcount →
        (∃ f ∈ facts, f.isCheck = true) → 1 < facts.length * uintValue 10 hits.toList →
        spec.Calibrated facts.length (uintValue 10 hits.toList) (uintValue 10 seconds.toList) := by
  obtain ⟨secondsText, hseconds, h⟩ := Except.bind_eq_ok.1 h
  obtain ⟨direction, -, h⟩ := Except.bind_eq_ok.1 h
  obtain ⟨_, -, h⟩ := Except.bind_eq_ok.1 h
  obtain ⟨seconds, hvalue, h⟩ := Except.bind_eq_ok.1 h
  obtain ⟨timeout, htimeout, h⟩ := Except.bind_eq_ok.1 h
  obtain ⟨limit, hlimit, h⟩ := Except.bind_eq_ok.1 h
  cases h
  have hsole : ∀ text, some text ∈ facts.map RecentFacts.seconds → text = secondsText := by
    intro text htext
    unfold recentSeconds at hseconds
    split at hseconds
    · cases hseconds
    · cases hseconds
    · rename_i hsole
      cases hseconds
      obtain ⟨f, hf, hftext⟩ := List.mem_map.1 htext
      exact (sole_eq_one_iff.1 hsole).2 text (List.mem_filterMap.2 ⟨f, hf, hftext⟩)
  refine ⟨fun text htext => ?_, fun text hits htext hhits hcheck hmany => ?_⟩
  · rw [hsole text htext, ← (intOf_eq_ok_iff.1 hvalue).2]
    exact readTime_nftTimeCanon htimeout
  · rw [hsole text htext, ← (intOf_eq_ok_iff.1 hvalue).2]
    unfold recentLimit at hlimit
    obtain ⟨f, hf, hfcheck⟩ := hcheck
    rw [if_pos (List.any_eq_true.2 ⟨f, hf, hfcheck⟩)] at hlimit
    split at hlimit
    · rename_i hitsText hone
      have hsame : hits = hitsText := by
        obtain ⟨g, hg, hghits⟩ := List.mem_map.1 hhits
        exact (sole_eq_one_iff.1 hone).2 hits (List.mem_filterMap.2 ⟨g, hg, hghits⟩)
      obtain ⟨value, hhitsValue, hlimit⟩ := Except.bind_eq_ok.1 hlimit
      rw [hsame, ← (intOf_eq_ok_iff.1 hhitsValue).2] at hmany ⊢
      rw [if_pos hmany] at hlimit
      obtain ⟨limitText, htext, hlimit⟩ := Except.bind_eq_ok.1 hlimit
      cases hlimit
      obtain ⟨rate, unit, hrate, rfl⟩ := recentLimitText_eq_ok htext
      obtain ⟨span, hunit, hone, hexact, hsmallest⟩ := reduceRate_eq_ok hrate
      exact ⟨rate, unit, span, hunit, hone, hexact, hsmallest, rfl⟩
    · cases hlimit

/-- The rules of a name are there in any order. -/
theorem recentFactsOf_perm (domain : Family) (name : String) {rules rules' : List Unfold.RenderedRule} (h : rules.Perm rules') :
    (recentFactsOf domain name rules).Perm (recentFactsOf domain name rules') := picked_perm h

/-- Whether the specifications can be built does not depend on the order of the rules. -/
theorem exists_buildRecentSpecs_perm (domain : Family) {rules rules' : List Unfold.RenderedRule} (h : rules.Perm rules') :
    (∃ specs, buildRecentSpecs domain rules = .ok specs) ↔ ∃ specs, buildRecentSpecs domain rules' = .ok specs := by
  have hspec : ∀ name, recentSpec name (recentFactsOf domain name rules) = recentSpec name (recentFactsOf domain name rules') :=
    fun name => recentSpec_perm name (recentFactsOf_perm domain name h)
  have hempty : ∀ name, recentFactsOf domain name rules = [] ↔ recentFactsOf domain name rules' = [] := fun name => by
    rw [← List.length_eq_zero_iff, ← List.length_eq_zero_iff, (recentFactsOf_perm domain name h).length_eq]
  rw [buildRecentSpecs_ok_iff, buildRecentSpecs_ok_iff]
  simp only [hspec, hempty, ne_eq, h.mem_iff]

/-- The specification of a name does not depend on the order of the rules. -/
theorem buildRecentSpecs_agree {domain : Family} {rules rules' : List Unfold.RenderedRule} {specs specs' : Dict String RecentSpec}
    (h : rules.Perm rules') (hspecs : buildRecentSpecs domain rules = .ok specs) (hspecs' : buildRecentSpecs domain rules' = .ok specs') :
    specs.Agree specs' := by
  intro name
  have hperm := recentFactsOf_perm domain name h
  rw [get?_buildRecentSpecs hspecs, get?_buildRecentSpecs hspecs', nonEmpty, nonEmpty]
  by_cases hnil : recentFactsOf domain name rules = []
  · rw [if_pos hnil, if_pos (hnil ▸ hperm).symm.eq_nil]
  · rw [if_neg hnil, if_neg fun hnil' => hnil (hnil' ▸ hperm).eq_nil]
    exact congrArg Except.toOption (recentSpec_perm name hperm)

/-- Every list with rules has a specification, and no other: what the rules of the name say. -/
theorem isSome_buildRecentSpecs {domain : Family} {rules : List Unfold.RenderedRule} {specs : Dict String RecentSpec}
    (h : buildRecentSpecs domain rules = .ok specs) (name : String) :
    (specs.get? name).isSome = true ↔ recentFactsOf domain name rules ≠ [] := by
  rw [get?_buildRecentSpecs h, nonEmpty]
  by_cases hnil : recentFactsOf domain name rules = []
  · rw [if_pos hnil]
    exact iff_of_false nofun fun hne => hne hnil
  · rw [if_neg hnil]
    obtain ⟨spec, hspec⟩ := (buildRecentSpecs_ok_iff.1 ⟨specs, h⟩).2 name hnil
    refine iff_of_true ?_ hnil
    rw [Option.bind_some, hspec]
    rfl

/-- The specifications of a family's lists do not depend on the order of its rules, every list with rules has one, their rates are
exact, and nothing is divided by zero. -/
theorem recent_specs_calibrated (domain : Family) (rules : List Unfold.RenderedRule) :
    (∀ rules', rules.Perm rules' →
      ((∃ e, buildRecentSpecs domain rules = .error e) ↔ ∃ e, buildRecentSpecs domain rules' = .error e) ∧
        ∀ specs specs', buildRecentSpecs domain rules = .ok specs → buildRecentSpecs domain rules' = .ok specs' → specs.Agree specs') ∧
      buildRecentSpecs domain rules ≠ .error ZERO_DIVISION ∧
      ∀ specs, buildRecentSpecs domain rules = .ok specs →
        (∀ name, (specs.get? name).isSome = true ↔ recentFactsOf domain name rules ≠ []) ∧
        ∀ name spec, specs.get? name = some spec →
        let facts := recentFactsOf domain name rules
        (∀ f ∈ facts, f.isCheck = true → f.seconds.isSome = true ∧ f.hitcount.isSome = true) ∧
        (∀ text, some text ∈ facts.map RecentFacts.seconds →
          readTime 0 0 [] spec.timeout.toList = some (uintValue 10 text.toList * 1000)) ∧
        ∀ seconds hits, some seconds ∈ facts.map RecentFacts.seconds → some hits ∈ facts.map RecentFacts.hitcount →
          (∃ f ∈ facts, f.isCheck = true) → 1 < facts.length * uintValue 10 hits.toList →
          spec.Calibrated facts.length (uintValue 10 hits.toList) (uintValue 10 seconds.toList) := by
  refine ⟨fun rules' hperm => ⟨?_, fun specs specs' => buildRecentSpecs_agree hperm⟩, fun h => noDivision_buildRecentSpecs _ _ _ h rfl,
    fun specs hspecs => ⟨isSome_buildRecentSpecs hspecs, fun name spec hname => ⟨fun f hf hcheck => ?_, ?_⟩⟩⟩
  · have hok : ∀ x : Except Raised (Dict String RecentSpec), (∃ e, x = .error e) ↔ ¬∃ specs, x = .ok specs := by
      intro x
      cases x <;> simp
    rw [hok, hok, exists_buildRecentSpecs_perm domain hperm]
  · obtain ⟨rule, -, hrule, -⟩ := mem_picked.1 hf
    exact recentFacts_check hrule hcheck
  · rw [get?_buildRecentSpecs hspecs, Option.bind_eq_some_iff] at hname
    obtain ⟨facts, hfacts, hspec⟩ := hname
    rw [(nonEmpty_eq_some_iff.1 hfacts).2]
    cases hresult : recentSpec name facts with
    | error e =>
      rw [hresult] at hspec
      cases hspec
    | ok spec' =>
      rw [hresult] at hspec
      cases hspec
      exact recentSpec_eq_ok hresult

/-- A rule that records an address and one that checks it: `recent name ssh set`, and with `update seconds 60 hitcount 4` a drop. -/
def sshRules : List Unfold.RenderedRule :=
  let option (name text : String) : Unfold.RenderedOption := ⟨name, .scalar text, .option, some "recent"⟩
  let flag (name : String) : Unfold.RenderedOption := ⟨name, .undef, .option, some "recent"⟩
  [⟨[option "name" "ssh", flag "set"], none⟩,
    ⟨[option "name" "ssh", flag "update", option "seconds" "60", option "hitcount" "4", ⟨"jump", .scalar "DROP", .target, none⟩], none⟩]

theorem recent_specs_calibrated_ssh : ∃ specs spec, buildRecentSpecs .ip sshRules = .ok specs ∧ specs.get? "ssh" = some spec ∧
    spec = ⟨"saddr", "1m", some "rate over 8/minute burst 7 packets"⟩ ∧ spec.Calibrated 2 4 60 := by
  have hspec : (buildRecentSpecs .ip sshRules).toOption.bind (fun specs => specs.get? "ssh") =
      some ⟨"saddr", "1m", some "rate over 8/minute burst 7 packets"⟩ := by decide +kernel
  have hfacts : (recentFactsOf .ip "ssh" sshRules).length = 2 ∧
      some "60" ∈ (recentFactsOf .ip "ssh" sshRules).map RecentFacts.seconds ∧
      some "4" ∈ (recentFactsOf .ip "ssh" sshRules).map RecentFacts.hitcount ∧
      ∃ f ∈ recentFactsOf .ip "ssh" sshRules, f.isCheck = true := by decide +kernel
  cases hspecs : buildRecentSpecs .ip sshRules with
  | error e =>
    rw [hspecs] at hspec
    cases hspec
  | ok specs =>
    rw [hspecs] at hspec
    have hcalibrated := (((recent_specs_calibrated .ip sshRules).2.2 specs hspecs).2 "ssh" _ hspec).2.2 "60" "4" hfacts.2.1 hfacts.2.2.1
      hfacts.2.2.2
    rw [hfacts.1] at hcalibrated
    exact ⟨specs, _, rfl, hspec, rfl, hcalibrated (by decide)⟩

end Ferm
