import Ferm.Lib.Runs
import Ferm.Parser.Evaluator
import Ferm.Scope
import Mathlib.Algebra.GroupWithZero.Nat

/-!
# Port lists

A multiport match takes fifteen ports, a range counting twice: an array of ports is cut into operands that hold no more, and becomes
an array of operands. What is not an array is taken as it is, a negated array joined to one operand.
-/

namespace Ferm.Multiport

open Scope (Rule)
open Unfold (RuleOption)

/-! ## The protocol -/

/-- `realize_protocol`: the protocol of a rule, which may still wait for the first option that needs it. -/
def realizeProtocol (rule : Rule) : Rule × Value :=
  if rule.protocol ≠ .undef then (rule, rule.protocol)
  else if rule.autoProtocol ≠ .undef then
    ({ rule with
        protocol := rule.autoProtocol
        autoProtocol := .undef
        options := rule.options ++ [{ name := "protocol", value := rule.autoProtocol, kind := .proto }] }, rule.autoProtocol)
  else (rule, .undef)

/-- `_MULTIPORT_PROTO_RE`. -/
def isMultiportProto : Value → Bool
  | .scalar proto => ["tcp", "udp", "udplite"].contains proto
  | _ => false

/-- Whether the protocol of a rule has ports that a list can name. -/
def checkProtocol (proto : Value) : Except Raised Unit := do
  let protos ← if proto = .undef then pure [] else Evaluator.toArray proto
  if proto = .undef ∨ !protos.any isMultiportProto then
    throw (.ferm "To use multiport, you have to specify \"proto tcp\" or \"proto udp\" first")

/-! ## The operands -/

/-- `",".join(texts)`. -/
def joinComma (texts : List String) : String := String.ofList (List.intercalate [','] (texts.map String.toList))

variable (refText : Value → String)

/-- `stringify`, where `refText` is what Python prints for a value that is no text. -/
def stringify : Value → String
  | .undef => ""
  | .scalar text => text
  | value => refText value

/-- `join_value`. -/
def joinValue : Value → Except Raised Value
  | .undef => .ok .undef
  | .scalar text => .ok (.scalar text)
  | .array values => .ok (.scalar (joinComma (values.map (stringify refText))))
  | .negated value => (joinValue value).map .negated
  | .setRef _ _ => .error (.ferm "a named set cannot be joined as an array")
  | _ => .error (.ferm (internalError "unexpected value type").message)

/-- `MAX_MULTIPORT_PORTS`. -/
def MAX_MULTIPORT_PORTS : Nat := 15

/-- What a text counts. -/
def increment (text : List Char) : Nat := if ':' ∈ text then 2 else 1

/-- The loop over the ports, which closes an operand when the next port does not fit. -/
def chunks (params chunk : List String) (size : Nat) : List String → List String
  | [] => if chunk = [] then params else params ++ [joinComma chunk]
  | text :: texts =>
    if size + increment text.toList > MAX_MULTIPORT_PORTS then
      chunks (params ++ [joinComma chunk]) [text] (increment text.toList) texts
    else chunks params (chunk ++ [text]) (size + increment text.toList) texts

/-- The operands of the value that was read. -/
def multiportOperands : Value → Except Raised Value
  | .array values =>
    match chunks [] [] 0 (values.map (stringify refText)) with
    | [param] => .ok (.scalar param)
    | params => .ok (.array (params.map .scalar))
  | value => joinValue refText value

/-- `multiport_params`, where `getvalues` is what reading the value comes to. -/
def multiportParams (rule : Rule) (getvalues : Except Raised Value) : Except Raised (Rule × Value) := do
  let (rule, proto) := realizeProtocol rule
  checkProtocol proto
  let value ← getvalues
  return (rule, ← multiportOperands refText value)

example : chunks [] [] 0 ["22", "80:89"] = ["22,80:89"] := by decide

/-! ## What is asked of the operands -/

/-- The ports of a text: a port counts one, a range two. -/
def weight (text : String) : Nat := ((text.toList.splitOn ',').map increment).sum

/-- The operands of a value. -/
def operands : Value → List String
  | .scalar text => [text]
  | .array values => values.flatMap fun value => match value with
    | .scalar text => [text]
    | _ => []
  | .negated value => operands value
  | _ => []

/-- The texts of an array of texts. -/
def texts? (values : List Value) : Option (List String) :=
  values.mapM fun value => match value with
    | .scalar text => some text
    | _ => none

/-- The ports a value gives, where it gives ports and nothing else. -/
def givenPorts : Value → Option (List String)
  | .scalar text => some [text]
  | .array values => texts? values
  | .negated value => givenPorts value
  | _ => none

/-- Whether a value is negated. -/
def isNegated : Value → Bool
  | .negated _ => true
  | _ => false

/-- The operands name the ports that were given, in order, and none of them is empty or holds more ports than fit. -/
def Carries (value result : Value) : Prop :=
  ∃ ports, givenPorts value = some ports ∧ joinComma (operands result) = joinComma ports ∧
    ∀ operand ∈ operands result, operand ≠ "" ∧ weight operand ≤ MAX_MULTIPORT_PORTS

/-- The operands carry the ports, and are negated if these are. -/
def Faithful (value result : Value) : Prop := Carries value result ∧ isNegated result = isNegated value

/-- The call fails, or gives faithful operands. -/
def FaithfulOrError (rule : Rule) (value : Value) : Prop :=
  ∀ rule' result, multiportParams refText rule (.ok value) = .ok (rule', result) → Faithful value result

/-- A text that is one port or range. -/
def IsPort (text : String) : Prop := text ≠ "" ∧ ',' ∉ text.toList

/-- Whether the protocol of a rule lets it name ports. -/
def Supported (rule : Rule) : Prop := checkProtocol (realizeProtocol rule).2 = .ok ()

/-- The ports of a value that becomes one operand fit into it, unless the value is refused. -/
def FitsOne : Value → Prop
  | .undef => False
  | .scalar text => text ≠ "" ∧ weight text ≤ MAX_MULTIPORT_PORTS
  | .array values => ∃ texts, texts? values = some texts ∧ texts ≠ [] ∧ texts ≠ [""] ∧ (texts.map weight).sum ≤ MAX_MULTIPORT_PORTS
  | .negated value => FitsOne value
  | _ => True

/-- The ports of a value are counted as what they are: the elements of an array are ports, and the ports of any other value fit into
one operand. -/
def Counted : Value → Prop
  | .array values => ∀ value ∈ values, ∃ text, value = .scalar text ∧ IsPort text
  | value => FitsOne value

/-! ## Texts joined by commas -/

theorem toList_joinComma (texts : List String) : (joinComma texts).toList = List.intercalate [','] (texts.map String.toList) :=
  String.toList_ofList

@[simp] theorem joinComma_nil : joinComma [] = "" := rfl

@[simp] theorem joinComma_singleton (text : String) : joinComma [text] = text := by
  rw [← String.toList_inj, toList_joinComma, List.map_singleton, List.intercalate_singleton]

/-- The first text is followed by a comma and the others. -/
theorem toList_joinComma_cons (text : String) {texts : List String} (h : texts ≠ []) :
    (joinComma (text :: texts)).toList = text.toList ++ ',' :: (joinComma texts).toList := by
  rw [toList_joinComma, List.map_cons, List.intercalate_cons_of_ne_nil (mt List.map_eq_nil_iff.1 h), toList_joinComma,
    List.append_assoc]
  rfl

/-- Groups of texts that are joined, and joined again, are the texts joined. -/
theorem joinComma_flatten {groups : List (List String)} (h : ∀ group ∈ groups, group ≠ []) :
    joinComma (groups.map joinComma) = joinComma groups.flatten := by
  have happend : ∀ {a b : List String}, a ≠ [] → b ≠ [] → joinComma (joinComma a :: [joinComma b]) = joinComma (a ++ b) := by
    intro a b ha hb
    induction a with
    | nil => exact absurd rfl ha
    | cons text a ih =>
      rw [← String.toList_inj, toList_joinComma_cons _ (List.cons_ne_nil _ _), joinComma_singleton, List.cons_append,
        toList_joinComma_cons text (List.append_ne_nil_of_right_ne_nil a hb)]
      cases a with
      | nil => rw [joinComma_singleton, List.nil_append]
      | cons next a =>
        rw [← ih (List.cons_ne_nil _ _), toList_joinComma_cons text (List.cons_ne_nil _ _),
          toList_joinComma_cons (joinComma (next :: a)) (List.cons_ne_nil _ _), joinComma_singleton, List.append_assoc]
        rfl
  induction groups with
  | nil => rfl
  | cons group groups ih =>
    obtain ⟨hgroup, hgroups⟩ := List.forall_mem_cons.1 h
    cases groups with
    | nil => simp
    | cons next groups =>
      have hne : (next :: groups).flatten ≠ [] := by
        rw [List.flatten_cons]
        exact List.append_ne_nil_of_left_ne_nil (List.forall_mem_cons.1 hgroups).1 _
      rw [List.flatten_cons, ← happend hgroup hne, ← ih hgroups, List.map_cons, ← String.toList_inj,
        toList_joinComma_cons _ (by simp), toList_joinComma_cons _ (List.cons_ne_nil _ _), joinComma_singleton]

/-- What texts weigh together. -/
theorem weight_joinComma {texts : List String} (h : texts ≠ []) : weight (joinComma texts) = (texts.map weight).sum := by
  induction texts with
  | nil => exact absurd rfl h
  | cons text texts ih =>
    cases texts with
    | nil => simp
    | cons next texts =>
      have htail := ih (List.cons_ne_nil _ _)
      rw [weight, toList_joinComma_cons text (List.cons_ne_nil _ _), List.splitOn_append_cons_self, List.map_append, List.sum_append,
        List.map_cons, List.sum_cons, ← htail]
      rfl

/-- A port weighs what it is counted as. -/
theorem weight_of_isPort {text : String} (h : IsPort text) : weight text = increment text.toList := by
  rw [weight, List.splitOn_eq_singleton h.2]
  simp

/-- Joined texts are empty if there are none, or only an empty one. -/
theorem joinComma_eq_empty_iff {texts : List String} : joinComma texts = "" ↔ texts = [] ∨ texts = [""] := by
  constructor
  · intro h
    cases texts with
    | nil => exact .inl rfl
    | cons text texts =>
      cases texts with
      | nil => exact .inr (by rw [← h, joinComma_singleton])
      | cons next texts =>
        have hlist := toList_joinComma_cons text (List.cons_ne_nil next texts)
        rw [h] at hlist
        exact absurd hlist.symm (List.append_ne_nil_of_right_ne_nil _ (List.cons_ne_nil _ _))
  · rintro (rfl | rfl) <;> simp

/-! ## The loop cuts greedily -/

/-- Whether a text still fits into an operand. -/
def fits (chunk : List String) (text : String) : Bool :=
  (chunk.map fun text => increment text.toList).sum + increment text.toList ≤ MAX_MULTIPORT_PORTS

/-- The loop is a greedy cut of the ports. -/
theorem chunks_eq_greedyRunsFrom (texts params : List String) {chunk : List String} (h : chunk ≠ []) :
    chunks params chunk (chunk.map fun text => increment text.toList).sum texts =
      params ++ (greedyRunsFrom fits chunk texts).map joinComma := by
  induction texts generalizing params chunk with
  | nil => simp [chunks, greedyRunsFrom, h]
  | cons text texts ih =>
    rw [chunks, greedyRunsFrom]
    by_cases hfits : fits chunk text = true
    · have hle := hfits
      rw [fits, decide_eq_true_iff] at hle
      have hsum : (chunk.map fun text => increment text.toList).sum + increment text.toList =
          ((chunk ++ [text]).map fun text => increment text.toList).sum := by simp
      rw [if_neg (Nat.not_lt_of_le hle), if_pos hfits, hsum]
      exact ih params (List.append_ne_nil_of_left_ne_nil h _)
    · have hlt := hfits
      rw [fits, decide_eq_true_iff, Nat.not_le] at hlt
      have hsingle : increment text.toList = (([text] : List String).map fun text => increment text.toList).sum := by simp
      rw [if_pos hlt, if_neg hfits, hsingle, ih _ (List.cons_ne_nil _ _)]
      simp

theorem increment_le (text : List Char) : increment text ≤ 2 := by
  unfold increment
  split <;> decide

theorem chunks_eq_greedyRuns (texts : List String) : chunks [] [] 0 texts = (greedyRuns fits texts).map joinComma := by
  cases texts with
  | nil => rfl
  | cons text texts =>
    have hle := increment_le text.toList
    have hroom : ¬ 0 + increment text.toList > MAX_MULTIPORT_PORTS := by
      rw [MAX_MULTIPORT_PORTS]
      omega
    have hrest := chunks_eq_greedyRunsFrom texts [] (List.cons_ne_nil text [])
    rw [chunks, if_neg hroom, Nat.zero_add]
    simpa [greedyRuns] using hrest

/-- What is in one operand fits into it. -/
theorem sum_increment_le {texts chunk : List String} (h : chunk ∈ greedyRuns fits texts) :
    (chunk.map fun text => increment text.toList).sum ≤ MAX_MULTIPORT_PORTS := by
  cases isRun_of_mem h with
  | single text =>
    have hle := increment_le text.toList
    simp only [List.map_cons, List.map_nil, List.sum_cons, List.sum_nil, MAX_MULTIPORT_PORTS]
    omega
  | @snoc chunk text _ hfits =>
    rw [fits, decide_eq_true_iff] at hfits
    simpa using hfits

/-! ## Arrays and what is joined -/

theorem texts?_eq_some_iff {values : List Value} {texts : List String} : texts? values = some texts ↔ values = texts.map .scalar := by
  unfold texts?
  induction values generalizing texts with
  | nil =>
    rw [List.mapM_nil]
    constructor
    · intro h
      rw [← Option.some.inj h]
      rfl
    · intro h
      rw [List.map_eq_nil_iff.1 h.symm]
      rfl
  | cons value values ih =>
    rw [List.mapM_cons]
    constructor
    · intro h
      obtain ⟨text, htext, hrest⟩ := Option.bind_eq_some_iff.1 h
      obtain ⟨rest, hvalues, heq⟩ := Option.bind_eq_some_iff.1 hrest
      obtain rfl := Option.some.inj heq
      cases value <;> cases htext
      rw [ih.1 hvalues]
      rfl
    · intro h
      cases texts with
      | nil => cases h
      | cons text texts =>
        obtain ⟨rfl, hvalues⟩ := List.cons_eq_cons.1 h
        rw [ih.2 hvalues]
        rfl

theorem map_stringify_scalar (texts : List String) : (texts.map Value.scalar).map (stringify refText) = texts := by
  rw [List.map_map]
  exact List.map_id texts

theorem operands_array (texts : List String) : operands (.array (texts.map .scalar)) = texts := by
  rw [operands]
  induction texts with
  | nil => rfl
  | cons text texts ih =>
    rw [List.map_cons, List.flatMap_cons, ih]
    rfl

variable {refText}

/-- An array of ports becomes faithful operands. -/
theorem faithful_of_ports {texts : List String} {result : Value} (hports : ∀ text ∈ texts, IsPort text)
    (h : multiportOperands refText (.array (texts.map .scalar)) = .ok result) : Faithful (.array (texts.map .scalar)) result := by
  have hoperands : operands result = (greedyRuns fits texts).map joinComma ∧ isNegated result = false := by
    rw [multiportOperands, map_stringify_scalar, chunks_eq_greedyRuns] at h
    split at h
    · rename_i param hparam
      rw [← Except.ok.inj h, hparam]
      exact ⟨rfl, rfl⟩
    · rw [← Except.ok.inj h]
      exact ⟨operands_array _, rfl⟩
  refine ⟨⟨texts, texts?_eq_some_iff.2 rfl, ?_, ?_⟩, hoperands.2⟩
  · rw [hoperands.1, joinComma_flatten fun group hgroup => (isRun_of_mem hgroup).ne_nil, flatten_greedyRuns]
  · intro operand hoperand
    rw [hoperands.1] at hoperand
    obtain ⟨chunk, hchunk, rfl⟩ := List.mem_map.1 hoperand
    have hne := (isRun_of_mem hchunk).ne_nil
    have hchunkPorts : ∀ text ∈ chunk, IsPort text := fun text htext => hports text (mem_of_mem_greedyRuns hchunk htext)
    constructor
    · intro hempty
      rcases joinComma_eq_empty_iff.1 hempty with hnil | hsingle
      · exact hne hnil
      · exact (hchunkPorts "" (hsingle ▸ List.mem_singleton_self _)).1 rfl
    · rw [weight_joinComma hne, List.map_congr_left fun text htext => weight_of_isPort (hchunkPorts text htext)]
      exact sum_increment_le hchunk

/-- A value that becomes one operand carries its ports exactly if they fit. -/
theorem carries_joinValue_iff {value result : Value} (h : joinValue refText value = .ok result) :
    (Carries value result ↔ FitsOne value) ∧ isNegated result = isNegated value := by
  induction value using FitsOne.induct generalizing result with
  | case1 =>
    obtain rfl := Except.ok.inj h
    exact ⟨⟨fun ⟨_, hnone, _⟩ => (by cases hnone), False.elim⟩, rfl⟩
  | case2 text =>
    obtain rfl := Except.ok.inj h
    refine ⟨⟨fun ⟨_, _, _, hall⟩ => hall text (List.mem_singleton_self _), fun hfits => ⟨[text], rfl, rfl, ?_⟩⟩, rfl⟩
    intro operand hoperand
    exact List.mem_singleton.1 hoperand ▸ hfits
  | case3 values =>
    obtain rfl := Except.ok.inj h
    refine ⟨?_, rfl⟩
    have hcarries : ∀ texts, texts? values = some texts →
        (joinComma (values.map (stringify refText)) = joinComma texts) := fun texts htexts => by
      rw [texts?_eq_some_iff.1 htexts, map_stringify_scalar]
    constructor
    · rintro ⟨texts, htexts, -, hall⟩
      obtain ⟨hempty, hweight⟩ := hall _ (List.mem_singleton_self _)
      rw [hcarries texts htexts] at hempty hweight
      have hne : texts ≠ [] := fun hnil => hempty (hnil ▸ rfl)
      exact ⟨texts, htexts, hne, fun hsingle => hempty (joinComma_eq_empty_iff.2 (.inr hsingle)), weight_joinComma hne ▸ hweight⟩
    · rintro ⟨texts, htexts, hne, hsingle, hsum⟩
      refine ⟨texts, htexts, ?_, ?_⟩
      · rw [operands, hcarries texts htexts, joinComma_singleton]
      · intro operand hoperand
        rw [operands, hcarries texts htexts, List.mem_singleton] at hoperand
        rw [hoperand, weight_joinComma hne]
        exact ⟨fun hempty => (joinComma_eq_empty_iff.1 hempty).elim hne hsingle, hsum⟩
  | case4 value ih =>
    rw [joinValue] at h
    cases hvalue : joinValue refText value with
    | error e => rw [hvalue] at h; cases h
    | ok inner =>
      rw [hvalue] at h
      obtain rfl := Except.ok.inj h
      exact ⟨(ih hvalue).1, rfl⟩
  | case5 value hundef hscalar harray hnegated =>
    cases value <;> first | exact absurd rfl hundef | exact absurd rfl (hscalar _) | exact absurd rfl (harray _) |
      exact absurd rfl (hnegated _) | cases h

/-- A value that cannot be joined is refused, whatever it holds. -/
theorem fitsOne_of_joinValue_error {value : Value} {e : Raised} (h : joinValue refText value = .error e) : FitsOne value := by
  induction value using FitsOne.induct generalizing e with
  | case1 => cases h
  | case2 text => cases h
  | case3 values => cases h
  | case4 value ih =>
    rw [joinValue] at h
    cases hvalue : joinValue refText value with
    | error e' => exact ih hvalue
    | ok inner => rw [hvalue] at h; cases h
  | case5 value hundef hscalar harray hnegated =>
    cases value <;> first | exact absurd rfl hundef | exact absurd rfl (hscalar _) | exact absurd rfl (harray _) |
      exact absurd rfl (hnegated _) | trivial

/-! ## When the operands are faithful -/

/-- A call that succeeds has a protocol with ports, and gives the operands of the value. -/
theorem multiportParams_eq_ok {rule rule' : Rule} {value result : Value}
    (h : multiportParams refText rule (.ok value) = .ok (rule', result)) :
    Supported rule ∧ multiportOperands refText value = .ok result := by
  unfold multiportParams at h
  cases hcheck : checkProtocol (realizeProtocol rule).2 with
  | error e =>
    simp only [hcheck, bind, Except.bind] at h
    cases h
  | ok checked =>
    cases hoperands : multiportOperands refText value with
    | error e =>
      simp only [hcheck, hoperands, bind, Except.bind] at h
      cases h
    | ok operands =>
      simp only [hcheck, hoperands, bind, Except.bind, pure, Except.pure, Except.ok.injEq, Prod.mk.injEq] at h
      exact ⟨hcheck, congrArg Except.ok h.2⟩

/-- With a protocol that has ports, the call gives the operands of the value. -/
theorem multiportParams_of_supported {rule : Rule} {value result : Value} (hrule : Supported rule)
    (h : multiportOperands refText value = .ok result) :
    multiportParams refText rule (.ok value) = .ok ((realizeProtocol rule).1, result) := by
  unfold Supported at hrule
  simp only [multiportParams, hrule, h, bind, Except.bind, pure, Except.pure]

/-- The elements of an array that is counted are ports. -/
theorem ports_of_counted {values : List Value} (h : Counted (.array values)) :
    ∃ texts : List String, values = texts.map .scalar ∧ ∀ text ∈ texts, IsPort text := by
  change ∀ value ∈ values, ∃ text, value = .scalar text ∧ IsPort text at h
  induction values with
  | nil => exact ⟨[], rfl, fun _ hmem => absurd hmem List.not_mem_nil⟩
  | cons value values ih =>
    obtain ⟨⟨text, rfl, hport⟩, hrest⟩ := List.forall_mem_cons.1 h
    obtain ⟨texts, rfl, hports⟩ := ih hrest
    exact ⟨text :: texts, rfl, List.forall_mem_cons.2 ⟨hport, hports⟩⟩

/-- A rule for `tcp`. -/
def tcpRule : Rule := { keywords := 0, keywordModule := 0, protocol := .scalar "tcp" }

end Ferm.Multiport
