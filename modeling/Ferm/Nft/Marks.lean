import Ferm.Lib.BitExpr
import Ferm.Lib.IntLiteral
import Ferm.Lib.Monadic
import Ferm.Nft.Declarations
import Ferm.Nft.Values

/-!
# Marks

A packet and a connection have a mark of 32 bits. The targets and matches on marks are written as bit expressions, shorter ones where
the mask allows it. The texts are read back here by what nft does with them, and compared with what the options of iptables do.
-/

namespace Ferm

/-! ## Operands -/

/-- The mark of the packet or of its connection. -/
inductive MarkRegister where
  | packet
  | connection
  deriving DecidableEq, Repr

/-- nft's words for a mark. -/
def MarkRegister.word : MarkRegister → String
  | packet => "meta mark"
  | connection => "ct mark"

/-- `_MARK_MAX`. -/
def MARK_MAX : Int := 4294967295

/-- A number fits in a mark. -/
def inMarkRange (value : Int) : Bool := 0 ≤ value && value ≤ MARK_MAX

/-- A mark as nft prints it: eight hexadecimal digits. -/
def hexMark (value : BitVec 32) : String := String.ofList ('0' :: 'x' :: hexDigits 8 value.toNat)

/-- The number a mark is given as. -/
def markNumber (scalar : String) : Except Raised String :=
  match intLiteral scalar.toList with
  | none => .error (.ferm ("invalid mark '" ++ scalar ++ "' for nft backend"))
  | some value =>
    if inMarkRange value then .ok (hexMark (BitVec.ofInt 32 value))
    else .error (.ferm ("invalid mark '" ++ scalar ++ "' for nft backend"))

/-- `_mark_value`: a full mask says nothing. -/
def markValue (scalar : String) : Except Raised String :=
  match partitionAt '/' scalar.toList with
  | none => markNumber scalar
  | some (base, mask) =>
    if intLiteral mask = some MARK_MAX then markNumber (String.ofList base)
    else .error (.ferm ("masked mark '" ++ scalar ++ "' not yet supported by nft backend"))

/-- The two numbers of a masked mark, where both fit. -/
def maskedNumbers (base mask : List Char) : Option (BitVec 32 × BitVec 32) :=
  match intLiteral base, intLiteral mask with
  | some value, some maskValue =>
    if inMarkRange value && inMarkRange maskValue then some (BitVec.ofInt 32 value, BitVec.ofInt 32 maskValue) else none
  | _, _ => none

/-! ## Targets -/

/-- The rewrite of a mark by a value within a mask. -/
def maskedMarkRewrite (scalar base option : String) (register : MarkRegister) (value mask : BitVec 32) : Except Raised String :=
  let set := register.word ++ " set "
  let andOperand := ~~~mask ||| value
  if mask = 0 then .error (.ferm (option ++ " '" ++ scalar ++ "' has a zero mask (a no-op) for nft backend"))
  else if value &&& ~~~mask ≠ 0 then
    .error (.ferm (option ++ " '" ++ scalar ++ "' value has bits outside its mask for nft backend"))
  else if mask = BitVec.allOnes 32 then do
    let text ← markValue base
    return set ++ text
  else if andOperand = BitVec.allOnes 32 ∧ value ≠ 0 then .ok (set ++ register.word ++ " | " ++ hexMark value)
  else if value = 0 then .ok (set ++ register.word ++ " & " ++ hexMark andOperand)
  else .ok (set ++ register.word ++ " & " ++ hexMark andOperand ++ " | " ++ hexMark value)

/-- `_masked_mark_set`. -/
def maskedMarkSet (scalar option : String) (register : MarkRegister) : Except Raised String :=
  match partitionAt '/' scalar.toList with
  | none => do
    let text ← markValue scalar
    return register.word ++ " set " ++ text
  | some (base, mask) =>
    match maskedNumbers base mask with
    | some (value, maskValue) => maskedMarkRewrite scalar (String.ofList base) option register value maskValue
    | none => .error (.ferm ("invalid " ++ option ++ " '" ++ scalar ++ "' for nft backend"))

/-- A value and a mask as `set-mark` hands them on. -/
def effectiveMark (value mask : BitVec 32) : String :=
  String.ofList ('0' :: 'x' :: Nat.toDigits 16 value.toNat ++ '/' :: '0' :: 'x' :: Nat.toDigits 16 (value ||| mask).toNat)

/-- `_setmark_effective`. -/
def setmarkEffective (scalar : String) : Except Raised String :=
  match partitionAt '/' scalar.toList with
  | none => .ok scalar
  | some (base, mask) =>
    match maskedNumbers base mask with
    | some (value, maskValue) => .ok (effectiveMark value maskValue)
    | none => .error (.ferm ("invalid set-mark '" ++ scalar ++ "' for nft backend"))

/-- The operations on a mark. -/
inductive MarkOperation where
  | setMark
  | setXmark
  | andMark
  | orMark
  | xorMark
  deriving DecidableEq, Repr

/-- The option of an operation. -/
def MarkOperation.word : MarkOperation → String
  | setMark => "set-mark"
  | setXmark => "set-xmark"
  | andMark => "and-mark"
  | orMark => "or-mark"
  | xorMark => "xor-mark"

/-- All operations. -/
def MARK_OPERATIONS : List MarkOperation := [.setMark, .setXmark, .andMark, .orMark, .xorMark]

/-- `_mark_arith_operand`. -/
def markArithOperand (option : Unfold.RenderedOption) : Except Raised String := do
  let (scalar, _) ← unwrapValue option.value
  markValue scalar

/-- One operation on a mark. -/
def markOperationSet (register : MarkRegister) (option : Unfold.RenderedOption) : MarkOperation → Except Raised String
  | .setXmark => do
    let (scalar, _) ← unwrapValue option.value
    maskedMarkSet scalar "set-xmark" register
  | .setMark => do
    let (scalar, _) ← unwrapValue option.value
    let effective ← setmarkEffective scalar
    maskedMarkSet effective "set-mark" register
  | .andMark => do
    let operand ← markArithOperand option
    return register.word ++ " set " ++ register.word ++ " & " ++ operand
  | .orMark => do
    let operand ← markArithOperand option
    return register.word ++ " set " ++ register.word ++ " | " ++ operand
  | .xorMark => do
    let operand ← markArithOperand option
    return register.word ++ " set " ++ register.word ++ " ^ " ++ operand

/-- `_mark_arith_set`: exactly one operation is given. -/
def markArithSet (register : MarkRegister) (target : String) (companions : String → Option Unfold.RenderedOption) :
    Except Raised String :=
  match MARK_OPERATIONS.filterMap fun operation => (companions operation.word).map fun option => (operation, option) with
  | [(operation, option)] => markOperationSet register option operation
  | _ => .error (.ferm (target ++ " target not yet supported by nft backend"))

/-- `first_scalar`. -/
def firstScalar : Value → Except Raised String
  | .multi (.scalar text :: _) => .ok text
  | .params (.scalar text :: _) => .ok text
  | .scalar text => .ok text
  | _ => .error (.ferm UNSUPPORTED_VALUE_SHAPE)

/-- The rewrite that `tproxy-mark` adds to a verdict of TPROXY. -/
def tproxyMark (option : Unfold.RenderedOption) : Except Raised String := do
  let scalar ← firstScalar option.value
  maskedMarkSet scalar "tproxy-mark" .packet

/-! ## Matches -/

/-- `_op`. -/
def matchOp (neg : Bool) : String := if neg then "!= " else ""

/-- `_masked_mark_expr`: nothing where the mask is full, or where there is none. -/
def maskedMarkExpr (register : MarkRegister) (scalar : String) (neg : Bool) : Except Raised (Option String) :=
  match partitionAt '/' scalar.toList with
  | none => .ok none
  | some (base, mask) =>
    match intLiteral base, intLiteral mask with
    | some value, some maskValue =>
      if maskValue = MARK_MAX then .ok none
      else if inMarkRange value && inMarkRange maskValue then
        .ok (some (register.word ++ " & " ++ hexMark (BitVec.ofInt 32 maskValue) ++ (if neg then " != " else " == ") ++
          hexMark (BitVec.ofInt 32 value)))
      else .error (.ferm ("invalid mark '" ++ scalar ++ "' for nft backend"))
    | _, _ => .error (.ferm ("invalid mark '" ++ scalar ++ "' for nft backend"))

/-- What `mark` is translated to: the match on the mark of a packet, or on that of a connection. -/
def markMatch (register : MarkRegister) (scalar : String) (neg : Bool) : Except Raised String := do
  match ← maskedMarkExpr register scalar neg with
  | some text => return text
  | none =>
    let value ← markValue scalar
    return register.word ++ " " ++ matchOp neg ++ value

/-! ## What nft does -/

/-- A mark in hexadecimal. -/
def readMark (text : List Char) : Option (BitVec 32) :=
  match text with
  | '0' :: 'x' :: digits => if !digits.isEmpty && digits.all isHexDigit then some (BitVec.ofNat 32 (uintValue 16 digits)) else none
  | _ => none

/-- What has no operator: the register, or a number. -/
def markAtom (register : MarkRegister) (m : BitVec 32) (ws : List String) : Option (BitVec 32) :=
  if ws = words register.word then some m
  else
    match ws with
    | [word] => readMark word.toList
    | _ => none

/-- The mark after a statement that sets it. -/
def evalMarkSet (register : MarkRegister) (text : String) (m : BitVec 32) : Option (BitVec 32) :=
  match (words text).splitOn "set" with
  | [target, expr] => if target = words register.word then BitExpr.eval (markAtom register m) expr else none
  | _ => none

/-- Whether a match on a mark holds; two sides without an operator between them are compared. -/
def evalMarkMatch (register : MarkRegister) (text : String) (m : BitVec 32) : Option Bool :=
  let side := BitExpr.eval (markAtom register m)
  match (words text).splitOn "!=", (words text).splitOn "==" with
  | [left, right], _ => do return (← side left) ≠ (← side right)
  | _, [left, right] => do return (← side left) = (← side right)
  | _, _ => do return (← side (words text).dropLast) = (← side (words text).getLast?.toList)

/-! ### Reading the texts -/

theorem hexMark_ne {word : String} (h : word.toList.head? ≠ some '0') (value : BitVec 32) : hexMark value ≠ word := by
  rintro rfl
  rw [hexMark, String.toList_ofList] at h
  exact h rfl

theorem words_hexMark (value : BitVec 32) : words (hexMark value) = [hexMark value] := by
  refine words_eq_singleton (by simp [hexMark]) fun hmem => ?_
  rw [hexMark, String.toList_ofList] at hmem
  rcases List.mem_cons.1 hmem with h | hmem
  · exact absurd h (by decide)
  · rcases List.mem_cons.1 hmem with h | hmem
    · exact absurd h (by decide)
    · exact absurd (isHexDigit_of_mem_hexDigits hmem) (by decide)

theorem readMark_hexMark (value : BitVec 32) : readMark (hexMark value).toList = some value := by
  have hvalue : uintValue 16 (hexDigits 8 value.toNat) = value.toNat := uintValue_hexDigits value.isLt
  have hall : (hexDigits 8 value.toNat).all isHexDigit = true := List.all_eq_true.2 fun c hc => isHexDigit_of_mem_hexDigits hc
  have hne : (hexDigits 8 value.toNat).isEmpty = false := by simp [hexDigits, groups]
  rw [hexMark, String.toList_ofList, readMark, hall, hne, hvalue]
  simp

theorem markAtom_register (register : MarkRegister) (m : BitVec 32) : markAtom register m (words register.word) = some m := if_pos rfl

theorem markAtom_hexMark (register : MarkRegister) (m value : BitVec 32) : markAtom register m [hexMark value] = some value := by
  have hne : [hexMark value] ≠ words register.word := by
    intro h
    have hlength : (words register.word).length = 2 := by cases register <;> decide
    rw [← h] at hlength
    cases hlength
  rw [markAtom, if_neg hne]
  exact readMark_hexMark value

theorem noOperator_register (register : MarkRegister) : BitExpr.NoOperator (words register.word) := by cases register <;> decide

theorem noOperator_hexMark (value : BitVec 32) : BitExpr.NoOperator [hexMark value] := by
  refine ⟨?_, ?_, ?_⟩
  all_goals
    rw [List.mem_singleton]
    exact Ne.symm (hexMark_ne (by decide) value)

/-- The words of the texts on marks. -/
theorem not_mem_register {word : String} (h : word ≠ "meta" ∧ word ≠ "ct" ∧ word ≠ "mark") (register : MarkRegister) :
    word ∉ words register.word := by
  have hwords : ∀ other ∈ words register.word, other = "meta" ∨ other = "ct" ∨ other = "mark" := by cases register <;> decide
  intro hmem
  rcases hwords word hmem with rfl | rfl | rfl
  · exact h.1 rfl
  · exact h.2.1 rfl
  · exact h.2.2 rfl

/-- A statement sets the register to the value of its expression. -/
theorem evalMarkSet_eq {register : MarkRegister} {expr : String} (h : "set" ∉ words expr) (m : BitVec 32) :
    evalMarkSet register (register.word ++ " set " ++ expr) m = BitExpr.eval (markAtom register m) (words expr) := by
  rw [evalMarkSet, words_between (by decide : " set ".toList = ' ' :: "set".toList ++ [' ']) (by decide),
    List.splitOn_append_cons_self, List.splitOn_eq_singleton (not_mem_register (by decide) register), List.splitOn_eq_singleton h]
  exact if_pos rfl

/-- A register, an operator and a mark. -/
theorem words_operation {op sep : String} (hsep : sep.toList = ' ' :: op.toList ++ [' ']) (hop : words op = [op]) (register : MarkRegister)
    (value : BitVec 32) : words (register.word ++ sep ++ hexMark value) = words register.word ++ op :: [hexMark value] := by
  rw [words_between hsep hop, words_hexMark]

theorem set_not_mem_operation {op : String} (hop : op ≠ "set") (register : MarkRegister) (value : BitVec 32) :
    "set" ∉ words register.word ++ op :: [hexMark value] := by
  simp only [List.mem_append, List.mem_cons, List.not_mem_nil, or_false, not_or]
  exact ⟨not_mem_register (by decide) register, Ne.symm hop, Ne.symm (hexMark_ne (by decide) value)⟩

theorem evalMarkSet_value (register : MarkRegister) (value m : BitVec 32) :
    evalMarkSet register (register.word ++ " set " ++ hexMark value) m = some value := by
  rw [evalMarkSet_eq (by rw [words_hexMark, List.mem_singleton]; exact Ne.symm (hexMark_ne (by decide) value)), words_hexMark,
    BitExpr.eval_atom (noOperator_hexMark value), markAtom_hexMark]

theorem evalMarkSet_and (register : MarkRegister) (value m : BitVec 32) :
    evalMarkSet register (register.word ++ " set " ++ (register.word ++ " & " ++ hexMark value)) m = some (m &&& value) := by
  have hwords := words_operation (by decide : " & ".toList = ' ' :: "&".toList ++ [' ']) (by decide) register value
  rw [evalMarkSet_eq (by rw [hwords]; exact set_not_mem_operation (by decide) register value), hwords,
    BitExpr.eval_and (noOperator_register register) (noOperator_hexMark value), markAtom_register, markAtom_hexMark]
  rfl

theorem evalMarkSet_xor (register : MarkRegister) (value m : BitVec 32) :
    evalMarkSet register (register.word ++ " set " ++ (register.word ++ " ^ " ++ hexMark value)) m = some (m ^^^ value) := by
  have hwords := words_operation (by decide : " ^ ".toList = ' ' :: "^".toList ++ [' ']) (by decide) register value
  rw [evalMarkSet_eq (by rw [hwords]; exact set_not_mem_operation (by decide) register value), hwords,
    BitExpr.eval_xor (noOperator_register register) (noOperator_hexMark value), markAtom_register, markAtom_hexMark]
  rfl

theorem evalMarkSet_or (register : MarkRegister) (value m : BitVec 32) :
    evalMarkSet register (register.word ++ " set " ++ (register.word ++ " | " ++ hexMark value)) m = some (m ||| value) := by
  have hwords := words_operation (by decide : " | ".toList = ' ' :: "|".toList ++ [' ']) (by decide) register value
  rw [evalMarkSet_eq (by rw [hwords]; exact set_not_mem_operation (by decide) register value), hwords,
    BitExpr.eval_or (noOperator_hexMark value) (noOperator_register register).2.2,
    BitExpr.eval_atom (noOperator_register register), markAtom_register, markAtom_hexMark]
  rfl

theorem evalMarkSet_and_or (register : MarkRegister) (operand value m : BitVec 32) :
    evalMarkSet register (register.word ++ " set " ++ (register.word ++ " & " ++ hexMark operand ++ " | " ++ hexMark value)) m =
      some (m &&& operand ||| value) := by
  have hand := words_operation (by decide : " & ".toList = ' ' :: "&".toList ++ [' ']) (by decide) register operand
  have hwords : words (register.word ++ " & " ++ hexMark operand ++ " | " ++ hexMark value) =
      (words register.word ++ "&" :: [hexMark operand]) ++ "|" :: [hexMark value] := by
    rw [words_between (by decide : " | ".toList = ' ' :: "|".toList ++ [' ']) (by decide), hand, words_hexMark]
  have hset : "set" ∉ (words register.word ++ "&" :: [hexMark operand]) ++ "|" :: [hexMark value] := by
    rw [List.mem_append, not_or]
    refine ⟨set_not_mem_operation (by decide) register operand, ?_⟩
    simp only [List.mem_cons, List.not_mem_nil, or_false, not_or]
    exact ⟨by decide, Ne.symm (hexMark_ne (by decide) value)⟩
  have hor : "|" ∉ words register.word ++ "&" :: [hexMark operand] := by
    simp only [List.mem_append, List.mem_cons, List.not_mem_nil, or_false, not_or]
    exact ⟨(noOperator_register register).2.2, by decide, Ne.symm (hexMark_ne (by decide) operand)⟩
  rw [evalMarkSet_eq (by rw [hwords]; exact hset), hwords, BitExpr.eval_or (noOperator_hexMark value) hor,
    BitExpr.eval_and (noOperator_register register) (noOperator_hexMark operand), markAtom_register, markAtom_hexMark,
    markAtom_hexMark]
  rfl

/-! ## What an operand says -/

/-- The value and the mask of an operand, which has a full mask if it names none. -/
def markOperand (scalar : String) : Option (Int × Int) :=
  match partitionAt '/' scalar.toList with
  | none => (intLiteral scalar.toList).map fun value => (value, MARK_MAX)
  | some (base, mask) => do return (← intLiteral base, ← intLiteral mask)

/-- The operand gives a value and a mask of 32 bits. -/
def MarkDenotes (scalar : String) (value mask : BitVec 32) : Prop := markOperand scalar = some ((value.toNat : Int), (mask.toNat : Int))

theorem inMarkRange_iff {n : Int} : inMarkRange n = true ↔ ∃ value : BitVec 32, n = value.toNat := by
  rw [inMarkRange, Bool.and_eq_true, decide_eq_true_eq, decide_eq_true_eq, MARK_MAX]
  constructor
  · rintro ⟨hlow, hhigh⟩
    refine ⟨BitVec.ofNat 32 n.toNat, ?_⟩
    rw [BitVec.toNat_ofNat, Nat.mod_eq_of_lt (by omega)]
    omega
  · rintro ⟨value, rfl⟩
    have hlt := value.isLt
    omega

@[simp] theorem ofInt_toNat (value : BitVec 32) : BitVec.ofInt 32 (value.toNat : Int) = value := by
  rw [BitVec.ofInt_natCast, BitVec.ofNat_toNat, BitVec.setWidth_eq]

theorem MarkDenotes.unique {scalar : String} {value mask value' mask' : BitVec 32} (h : MarkDenotes scalar value mask)
    (h' : MarkDenotes scalar value' mask') : value = value' ∧ mask = mask' := by
  rw [MarkDenotes, h, Option.some.injEq, Prod.mk.injEq] at h'
  exact ⟨BitVec.eq_of_toNat_eq (by omega), BitVec.eq_of_toNat_eq (by omega)⟩

/-- A number in the range of a mark is written in hexadecimal. -/
theorem markNumber_eq_ok_iff {scalar text : String} :
    markNumber scalar = .ok text ↔ ∃ value : BitVec 32, intLiteral scalar.toList = some (value.toNat : Int) ∧ text = hexMark value := by
  unfold markNumber
  cases hnumber : intLiteral scalar.toList with
  | none => exact iff_of_false nofun fun ⟨_, h, _⟩ => nomatch h
  | some n =>
    dsimp only
    split
    · rename_i hrange
      obtain ⟨value, rfl⟩ := inMarkRange_iff.1 hrange
      rw [ofInt_toNat, Except.ok.injEq]
      constructor
      · rintro rfl
        exact ⟨value, rfl, rfl⟩
      · rintro ⟨value', hvalue, rfl⟩
        rw [Option.some.injEq] at hvalue
        rw [BitVec.eq_of_toNat_eq (show value.toNat = value'.toNat by omega)]
    · rename_i hrange
      refine iff_of_false nofun ?_
      rintro ⟨value, hvalue, -⟩
      rw [Option.some.injEq] at hvalue
      exact hrange (inMarkRange_iff.2 ⟨value, hvalue⟩)

theorem mark_max_eq : MARK_MAX = ((BitVec.allOnes 32).toNat : Int) := by decide

/-- A mark without a mask, or with a full one, is written in hexadecimal. -/
theorem markValue_eq_ok_iff {scalar text : String} :
    markValue scalar = .ok text ↔ ∃ value, MarkDenotes scalar value (BitVec.allOnes 32) ∧ text = hexMark value := by
  unfold markValue MarkDenotes markOperand
  cases hpart : partitionAt '/' scalar.toList with
  | none =>
    dsimp only
    rw [markNumber_eq_ok_iff, mark_max_eq]
    simp
  | some parts =>
    obtain ⟨base, mask⟩ := parts
    dsimp only
    split
    · rename_i hmask
      rw [markNumber_eq_ok_iff, hmask, mark_max_eq, String.toList_ofList]
      cases intLiteral base <;> simp
    · rename_i hmask
      refine iff_of_false nofun ?_
      rintro ⟨value, hvalue, -⟩
      refine hmask ?_
      rw [mark_max_eq]
      cases hbase : intLiteral base with
      | none => simp [hbase] at hvalue
      | some n =>
        cases hnumber : intLiteral mask with
        | none => simp [hbase, hnumber] at hvalue
        | some k =>
          simp only [hbase, hnumber] at hvalue
          cases hvalue
          rfl

/-! ## The targets are exact -/

/-- The mark that is left of `m`. -/
def MarkOperation.result (value mask m : BitVec 32) : MarkOperation → BitVec 32
  | setMark => m &&& ~~~(value ||| mask) ||| value
  | setXmark => m &&& ~~~mask ^^^ value
  | andMark => m &&& value
  | orMark => m ||| value
  | xorMark => m ^^^ value

/-- What nft has an expression for: a rewrite that changes something, of bits within the mask, and bit operations without a mask. -/
def MarkOperation.Spelled (value mask : BitVec 32) : MarkOperation → Prop
  | setMark => value ||| mask ≠ 0
  | setXmark => mask ≠ 0 ∧ value &&& ~~~mask = 0
  | andMark => mask = BitVec.allOnes 32
  | orMark => mask = BitVec.allOnes 32
  | xorMark => mask = BitVec.allOnes 32

/-- The text of a rewrite. -/
def rewriteText (register : MarkRegister) (value mask : BitVec 32) : String :=
  let set := register.word ++ " set "
  let andOperand := ~~~mask ||| value
  if mask = BitVec.allOnes 32 then set ++ hexMark value
  else if andOperand = BitVec.allOnes 32 ∧ value ≠ 0 then set ++ register.word ++ " | " ++ hexMark value
  else if value = 0 then set ++ register.word ++ " & " ++ hexMark andOperand
  else set ++ register.word ++ " & " ++ hexMark andOperand ++ " | " ++ hexMark value

section

variable (m value mask : BitVec 32)

theorem xor_of_full (h : mask = BitVec.allOnes 32) : m &&& ~~~mask ^^^ value = value := by
  subst h
  ext i hi
  simp

theorem xor_of_covered (hwithin : value &&& ~~~mask = 0) (hcovered : ~~~mask ||| value = BitVec.allOnes 32) :
    m &&& ~~~mask ^^^ value = m ||| value := by
  ext i hi
  have hw := congrArg (fun v => v[i]) hwithin
  have hc := congrArg (fun v => v[i]) hcovered
  revert hw hc
  simp only [BitVec.getElem_and, BitVec.getElem_not, BitVec.getElem_or, BitVec.getElem_xor, BitVec.getElem_allOnes]
  cases m[i] <;> cases value[i] <;> cases mask[i] <;> simp

theorem xor_of_within (hwithin : value &&& ~~~mask = 0) : m &&& ~~~mask ^^^ value = m &&& (~~~mask ||| value) ||| value := by
  ext i hi
  have hw := congrArg (fun v => v[i]) hwithin
  revert hw
  simp only [BitVec.getElem_and, BitVec.getElem_not, BitVec.getElem_or, BitVec.getElem_xor]
  cases m[i] <;> cases value[i] <;> cases mask[i] <;> simp

theorem xor_effective : m &&& ~~~(value ||| mask) ^^^ value = m &&& ~~~(value ||| mask) ||| value := by
  ext i hi
  simp only [BitVec.getElem_and, BitVec.getElem_not, BitVec.getElem_or, BitVec.getElem_xor]
  cases m[i] <;> cases value[i] <;> cases mask[i] <;> rfl

theorem within_effective : value &&& ~~~(value ||| mask) = 0 := by
  ext i hi
  simp only [BitVec.getElem_and, BitVec.getElem_not, BitVec.getElem_or]
  cases value[i] <;> cases mask[i] <;> simp

end

/-- The text of a rewrite is what the kernel computes. -/
theorem evalMarkSet_rewriteText (register : MarkRegister) {value mask : BitVec 32} (hwithin : value &&& ~~~mask = 0) (m : BitVec 32) :
    evalMarkSet register (rewriteText register value mask) m = some (m &&& ~~~mask ^^^ value) := by
  unfold rewriteText
  dsimp only
  split
  · rename_i hfull
    rw [evalMarkSet_value, xor_of_full m value mask hfull]
  · split
    · rename_i hcovered
      have hassoc : register.word ++ " set " ++ register.word ++ " | " ++ hexMark value =
          register.word ++ " set " ++ (register.word ++ " | " ++ hexMark value) := by simp only [String.append_assoc]
      rw [hassoc, evalMarkSet_or, xor_of_covered m value mask hwithin hcovered.1]
    · split
      · rename_i hzero
        have hassoc : register.word ++ " set " ++ register.word ++ " & " ++ hexMark (~~~mask ||| value) =
            register.word ++ " set " ++ (register.word ++ " & " ++ hexMark (~~~mask ||| value)) := by
          simp only [String.append_assoc]
        rw [hassoc, evalMarkSet_and, xor_of_within m value mask hwithin, hzero]
        simp
      · have hassoc : register.word ++ " set " ++ register.word ++ " & " ++ hexMark (~~~mask ||| value) ++ " | " ++ hexMark value =
            register.word ++ " set " ++ (register.word ++ " & " ++ hexMark (~~~mask ||| value) ++ " | " ++ hexMark value) := by
          simp only [String.append_assoc]
        rw [hassoc, evalMarkSet_and_or, xor_of_within m value mask hwithin]

theorem maskedMarkRewrite_eq_ok_iff {scalar base option text : String} {register : MarkRegister} {value mask : BitVec 32}
    (hbase : markValue base = .ok (hexMark value)) :
    maskedMarkRewrite scalar base option register value mask = .ok text ↔
      (mask ≠ 0 ∧ value &&& ~~~mask = 0) ∧ text = rewriteText register value mask := by
  unfold maskedMarkRewrite rewriteText
  rw [hbase]
  dsimp only
  by_cases hzero : mask = 0
  · rw [if_pos hzero]
    exact iff_of_false nofun fun h => h.1.1 hzero
  · by_cases hwithin : value &&& ~~~mask = 0
    · have hok : ∀ written : String, (.ok written : Except Raised String) = .ok text ↔ text = written := fun written =>
        ⟨fun h => (Except.ok.inj h).symm, fun h => h ▸ rfl⟩
      have hspelled : mask ≠ 0 ∧ value &&& ~~~mask = 0 := ⟨hzero, hwithin⟩
      rw [if_neg hzero, if_neg (not_not.2 hwithin), and_iff_right hspelled]
      split
      · exact hok _
      · split
        · exact hok _
        · split <;> exact hok _
    · rw [if_neg hzero, if_pos hwithin]
      exact iff_of_false nofun fun h => hwithin h.1.2

theorem markOperand_of_slash {scalar : String} {base mask : List Char} (h : partitionAt '/' scalar.toList = some (base, mask))
    {value k : BitVec 32} : MarkDenotes scalar value k ↔ intLiteral base = some (value.toNat : Int) ∧ intLiteral mask = some (k.toNat : Int) := by
  rw [MarkDenotes, markOperand, h]
  cases hbase : intLiteral base <;> cases hmask : intLiteral mask <;> simp [hbase, hmask]

/-- An operand without a mask has the full one. -/
theorem markOperand_of_no_slash {scalar : String} (h : partitionAt '/' scalar.toList = none) {value k : BitVec 32} :
    MarkDenotes scalar value k ↔ intLiteral scalar.toList = some (value.toNat : Int) ∧ k = BitVec.allOnes 32 := by
  rw [MarkDenotes, markOperand, h, mark_max_eq]
  cases hbase : intLiteral scalar.toList with
  | none => simp
  | some n =>
    simp only [Option.map_some, Option.some.injEq, Prod.mk.injEq]
    refine and_congr_right fun _ => ⟨fun hk => BitVec.eq_of_toNat_eq (by omega), fun hk => by rw [hk]⟩

/-- What stands before a slash has none. -/
theorem markValue_base {scalar : String} {base mask : List Char} (h : partitionAt '/' scalar.toList = some (base, mask))
    {value : BitVec 32} (hbase : intLiteral base = some (value.toNat : Int)) : markValue (String.ofList base) = .ok (hexMark value) := by
  have hnone : partitionAt '/' (String.ofList base).toList = none := by
    rw [String.toList_ofList]
    exact partitionAt_eq_none (partitionAt_eq_some h).2
  rw [markValue_eq_ok_iff]
  refine ⟨value, (markOperand_of_no_slash hnone).2 ⟨?_, rfl⟩, rfl⟩
  rw [String.toList_ofList, hbase]

theorem maskedNumbers_eq_some_iff {base mask : List Char} {value k : BitVec 32} : maskedNumbers base mask = some (value, k) ↔
    intLiteral base = some (value.toNat : Int) ∧ intLiteral mask = some (k.toNat : Int) := by
  unfold maskedNumbers
  constructor
  · intro h
    split at h
    · rename_i a b ha hb
      split at h
      · rename_i hrange
        rw [Bool.and_eq_true, inMarkRange_iff, inMarkRange_iff] at hrange
        obtain ⟨⟨value', rfl⟩, k', rfl⟩ := hrange
        rw [ofInt_toNat, ofInt_toNat] at h
        cases h
        exact ⟨ha, hb⟩
      · cases h
    · cases h
  · rintro ⟨ha, hb⟩
    have hrange : (inMarkRange (value.toNat : Int) && inMarkRange (k.toNat : Int)) = true :=
      Bool.and_eq_true_iff.2 ⟨inMarkRange_iff.2 ⟨value, rfl⟩, inMarkRange_iff.2 ⟨k, rfl⟩⟩
    rw [ha, hb]
    dsimp only
    rw [if_pos hrange, ofInt_toNat, ofInt_toNat]

/-- The two numbers of an operand with a mask. -/
theorem maskedNumbers_iff_denotes {scalar : String} {base mask : List Char} (h : partitionAt '/' scalar.toList = some (base, mask))
    {value k : BitVec 32} : maskedNumbers base mask = some (value, k) ↔ MarkDenotes scalar value k :=
  maskedNumbers_eq_some_iff.trans (markOperand_of_slash h).symm

/-- A rewrite is written when its operand denotes a value within a mask that is not zero. -/
theorem maskedMarkSet_eq_ok_iff {scalar option text : String} {register : MarkRegister} :
    maskedMarkSet scalar option register = .ok text ↔ ∃ value mask, MarkDenotes scalar value mask ∧
      MarkOperation.setXmark.Spelled value mask ∧ text = rewriteText register value mask := by
  have hfull : ∀ value : BitVec 32, MarkOperation.setXmark.Spelled value (BitVec.allOnes 32) ∧
      rewriteText register value (BitVec.allOnes 32) = register.word ++ " set " ++ hexMark value := fun value =>
    ⟨⟨by decide, by simp⟩, by simp [rewriteText]⟩
  unfold maskedMarkSet
  cases hpart : partitionAt '/' scalar.toList with
  | none =>
    dsimp only
    rw [Except.bind_eq_ok]
    constructor
    · rintro ⟨_, hvalue, htext⟩
      obtain ⟨value, hdenotes, rfl⟩ := markValue_eq_ok_iff.1 hvalue
      cases htext
      exact ⟨value, _, hdenotes, (hfull value).1, (hfull value).2.symm⟩
    · rintro ⟨value, mask, hdenotes, -, rfl⟩
      obtain ⟨-, rfl⟩ := (markOperand_of_no_slash hpart).1 hdenotes
      exact ⟨_, markValue_eq_ok_iff.2 ⟨value, hdenotes, rfl⟩, congrArg Except.ok (hfull value).2.symm⟩
  | some parts =>
    obtain ⟨base, mask⟩ := parts
    dsimp only
    cases hnumbers : maskedNumbers base mask with
    | none =>
      refine iff_of_false nofun ?_
      rintro ⟨value, k, hdenotes, -⟩
      rw [(maskedNumbers_iff_denotes hpart).2 hdenotes] at hnumbers
      cases hnumbers
    | some numbers =>
      obtain ⟨value, k⟩ := numbers
      have hdenotes := (maskedNumbers_iff_denotes hpart).1 hnumbers
      dsimp only
      rw [maskedMarkRewrite_eq_ok_iff (markValue_base hpart (maskedNumbers_eq_some_iff.1 hnumbers).1)]
      constructor
      · exact fun h => ⟨value, k, hdenotes, h⟩
      · rintro ⟨value', k', hdenotes', h⟩
        obtain ⟨rfl, rfl⟩ := hdenotes.unique hdenotes'
        exact h

/-- The operand `set-mark` hands on denotes its value within the mask the kernel takes. -/
theorem markDenotes_effectiveMark (value mask : BitVec 32) : MarkDenotes (effectiveMark value mask) value (value ||| mask) := by
  have hslash : '/' ∉ '0' :: 'x' :: Nat.toDigits 16 value.toNat := by
    simp only [List.mem_cons, not_or]
    exact ⟨by decide, by decide, not_mem_toDigits (by decide) (by decide) (by decide) _⟩
  have hpart : partitionAt '/' (effectiveMark value mask).toList =
      some ('0' :: 'x' :: Nat.toDigits 16 value.toNat, '0' :: 'x' :: Nat.toDigits 16 (value ||| mask).toNat) := by
    rw [effectiveMark, String.toList_ofList]
    exact partitionAt_append hslash _
  exact (markOperand_of_slash hpart).2 ⟨intLiteral_hex _, intLiteral_hex _⟩

theorem setmarkEffective_eq_ok_iff {scalar text : String} : setmarkEffective scalar = .ok text ↔
    (partitionAt '/' scalar.toList = none ∧ text = scalar) ∨
      ∃ value mask, partitionAt '/' scalar.toList ≠ none ∧ MarkDenotes scalar value mask ∧ text = effectiveMark value mask := by
  unfold setmarkEffective
  cases hpart : partitionAt '/' scalar.toList with
  | none =>
    simp only [Except.ok.injEq, true_and, ne_eq, not_true_eq_false, false_and, exists_false, or_false]
    exact eq_comm
  | some parts =>
    obtain ⟨base, mask⟩ := parts
    simp only [reduceCtorEq, false_and, false_or, ne_eq, not_false_eq_true, true_and]
    cases hnumbers : maskedNumbers base mask with
    | none =>
      refine iff_of_false nofun ?_
      rintro ⟨value, k, hdenotes, -⟩
      rw [(maskedNumbers_iff_denotes hpart).2 hdenotes] at hnumbers
      cases hnumbers
    | some numbers =>
      obtain ⟨value, k⟩ := numbers
      have hdenotes := (maskedNumbers_iff_denotes hpart).1 hnumbers
      constructor
      · rintro ⟨⟩
        exact ⟨value, k, hdenotes, rfl⟩
      · rintro ⟨value', k', hdenotes', rfl⟩
        obtain ⟨rfl, rfl⟩ := hdenotes.unique hdenotes'
        rfl

/-- A statement is written where the operand denotes a value and a mask nft has an expression for, and sets the mark to what the
operation makes of them. -/
structure SetsExactly (register : MarkRegister) (operation : MarkOperation) (scalar : String) (written : Except Raised String) : Prop where
  exact : ∀ text, written = .ok text → ∃ value mask, MarkDenotes scalar value mask ∧
    ∀ m, evalMarkSet register text m = some (operation.result value mask m)
  refused : (∃ e, written = .error e) ↔ ¬∃ value mask, MarkDenotes scalar value mask ∧ operation.Spelled value mask

theorem setsExactly_of_ok_iff {register : MarkRegister} {operation : MarkOperation} {scalar : String} {written : Except Raised String}
    (texts : BitVec 32 → BitVec 32 → String)
    (hok : ∀ text, written = .ok text ↔ ∃ value mask, MarkDenotes scalar value mask ∧ operation.Spelled value mask ∧ text = texts value mask)
    (heval : ∀ value mask m, operation.Spelled value mask →
      evalMarkSet register (texts value mask) m = some (operation.result value mask m)) : SetsExactly register operation scalar written := by
  constructor
  · intro text htext
    obtain ⟨value, mask, hdenotes, hspelled, rfl⟩ := (hok text).1 htext
    exact ⟨value, mask, hdenotes, fun m => heval value mask m hspelled⟩
  · constructor
    · rintro ⟨e, he⟩ ⟨value, mask, hdenotes, hspelled⟩
      rw [(hok _).2 ⟨value, mask, hdenotes, hspelled, rfl⟩] at he
      cases he
    · intro hnone
      cases hwritten : written with
      | error e => exact ⟨e, rfl⟩
      | ok text =>
        obtain ⟨value, mask, hdenotes, hspelled, -⟩ := (hok text).1 hwritten
        exact absurd ⟨value, mask, hdenotes, hspelled⟩ hnone

theorem setsExactly_maskedMarkSet (register : MarkRegister) (option scalar : String) :
    SetsExactly register .setXmark scalar (maskedMarkSet scalar option register) :=
  setsExactly_of_ok_iff (rewriteText register) (fun _ => maskedMarkSet_eq_ok_iff) fun _ _ m hspelled => evalMarkSet_rewriteText register hspelled.2 m

/-- `set-mark` is `set-xmark` with the mask the kernel takes. -/
theorem setsExactly_setMark (register : MarkRegister) (scalar : String) : SetsExactly register .setMark scalar (do
    let effective ← setmarkEffective scalar
    maskedMarkSet effective "set-mark" register) := by
  refine setsExactly_of_ok_iff (fun value mask => rewriteText register value (value ||| mask)) (fun text => ?_) fun value mask m _ => ?_
  · rw [Except.bind_eq_ok]
    constructor
    · rintro ⟨effective, heffective, htext⟩
      obtain ⟨value, mask, hdenotes, hspelled, rfl⟩ := maskedMarkSet_eq_ok_iff.1 htext
      rcases setmarkEffective_eq_ok_iff.1 heffective with ⟨hpart, rfl⟩ | ⟨value', mask', -, hdenotes', rfl⟩
      · obtain ⟨-, rfl⟩ := (markOperand_of_no_slash hpart).1 hdenotes
        refine ⟨value, _, hdenotes, ?_, ?_⟩
        · rw [MarkOperation.Spelled, BitVec.or_allOnes]
          exact hspelled.1
        · rw [BitVec.or_allOnes]
      · obtain ⟨rfl, rfl⟩ := hdenotes.unique (markDenotes_effectiveMark value' mask')
        exact ⟨value, mask', hdenotes', hspelled.1, rfl⟩
    · rintro ⟨value, mask, hdenotes, hspelled, rfl⟩
      cases hpart : partitionAt '/' scalar.toList with
      | none =>
        obtain ⟨-, rfl⟩ := (markOperand_of_no_slash hpart).1 hdenotes
        refine ⟨scalar, setmarkEffective_eq_ok_iff.2 (.inl ⟨hpart, rfl⟩), maskedMarkSet_eq_ok_iff.2 ⟨value, _, hdenotes, ⟨by decide, ?_⟩, ?_⟩⟩
        · simp
        · rw [BitVec.or_allOnes]
      | some parts =>
        have hpart' : partitionAt '/' scalar.toList ≠ none := by rw [hpart]; exact nofun
        exact ⟨effectiveMark value mask, setmarkEffective_eq_ok_iff.2 (.inr ⟨value, mask, hpart', hdenotes, rfl⟩),
          maskedMarkSet_eq_ok_iff.2 ⟨value, _, markDenotes_effectiveMark value mask, ⟨hspelled, within_effective value mask⟩, rfl⟩⟩
  · rw [evalMarkSet_rewriteText register (within_effective value mask), xor_effective]
    rfl

/-- The bit operations are written with their operand as it is. -/
theorem setsExactly_bits {register : MarkRegister} {operation : MarkOperation} {sep scalar : String}
    (hspelled : ∀ value mask, operation.Spelled value mask ↔ mask = BitVec.allOnes 32)
    (heval : ∀ value mask m, evalMarkSet register (register.word ++ " set " ++ (register.word ++ sep ++ hexMark value)) m =
      some (operation.result value mask m)) : SetsExactly register operation scalar (do
        let operand ← markValue scalar
        return register.word ++ " set " ++ register.word ++ sep ++ operand) := by
  refine setsExactly_of_ok_iff (fun value _ => register.word ++ " set " ++ (register.word ++ sep ++ hexMark value)) (fun text => ?_)
    fun value mask m _ => heval value mask m
  have hassoc : ∀ value, register.word ++ " set " ++ register.word ++ sep ++ hexMark value =
      register.word ++ " set " ++ (register.word ++ sep ++ hexMark value) := fun value => by simp only [String.append_assoc]
  rw [Except.bind_eq_ok]
  constructor
  · rintro ⟨operand, hoperand, htext⟩
    obtain ⟨value, hdenotes, rfl⟩ := markValue_eq_ok_iff.1 hoperand
    cases htext
    exact ⟨value, _, hdenotes, (hspelled _ _).2 rfl, hassoc value⟩
  · rintro ⟨value, mask, hdenotes, hmask, rfl⟩
    rw [hspelled] at hmask
    subst hmask
    exact ⟨_, markValue_eq_ok_iff.2 ⟨value, hdenotes, rfl⟩, congrArg Except.ok (hassoc value)⟩

theorem setsExactly_markOperationSet (register : MarkRegister) {option : Unfold.RenderedOption} {scalar : String} {neg : Bool}
    (h : unwrapValue option.value = .ok (scalar, neg)) (operation : MarkOperation) :
    SetsExactly register operation scalar (markOperationSet register option operation) := by
  cases operation with
  | setMark =>
    rw [markOperationSet, h]
    exact setsExactly_setMark register scalar
  | setXmark =>
    rw [markOperationSet, h]
    exact setsExactly_maskedMarkSet register _ scalar
  | andMark =>
    rw [markOperationSet, markArithOperand, h]
    exact setsExactly_bits (fun _ _ => Iff.rfl) fun value _ m => evalMarkSet_and register value m
  | orMark =>
    rw [markOperationSet, markArithOperand, h]
    exact setsExactly_bits (fun _ _ => Iff.rfl) fun value _ m => evalMarkSet_or register value m
  | xorMark =>
    rw [markOperationSet, markArithOperand, h]
    exact setsExactly_bits (fun _ _ => Iff.rfl) fun value _ m => evalMarkSet_xor register value m

/-! ## The matches are exact -/

/-- The text of a match. -/
def matchText (register : MarkRegister) (neg : Bool) (value mask : BitVec 32) : String :=
  if mask = BitVec.allOnes 32 then register.word ++ " " ++ matchOp neg ++ hexMark value
  else register.word ++ " & " ++ hexMark mask ++ (if neg then " != " else " == ") ++ hexMark value

/-- The expression of a partial mask: none of an operand with the full one, or without a mask. -/
theorem maskedMarkExpr_cases (register : MarkRegister) (scalar : String) (neg : Bool) :
    (maskedMarkExpr register scalar neg = .ok none ∧ ∀ value mask, MarkDenotes scalar value mask → mask = BitVec.allOnes 32) ∨
    (∃ value mask, MarkDenotes scalar value mask ∧ mask ≠ BitVec.allOnes 32 ∧
      maskedMarkExpr register scalar neg = .ok (some (matchText register neg value mask))) ∨
    ∃ e, maskedMarkExpr register scalar neg = .error e ∧ ∀ value mask, ¬MarkDenotes scalar value mask := by
  unfold maskedMarkExpr
  cases hpart : partitionAt '/' scalar.toList with
  | none => exact .inl ⟨rfl, fun value mask hdenotes => ((markOperand_of_no_slash hpart).1 hdenotes).2⟩
  | some parts =>
    obtain ⟨base, mask⟩ := parts
    have hdenotes : ∀ value k : BitVec 32, MarkDenotes scalar value k ↔
        intLiteral base = some (value.toNat : Int) ∧ intLiteral mask = some (k.toNat : Int) := fun _ _ => markOperand_of_slash hpart
    cases hbase : intLiteral base with
    | none =>
      refine .inr (.inr ⟨.ferm ("invalid mark '" ++ scalar ++ "' for nft backend"), by simp only [hbase], fun value k h => ?_⟩)
      exact nomatch hbase.symm.trans ((hdenotes value k).1 h).1
    | some a =>
      cases hnumber : intLiteral mask with
      | none =>
        refine .inr (.inr ⟨.ferm ("invalid mark '" ++ scalar ++ "' for nft backend"), by simp only [hbase, hnumber], fun value k h => ?_⟩)
        exact nomatch hnumber.symm.trans ((hdenotes value k).1 h).2
      | some b =>
        simp only [hbase, hnumber]
        by_cases hmax : b = MARK_MAX
        · refine .inl ⟨if_pos hmax, fun value k h => BitVec.eq_of_toNat_eq ?_⟩
          have hk := hnumber.symm.trans ((hdenotes value k).1 h).2
          rw [hmax, mark_max_eq, Option.some.injEq] at hk
          omega
        · rw [if_neg hmax]
          cases hrange : inMarkRange a && inMarkRange b with
          | false =>
            refine .inr (.inr ⟨_, if_neg Bool.false_ne_true, fun value k h => ?_⟩)
            obtain ⟨ha, hb⟩ := (hdenotes value k).1 h
            rw [hbase, Option.some.injEq] at ha
            rw [hnumber, Option.some.injEq] at hb
            rw [inMarkRange_iff.2 ⟨value, ha⟩, inMarkRange_iff.2 ⟨k, hb⟩] at hrange
            cases hrange
          | true =>
            rw [Bool.and_eq_true, inMarkRange_iff, inMarkRange_iff] at hrange
            obtain ⟨⟨value, rfl⟩, k, rfl⟩ := hrange
            have hpartial : k ≠ BitVec.allOnes 32 := by
              rintro rfl
              exact hmax mark_max_eq.symm
            refine .inr (.inl ⟨value, k, (hdenotes value k).2 ⟨hbase, hnumber⟩, hpartial, ?_⟩)
            rw [if_pos rfl, ofInt_toNat, ofInt_toNat, matchText, if_neg hpartial]

/-- A match is written when its operand denotes a value and a mask. -/
theorem markMatch_eq_ok_iff {register : MarkRegister} {scalar text : String} {neg : Bool} :
    markMatch register scalar neg = .ok text ↔
      ∃ value mask, MarkDenotes scalar value mask ∧ text = matchText register neg value mask := by
  unfold markMatch
  rcases maskedMarkExpr_cases register scalar neg with ⟨hexpr, hfull⟩ | ⟨value, mask, hdenotes, hpartial, hexpr⟩ | ⟨e, hexpr, hnone⟩
  · have hbind : (do
        match ← maskedMarkExpr register scalar neg with
        | some text => return text
        | none =>
          let value ← markValue scalar
          return register.word ++ " " ++ matchOp neg ++ value) =
        (markValue scalar >>= fun value => Except.ok (register.word ++ " " ++ matchOp neg ++ value)) := by
      rw [hexpr]
      rfl
    rw [hbind, Except.bind_eq_ok]
    constructor
    · rintro ⟨_, hvalue, htext⟩
      obtain ⟨value, hdenotes, rfl⟩ := markValue_eq_ok_iff.1 hvalue
      cases htext
      exact ⟨value, _, hdenotes, (if_pos rfl).symm⟩
    · rintro ⟨value, mask, hdenotes, rfl⟩
      obtain rfl := hfull value mask hdenotes
      exact ⟨_, markValue_eq_ok_iff.2 ⟨value, hdenotes, rfl⟩, congrArg Except.ok (if_pos rfl).symm⟩
  · rw [hexpr]
    constructor
    · rintro ⟨⟩
      exact ⟨value, mask, hdenotes, rfl⟩
    · rintro ⟨value', mask', hdenotes', rfl⟩
      obtain ⟨rfl, rfl⟩ := hdenotes.unique hdenotes'
      rfl
  · rw [hexpr]
    exact iff_of_false nofun fun ⟨value, mask, hdenotes, _⟩ => hnone value mask hdenotes

/-- The words on the left of a comparison with a mask. -/
theorem words_masked (register : MarkRegister) (mask : BitVec 32) :
    words (register.word ++ " & " ++ hexMark mask) = words register.word ++ "&" :: [hexMark mask] :=
  words_operation (by decide : " & ".toList = ' ' :: "&".toList ++ [' ']) (by decide) register mask

theorem evalMarkMatch_ne {register : MarkRegister} {text : String} {left right : List String} {a b m : BitVec 32}
    (hwords : words text = left ++ "!=" :: right) (hl : "!=" ∉ left) (hr : "!=" ∉ right)
    (hleft : BitExpr.eval (markAtom register m) left = some a) (hright : BitExpr.eval (markAtom register m) right = some b) :
    evalMarkMatch register text m = some (a != b) := by
  rw [evalMarkMatch, hwords, List.splitOn_append_cons_self, List.splitOn_eq_singleton hl, List.splitOn_eq_singleton hr]
  simp [hleft, hright, bne, beq_eq_decide]

theorem evalMarkMatch_eq {register : MarkRegister} {text : String} {left right : List String} {a b m : BitVec 32}
    (hwords : words text = left ++ "==" :: right) (hne : "!=" ∉ left ++ right) (hl : "==" ∉ left) (hr : "==" ∉ right)
    (hleft : BitExpr.eval (markAtom register m) left = some a) (hright : BitExpr.eval (markAtom register m) right = some b) :
    evalMarkMatch register text m = some (a == b) := by
  have hne' : "!=" ∉ left ++ "==" :: right := by
    rw [List.mem_append] at hne
    simp [not_or.1 hne]
  rw [evalMarkMatch, hwords, List.splitOn_eq_singleton hne', List.splitOn_append_cons_self, List.splitOn_eq_singleton hl,
    List.splitOn_eq_singleton hr]
  simp [hleft, hright, beq_eq_decide]

theorem evalMarkMatch_plain {register : MarkRegister} {text last : String} {left : List String} {a b m : BitVec 32}
    (hwords : words text = left ++ [last]) (hne : "!=" ∉ left ++ [last]) (heq : "==" ∉ left ++ [last])
    (hleft : BitExpr.eval (markAtom register m) left = some a) (hright : BitExpr.eval (markAtom register m) [last] = some b) :
    evalMarkMatch register text m = some (a == b) := by
  rw [evalMarkMatch, hwords, List.splitOn_eq_singleton hne, List.splitOn_eq_singleton heq]
  simp [hleft, hright, beq_eq_decide]

/-- The text of a match holds when the bits of the mask are the value. -/
theorem evalMarkMatch_matchText (register : MarkRegister) (neg : Bool) (value mask m : BitVec 32) :
    evalMarkMatch register (matchText register neg value mask) m = some ((m &&& mask == value) != neg) := by
  have hvalue : BitExpr.eval (markAtom register m) [hexMark value] = some value := by
    rw [BitExpr.eval_atom (noOperator_hexMark value), markAtom_hexMark]
  have hregister : BitExpr.eval (markAtom register m) (words register.word) = some m := by
    rw [BitExpr.eval_atom (noOperator_register register), markAtom_register]
  have hmasked : BitExpr.eval (markAtom register m) (words register.word ++ "&" :: [hexMark mask]) = some (m &&& mask) := by
    rw [BitExpr.eval_and (noOperator_register register) (noOperator_hexMark mask), markAtom_register, markAtom_hexMark]
    rfl
  have hlast : ∀ op : String, op.toList.head? ≠ some '0' → op ∉ [hexMark value] := fun op hop => by
    rw [List.mem_singleton]
    exact Ne.symm (hexMark_ne hop value)
  have hleft : ∀ op : String, op ≠ "&" → op.toList.head? ≠ some '0' → op ∉ words register.word →
      op ∉ words register.word ++ "&" :: [hexMark mask] := fun op hand hop hword => by
    simp only [List.mem_append, List.mem_cons, List.not_mem_nil, or_false, not_or]
    exact ⟨hword, hand, Ne.symm (hexMark_ne hop mask)⟩
  have hne : "!=" ∉ words register.word := not_mem_register (by decide) register
  have heq : "==" ∉ words register.word := not_mem_register (by decide) register
  unfold matchText
  split
  · rename_i hfull
    rw [hfull, BitVec.and_allOnes]
    cases neg with
    | false =>
      have hwords : words (register.word ++ " " ++ matchOp false ++ hexMark value) = words register.word ++ [hexMark value] := by
        rw [← words_hexMark value]
        exact words_append_blank (by simp [matchOp])
      rw [evalMarkMatch_plain hwords (List.not_mem_append hne (hlast _ (by decide))) (List.not_mem_append heq (hlast _ (by decide)))
        hregister hvalue, Bool.bne_false]
    | true =>
      have hwords : words (register.word ++ " " ++ matchOp true ++ hexMark value) = words register.word ++ "!=" :: [hexMark value] := by
        rw [← words_hexMark value, ← words_between (by decide : " != ".toList = ' ' :: "!=".toList ++ [' ']) (by decide)]
        refine congrArg words (String.ext ?_)
        simp [matchOp]
      rw [evalMarkMatch_ne hwords hne (hlast _ (by decide)) hregister hvalue, Bool.bne_true]
      rfl
  · cases neg with
    | false =>
      have hwords : words (register.word ++ " & " ++ hexMark mask ++ " == " ++ hexMark value) =
          (words register.word ++ "&" :: [hexMark mask]) ++ "==" :: [hexMark value] := by
        rw [words_between (by decide : " == ".toList = ' ' :: "==".toList ++ [' ']) (by decide), words_masked, words_hexMark]
      refine (evalMarkMatch_eq hwords (List.not_mem_append (hleft _ (by decide) (by decide) hne) (hlast _ (by decide)))
        (hleft _ (by decide) (by decide) heq) (hlast _ (by decide)) hmasked hvalue).trans ?_
      rw [Bool.bne_false]
    | true =>
      have hwords : words (register.word ++ " & " ++ hexMark mask ++ " != " ++ hexMark value) =
          (words register.word ++ "&" :: [hexMark mask]) ++ "!=" :: [hexMark value] := by
        rw [words_between (by decide : " != ".toList = ' ' :: "!=".toList ++ [' ']) (by decide), words_masked, words_hexMark]
      refine (evalMarkMatch_ne hwords (hleft _ (by decide) (by decide) hne) (hlast _ (by decide)) hmasked hvalue).trans ?_
      rw [Bool.bne_true]
      rfl

/-- A match holds when the bits of the mask are the value, and is refused when its operand denotes none. -/
theorem markMatch_exact (register : MarkRegister) (scalar : String) (neg : Bool) :
    (∀ text, markMatch register scalar neg = .ok text → ∃ value mask, MarkDenotes scalar value mask ∧
      ∀ m, evalMarkMatch register text m = some ((m &&& mask == value) != neg)) ∧
    ((∃ e, markMatch register scalar neg = .error e) ↔ ¬∃ value mask, MarkDenotes scalar value mask) := by
  constructor
  · intro text htext
    obtain ⟨value, mask, hdenotes, rfl⟩ := markMatch_eq_ok_iff.1 htext
    exact ⟨value, mask, hdenotes, evalMarkMatch_matchText register neg value mask⟩
  · constructor
    · rintro ⟨e, he⟩ ⟨value, mask, hdenotes⟩
      exact nomatch he.symm.trans (markMatch_eq_ok_iff.2 ⟨value, mask, hdenotes, rfl⟩)
    · intro hnone
      cases hwritten : markMatch register scalar neg with
      | error e => exact ⟨e, rfl⟩
      | ok text =>
        obtain ⟨value, mask, hdenotes, -⟩ := markMatch_eq_ok_iff.1 hwritten
        exact absurd ⟨value, mask, hdenotes⟩ hnone

/-- Where one operation is given, the target is the translation of it. -/
theorem markArithSet_of_single {register : MarkRegister} {target : String} {companions : String → Option Unfold.RenderedOption}
    {operation : MarkOperation} {option : Unfold.RenderedOption} (hgiven : companions operation.word = some option)
    (honly : ∀ other, other ≠ operation → companions other.word = none) :
    markArithSet register target companions = markOperationSet register option operation := by
  have hfilter : (MARK_OPERATIONS.filterMap fun other => (companions other.word).map fun option => (other, option)) =
      [(operation, option)] := by
    cases operation <;> simp [MARK_OPERATIONS, hgiven, honly]
  rw [markArithSet, hfilter]

/-- Targets and matches on marks compute what the options of iptables do, and are refused only where an operand is no number of 32
bits, or nft has no expression for it. -/
theorem mark_arithmetic_exact (register : MarkRegister) :
    (∀ (target : String) (companions : String → Option Unfold.RenderedOption) (operation : MarkOperation)
      (option : Unfold.RenderedOption) (scalar : String) (neg : Bool), companions operation.word = some option →
      (∀ other, other ≠ operation → companions other.word = none) → unwrapValue option.value = .ok (scalar, neg) →
      SetsExactly register operation scalar (markArithSet register target companions)) ∧
    (∀ (option : Unfold.RenderedOption) (scalar : String), firstScalar option.value = .ok scalar →
      SetsExactly .packet .setXmark scalar (tproxyMark option)) ∧
    ∀ (scalar : String) (neg : Bool),
      (∀ text, markMatch register scalar neg = .ok text → ∃ value mask, MarkDenotes scalar value mask ∧
        ∀ m, evalMarkMatch register text m = some ((m &&& mask == value) != neg)) ∧
      ((∃ e, markMatch register scalar neg = .error e) ↔ ¬∃ value mask, MarkDenotes scalar value mask) := by
  refine ⟨?_, ?_, fun scalar neg => markMatch_exact register scalar neg⟩
  · intro target companions operation option scalar neg hgiven honly hscalar
    rw [markArithSet_of_single hgiven honly]
    exact setsExactly_markOperationSet register hscalar operation
  · intro option scalar hscalar
    have hmark : tproxyMark option = maskedMarkSet scalar "tproxy-mark" .packet := by
      rw [tproxyMark, hscalar]
      rfl
    rw [hmark]
    exact setsExactly_maskedMarkSet .packet _ scalar

/-- A part of a mark is set. -/
def partialXmark (word : String) : Option Unfold.RenderedOption :=
  if word = "set-xmark" then some ⟨"set-xmark", .scalar "0x1/3", .option, none⟩ else none

theorem mark_arithmetic_exact_xmark :
    markArithSet .packet "MARK" partialXmark = .ok "meta mark set meta mark & 0xfffffffd | 0x00000001" ∧
      SetsExactly .packet .setXmark "0x1/3" (markArithSet .packet "MARK" partialXmark) := by
  have honly : ∀ other : MarkOperation, other ≠ .setXmark → partialXmark other.word = none := by
    rintro (_ | _ | _ | _ | _) hother <;> first | rfl | exact absurd rfl hother
  exact ⟨by decide +kernel, (mark_arithmetic_exact .packet).1 "MARK" partialXmark .setXmark _ "0x1/3" false rfl honly rfl⟩

end Ferm
