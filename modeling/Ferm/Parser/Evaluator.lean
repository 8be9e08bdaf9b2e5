import Ferm.Cli.Seams
import Ferm.Parser.Tokens

/-!
# Values in a configuration

How a value is read from the tokens: scalars in three kinds of quotes, arrays, variables, negation, calls of the built-in functions,
and the output of commands. What the built-in functions compute from their arguments is a parameter.
-/

namespace Ferm

namespace Evaluator

/-! ## The scope -/

/-- One level of the scope: the variables, the functions and the pseudo-variables. -/
structure Frame where
  vars : String → Option Value
  functions : String → Bool
  auto : String → Option Value

/-- What values are read against: the levels of the scope from the inside out, whether a script is being read, what a command prints,
and the built-in functions that compute from their arguments. -/
structure Environment where
  frames : List Frame
  hasScript : Bool
  runShell : String → Except Raised (List String)
  builtin : String → Option (List Value → Except Raised Value)

/-- What is left of the script, the number of its line, and what is left of the output of a command. -/
structure Source where
  tokens : List Token
  line : Nat := 0
  words : List String := []

abbrev Eval : Type → Type := StateT Source (Except Raised)

/-- `error`. -/
def error {α : Type} (message : String) : Eval α := throw (.ferm message)

/-- `variable_value`. -/
def variableValue (env : Environment) (line : Nat) (name : String) : Option Value :=
  if name = "LINE" then if env.hasScript then some (.scalar (toString line)) else none
  else (env.frames.findSome? fun frame => frame.vars name).or (env.frames.head?.bind fun frame => frame.auto name)

/-- `_is_ref`. -/
def isRef : Value → Bool
  | .undef => false
  | .scalar _ => false
  | _ => true

/-- `stringify` of a value that is no reference. -/
def text : Value → String
  | .scalar text => text
  | _ => ""

/-! ## Tokens -/

/-- The line numbers in front of the next token. -/
def skipLines : List Token → Nat → List Token × Nat
  | .line number :: tokens, _ => skipLines tokens number
  | tokens, line => (tokens, line)

/-- `next_token`, or the next word of the command's output. -/
def nextToken (code : Bool) : Eval (Option Token) := fun s =>
  if code then
    match s.words with
    | [] => .ok (none, s)
    | word :: words => .ok (some (.word word), { s with words })
  else
    match skipLines s.tokens s.line with
    | ([], line) => .ok (none, { s with tokens := [], line })
    | (token :: tokens, line) => .ok (some token, { s with tokens, line })

/-- `require_next_token`. -/
def requireNextToken (code : Bool) : Eval Token := do
  match ← nextToken code with
  | none => error "unexpected end of file"
  | some (.word word) =>
    if word = ";" ∨ word = "\x7b" ∨ word = "\x7d" then error ("'" ++ word ++ "' not allowed here") else return .word word
  | some token => return token

/-- `expect_token`. -/
def expectToken (expect message : String) : Eval Unit := do
  match ← nextToken false with
  | some (.word word) => if word = expect then return () else error message
  | _ => error message

/-- `peek_token`, as far as it is a word. -/
def peekWord : Eval (Option String) := fun s =>
  match skipLines s.tokens s.line with
  | (.word word :: tokens, line) => .ok (some word, { s with tokens := .word word :: tokens, line })
  | (tokens, line) => .ok (none, { s with tokens, line })

/-- `\w` in a text of bytes. -/
def isLatinWordChar (c : Char) : Bool :=
  c.isAlphanum || c = '_' || [0xaa, 0xb2, 0xb3, 0xb5, 0xb9, 0xba, 0xbc, 0xbd, 0xbe].contains c.toNat ||
    (0xc0 ≤ c.toNat && c.toNat ≤ 0xff && c.toNat ≠ 0xd7 && c.toNat ≠ 0xf7)

/-- `_NAME_RE`. -/
def isName (word : String) : Bool := !word.toList.isEmpty && word.toList.all isLatinWordChar

/-- `_read_name`. -/
def readName (message : String) (code : Bool) : Eval String := do
  match ← requireNextToken code with
  | .word word => if isName word then return word else error message
  | _ => error message

/-- `_quoted_inside`. -/
def quotedInside (quote : Char) (word : String) : Option String :=
  match word.toList with
  | first :: rest => if first = quote ∧ rest.getLast? = some quote then some (String.ofList rest.dropLast) else none
  | [] => none

/-- A text between double quotes with its variables, an undefined one as nothing. -/
def interpolate (env : Environment) (line : Nat) : Nat → List Char → Except Raised (List Char)
  | 0, _ => .ok []
  | _ + 1, [] => .ok []
  | fuel + 1, c :: cs => do
    let name := cs.takeWhile isLatinWordChar
    if c = '$' ∧ name ≠ [] then
      let value := (variableValue env line (String.ofList name)).getD .undef
      if isRef value then
        throw (.ferm ("variable '" ++ String.ofList name ++ "' must be a string, but it is an array"))
      let rest ← interpolate env line fuel (cs.drop name.length)
      return (text value).toList ++ rest
    let rest ← interpolate env line fuel cs
    return c :: rest

/-! ## Values -/

/-- What `getvalues` allows. -/
structure ReadOptions where
  nonEmpty : Bool := false
  allowNegation : Bool := false
  commaAllowed : Bool := false
  parenthesisAllowed : Bool := false
  allowArrayNegation : Bool := false

/-- `negate_value` of a value that was read behind its sign. -/
def negateValue (allowArray : Bool) : Value → Eval Value
  | .negated _ | .preNegated _ => error "double negation is not allowed"
  | .array values => if allowArray then return .negated (.array values) else error "it is not possible to negate an array"
  | .setRef _ _ => error "cannot negate a named set"
  | value => return .negated value

/-- `to_array`. -/
def toArray : Value → Except Raised (List Value)
  | .array values => .ok values
  | .undef => .ok [.undef]
  | .scalar text => .ok [.scalar text]
  | .deferred function params => .ok [.deferred function params]
  | .setRef name elements => .ok [.setRef name elements]
  | _ => .error (.ferm (internalError "unexpected value type").message)

/-- The elements of an array up to its end. -/
def readElements (read : Eval Value) : Nat → List Value → Eval (List Value)
  | 0, _ => error "unexpected end of file"
  | fuel + 1, wordlist => do
    match ← read with
    | .scalar word =>
      if word = ")" then return wordlist
      else if word = "," then error "Comma is not allowed within arrays, please use only a space"
      else readElements read fuel (wordlist ++ [.scalar word])
    | .undef => readElements read fuel (wordlist ++ [.undef])
    | .array values => readElements read fuel (wordlist ++ values)
    | .deferred function params => readElements read fuel (wordlist ++ [.deferred function params])
    | .setRef name elements => readElements read fuel (wordlist ++ [.setRef name elements])
    | _ => error "unknown token type"

/-- A named set. -/
def isSetRef : Value → Bool
  | .setRef _ _ => true
  | _ => false

/-- `_read_array`. Every element takes a token, so their number bounds the loop. -/
def readArray (read : Eval Value) (nonEmpty : Bool) : Eval Value := do
  let s ← get
  let wordlist ← readElements read (s.tokens.length + s.words.length + 1) []
  if wordlist.isEmpty && nonEmpty then error "empty array not allowed here"
  if wordlist.any isSetRef && wordlist.length ≠ 1 then
    error "a named set cannot be mixed with other values in one selector"
  match wordlist with
  | [value] => return value
  | wordlist => return .array wordlist

/-- The values of the words a command printed. -/
def readWords (read : Eval Value) : Nat → List Value → Eval (List Value)
  | 0, values => return values
  | fuel + 1, values => do
    let s ← get
    if s.words.isEmpty then return values
    let value ← read
    let more ← liftM (toArray value)
    readWords read fuel (values ++ more)

/-- `_run_shell`: the words that were left are read on behind those of the command. -/
def runShell (env : Environment) (read : Eval Value) (command : String) : Eval Value := do
  let output ← liftM (env.runShell command)
  let s ← get
  set { s with words := output }
  let values ← readWords read output.length []
  modify fun s' => { s' with words := s.words }
  match values with
  | [value] => return value
  | values => return .array values

/-- The arguments of a function behind the first one. -/
def readParams (read : Eval Value) : Nat → List Value → Eval (List Value)
  | 0, _ => error "unexpected end of file"
  | fuel + 1, params => do
    match ← requireNextToken false with
    | .word word =>
      if word = ")" then return params
      else if word = "," then do
        let value ← read
        readParams read fuel (params ++ [value])
      else error "\",\" expected"
    | _ => error "\",\" expected"

/-- `get_function_params`. -/
def getFunctionParams (read : Eval Value) : Eval (List Value) := do
  expectToken "(" "function name must be followed by \"()\""
  if (← peekWord) = some ")" then
    let _ ← requireNextToken false
    return []
  let value ← read
  let s ← get
  readParams read (s.tokens.length + 1) [value]

/-- `_builtin_defined`. -/
def builtinDefined (env : Environment) : Eval Value := do
  expectToken "(" "function name must be followed by \"()\""
  match ← requireNextToken false with
  | .word "$" => do
    let name ← readName "variable name expected" false
    expectToken ")" "')' expected"
    let s ← get
    return .scalar (if (variableValue env s.line name).isSome then "1" else "")
  | .word "&" => do
    let name ← readName "function name expected" false
    expectToken ")" "')' expected"
    return .scalar (if env.frames.any fun frame => frame.functions name then "1" else "")
  | _ => error "'$' or '&' expected"

/-- `_call_builtin`. -/
def callBuiltin (env : Environment) (read : Eval Value) (token : String) : Eval Value :=
  if token = "@defined" then builtinDefined env
  else
    match env.builtin token with
    | none => error "unknown ferm built-in function"
    | some function => do
      let params ← getFunctionParams read
      liftM (function params)

/-- The value of a token that is not in quotes. -/
def plainValue (env : Environment) (read : ReadOptions → Bool → Eval Value) (opts : ReadOptions) (code : Bool) (token : String) :
    Eval Value :=
  if token = "!" then
    if opts.allowNegation then do
      let inner ← read {} code
      negateValue opts.allowArrayNegation inner
    else error "negation is not allowed here"
  else if token = "," then if opts.commaAllowed then return .scalar token else error "comma is not allowed here"
  else if token = "=" then error "equals operator (\"=\") is not allowed here"
  else if token = "$" then do
    let name ← readName "variable name expected - if you want to concatenate strings, try using double quotes" code
    let s ← get
    match variableValue env s.line name with
    | some value => return value
    | none => error ("no such variable: $" ++ name)
  else if token = "&" then error "function calls are not allowed as keyword parameter"
  else if token = ")" ∧ ¬ opts.parenthesisAllowed then error "Syntax error"
  else if token.toList.head? = some '@' then callBuiltin env (read {} false) token
  else return .scalar token

/-- The value that begins with a token. -/
def tokenValue (env : Environment) (read : ReadOptions → Bool → Eval Value) (opts : ReadOptions) (code : Bool) (token : String) :
    Eval Value :=
  if token = "(" then readArray (read { commaAllowed := true, parenthesisAllowed := true } code) opts.nonEmpty
  else
    match quotedInside (Char.ofNat 0x60) token with
    | some command => runShell env (read {} true) command
    | none =>
      match quotedInside '\'' token with
      | some single => return .scalar single
      | none =>
        match quotedInside '"' token with
        | some double => do
          let s ← get
          let value ← liftM (interpolate env s.line (double.toList.length + 1) double.toList)
          return .scalar (String.ofList value)
        | none => plainValue env read opts code token

/-- How deep values may be nested. -/
def MAX_VALUE_DEPTH : Nat := 100

/-- `getvalues`, with the depth that is left. -/
def getvalues (env : Environment) : Nat → ReadOptions → Bool → Eval Value
  | 0, _, _ => error "values nested too deeply (max 100)"
  | depth + 1, opts, code => do
    match ← requireNextToken code with
    | .word token => tokenValue env (getvalues env depth) opts code token
    | .deferred value => return value
    | .line _ => throw (.other "AssertionError")

end Evaluator

end Ferm
