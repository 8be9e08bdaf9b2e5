import Ferm.Parser.Tokens

/-!
# The structural parser

`_StructuralParser`: one pass over a list of tokens that keeps statements as spans of tokens and structures blocks, headers and both
branches of conditions. The reader's place is a cursor. The loop over the statements of a block is bounded by fuel, since nothing in
the source bounds it.
-/

namespace Ferm.StructuralParser

/-- Where a statement begins. -/
structure SourcePosition where
  filename : String
  line : Nat
  deriving DecidableEq, Repr

/-- The directives, and the rules that declare a subchain. -/
inductive DirectiveKind where
  | defNode
  | setNode
  | includeNode
  | preserveNode
  | hookNode
  | subchainNode
  deriving DecidableEq, Repr

mutual

/-- The statements of a block. -/
inductive Block where
  | mk (pos : SourcePosition) (statements : List Node)

/-- One statement. -/
inductive Node where
  | rule (pos : SourcePosition) (span : List Token)
  | directive (kind : DirectiveKind) (pos : SourcePosition) (span : List Token)
  | block (pos : SourcePosition) (body : Block)
  | header (pos : SourcePosition) (keyword : String) (valueSpan : List Token) (body : Option Block)
  | ifNode (pos : SourcePosition) (condSpan : List Token) (thenBody : Block) (elseBody : Option Block)

end

/-- The rest of the tokens, and the line that was begun last. -/
structure Cursor where
  tokens : List Token
  line : Nat := 0

namespace Cursor

/-- One token further. -/
def advance (c : Cursor) : Cursor := { c with tokens := c.tokens.tail }

/-- `_skip_sentinels`, on the tokens. -/
def skipTokens : List Token → Nat → Cursor
  | .line n :: ts, _ => skipTokens ts n
  | .deferred _ :: ts, line => skipTokens ts line
  | ts, line => ⟨ts, line⟩

/-- `_skip_sentinels`. -/
def skipSentinels (c : Cursor) : Cursor := skipTokens c.tokens c.line

/-- The word at the cursor. -/
def word? (c : Cursor) : Option String :=
  match c.tokens with
  | .word w :: _ => some w
  | _ => none

end Cursor

/-- Put a token in front of a span. -/
def consSpan (t : Token) (r : List Token × Cursor) : List Token × Cursor := (t :: r.1, r.2)

/-- `_capture_statement_span`, inside of `depth` brackets. -/
def captureStatementSpan (stopAtBrace : Bool) : Nat → List Token → Nat → List Token × Cursor
  | _, [], line => ([], ⟨[], line⟩)
  | depth, .line n :: ts, _ => consSpan (.line n) (captureStatementSpan stopAtBrace depth ts n)
  | depth, .deferred v :: ts, line => consSpan (.deferred v) (captureStatementSpan stopAtBrace depth ts line)
  | depth, .word w :: ts, line =>
    if w = "(" then consSpan (.word w) (captureStatementSpan stopAtBrace (depth + 1) ts line)
    else if w = "\x7b" then
      if stopAtBrace ∧ depth = 0 then ([], ⟨.word w :: ts, line⟩)
      else consSpan (.word w) (captureStatementSpan stopAtBrace (depth + 1) ts line)
    else if w = "\x7d" ∨ w = ")" then
      if depth = 0 then ([], ⟨.word w :: ts, line⟩)
      else consSpan (.word w) (captureStatementSpan stopAtBrace (depth - 1) ts line)
    else if w = ";" ∧ depth = 0 then ([.word w], ⟨ts, line⟩)
    else consSpan (.word w) (captureStatementSpan stopAtBrace depth ts line)

/-- `_scan_header_value`, inside of `depth` parentheses: the word it stops before, the span up to it. -/
def scanHeaderValue : Nat → List Token → Nat → Option String × List Token × Cursor
  | _, [], line => (none, [], ⟨[], line⟩)
  | depth, .line n :: ts, _ => (scanHeaderValue depth ts n).map id (consSpan (.line n))
  | depth, .deferred v :: ts, line => (scanHeaderValue depth ts line).map id (consSpan (.deferred v))
  | depth, .word w :: ts, line =>
    if w = "(" then (scanHeaderValue (depth + 1) ts line).map id (consSpan (.word w))
    else if w = ")" then (scanHeaderValue (depth - 1) ts line).map id (consSpan (.word w))
    else if depth = 0 ∧ (w = "\x7b" ∨ w = ";" ∨ w = "\x7d") then (some w, [], ⟨.word w :: ts, line⟩)
    else (scanHeaderValue depth ts line).map id (consSpan (.word w))

/-- `_skip_to_block_end`, inside of `depth` braces. -/
def skipToBlockEnd : Nat → List Token → Nat → Cursor
  | 0, ts, line => ⟨ts, line⟩
  | _ + 1, [], line => ⟨[], line⟩
  | depth + 1, .line n :: ts, _ => skipToBlockEnd (depth + 1) ts n
  | depth + 1, .deferred _ :: ts, line => skipToBlockEnd (depth + 1) ts line
  | depth + 1, .word w :: ts, line =>
    if w = "\x7b" then skipToBlockEnd (depth + 2) ts line
    else if w = "\x7d" then skipToBlockEnd depth ts line
    else skipToBlockEnd (depth + 1) ts line

/-- `MAX_BLOCK_DEPTH`. -/
def MAX_BLOCK_DEPTH : Nat := 100

/-- `_HEADER_KEYWORDS`. -/
def HEADER_KEYWORDS : List String := ["domain", "table", "chain", "policy", "priority"]

/-- `_STMT_NODES`. -/
def STMT_NODES : List (String × DirectiveKind) :=
  [("@def", .defNode), ("def", .defNode), ("@set", .setNode), ("@include", .includeNode), ("include", .includeNode),
    ("@preserve", .preserveNode), ("@hook", .hookNode), ("hook", .hookNode), ("@subchain", .subchainNode),
    ("subchain", .subchainNode), ("@gotosubchain", .subchainNode)]

section Statements

variable (filename : String) (statements : Nat → Cursor → Option (List Node × Cursor)) (depth : Nat)

/-- `parse_block` inside of `depth` blocks, given how statements are parsed. -/
def parseBlockWith (c : Cursor) : Option (Block × Cursor) :=
  if MAX_BLOCK_DEPTH < depth + 1 then some (.mk ⟨filename, c.line⟩ [], skipToBlockEnd 1 c.tokens c.line)
  else (statements (depth + 1) c).map fun r => (.mk ⟨filename, c.line⟩ r.1, r.2)

/-- `_parse_branch_block`. -/
def parseBranchBlock (pos : SourcePosition) (c : Cursor) : Option (Block × Cursor) :=
  let c := c.skipSentinels
  if c.word? = some "\x7b" then parseBlockWith filename statements depth c.advance else some (.mk pos [], c)

/-- `_parse_header`. -/
def parseHeader (pos : SourcePosition) (keyword : String) (c : Cursor) : Option (Node × Cursor) :=
  let r := scanHeaderValue 0 c.advance.tokens c.line
  if r.1 = some "\x7b" then
    (parseBlockWith filename statements depth r.2.2.advance).map fun b => (.header pos keyword r.2.1 (some b.1), b.2)
  else if r.1 = some ";" then some (.header pos keyword r.2.1 none, r.2.2.advance)
  else some (.header pos keyword r.2.1 none, r.2.2)

/-- One condition of a chain of conditions, with its branch. -/
structure IfLink where
  pos : SourcePosition
  condSpan : List Token
  thenBody : Block

/-- The loop of `_parse_if`: the conditions with their branches, and the last branch. Every turn takes a word, so that as much fuel
as there are tokens is enough. -/
def parseLinks : Nat → SourcePosition → Cursor → Option (List IfLink × Option Block × Cursor)
  | 0, _, _ => none
  | fuel + 1, pos, c => do
    let value := scanHeaderValue 0 c.advance.tokens c.line
    let (thenBody, c) ← parseBranchBlock filename statements depth pos value.2.2
    let link := ⟨pos, value.2.1, thenBody⟩
    let c := c.skipSentinels
    if c.word? ≠ some "@else" then return ([link], none, c)
    let c := c.advance.skipSentinels
    if c.word? ≠ some "@if" then
      let (elseBody, c) ← parseBranchBlock filename statements depth pos c
      return ([link], some elseBody, c)
    let (links, elseBody, c) ← parseLinks fuel ⟨filename, c.line⟩ c
    return (link :: links, elseBody, c)

/-- The nodes of a chain of conditions, each in the last branch of the one before. -/
def linkNodes (finalElse : Option Block) : List IfLink → Option Node
  | [] => none
  | link :: links =>
    let elseBody :=
      match links, linkNodes finalElse links with
      | next :: _, some node => some (.mk next.pos [node])
      | _, _ => finalElse
    some (.ifNode link.pos link.condSpan link.thenBody elseBody)

/-- `_parse_if`. -/
def parseIf (fuel : Nat) (pos : SourcePosition) (c : Cursor) : Option (Node × Cursor) := do
  let (links, finalElse, c) ← parseLinks filename statements depth fuel pos c
  let node ← linkNodes finalElse links
  return (node, c)

/-- `_parse_statement`, at a word. -/
def parseStatement (fuel : Nat) (w : String) (c : Cursor) : Option (Node × Cursor) :=
  let pos := ⟨filename, c.line⟩
  if w = "@if" then parseIf filename statements depth fuel pos c
  else if w = "\x7b" then (parseBlockWith filename statements depth c.advance).map fun r => (.block pos r.1, r.2)
  else if HEADER_KEYWORDS.contains w then parseHeader filename statements depth pos w c
  else
    match STMT_NODES.lookup w with
    | some kind =>
      let r := captureStatementSpan false 0 c.tokens c.line
      some (.directive kind pos r.1, r.2)
    | none =>
      let r := captureStatementSpan true 0 c.tokens c.line
      some (.rule pos r.1, r.2)

end Statements

/-- The loop of `parse_block`, up to the closing brace or the end; nothing when the fuel is used up before. -/
def parseStatements (filename : String) : Nat → Nat → Cursor → Option (List Node × Cursor)
  | 0, _, _ => none
  | fuel + 1, depth, c =>
    let c := c.skipSentinels
    match c.word? with
    | none => some ([], c)
    | some w =>
      if w = "\x7d" then some ([], c.advance)
      else
        (parseStatement filename (parseStatements filename fuel) depth fuel w c).bind fun r =>
          (parseStatements filename fuel depth r.2).map fun r' => (r.1 :: r'.1, r'.2)

/-- `parse_block` of a parser over the tokens. -/
def parseBlock (filename : String) (fuel : Nat) (tokens : List Token) : Option (Block × Cursor) :=
  parseBlockWith filename (parseStatements filename fuel) 0 { tokens }

/-- `parse_to_block`. -/
def parseToBlock (fuel : Nat) (config : String) : Option Block :=
  (parseBlock "<parse_to_block>" fuel (rawTokens config)).map Prod.fst

end Ferm.StructuralParser
