import Ferm.Parser.Structural

/-!
# Stray closing parentheses

A walk over the tokens that builds nothing: it only remembers what the parser is looking for and which blocks are open, and says
whether a closing parenthesis stands where a statement should begin. The structural parser comes back exactly when none does.
-/

namespace Ferm.StructuralParser

/-- What follows an open block: the next statement, or perhaps the other branch of a condition. -/
inductive Frame where
  | plain
  | thenBranch
  deriving DecidableEq, Repr

/-- What the walk is looking for. -/
inductive ScanMode where
  | start
  | span (stopAtBrace : Bool) (depth : Nat)
  | value (condition : Bool) (depth : Nat)
  | afterThen
  | afterElse
  | skip (depth : Nat)
  | finished
  deriving DecidableEq, Repr

/-- The walk inside of the open blocks, the innermost first. -/
structure ScanState where
  mode : ScanMode
  frames : List Frame
  deriving DecidableEq, Repr

/-- Behind the end of the innermost block. -/
def closeBlock : List Frame → ScanState
  | [] => ⟨.finished, []⟩
  | [_] => ⟨.finished, []⟩
  | .plain :: frames => ⟨.start, frames⟩
  | .thenBranch :: frames => ⟨.afterThen, frames⟩

/-- Inside of a new block; a block that is nested too deeply is skipped. -/
def openBlock (frame : Frame) (frames : List Frame) : ScanState :=
  if MAX_BLOCK_DEPTH < frames.length + 1 then ⟨.skip 1, frame :: frames⟩ else ⟨.start, frame :: frames⟩

/-- Where a statement should begin; nothing at a stray parenthesis. -/
def scanStart (w : String) (frames : List Frame) : Option ScanState :=
  if w = ")" then none
  else if w = "\x7d" then some (closeBlock frames)
  else if w = "@if" then some ⟨.value true 0, frames⟩
  else if w = "\x7b" then some (openBlock .plain frames)
  else if HEADER_KEYWORDS.contains w then some ⟨.value false 0, frames⟩
  else if (STMT_NODES.lookup w).isSome then some ⟨.span false 0, frames⟩
  else if w = "(" then some ⟨.span true 1, frames⟩
  else if w = ";" then some ⟨.start, frames⟩
  else some ⟨.span true 0, frames⟩

/-- Inside of a span; a bracket that ends it is where a statement should begin. -/
def scanSpan (stopAtBrace : Bool) (depth : Nat) (w : String) (frames : List Frame) : Option ScanState :=
  if w = "(" then some ⟨.span stopAtBrace (depth + 1), frames⟩
  else if w = "\x7b" then
    if stopAtBrace ∧ depth = 0 then scanStart w frames else some ⟨.span stopAtBrace (depth + 1), frames⟩
  else if w = "\x7d" ∨ w = ")" then
    if depth = 0 then scanStart w frames else some ⟨.span stopAtBrace (depth - 1), frames⟩
  else if w = ";" ∧ depth = 0 then some ⟨.start, frames⟩
  else some ⟨.span stopAtBrace depth, frames⟩

/-- Behind the first branch of a condition. -/
def scanAfterThen (w : String) (frames : List Frame) : Option ScanState :=
  if w = "@else" then some ⟨.afterElse, frames⟩ else scanStart w frames

/-- Behind a condition. -/
def scanThen (w : String) (frames : List Frame) : Option ScanState :=
  if w = "\x7b" then some (openBlock .thenBranch frames) else scanAfterThen w frames

/-- Where the last branch of a condition should begin. -/
def scanAfterElse (w : String) (frames : List Frame) : Option ScanState :=
  if w = "@if" then some ⟨.value true 0, frames⟩
  else if w = "\x7b" then some (openBlock .plain frames)
  else scanStart w frames

/-- At the word that ends a header's value or a condition. -/
def scanTerminator (condition : Bool) (w : String) (frames : List Frame) : Option ScanState :=
  if condition then scanThen w frames
  else if w = "\x7b" then some (openBlock .plain frames)
  else if w = ";" then some ⟨.start, frames⟩
  else scanStart w frames

/-- Inside of a header's value or a condition. -/
def scanValue (condition : Bool) (depth : Nat) (w : String) (frames : List Frame) : Option ScanState :=
  if w = "(" then some ⟨.value condition (depth + 1), frames⟩
  else if w = ")" then some ⟨.value condition (depth - 1), frames⟩
  else if depth = 0 ∧ (w = "\x7b" ∨ w = ";" ∨ w = "\x7d") then scanTerminator condition w frames
  else some ⟨.value condition depth, frames⟩

/-- Inside of a block that is skipped. -/
def scanSkip (depth : Nat) (w : String) (frames : List Frame) : ScanState :=
  if w = "\x7b" then ⟨.skip (depth + 1), frames⟩
  else if w = "\x7d" then
    if depth ≤ 1 then closeBlock frames else ⟨.skip (depth - 1), frames⟩
  else ⟨.skip depth, frames⟩

/-- One word further. -/
def scanStep (w : String) (s : ScanState) : Option ScanState :=
  match s.mode with
  | .start => scanStart w s.frames
  | .span stopAtBrace depth => scanSpan stopAtBrace depth w s.frames
  | .value condition depth => scanValue condition depth w s.frames
  | .afterThen => scanAfterThen w s.frames
  | .afterElse => scanAfterElse w s.frames
  | .skip depth => some (scanSkip depth w s.frames)
  | .finished => some s

/-- True if the walk comes to a stray parenthesis. -/
def reachesStray : ScanState → List Token → Bool
  | _, [] => false
  | s, .word w :: ts =>
    match scanStep w s with
    | none => true
    | some s' => reachesStray s' ts
  | s, _ :: ts => reachesStray s ts

/-- True if a closing parenthesis stands where the parser looks for a statement. -/
def strayClose (tokens : List Token) : Bool := reachesStray ⟨.start, [.plain]⟩ tokens

end Ferm.StructuralParser
