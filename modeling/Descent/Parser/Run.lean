import Descent.Expr.Parser
import Descent.Parser
import Descent.Parser.Tree
import Descent.Token.Scan

/-!
# Running a parser

A run takes tokens from the front of a cursor and gives the children of
the node being built, or stops. It stops with a failure of parsing, and
that ends all runs that are under way; the cursor stays where it was.

Rules may call each other without end if a directive that only looks
ahead stands before the call. So a run is given a bound on how deep
calls may be nested, and tells a run that exceeds it (`Halt.unfinished`)
from one that fails. `Parser.depth` is the bound in use: between two
calls of one rule within each other a token is taken, or else there is
no end, so no run that ends needs calls nested deeper than there are
rules for each token left.
-/

namespace Descent

/-- **Why a run stops** without a tree. -/
inductive Halt where
  /-- The tokens do not match. -/
  | failed (error : ParseError)
  /-- Calls are nested deeper than allowed. -/
  | unfinished
  /-- There is no code for this rule. -/
  | unknown (rule : String)
deriving DecidableEq

/-- A run of code. The cursor is kept when it stops. -/
abbrev Run (α : Type) := EStateM Halt Cursor α

namespace Run

/-- A reader of tokens as a run. -/
def lift {α : Type} (p : Parse α) : Run α := fun c =>
  match p c with
  | .ok a c => .ok a c
  | .error e c => .error (.failed e) c

/-- Stops with a failure where the cursor stands. -/
def fail {α : Type} (error : Cursor → ParseError) : Run α := fun c =>
  .error (.failed (error c)) c

end Run

/-- **Whether a guard holds** at a cursor. -/
def Guard.holds (operators : OperatorTable) (c : Cursor) : Guard → Bool
  | .literal s => c.atLiteral s
  | .reserved name => c.atReserved name
  | .lookahead wanted => c.atLookahead wanted
  | .expression => Expr.startsAt operators c
  | .never => false

/-- **Runs code**, giving the children that it adds. `call` runs the
code of a rule. -/
def Code.run (operators : OperatorTable) (call : String → Run Tree) :
    Code → Run (List Tree)
  | .skip => pure []
  | .seq first next => do
    let xs ← first.run operators call
    let ys ← next.run operators call
    pure (xs ++ ys)
  | .literal s => do
    let t ← Run.lift (Parse.literal s)
    pure [.token t]
  | .reserved name => do
    let t ← Run.lift (Parse.reserved name)
    pure [.token t]
  | .call rule => do
    let t ← call rule
    pure [t]
  | .expression power => do
    let e ← Run.lift (Expr.parse operators power)
    pure [.expr e]
  | .action text => pure [.action text]
  | .recover anchors => do
    let ts ← Run.lift (Parse.recover anchors)
    pure (ts.map .token)
  | .require wanted text => do
    if (← get).atLookahead wanted then pure []
    else Run.fail (·.expectedOneOf [text])
  | .fail message => Run.fail (·.fail message)
  | .reject labels => Run.fail (·.expectedOneOf labels)
  | .branch guards body otherwise => do
    let c ← get
    if guards.any (·.holds operators c) then body.run operators call
    else otherwise.run operators call
  | .block body => body.run operators call

namespace Parser

/-- The code of a rule. -/
def code? (p : Parser) (rule : String) : Option Code := p.methods.lookup rule

/-- Runs a rule with calls nested at most `n` deep. -/
def runWithin (p : Parser) (operators : OperatorTable) : Nat → String → Run Tree
  | 0, _ => throw .unfinished
  | n + 1, rule =>
    match p.code? rule with
    | none => throw (.unknown rule)
    | some code => do
      let children ← code.run operators (runWithin p operators n)
      pure (.node rule children)

/-- How deep calls may be nested with so many tokens left. -/
def depth (p : Parser) (tokens : Nat) : Nat :=
  (p.methods.length + 1) * (tokens + 1)

/-- **Runs a rule** on what is left. -/
def runRule (p : Parser) (operators : OperatorTable) (rule : String) : Run Tree := fun c =>
  p.runWithin operators (p.depth c.rest.length) rule c

/-- **Runs the goal**, which must take all that is left. -/
def run (p : Parser) (operators : OperatorTable) : Run Tree := do
  let tree ← p.runRule operators p.goal
  Run.lift Parse.finish
  pure tree

/-- Why a text has no tree. -/
inductive Error where
  /-- It does not scan. -/
  | scan (error : ScanError)
  /-- The run on its tokens stops. -/
  | halt (halt : Halt)
deriving DecidableEq

/-- **The tree of a text**, scanned with the parser's keywords and read
with the usual operators. -/
def parse (p : Parser) (input : String) : Except Error Tree :=
  match Token.scan p.keywords input with
  | .error e => .error (.scan e)
  | .ok c =>
    match p.run .standard c with
    | .ok tree _ => .ok tree
    | .error h _ => .error (.halt h)

end Parser

end Descent
