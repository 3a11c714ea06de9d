import Descent.Cursor
import Descent.Grammar

/-!
# Generated parsers

Each rule of a compiled grammar becomes a piece of code that takes the
tokens of its body one by one and calls the code of the rules it refers
to. A choice becomes a chain of tests on the next tokens: **the branches
that must take a token are tried in order, each if a label of its FIRST
set is next; the one that can be passed is left for last**, and if there
is none the choice fails and names every label.

A parser is the code of every rule, together with the rule to start from
and the keywords that a scan for it has to know. Generating one can fail
only where a directive has no binding power, which the source of a
grammar does not allow; a table of rules put together by other means may
still have one.

The code is data. `Descent.Parser.Run` runs it and
`Descent.Parser.Listing` writes it out, so both speak of the same
program.
-/

namespace Descent

/-- **A test on the next tokens.** -/
inductive Guard where
  /-- A token that stands for this literal is next. -/
  | literal (spelling : String)
  /-- A token of this class is next. -/
  | reserved (name : String)
  /-- These tokens are next. -/
  | lookahead (wanted : List Expectation)
  /-- An expression can start here. -/
  | expression
  /-- Never true. -/
  | never
deriving DecidableEq

/-- **The code of a body.** -/
inductive Code where
  /-- Does nothing. -/
  | skip
  /-- One piece and then another. -/
  | seq (first next : Code)
  /-- Takes a token that stands for this literal. -/
  | literal (spelling : String)
  /-- Takes a token of this class. -/
  | reserved (name : String)
  /-- Runs the code of a rule. -/
  | call (rule : String)
  /-- Reads an expression at this least power. -/
  | expression (power : UInt32)
  /-- Records an action. -/
  | action (text : String)
  /-- Skips to one of these. -/
  | recover (anchors : List Expectation)
  /-- Fails unless these tokens are next; the text names them. -/
  | require (wanted : List Expectation) (text : String)
  /-- Fails with a message. -/
  | fail (message : String)
  /-- Fails because none of these was next. -/
  | reject (labels : List String)
  /-- If one of the guards holds, the body, otherwise the rest of the
  chain. -/
  | branch (guards : List Guard) (body otherwise : Code)
  /-- The end of a chain of branches. -/
  | block (body : Code)
deriving DecidableEq

/-- **Why there is no code for a grammar.** -/
inductive Code.Error where
  /-- A directive that reads expressions has no binding power. -/
  | power (directive : Directive)
  /-- A branch has no FIRST set. -/
  | defect (defect : Defect)
deriving DecidableEq

/-- The wording of the error. -/
def Code.Error.message : Code.Error → String
  | .power directive => "invalid binding power in `" ++ directive.render ++ "`"
  | .defect d => d.message

namespace Code

/-- The token that an argument asks for: a word names a class, all else
is a literal. -/
def expectation : Directive.Argument → Expectation
  | .name s => .reserved s
  | .string s | .number s => .literal s

/-- The message of a failure: the first quoted argument, or the call as
it is written. -/
def failure (d : Directive) : String :=
  (d.args.findSome? fun
    | .string s => some s
    | .name _ | .number _ => none).getD d.render

/-- **The test for a label.** -/
def guard : Label → Guard
  | .literal s => .literal s
  | .reserved name => .reserved name
  | .guard d =>
    match d.kind with
    | .lookahead => .lookahead (d.args.map expectation)
    | .precedence => .expression
    | .error | .recover => .never

/-- **The code of a directive.** -/
def ofDirective (d : Directive) : Except Error Code :=
  match d.kind with
  | .lookahead => .ok (.require (d.args.map expectation) d.render)
  | .recover => .ok (.recover (d.args.map expectation))
  | .error => .ok (.fail (failure d))
  | .precedence =>
    match d.power? with
    | some power => .ok (.expression power)
    | none => .error (.power d)

/-- A branch of a choice: what can start it, and its code. -/
structure Branch where
  /-- Its FIRST set. -/
  first : FirstSet
  /-- Its code. -/
  body : Code

/-- The labels of the branches that must take a token, as a message
names them. -/
def labels (branches : List Branch) : List String :=
  Ordered.ofList ((branches.filter (!·.first.nullable)).flatMap
    (·.first.labels.map Label.describe))

/-- What is left to do when no guard holds. -/
def fallback (branches : List Branch) : Code :=
  match (branches.filter (·.first.nullable)).getLast? with
  | some b => b.body
  | none => .reject (labels branches)

/-- **The chain of tests of a choice.** -/
def choice (branches : List Branch) : Code :=
  (branches.filter (!·.first.nullable)).foldr
    (fun b rest => .branch (b.first.labels.map guard) b.body rest)
    (.block (fallback branches))

/-- The code of a body whose branches have theirs: a chain of tests if
the body is a choice, and otherwise the code of its only branch. -/
def close (sets : FirstSets) (n : Node) (branches : List (Node × Code)) :
    Except Error Code :=
  if n.isChoice then do
    let bs ← branches.mapM fun b =>
      match sets.firstOf b.1 with
      | .ok first => .ok ⟨first, b.2⟩
      | .error d => .error (.defect d)
    .ok (choice bs)
  else .ok ((branches.head?.map Prod.snd).getD .skip)

/-- **The branches of a body with their code.** -/
def branches (sets : FirstSets) : Node → Except Error (List (Node × Code))
  | .alt l r => do
    let ls ← branches sets l
    let rs ← branches sets r
    .ok (ls ++ rs)
  | .seq h t => do
    let hs ← branches sets h
    let head ← close sets h hs
    let ts ← branches sets t
    let tail ← close sets t ts
    .ok [(.seq h t, .seq head tail)]
  | .lone h => do
    let hs ← branches sets h
    let head ← close sets h hs
    .ok [(.lone h, head)]
  | .literal s => .ok [(.literal s, .literal s)]
  | .reserved s => .ok [(.reserved s, .reserved s)]
  | .rule s => .ok [(.rule s, .call s)]
  | .directive d => do
    let code ← ofDirective d
    .ok [(.directive d, code)]
  | .action e => .ok [(.action e, .action e.render)]
  | .empty => .ok [(.empty, .skip)]

/-- **The code of a body**, given the FIRST sets of the rules. -/
def ofNode (sets : FirstSets) (n : Node) : Except Error Code := do
  let bs ← branches sets n
  close sets n bs

end Code

/-! ## Parsers -/

/-- **A generated parser.** -/
structure Parser where
  /-- The keywords that a scan for the parser has to know. -/
  keywords : List String
  /-- The rule to start from. -/
  goal : String
  /-- The code of each rule, in the order of the rules. -/
  methods : List (String × Code)
deriving DecidableEq

/-- **The parser of a compiled grammar.** -/
def Grammar.Compiled.parser (g : Grammar.Compiled) : Except Code.Error Parser := do
  let methods ← g.rules.rules.mapM fun r => do
    let code ← Code.ofNode g.first r.body
    .ok (r.target, code)
  .ok { keywords := g.rules.keywords, goal := g.goal, methods }

end Descent
