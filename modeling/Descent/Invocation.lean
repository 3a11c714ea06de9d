import Descent.Invocation.Attribute
import Descent.Parser.Listing

/-!
# Invocations

A program asks for a parser by an invocation: attributes that configure
it, then the grammar's source as one string literal. The only attribute
is `config` and its only key is `goal`, which names the rule to start
from; if it is given more than once the last one counts.

All attributes are read before the first is looked at, and they are
looked at before the literal is. What an attribute holds behind its
settings is only minded when all else is well. The goal must name a rule
of the grammar even if the grammar has other defects.
-/

namespace Descent

/-- **A request for a parser.** -/
structure Invocation where
  /-- The configured goal. -/
  goal : Option String
  /-- The source of the grammar. -/
  source : String
deriving DecidableEq

/-- **Why an invocation gives no parser.** -/
inductive Invocation.Error where
  /-- The text is no sequence of phrases. -/
  | phrases
  /-- The attributes do not configure a parser. -/
  | configuration (error : Invocation.AttributeError)
  /-- No literal follows the attributes; whether nothing does. -/
  | literal (ended : Bool)
  /-- Something stands after the literal. -/
  | trailing
  /-- Something stands after the settings of an attribute. -/
  | incomplete
  /-- The literal is no grammar. -/
  | source (error : SourceError)
  /-- The configured goal is no rule. -/
  | goal (name : String)
  /-- The grammar does not compile. -/
  | defect (defect : Defect)
  /-- There is no code for the grammar. -/
  | code (error : Code.Error)
deriving DecidableEq

/-- The wording of the error. -/
def Invocation.Error.message : Invocation.Error → String
  | .phrases => "cannot parse string into token stream"
  | .configuration e => e.message
  | .literal false => "expected string literal"
  | .literal true => "unexpected end of input, expected string literal"
  | .trailing => "unexpected tokens after the grammar source"
  | .incomplete => "unexpected token, expected `]`"
  | .source e => e.message
  | .goal name => "`" ++ name ++ "` is not a grammar rule"
  | .defect d => d.message
  | .code e => e.message

namespace Invocation

/-- An invocation with this goal, from the phrases after its
attributes. -/
def withSource (goal : Option String) : List Phrase → Except Error Invocation
  | [.string source] => .ok { goal, source }
  | .string _ :: _ => .error .trailing
  | rest => .error (.literal rest.isEmpty)

/-- **Reads an invocation.** -/
def read (text : String) : Except Error Invocation :=
  match phrases? text with
  | none => .error .phrases
  | some phrases => do
    let (as, rest) ← (attributes phrases).mapError .configuration
    let goal ← (configuredGoal none as).mapError .configuration
    let i ← withSource goal rest
    if as.all (·.complete) then .ok i else .error .incomplete

/-- The grammar that is asked for, its goal checked. -/
def grammar (i : Invocation) : Except Error Grammar :=
  match Grammar.ofSource i.source with
  | .error e => .error (.source e)
  | .ok g =>
    match i.goal with
    | none => .ok g
    | some name =>
      if (g.rules.get? name).isSome then .ok (g.withGoal name) else .error (.goal name)

/-- The parser that is asked for. -/
def parser (i : Invocation) : Except Error Parser := do
  let g ← i.grammar
  match g.compile with
  | .error d => .error (.defect d)
  | .ok compiled =>
    match compiled.parser with
    | .error e => .error (.code e)
    | .ok p => .ok p

/-- **The module that an invocation stands for.** -/
def expand (text : String) : Except Error String := do
  let i ← read text
  let p ← i.parser
  .ok (Listing.text (Listing.wholeModule p))

end Invocation

end Descent
