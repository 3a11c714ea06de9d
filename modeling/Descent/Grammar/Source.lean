import Descent.Expr.Parser
import Descent.Grammar.Rule
import Descent.Token.Scan

/-!
# Grammar source

Grammars are written as

```text
grammar     := rule*
rule        := IDENT "::=" alternation ";"
alternation := sequence ("|" sequence)*
sequence    := element* action?
element     := STRING | DIRECTIVE "(" arguments ")" | IDENT | "<" "empty" ">"
             | "(" alternation ")" | "[" alternation "]"
action      := "{" expression "}"
```

An identifier that names a directive is one only before an opening
parenthesis; without it, it is an ordinary reference. A name in capitals
is a token class, any other name a rule. What stands in brackets is
optional: a choice between it and nothing.

As with expressions, each step takes a token, so the number of tokens
left bounds the nesting and the length of everything that is read.
-/

namespace Descent

/-- **Why a source text is no grammar.** -/
inductive SourceError where
  /-- It does not scan. -/
  | scan (error : ScanError)
  /-- Its tokens are out of order. -/
  | parse (error : ParseError)
  /-- Its rules do not make a table. -/
  | defect (error : Defect)
deriving DecidableEq

/-- The wording of the error. -/
def SourceError.message : SourceError → String
  | .scan e => e.message
  | .parse e => e.message
  | .defect e => e.message

namespace Source

/-- Where the reader stands. -/
def cursor : Parse Cursor := fun c => .ok c c

/-- Passes the next token. -/
def advance : Parse Unit := fun c => .ok () c.advance

/-- Fails where the reader stands, saying what was wanted. -/
def expected {α : Type} (what : String) : Parse α := fun c =>
  .error (c.expected what) c

/-- **Whether a name is that of a token class**: it has a capital, and
nothing but capitals, digits and underscores. -/
def isClassName (name : String) : Bool :=
  name.toList.any Char.isUpper
    && name.toList.all fun c => c.isUpper || c.isDigit || c == '_'

/-! ## Directives -/

/-- The argument that a token is, if it is one. -/
def argument? (t : Token) : Option Directive.Argument :=
  match t.kind with
  | .identifier => some (.name t.spelling)
  | .string => some (.string (Text.unquote t.spelling))
  | .number => some (.number t.spelling)
  | .reserved | .operator | .delimiter => none

/-- Takes an argument. -/
def argument : Parse Directive.Argument := do
  match (← cursor).current?.bind argument? with
  | some a => do
    advance
    pure a
  | none => expected "a macro argument"

/-- Takes an argument, after a comma unless it is the first. -/
def nextArgument (first : Bool) : Parse Directive.Argument := do
  if !first then
    let _ ← Parse.punct ","
  argument

/-- **The arguments up to the closing parenthesis**, which is left. With
no tokens left there is no parenthesis, and an argument is missing. -/
def arguments : Nat → Bool → Parse (List Directive.Argument)
  | 0, first => do
    let a ← nextArgument first
    pure [a]
  | n + 1, first => do
    if (← cursor).atPunct ")" then pure []
    else
      let a ← nextArgument first
      let rest ← arguments n false
      pure (a :: rest)

/-- **A directive**, from its name on. The one that reads expressions
needs a binding power; without one the failure is at the name. -/
def directive (kind : Directive.Kind) : Parse Node := do
  let start ← cursor
  advance
  let _ ← Parse.punct "("
  let args ← arguments start.rest.length true
  let _ ← Parse.punct ")"
  let call : Directive := ⟨kind, args⟩
  if kind = .precedence ∧ call.power? = none then
    throw (start.fail "`precedence` takes a single binding power")
  else pure (.directive call)

/-! ## Elements, sequences, choices -/

/-- The word between angle brackets that writes the empty body. -/
def emptyMark : Parse Node := do
  advance
  let _ ← Parse.accept (fun t => t.kind == .identifier && t.spelling == "empty") "`empty`"
  let _ ← Parse.punct ">"
  pure .empty

/-- A choice between delimiters. -/
def enclosed (choice : Parse Node) (close : String) : Parse Node := do
  advance
  let n ← choice
  let _ ← Parse.punct close
  pure n

/-- The node that a name alone stands for. -/
def named (name : String) : Node :=
  if isClassName name then .reserved name else .rule name

/-- **The next element**, or none if what comes next is no element.
`choice` reads what stands between delimiters. -/
def element (choice : Parse Node) : Parse (Option Node) := do
  let c ← cursor
  match c.current? with
  | none => pure none
  | some t =>
    match t.kind with
    | .string => do
      advance
      pure (some (.literal (Text.unquote t.spelling)))
    | .identifier =>
      match Directive.Kind.ofName? t.spelling with
      | some kind =>
        if (c.get? 1).any (·.isPunct "(") then some <$> directive kind
        else do
          advance
          pure (some (named t.spelling))
      | none => do
        advance
        pure (some (named t.spelling))
    | .delimiter =>
      if t.spelling = "(" then some <$> enclosed choice ")"
      else if t.spelling = "[" then do
        let n ← enclosed choice "]"
        pure (some (.alternative [n, .empty]))
      else pure none
    | .operator =>
      if t.spelling = "<" then some <$> emptyMark else pure none
    | .reserved | .number => pure none

/-- An action between braces, its expression read with these
operators. -/
def action (operators : OperatorTable) : Parse Node := do
  let _ ← Parse.punct "\x7b"
  let e ← Expr.parse operators 0
  let _ ← Parse.punct "\x7d"
  pure (.action e)

/-- The elements of a sequence. An action ends it. -/
def elements (operators : OperatorTable) (choice : Parse Node) : Nat → Parse (List Node)
  | 0 => pure []
  | n + 1 => do
    if (← cursor).atPunct "\x7b" then
      let a ← action operators
      pure [a]
    else
      match ← element choice with
      | none => pure []
      | some e =>
        let rest ← elements operators choice n
        pure (e :: rest)

/-- **A sequence**, which may be empty. -/
def sequence (operators : OperatorTable) (choice : Parse Node) : Parse Node := do
  let es ← elements operators choice (← cursor).rest.length
  pure (.sequence es)

/-- The further branches of a choice, each after a bar. -/
def branches (operators : OperatorTable) (choice : Parse Node) : Nat → Parse (List Node)
  | 0 => pure []
  | n + 1 => do
    if (← cursor).atPunct "|" then
      advance
      let b ← sequence operators choice
      let rest ← branches operators choice n
      pure (b :: rest)
    else pure []

/-- A choice among at most `n` tokens. -/
def choiceWithin (operators : OperatorTable) : Nat → Parse Node
  | 0 => pure .empty
  | n + 1 => do
    let first ← sequence operators (choiceWithin operators n)
    let rest ← branches operators (choiceWithin operators n) (n + 1)
    pure (.alternative (first :: rest))

/-- **A choice between sequences.** -/
def choice (operators : OperatorTable) : Parse Node := fun c =>
  choiceWithin operators c.rest.length c

/-! ## Rules -/

/-- **A rule**, up to its semicolon. -/
def rule (operators : OperatorTable) : Parse Rule := do
  let name ← Parse.accept (·.kind == .identifier) "a rule name"
  let _ ← Parse.punct "::="
  let body ← choice operators
  let _ ← Parse.punct ";"
  pure ⟨name.spelling, body⟩

/-- Rules up to the end, added to a table as they are read. -/
def rulesWithin (operators : OperatorTable) : Nat → RuleTable → Cursor →
    Except SourceError RuleTable
  | 0, table, _ => .ok table
  | n + 1, table, c =>
    if c.rest.isEmpty then .ok table
    else
      match rule operators c with
      | .error e _ => .error (.parse e)
      | .ok r c =>
        match table.push r with
        | .error d => .error (.defect d)
        | .ok table => rulesWithin operators n table c

end Source

namespace RuleTable

/-- **The table that a run of tokens writes.** -/
def ofTokens (operators : OperatorTable) (c : Cursor) : Except SourceError RuleTable :=
  Source.rulesWithin operators c.rest.length empty c

/-- The table that a text writes, scanned with some keywords, its
actions read with these operators. -/
def ofSourceWith (keywords : List String) (operators : OperatorTable) (source : String) :
    Except SourceError RuleTable :=
  match Token.scan keywords source with
  | .error e => .error (.scan e)
  | .ok c => ofTokens operators c

/-- **The table that a text writes**, without keywords and with the
usual operators. -/
def ofSource (source : String) : Except SourceError RuleTable :=
  ofSourceWith [] .standard source

end RuleTable

end Descent
