import Descent.Text

/-!
# Directives

Four built-in calls let a grammar step outside its own notation: a test
of the next few tokens, a skip to some token, a failure in the author's
words, and an expression read by precedence. Two calls that are shown
the same are the same call.
-/

namespace Descent

/-- **What a directive does.** -/
inductive Directive.Kind where
  /-- Tests the next tokens, one for each argument, and takes none. -/
  | lookahead
  /-- Skips to a token that one of the arguments names. -/
  | recover
  /-- Fails with a message. -/
  | error
  /-- Reads an expression at a least binding power. -/
  | precedence
deriving DecidableEq

namespace Directive.Kind

/-- The name by which a grammar calls it. -/
def name : Kind → String
  | .lookahead => "lookahead"
  | .recover => "recover"
  | .error => "error"
  | .precedence => "precedence"

/-- The kind that a name calls, if it is one of the four. -/
def ofName? (s : String) : Option Kind :=
  [.lookahead, .recover, .error, .precedence].find? (·.name == s)

@[simp] theorem ofName?_name (k : Kind) : ofName? k.name = some k := by
  cases k <;> decide +kernel

end Directive.Kind

/-- **An argument of a directive.** -/
inductive Directive.Argument where
  /-- A bare word. -/
  | name (text : String)
  /-- The content of a quoted text. -/
  | string (text : String)
  /-- A number, as it is spelled. -/
  | number (text : String)
deriving DecidableEq

/-- How an argument is written. -/
def Directive.Argument.render : Directive.Argument → String
  | .name s | .number s => s
  | .string s => Text.quote s

/-- **A call of a directive.** -/
structure Directive where
  /-- What it does. -/
  kind : Directive.Kind
  /-- With what. -/
  args : List Directive.Argument
deriving DecidableEq

namespace Directive

/-- **How a call is written**, such as `lookahead(IDENT, ":")`. -/
def render (d : Directive) : String :=
  d.kind.name ++ "(" ++ ", ".intercalate (d.args.map Argument.render) ++ ")"

/-- The binding power that a call gives: its only argument, if that is a
number that fits a word. -/
def power? (d : Directive) : Option UInt32 :=
  match d.args with
  | [.number n] => Text.word? n
  | _ => none

end Directive

end Descent
