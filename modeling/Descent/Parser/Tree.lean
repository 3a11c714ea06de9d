import Descent.Expr

/-!
# Syntax trees

Running a parser gives a tree with one node for each rule that was used.
Below a node stand, in order, the tokens that were taken, the nodes of
the rules referred to, the expressions that were read, and the actions
of the branches that were chosen.
-/

namespace Descent

/-- **A syntax tree**, or one thing below a node. -/
inductive Tree where
  /-- What a rule matched. -/
  | node (rule : String) (children : List Tree)
  /-- A token that was taken. -/
  | token (token : Token)
  /-- An expression that was read by precedence. -/
  | expr (expr : Expr)
  /-- The text of an action that was passed. -/
  | action (text : String)

namespace Tree

mutual

/-- **How a tree is shown**: a node in parentheses, its rule first. -/
def render : Tree → String
  | .node rule children => "(" ++ rule ++ renderAll children ++ ")"
  | .token t => t.spelling
  | .expr e => e.render
  | .action text => "\x7b " ++ text ++ " \x7d"

/-- Trees one after the other, with a space before each. -/
def renderAll : List Tree → String
  | [] => ""
  | t :: ts => " " ++ t.render ++ renderAll ts

end

mutual

/-- **The tokens under a tree**, in the order of the source. Those of
expressions are not among them. -/
def tokens : Tree → List Token
  | .node _ children => tokensAll children
  | .token t => [t]
  | .expr _ | .action _ => []

/-- The tokens under several trees, in order. -/
def tokensAll : List Tree → List Token
  | [] => []
  | t :: ts => t.tokens ++ tokensAll ts

end

/-- What stands directly below a node. -/
def children : Tree → List Tree
  | .node _ children => children
  | .token _ | .expr _ | .action _ => []

/-- The rule of a node. -/
def rule? : Tree → Option String
  | .node rule _ => some rule
  | .token _ | .expr _ | .action _ => none

/-- The rules of the nodes directly below, in order. -/
def childRules (t : Tree) : List String := t.children.filterMap rule?

/-- The first node directly below that a rule made. -/
def find? (t : Tree) (rule : String) : Option Tree :=
  t.children.find? fun c => c.rule? == some rule

end Tree

end Descent
