import Descent.Operator
import Descent.Token

/-!
# Expressions

An expression is an operand or an operator with its operands. Operands
keep the kind and the spelling of their token and not its place, so two
readings of differently laid out texts can be equal.

A tree is **not** tied to a table of operators: it carries the operators
it was built with, and any operator may stand at any node. How a node is
shown depends on the fixity it carries, so the text of a tree that some
table reads is fully parenthesized: delimiters apart, every application
of an operator stands in its own parentheses.
-/

namespace Descent

/-- **An expression tree.** -/
inductive Expr where
  /-- A single token as an operand. -/
  | atom (kind : Token.Kind) (spelling : String)
  /-- An operator with one operand, before or after it. -/
  | unary (op : Operator) (operand : Expr)
  /-- An operator between, around or before two operands. -/
  | binary (op : Operator) (lhs rhs : Expr)
  /-- An operator of two operands whose right one is missing, such as a
  list of parameters with nothing in it. -/
  | vacant (op : Operator) (lhs : Expr)
deriving DecidableEq

namespace Expr

/-- An operator applied to a left operand and perhaps a right one. -/
def apply (op : Operator) (lhs : Expr) : Option Expr → Expr
  | some rhs => .binary op lhs rhs
  | none => .vacant op lhs

/-- The number of the outermost operator. An operand has none. -/
def opcode? : Expr → Option UInt32
  | .atom _ _ => none
  | .unary op _ | .binary op _ _ | .vacant op _ => some op.opcode

/-- **The text of an expression.** A pair of delimiters follows its left
operand directly, a cast puts its left operand in parentheses, and all
else is put in parentheses as a whole. -/
def render : Expr → String
  | .atom _ spelling => spelling
  | .unary op x =>
    match op.fixity with
    | .postfixed => "(" ++ x.render ++ op.spelling ++ ")"
    | _ => "(" ++ op.spelling ++ x.render ++ ")"
  | .binary op x y =>
    match op.fixity with
    | .bracket close | .paramList close =>
      x.render ++ op.spelling ++ y.render ++ close
    | .cast => "((" ++ x.render ++ ") " ++ y.render ++ ")"
    | _ => "(" ++ x.render ++ " " ++ op.spelling ++ " " ++ y.render ++ ")"
  | .vacant op x =>
    match op.fixity with
    | .bracket close | .paramList close => x.render ++ op.spelling ++ close
    | _ => "(" ++ x.render ++ " " ++ op.spelling ++ ")"

end Expr

end Descent
