import Descent.Position
import Descent.Text

/-!
# Tokens

A token is a piece of text with a kind and a place. Grammars ask two
questions of a token: whether it **is a literal**, that is, spelled the
way the grammar spells it, and whether it **is of a class**, which is a
kind of token or a keyword. A string token is spelled with its quotes,
and stands for the literal that is its content.

Keywords do not distinguish the case of ASCII letters. A word is a
keyword only if the scan was told so: the class test looks at the kind
first, so an ordinary identifier is of no keyword class.
-/

namespace Descent

/-- **The kinds of token.** -/
inductive Token.Kind where
  /-- A word that is no keyword. -/
  | identifier
  /-- A word that the scan was told to take for a keyword. -/
  | reserved
  /-- Digits, with an optional fraction. -/
  | number
  /-- A text between double quotes, which belong to the spelling. -/
  | string
  /-- A mark of one to three signs, such as `::=`. -/
  | operator
  /-- A bracket, a comma or a semicolon. -/
  | delimiter
deriving DecidableEq

/-- Whether a token of this kind can stand alone as an operand. -/
def Token.Kind.isOperand : Token.Kind → Bool
  | .identifier | .reserved | .number | .string => true
  | .operator | .delimiter => false

/-- Whether a token of this kind is made of signs. -/
def Token.Kind.isSign : Token.Kind → Bool
  | .operator | .delimiter => true
  | .identifier | .reserved | .number | .string => false

/-- **A token**: a kind, a spelling and the place where it starts. -/
structure Token where
  /-- What sort of token it is. -/
  kind : Token.Kind
  /-- Its text, exactly as it stands in the source. -/
  spelling : String
  /-- Where it starts. -/
  position : Position
deriving DecidableEq

namespace Token

/-- The spelling between back quotes, for messages. -/
def render (t : Token) : String :=
  "`" ++ t.spelling ++ "`"

/-- **Whether the token stands for a literal.** A string token is
compared by its content, every other by its spelling. -/
def isLiteral (t : Token) (literal : String) : Bool :=
  match t.kind with
  | .string => Text.unquote t.spelling == literal
  | _ => t.spelling == literal

/-- **A token stands for one literal only.** -/
theorem eq_of_isLiteral {t : Token} {s s' : String} (h : t.isLiteral s = true)
    (h' : t.isLiteral s' = true) : s = s' := by
  obtain ⟨kind, spelling, position⟩ := t
  cases kind with
  | _ => exact (beq_iff_eq.mp h).symm.trans (beq_iff_eq.mp h')

/-- The kind that a class name stands for, if it is not a keyword. -/
def classKind? (name : String) : Option Kind :=
  if name = "IDENTIFIER" ∨ name = "IDENT" then some .identifier
  else if name = "NUMBER" then some .number
  else if name = "STRING" then some .string
  else none

/-- **Whether the token is of a class.** The names of kinds are settled
by the kind; any other name is a keyword, compared without case. -/
def isReserved (t : Token) (name : String) : Bool :=
  match classKind? name with
  | some kind => t.kind == kind
  | none => t.kind == .reserved && Text.lower t.spelling == Text.lower name

/-- Whether the token is a sign with this spelling. -/
def isPunct (t : Token) (spelling : String) : Bool :=
  t.kind.isSign && t.spelling == spelling

end Token

end Descent
