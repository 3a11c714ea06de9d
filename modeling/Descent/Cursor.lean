import Descent.Token

/-!
# Reading tokens

A cursor stands before the tokens that are left of a text. A reader
either takes tokens off the front and gives a value, or fails; **in both
cases it says where it stands afterwards**, since whoever recovers from
a failure goes on from there. `Parse` is that shape.

The readers of single tokens are all `Parse.accept`, which takes one
token or fails without taking any. So their failures report the first
token that was not taken: its place, and its spelling.
-/

namespace Descent

/-- **A reading position in a run of tokens**: the tokens that are left,
and the place where the text ends. -/
structure Cursor where
  /-- The tokens not read yet. -/
  rest : List Token
  /-- The place after the last character of the text. -/
  finish : Position
deriving DecidableEq

/-- **Why a reader fails**, and where. -/
inductive ParseError where
  /-- A sign where an operator may stand that no table entry explains. -/
  | unimplemented (spelling : String) (position : Position)
  /-- Something else was wanted in place of the token found, or of the
  end of the text if there is none. -/
  | expected (what : String) (found : Option String) (position : Position)
  /-- A failure in the words of the grammar's author. -/
  | custom (message : String) (position : Position)
deriving DecidableEq

namespace ParseError

/-- Where the failure is. -/
def position : ParseError → Position
  | .unimplemented _ p | .expected _ _ p | .custom _ p => p

/-- How a message names the token found. -/
def foundText : Option String → String
  | some spelling => "`" ++ spelling ++ "`"
  | none => "end of input"

/-- The wording of a failure, after its place. -/
def reason : ParseError → String
  | .unimplemented spelling _ => "operator `" ++ spelling ++ "` is not implemented"
  | .expected what found _ => "expected " ++ what ++ ", found " ++ foundText found
  | .custom message _ => message

/-- The wording of a failure: the place, then the reason. -/
def message (e : ParseError) : String :=
  e.position.render ++ ": " ++ e.reason

end ParseError

/-- **A single token that a grammar asks for by name.** -/
inductive Expectation where
  /-- A token that stands for this literal. -/
  | literal (spelling : String)
  /-- A token of this class. -/
  | reserved (name : String)
deriving DecidableEq

/-- Whether a token is the one asked for. -/
def Expectation.accepts : Expectation → Token → Bool
  | .literal spelling, t => t.isLiteral spelling
  | .reserved name, t => t.isReserved name

namespace Cursor

/-- The token at some distance from the front. -/
def get? (c : Cursor) (n : Nat) : Option Token := c.rest[n]?

/-- The token at the front. -/
def current? (c : Cursor) : Option Token := c.rest.head?

/-- Where the front is: at the first token left, or at the end. -/
def position (c : Cursor) : Position :=
  match c.rest with
  | [] => c.finish
  | t :: _ => t.position

/-- The cursor behind the first token. At the end it stays. -/
def advance (c : Cursor) : Cursor := { c with rest := c.rest.tail }

/-- Behind a token there is one less left. -/
theorem length_advance {c : Cursor} {t : Token} (h : c.current? = some t) :
    c.advance.rest.length + 1 = c.rest.length := by
  obtain ⟨rest, finish⟩ := c
  cases rest with
  | nil => cases h
  | cons t' rest => rfl

/-- Whether a sign with this spelling is next. -/
def atPunct (c : Cursor) (spelling : String) : Bool :=
  c.current?.any (·.isPunct spelling)

/-- Whether a token that stands for this literal is next. -/
def atLiteral (c : Cursor) (spelling : String) : Bool :=
  c.current?.any (·.isLiteral spelling)

/-- Whether a token of this class is next. -/
def atReserved (c : Cursor) (name : String) : Bool :=
  c.current?.any (·.isReserved name)

/-- **Whether the next tokens are the ones asked for**, one each. -/
def atLookahead (c : Cursor) (wanted : List Expectation) : Bool :=
  go wanted c.rest
where
  /-- Expectations and tokens, compared side by side. -/
  go : List Expectation → List Token → Bool
    | [], _ => true
    | _ :: _, [] => false
    | e :: es, t :: ts => e.accepts t && go es ts

/-- The failure of wanting something else here. -/
def expected (c : Cursor) (what : String) : ParseError :=
  .expected what (c.current?.map (·.spelling)) c.position

/-- The failure of an operator here that is not explained. -/
def unimplemented (c : Cursor) (spelling : String) : ParseError :=
  .unimplemented spelling c.position

/-- A failure here in the words of the grammar's author. -/
def fail (c : Cursor) (message : String) : ParseError :=
  .custom message c.position

/-- How a message lists what could have stood here. -/
def choiceText : List String → String
  | [] => "end of input"
  | [label] => label
  | labels => "one of " ++ ", ".intercalate labels

/-- The failure of finding none of several things here. -/
def expectedOneOf (c : Cursor) (labels : List String) : ParseError :=
  c.expected (choiceText labels)

end Cursor

/-- **A reader of tokens**: a value or a failure, and in either case the
cursor it leaves. -/
abbrev Parse (α : Type) := EStateM ParseError Cursor α

namespace Parse

/-- **Takes one token of a certain sort**, or fails where it stands,
saying what was wanted. -/
def accept (test : Token → Bool) (what : String) : Parse Token := fun c =>
  match c.rest with
  | [] => .error (c.expected what) c
  | t :: _ => if test t then .ok t c.advance else .error (c.expected what) c

/-- The token that is taken is one less left. -/
theorem length_of_accept {test : Token → Bool} {what : String} {c d : Cursor} {t : Token}
    (h : accept test what c = .ok t d) : d.rest.length + 1 = c.rest.length := by
  unfold accept at h
  split at h
  · cases h
  · next t' rest hrest =>
    split at h
    · cases h
      exact Cursor.length_advance (congrArg List.head? hrest)
    · cases h

/-- Takes a sign with this spelling. -/
def punct (spelling : String) : Parse Token :=
  accept (·.isPunct spelling) ("`" ++ spelling ++ "`")

/-- Takes a token that stands for this literal. -/
def literal (spelling : String) : Parse Token :=
  accept (·.isLiteral spelling) ("`" ++ spelling ++ "`")

/-- Takes a token of this class. -/
def reserved (name : String) : Parse Token :=
  accept (·.isReserved name) name

/-- **Skips to the first token that some anchor accepts**, without
taking it, and gives what was skipped. Without one it skips all. -/
def recover (anchors : List Expectation) : Parse (List Token) := fun c =>
  let skip (t : Token) : Bool := !anchors.any (·.accepts t)
  .ok (c.rest.takeWhile skip) { c with rest := c.rest.dropWhile skip }

/-- Fails unless all tokens are taken. -/
def finish : Parse Unit := fun c =>
  match c.rest with
  | [] => .ok () c
  | _ :: _ => .error (c.expected "end of input") c

end Parse

end Descent
