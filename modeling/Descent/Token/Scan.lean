import Descent.Cursor
import Descent.Token.Lexeme

/-!
# Scanning

A scan cuts a text into its lexemes, one after the other, and keeps a
token for each that is not a gap. A word becomes a keyword if its lower
case form is among the keywords, which are compared without case as
well.

Lexemes are cut off by offset. The place of a token is looked up among the
lines of the text.

A scan stops at the first place where there is no lexeme, or where the
longest one is a string without its closing quote. It is all or nothing:
there are no tokens of a text that does not scan.
-/

namespace Descent

/-- Why a text cannot be cut into lexemes. -/
inductive ScanError.Cause where
  /-- A character that starts no lexeme. -/
  | unexpected (c : Char)
  /-- A string that its line ends before its closing quote. -/
  | unterminated
deriving DecidableEq

/-- **A place where scanning stops**, and why. -/
structure ScanError where
  /-- Where the offending text starts. -/
  position : Position
  /-- What is wrong there. -/
  cause : ScanError.Cause
deriving DecidableEq

/-- The wording of the cause. -/
def ScanError.Cause.message : ScanError.Cause → String
  | .unexpected c => "unexpected character `" ++ String.singleton c ++ "`"
  | .unterminated => "unterminated string literal"

/-- The wording of a scan error: the place, then the cause. -/
def ScanError.message (e : ScanError) : String :=
  e.position.render ++ ": " ++ e.cause.message

namespace Token

/-- The kind of the token that a lexeme gives, if it gives one. -/
def kind? (keywords : List String) (text : List Char) : Lexeme.Class → Option Kind
  | .gap | .openString => none
  | .word =>
    if Text.lower (String.ofList text) ∈ keywords.map Text.lower then some .reserved
    else some .identifier
  | .number => some .number
  | .string => some .string
  | .operator => some .operator
  | .delimiter => some .delimiter

/-- The tokens of what is left of a text from an offset on, with the places
that offsets have in the text. -/
def scanFrom (keywords : List String) (place : Nat → Position) (offset : Nat)
    (cs : List Char) : Except ScanError Cursor :=
  match h : Lexeme.munch cs with
  | none =>
    match cs with
    | [] => .ok ⟨[], place offset⟩
    | c :: _ => .error ⟨place offset, .unexpected c⟩
  | some (k, text, rest) =>
    if k = .openString then .error ⟨place offset, .unterminated⟩
    else
      have : rest.length < cs.length := Lexeme.munch_shorter h
      match scanFrom keywords place (offset + Text.bytes text) rest with
      | .error e => .error e
      | .ok cursor =>
        match kind? keywords text k with
        | none => .ok cursor
        | some kind =>
          .ok ⟨⟨kind, String.ofList text, place offset⟩ :: cursor.rest, cursor.finish⟩
termination_by cs.length

/-- **The tokens of a text**, with the given words as keywords. -/
def scan (keywords : List String) (input : String) : Except ScanError Cursor :=
  let lines := Lines.ofText input.toList
  scanFrom keywords lines.place 0 input.toList

end Token

end Descent
