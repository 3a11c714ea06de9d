import Descent.Invocation.Lexeme

/-!
# Attributes of an invocation

An attribute is a path between square brackets, followed by a list of
settings between delimiters, by an assigned value, or by nothing. The
attributes are read in two rounds. The first one finds out what each of
them is, and fails on anything that is no attribute at all; the second
one looks at what they say. So a path that is none is an error even
behind an attribute with a wrong setting.

The only attribute that says anything is `config`, and the only setting
that it has is `goal`. Its key is read as a path too, but one in which
keywords are words like all others.
-/

namespace Descent.Invocation

/-- **Why phrases are no attributes**, or none that configure
anything. -/
inductive AttributeError where
  /-- Something is missing: what, and whether there is nothing left. -/
  | expected (what : String) (ended : Bool)
  /-- A keyword in place of an identifier. -/
  | keyword (word : String)
  /-- A setting that starts with no word, but maybe with a literal. -/
  | setting (literal : Bool)
  /-- A setting other than the one there is. -/
  | key
  /-- An attribute inside an assigned value. -/
  | nested
  /-- An attribute other than the one there is. -/
  | unsupported
  /-- The attribute has no list of settings, but maybe a value. -/
  | unlisted (assigned : Bool)
deriving DecidableEq

/-- The wording of the error. -/
def AttributeError.message : AttributeError → String
  | .expected what false => "expected " ++ what
  | .expected what true => "unexpected end of input, expected " ++ what
  | .keyword word => "expected identifier, found keyword `" ++ word ++ "`"
  | .setting false => "unexpected token in nested attribute, expected ident"
  | .setting true => "unexpected literal in nested attribute, expected ident"
  | .key => "unknown config key"
  | .nested => "unexpected attribute inside of attribute"
  | .unsupported => "unsupported attribute, expected `#![config(...)]`"
  | .unlisted false => "expected attribute arguments in parentheses: #![config(...)]"
  | .unlisted true => "expected parentheses: #![config(...)]"

/-- The error of missing something in front of some phrases. -/
def missing {α : Type} (what : String) (rest : List Phrase) : Except AttributeError α :=
  .error (.expected what rest.isEmpty)

/-- **The identifier in front.** -/
def identifier : List Phrase → Except AttributeError String
  | .word s :: _ => if isKeyword s then .error (.keyword s) else .ok s
  | rest => missing "identifier" rest

/-! ## Paths -/

/-- What is left after a path separator, if one is in front. -/
def afterSeparator? : List Phrase → Option (List Phrase)
  | .sign ':' true :: .sign ':' _ :: r => some r
  | _ => none

/-- Whether a word may stand in the path of an attribute. -/
def isPathWord (s : String) : Bool :=
  !isKeyword s || ["super", "self", "Self", "crate"].contains s

/-- The words of a path after its first one, and what is left. -/
def pathTail : List Phrase → Except AttributeError (List String × List Phrase)
  | .sign ':' true :: .sign ':' _ :: .word s :: r =>
    if isPathWord s then (pathTail r).map fun (names, rest) => (s :: names, rest)
    else missing "path segment after `::`" (.word s :: r)
  | .sign ':' true :: .sign ':' _ :: r => missing "path segment after `::`" r
  | r => .ok ([], r)

/-- **The path of an attribute**, and what is left. It is rooted if it
starts with a separator. -/
def attributePath (content : List Phrase) :
    Except AttributeError (Bool × List String × List Phrase) :=
  let (rooted, start) :=
    match afterSeparator? content with
    | some r => (true, r)
    | none => (false, content)
  match start with
  | .word s :: r =>
    if s = "unsafe" ∧ !rooted then .ok (rooted, [s], r)
    else if isPathWord s then
      (pathTail r).map fun (names, rest) => (rooted, s :: names, rest)
    else .error (.keyword s)
  | r => missing "identifier" r

/-! ## Attributes -/

/-- What follows the path of an attribute. -/
inductive Settings where
  /-- Nothing that counts. -/
  | missing
  /-- A value after an equals sign. -/
  | assigned
  /-- A list between delimiters. -/
  | listed (items : List Phrase)

/-- **An attribute.** -/
structure Attribute where
  /-- Whether the path starts at the root. -/
  rooted : Bool
  /-- The words of the path. -/
  path : List String
  /-- What follows the path. -/
  settings : Settings
  /-- Whether nothing follows the settings. -/
  complete : Bool

/-- Keywords that are an expression alone. -/
def expressionWords : List String :=
  ["_", "break", "continue", "crate", "false", "return", "Self", "self", "super", "true",
   "yield"]

/-- Keywords that start an expression and do not end it. -/
def expressionStarts : List String :=
  ["async", "const", "for", "if", "let", "loop", "match", "move", "static", "try", "unsafe",
   "while"]

/-- **Checks that an expression starts here.** No attribute keeps the
value that it is assigned, so no more is asked of it. -/
def expression : List Phrase → Except AttributeError Unit
  | [] => missing "an expression" []
  | .word s :: r =>
    if !isKeyword s ∨ s ∈ expressionWords then .ok ()
    else if s ∉ expressionStarts then missing "an expression" (.word s :: r)
    else if r.isEmpty then missing "an expression" r
    else .ok ()
  | .sign c joined :: r =>
    if c ∈ ['*', '!', '-', '&'] then expression r
    else if c ∈ ['|', '<', '\x27'] ∨ (c ∈ [':', '.'] ∧ joined) then .ok ()
    else missing "an expression" (.sign c joined :: r)
  | _ => .ok ()

/-- Checks the value that an attribute is assigned. -/
def assignedValue : List Phrase → Except AttributeError Unit
  | .sign '#' _ :: .group .bracket _ :: _ => .error .nested
  | .sign '#' _ :: r => missing "square brackets" r
  | r => expression r

/-- An attribute, from what stands between its brackets. Two equals signs
in a row, or one before an angle, assign nothing. -/
def Attribute.ofContent (content : List Phrase) : Except AttributeError Attribute := do
  let (rooted, path, rest) ← attributePath content
  match rest with
  | .group _ items :: more => .ok ⟨rooted, path, .listed items, more.isEmpty⟩
  | .sign '=' true :: .sign '=' _ :: _ => .ok ⟨rooted, path, .missing, false⟩
  | .sign '=' true :: .sign '>' _ :: _ => .ok ⟨rooted, path, .missing, false⟩
  | .sign '=' _ :: value => do
    assignedValue value
    .ok ⟨rooted, path, .assigned, true⟩
  | more => .ok ⟨rooted, path, .missing, more.isEmpty⟩

/-- **The attributes in front**, and what is left. -/
def attributes : List Phrase → Except AttributeError (List Attribute × List Phrase)
  | .sign '#' _ :: .sign '!' _ :: .group .bracket content :: r => do
    let a ← Attribute.ofContent content
    let (as, rest) ← attributes r
    .ok (a :: as, rest)
  | .sign '#' _ :: .sign '!' _ :: r => missing "square brackets" r
  | r => .ok ([], r)

/-! ## Settings -/

/-- The words of a key after its first one. -/
def keyTail : List Phrase → Except AttributeError (List String)
  | .sign ':' true :: .sign ':' _ :: .word s :: r => (keyTail r).map (s :: ·)
  | .sign ':' true :: .sign ':' _ :: r => missing "ident" r
  | _ => .ok []

/-- The key of a setting, and whether it is rooted. -/
def key (items : List Phrase) : Except AttributeError (Bool × List String) :=
  let (rooted, start) :=
    match afterSeparator? items with
    | some r => (true, r)
    | none => (false, items)
  match start with
  | .word s :: r => (keyTail r).map fun names => (rooted, s :: names)
  | [] => missing "nested attribute" []
  | .string _ :: _ | .number :: _ | .literal :: _ | .sign '-' _ :: .number :: _ =>
    .error (.setting true)
  | _ => .error (.setting false)

/-- **The goal that settings choose**, or the earlier one if they choose
none. -/
def chosenGoal (goal : Option String) : List Phrase → Except AttributeError (Option String)
  | [] => .ok goal
  | .word "goal" :: .sign '=' _ :: .word name :: rest =>
    if isKeyword name then .error (.keyword name)
    else
      match rest with
      | [] => .ok (some name)
      | .sign ',' _ :: rest => chosenGoal (some name) rest
      | _ => .error (.expected "`,`" false)
  | .word "goal" :: .sign '=' _ :: rest => missing "identifier" rest
  | items => do
    if (← key items) = (false, ["goal"]) then .error (.expected "`=`" false)
    else .error .key

/-- **The goal that attributes choose**, each looked at in order. -/
def configuredGoal (goal : Option String) :
    List Attribute → Except AttributeError (Option String)
  | [] => .ok goal
  | a :: as =>
    if a.rooted ∨ a.path ≠ ["config"] then .error .unsupported
    else
      match a.settings with
      | .missing => .error (.unlisted false)
      | .assigned => .error (.unlisted true)
      | .listed items => do
        let goal ← chosenGoal goal items
        configuredGoal goal as

end Descent.Invocation
