import Descent.Invocation.Literal

/-!
# Lexemes of an invocation

The host language cuts its text into lexemes: leaves, which are phrases
already, and the delimiters around groups. Blanks and comments stand
between lexemes and give none. A comment that documents something is an
exception: it is another way to write an attribute, so it gives the
lexemes of that attribute.

A text has lexemes only if it can be cut to its end, and phrases only
if its delimiters match as well. Which of the two fails, and where, makes
no difference to anyone.
-/

namespace Descent.Invocation

open Text (isWordStart isWordPart)

/-- **A piece of text that belongs together.** -/
inductive Lexeme where
  /-- A phrase that is no group. -/
  | leaf (phrase : Phrase)
  /-- The start of a group. -/
  | opening (delimiter : Delimiter)
  /-- The end of a group. -/
  | closing (delimiter : Delimiter)

/-! ## Blanks and comments -/

/-- The blanks of the host language: white space, and the two marks of
writing direction. -/
def isBlank (c : Char) : Bool :=
  let n := c.toNat
  (0x09 ≤ n && n ≤ 0x0d) || (0x2000 ≤ n && n ≤ 0x200a) ||
    [0x20, 0x85, 0xa0, 0x1680, 0x200e, 0x200f, 0x2028, 0x2029, 0x202f, 0x205f,
      0x3000].contains n

/-- The text of a block comment, from behind its opening, and what is
left. Block comments nest: `depth` of them are open inside this one. -/
def blockComment? (depth : Nat) : List Char → Option (List Char × List Char)
  | [] => none
  | '/' :: '*' :: r => prepend ['/', '*'] (blockComment? (depth + 1) r)
  | '*' :: '/' :: r =>
    match depth with
    | 0 => some ([], r)
    | depth + 1 => prepend ['*', '/'] (blockComment? depth r)
  | c :: r => prepend [c] (blockComment? depth r)

/-- Whether every carriage return stands before a line feed. -/
def returnsPaired : List Char → Bool
  | [] => true
  | c :: r => (c ≠ '\r' || r.head? = some '\n') && returnsPaired r

/-- The attribute that a comment is another way to write. It is `inner`
if it documents what it stands in. -/
def documentation (inner : Bool) (text : List Char) : List Lexeme :=
  [.leaf (.sign '#' false)] ++ (if inner then [.leaf (.sign '!' false)] else []) ++
    [.opening .bracket, .leaf (.word "doc"), .leaf (.sign '=' false),
      .leaf (.string (String.ofList text)), .closing .bracket]

/-- **The comment in front**, from behind its two signs, and what is
left. It documents something if a third sign makes it, but a whole row of
signs does not. -/
def comment? (block : Bool) (cs : List Char) : Option (List Lexeme × List Char) :=
  let mark := if block then '*' else '/'
  let inner := cs.head? = some '!'
  let outer := cs.head? = some mark ∧ cs[1]? ≠ some mark ∧ ¬(block ∧ cs[1]? = some '/')
  let (text, rest) := (cs.takeWhile (· ≠ '\n'), cs.dropWhile (· ≠ '\n'))
  match if block then blockComment? 0 cs else some (text, rest) with
  | none => none
  | some (text, rest) =>
    if ¬(inner ∨ outer) then some ([], rest)
    else if returnsPaired (if block then text else text ++ rest.take 1) then
      some (documentation inner (text.drop 1), rest)
    else none

/-! ## Words and signs -/

/-- The word in front, without a raw mark, and what is left. -/
def bareWord? : List Char → Option (List Char × List Char)
  | [] => none
  | c :: r =>
    if isWordStart c then some (c :: r.takeWhile isWordPart, r.dropWhile isWordPart)
    else none

/-- **The word in front**, and what is left. A few words cannot be
raw. -/
def word? : List Char → Option (List Char × List Char)
  | 'r' :: '#' :: r =>
    match bareWord? r with
    | some (w, rest) =>
      if String.ofList w ∈ ["_", "super", "self", "Self", "crate"] then none
      else some ('r' :: '#' :: w, rest)
    | none => none
  | cs => bareWord? cs

/-- How literals start that are also words up to some point. -/
def literalStarts : List (List Char) :=
  ["r\"", "r#\"", "r##", "b\"", "b\x27", "br\"", "br#", "c\"", "cr\"", "cr#"].map
    String.toList

/-- The signs of the host language. -/
def isSign (c : Char) : Bool :=
  "~!@#$%^&*-=+|;:,<.>/?\x27".toList.contains c

/-- Whether a comment is in front. -/
def startsComment : List Char → Bool
  | '/' :: c :: _ => c = '/' || c = '*'
  | _ => false

/-- **The sign in front**, and what is left. An apostrophe is one only
before a word that nothing turns into something else. -/
def sign? : List Char → Option (Phrase × List Char)
  | [] => none
  | c :: r =>
    if c = '\x27' then
      match word? r with
      | none => none
      | some (w, rest) =>
        if rest.head? = some '\x27' ∨ (rest.head? = some '#' ∧ w[1]? ≠ some '#') then none
        else some (.sign c true, r)
    else if isSign c then
      some (.sign c (r.head?.any isSign && !startsComment r), r)
    else none

/-- What the host language writes for something that it failed to
understand. It passes for a literal. -/
def errorMark : List Char :=
  "(/*ERROR*/)".toList

/-- The leaf in front, and what is left. -/
def leaf? (cs : List Char) : Option (Phrase × List Char) :=
  match literal? cs with
  | some found => some found
  | none =>
    match sign? cs with
    | some found => some found
    | none =>
      if literalStarts.any fun start => start.isPrefixOf cs then none
      else
        match word? cs with
        | some (w, rest) => some (.word (String.ofList w), rest)
        | none => none

/-! ## Lexemes -/

/-- The delimiter that a character opens. -/
def opened? (c : Char) : Option Delimiter :=
  if c = '(' then some .parenthesis
  else if c = '[' then some .bracket
  else if c = '\x7b' then some .brace
  else none

/-- The delimiter that a character closes. -/
def closed? (c : Char) : Option Delimiter :=
  if c = ')' then some .parenthesis
  else if c = ']' then some .bracket
  else if c = '\x7d' then some .brace
  else none

/-- **The lexemes of what is in front**, and what is left. -/
def next? : List Char → Option (List Lexeme × List Char)
  | [] => none
  | '/' :: '/' :: r => comment? false r
  | '/' :: '*' :: r => comment? true r
  | c :: r =>
    if isBlank c then some ([], r)
    else if errorMark.isPrefixOf (c :: r) then
      some ([.leaf .literal], (c :: r).drop errorMark.length)
    else
      match opened? c, closed? c with
      | some d, _ => some ([.opening d], r)
      | none, some d => some ([.closing d], r)
      | none, none =>
        match leaf? (c :: r) with
        | some (p, rest) => some ([.leaf p], rest)
        | none => none

theorem blockComment?_shorter {depth : Nat} {cs text rest : List Char}
    (h : blockComment? depth cs = some (text, rest)) : rest.length < cs.length := by
  fun_induction blockComment? depth cs generalizing text rest <;>
    grind [→ prepend_eq_some]

theorem comment?_length_le {block : Bool} {cs rest : List Char} {ls : List Lexeme}
    (h : comment? block cs = some (ls, rest)) : rest.length ≤ cs.length := by
  have hd := length_dropWhile_le (· ≠ '\n') cs
  cases block <;> grind [comment?, → blockComment?_shorter]

theorem bareWord?_shorter {cs w rest : List Char} (h : bareWord? cs = some (w, rest)) :
    rest.length < cs.length := by
  unfold bareWord? at h
  split at h
  · simp at h
  · next c r => have := length_dropWhile_le isWordPart r; grind

theorem word?_shorter {cs w rest : List Char} (h : word? cs = some (w, rest)) :
    rest.length < cs.length := by
  unfold word? at h
  split at h
  · split at h
    · next hw => have := bareWord?_shorter hw; grind
    · simp at h
  · exact bareWord?_shorter h

theorem sign?_shorter {cs rest : List Char} {p : Phrase} (h : sign? cs = some (p, rest)) :
    rest.length < cs.length := by
  unfold sign? at h
  grind

theorem leaf?_shorter {cs rest : List Char} {p : Phrase} (h : leaf? cs = some (p, rest)) :
    rest.length < cs.length := by
  unfold leaf? at h
  grind [→ literal?_shorter, → sign?_shorter, → word?_shorter]

/-- Something is taken at every step. -/
theorem next?_shorter {cs rest : List Char} {ls : List Lexeme}
    (h : next? cs = some (ls, rest)) : rest.length < cs.length := by
  unfold next? at h
  split at h
  · simp at h
  · have := comment?_length_le h; grind
  · have := comment?_length_le h; grind
  · next c r _ _ =>
    have : errorMark.length = 11 := by decide
    grind [→ leaf?_shorter]

/-- **The lexemes of a text**, if it can be cut to its end. -/
def lexemes? (cs : List Char) : Option (List Lexeme) :=
  match h : next? cs with
  | none => if cs.isEmpty then some [] else none
  | some (ls, rest) =>
    have : rest.length < cs.length := next?_shorter h
    (lexemes? rest).map (ls ++ ·)
termination_by cs.length

/-! ## Phrases -/

/-- The phrases that lexemes make up. The groups that are open are
given innermost first, each with the phrases before it, and `done` holds
the phrases since the last delimiter; both run backwards. -/
def grouped? (outer : List (Delimiter × List Phrase)) (done : List Phrase) :
    List Lexeme → Option (List Phrase)
  | [] => if outer.isEmpty then some done.reverse else none
  | .leaf p :: r => grouped? outer (p :: done) r
  | .opening d :: r => grouped? ((d, done) :: outer) [] r
  | .closing d :: r =>
    match outer with
    | [] => none
    | (e, before) :: outer =>
      if d = e then grouped? outer (.group d done.reverse :: before) r else none

/-- What is left after a byte order mark, if there is one. -/
def unmarked : List Char → List Char
  | '\ufeff' :: r => r
  | cs => cs

/-- **The phrases of a text**, if it has any reading at all. -/
def phrases? (text : String) : Option (List Phrase) :=
  (lexemes? (unmarked text.toList)).bind (grouped? [] [])

end Descent.Invocation
