import Descent.Token

/-!
# Lexemes

What stands at the front of a text is cut off as its longest lexeme:
a run of blanks, a comment, a word, a number, a string, an operator or a
delimiter. The first character already decides between most of these.
Where it does not – a slash may start an operator or a comment – the
longer one is taken.

Every character that starts some lexeme is by itself the start of one,
so a text has no lexeme only if it is empty or begins with a character
of no use. What is cut off and what is left are together the text
(`munch_append`), and what is left is shorter (`munch_shorter`).
-/

namespace Descent.Lexeme

/-- **The classes of lexeme.** -/
inductive Class where
  /-- Blanks or a comment, which no token comes of. -/
  | gap
  /-- A letter or an underscore, then letters, digits, underscores. -/
  | word
  /-- Digits, then optionally a point and more digits. -/
  | number
  /-- A text with its opening and its closing quote. -/
  | string
  /-- A text with its opening quote only. -/
  | openString
  /-- One of the operator spellings. -/
  | operator
  /-- One of the delimiter characters. -/
  | delimiter
deriving DecidableEq

/-! ## Characters -/

/-- Space, tab, carriage return, line feed and form feed. -/
def isBlank (c : Char) : Bool :=
  c = ' ' || c = '\t' || c = '\r' || c = '\n' || c = '\x0c'

/-- Characters that start a word. -/
def isWordStart (c : Char) : Bool :=
  c.isAlpha || c = '_'

/-- Characters that continue a word. -/
def isWordPart (c : Char) : Bool :=
  c.isAlphanum || c = '_'

/-- The brackets, the comma and the semicolon. -/
def isDelimiter (c : Char) : Bool :=
  "()[]\x7b\x7d,;".toList.contains c

/-- **The operator spellings, longest first**, so that the first one
that fits is the longest one that fits. -/
def operators : List (List Char) :=
  ["::=", "<<=", ">>=",
   "::", "**", "++", "--", "->", "=>", "==", "!=", "<=", ">=", "&&", "||",
   "<<", ">>", "+=", "-=", "*=", "/=", "%=", "&=", "|=", "^=",
   "-", "+", "*", "/", "%", "=", "<", ">", "!", "&", "|", "^", "~", "?",
   ":", ".", "@", "#", "$"].map String.toList

/-! ## Longest runs -/

/-- **The inside of a string, as far as it goes**: plain characters, and
backslashes with the character after them. It ends before a quote, a
line feed, or a backslash that has no character of its line to take. -/
def stringBody : List Char → List Char × List Char
  | [] => ([], [])
  | [c] =>
    if c = '"' ∨ c = '\\' ∨ c = '\n' then ([], [c]) else ([c], [])
  | c :: d :: r =>
    if c = '\\' then
      if d = '\n' then ([], c :: d :: r)
      else
        let body := stringBody r
        (c :: d :: body.1, body.2)
    else if c = '"' ∨ c = '\n' then ([], c :: d :: r)
    else
      let body := stringBody (d :: r)
      (c :: body.1, body.2)

/-- The fraction that may follow the digits of a number: a point counts
only with a digit after it. -/
def fraction : List Char → List Char × List Char
  | '.' :: d :: r =>
    if d.isDigit then ('.' :: d :: r.takeWhile Char.isDigit, r.dropWhile Char.isDigit)
    else ([], '.' :: d :: r)
  | r => ([], r)

/-- The operator at the front of a text. -/
def operator? (cs : List Char) : Option (List Char) :=
  operators.find? (·.isPrefixOf cs)

/-- **The longest lexeme at the front of a text**: its class, its
characters, and what is left. -/
def munch : List Char → Option (Class × List Char × List Char)
  | [] => none
  | c :: r =>
    if isBlank c then
      some (.gap, c :: r.takeWhile isBlank, r.dropWhile isBlank)
    else if c = '/' ∧ r.head? = some '/' then
      some (.gap, c :: r.takeWhile (· ≠ '\n'), r.dropWhile (· ≠ '\n'))
    else if isWordStart c then
      some (.word, c :: r.takeWhile isWordPart, r.dropWhile isWordPart)
    else if c.isDigit then
      let frac := fraction (r.dropWhile Char.isDigit)
      some (.number, c :: (r.takeWhile Char.isDigit ++ frac.1), frac.2)
    else if c = '"' then
      let body := stringBody r
      match body.2 with
      | '"' :: rest => some (.string, c :: (body.1 ++ ['"']), rest)
      | rest => some (.openString, c :: body.1, rest)
    else if isDelimiter c then
      some (.delimiter, [c], r)
    else
      (operator? (c :: r)).map fun op => (.operator, op, (c :: r).drop op.length)

/-! ## Nothing is lost -/

theorem stringBody_append (cs : List Char) :
    (stringBody cs).1 ++ (stringBody cs).2 = cs := by
  fun_induction stringBody cs with
  | case5 _ _ _ body ih => simpa [body] using ih
  | case7 _ _ _ _ _ body ih => simpa [body] using ih
  | _ => simp_all

theorem fraction_append (cs : List Char) :
    (fraction cs).1 ++ (fraction cs).2 = cs := by
  fun_cases fraction cs <;> simp_all [List.takeWhile_append_dropWhile]

theorem operator?_append {cs op : List Char} (h : operator? cs = some op) :
    op ++ cs.drop op.length = cs := by
  have h := List.find?_some h
  obtain ⟨rest, rfl⟩ := List.isPrefixOf_iff_prefix.1 h
  simp

theorem operator?_ne_nil {cs op : List Char} (h : operator? cs = some op) :
    op ≠ [] := by
  have hm := List.mem_of_find?_eq_some h
  have : ∀ op ∈ operators, op ≠ [] := by decide +kernel
  exact this op hm

/-- What is cut off has a character, and with what is left it is the
text. -/
theorem munch_split {cs text rest : List Char} {k : Class}
    (h : munch cs = some (k, text, rest)) : text ≠ [] ∧ text ++ rest = cs := by
  cases cs with
  | nil => simp [munch] at h
  | cons c r =>
    simp only [munch] at h
    split at h
    · cases h; simp
    split at h
    · cases h; simp
    split at h
    · cases h; simp
    split at h
    · cases h; simp [fraction_append]
    split at h
    · have hb := stringBody_append r
      split at h
      · next hr => cases h; rw [hr] at hb; simpa using hb
      · cases h; simp [hb]
    split at h
    · cases h; simp
    · obtain ⟨op, ho, he⟩ := Option.map_eq_some_iff.1 h
      cases he
      exact ⟨operator?_ne_nil ho, operator?_append ho⟩

/-- **What is cut off and what is left are the text.** -/
theorem munch_append {cs text rest : List Char} {k : Class}
    (h : munch cs = some (k, text, rest)) : text ++ rest = cs :=
  (munch_split h).2

/-- **What is left is shorter**, so cutting lexemes comes to an end. -/
theorem munch_shorter {cs text rest : List Char} {k : Class}
    (h : munch cs = some (k, text, rest)) : rest.length < cs.length := by
  have := List.length_pos_iff.2 (munch_split h).1
  rw [← munch_append h, List.length_append]
  omega

end Descent.Lexeme
