/-!
# Phrases of an invocation

An invocation stands inside a program of the host language, so it is
read as that language reads all of its text: first as a sequence of
phrases, which are words, literals, signs, and groups of phrases between
matching delimiters. Only then does it matter what the phrases say.

Of the literals only text has a content that counts. Numbers are kept
apart from the rest because a minus sign may belong to them. A sign is
one character, and it is *joined* if another sign follows it directly:
two colons make a path separator only if the first one is joined.
-/

namespace Descent.Invocation

/-- The pairs of delimiters. -/
inductive Delimiter where
  /-- Round. -/
  | parenthesis
  /-- Square. -/
  | bracket
  /-- Curly. -/
  | brace
deriving DecidableEq

/-- **A phrase of the host language**, as far as it matters. -/
inductive Phrase where
  /-- An identifier or keyword, with its raw mark if it has one. -/
  | word (text : String)
  /-- A text literal, by its content. -/
  | string (content : String)
  /-- A numeric literal. -/
  | number
  /-- Any other literal. -/
  | literal
  /-- A sign, and whether the next one follows directly. -/
  | sign (c : Char) (joined : Bool)
  /-- Phrases between matching delimiters. -/
  | group (delimiter : Delimiter) (content : List Phrase)

/-- **The words that are no identifiers.** With a raw mark in front they
are, because the mark is part of the word. -/
def keywords : List String :=
  ["_", "abstract", "as", "async", "await", "become", "box", "break", "const",
   "continue", "crate", "do", "dyn", "else", "enum", "extern", "false", "final",
   "fn", "for", "if", "impl", "in", "let", "loop", "macro", "match", "mod",
   "move", "mut", "override", "priv", "pub", "ref", "return", "Self", "self",
   "static", "struct", "super", "trait", "true", "try", "type", "typeof",
   "unsafe", "unsized", "use", "virtual", "where", "while", "yield"]

/-- Whether a word is no identifier. -/
def isKeyword (s : String) : Bool :=
  keywords.contains s

end Descent.Invocation
