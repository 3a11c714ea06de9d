import Descent.Text.Hidden

/-!
# Texts in a grammar

The words of a grammar are texts that mean something else: a name
without regard to case, a number, the content of a literal. This module
says how they are compared, read and written.

Literals are shown between double quotes. **Writing** (`quote`) puts a
backslash before a quote or a backslash, gives the four usual controls a
letter, and writes every other hidden character by its number.
**Reading** (`unquote`) is simpler: it knows the letters `n`,
`t` and `r`, and takes any other character after a backslash for itself.
The two agree on text whose hidden characters are only line feeds, tabs
and carriage returns. They do not agree beyond: reading knows neither
the letter of the null character nor numbers.
-/

namespace Descent.Text

/-! ## Case

Keywords do not distinguish the case of ASCII letters. They are compared
in lower case; letters outside ASCII are left as they are. -/

/-- Text with its ASCII capitals in lower case. -/
def lower (s : String) : String :=
  String.ofList (s.toList.map Char.toLower)

@[simp] theorem toList_lower (s : String) :
    (lower s).toList = s.toList.map Char.toLower := by
  simp [lower]

/-- What is in lower case stays as it is. -/
theorem lower_lower (s : String) : lower (lower s) = lower s := by
  have hchar : ∀ c : Char, c.toLower.toLower = c.toLower := by
    intro c
    by_cases h : c.val ≥ 'A'.val ∧ c.val ≤ 'Z'.val
    · have hval : c.toLower.val = c.val + 32 := congrArg Char.val (dif_pos h)
      exact dif_neg (by grind)
    · have hsame : c.toLower = c := dif_neg h
      rw [hsame, hsame]
  refine String.toList_inj.mp ?_
  rw [toList_lower, toList_lower, List.map_map]
  exact List.map_congr_left fun c _ => hchar c

/-! ## Decimal words

Binding powers are written in decimal and read into 32-bit words. A sign
`+` may stand in front, leading zeros count for nothing, and a value
that does not fit is no word. -/

/-- The value of a run of decimal digits. -/
def digitsValue (cs : List Char) : Nat :=
  cs.foldl (fun n c => 10 * n + (c.toNat - '0'.toNat)) 0

/-- The value of a text that is one or more decimal digits. -/
def decimal? (cs : List Char) : Option Nat :=
  if cs.isEmpty || !cs.all Char.isDigit then none else some (digitsValue cs)

/-- The characters after a leading plus sign, if there is one. -/
def unsigned : List Char → List Char
  | '+' :: r => r
  | cs => cs

/-- **The 32-bit word that a text writes in decimal**, if it does. -/
def word? (s : String) : Option UInt32 :=
  (decimal? (unsigned s.toList)).bind fun n =>
    if n < UInt32.size then some (UInt32.ofNat n) else none

/-! ## Quoted text -/

/-- The digits of a code point in base sixteen, lower case, with no
leading zero. -/
def hex (n : Nat) : List Char :=
  Nat.toDigits 16 n

/-- **How one character stands in quoted text.** -/
def escape (c : Char) : List Char :=
  if c = '"' then ['\\', '"']
  else if c = '\\' then ['\\', '\\']
  else if c = '\n' then ['\\', 'n']
  else if c = '\r' then ['\\', 'r']
  else if c = '\t' then ['\\', 't']
  else if c = '\x00' then ['\\', '0']
  else if isHidden c then
    '\\' :: 'u' :: '\x7b' :: (hex c.toNat ++ ['\x7d'])
  else [c]

/-- **Text between quotes**, each character escaped on its own. -/
def quote (s : String) : String :=
  String.ofList ('"' :: (s.toList.flatMap escape ++ ['"']))

/-- What a character stands for after a backslash: the three letters of
layout, or itself. -/
def escaped (c : Char) : Char :=
  if c = 'n' then '\n'
  else if c = 't' then '\t'
  else if c = 'r' then '\r'
  else c

/-- **Escapes resolved**, from left to right. A backslash with nothing
after it stays. -/
def unescape : List Char → List Char
  | [] => []
  | [c] => [c]
  | c :: d :: r =>
    if c = '\\' then escaped d :: unescape r else c :: unescape (d :: r)

/-- What stands between two quotes, if the text begins and ends with
one. A lone quote is not enough for both. -/
def inner? : List Char → Option (List Char)
  | '"' :: r => if r.getLast? = some '"' then some r.dropLast else none
  | _ => none

/-- **The content of a quoted text.** Text that does not stand between
quotes is its own content; escapes are resolved in either case. -/
def unquote (s : String) : String :=
  String.ofList (unescape ((inner? s.toList).getD s.toList))

/-- A character other than the backslash stands for itself. -/
theorem unescape_plain {c : Char} (h : c ≠ '\\') (r : List Char) :
    unescape (c :: r) = c :: unescape r := by
  cases r with
  | nil => rfl
  | cons d r => simp [unescape, h]

/-- A backslash takes the next character with it. -/
@[simp] theorem unescape_backslash (d : Char) (r : List Char) :
    unescape ('\\' :: d :: r) = escaped d :: unescape r := by
  simp [unescape]

/-- A quoted text loses its quotes, whatever stands between them. -/
@[simp] theorem inner?_quoted (b : List Char) :
    inner? ('"' :: (b ++ ['"'])) = some b := by
  simp [inner?]

/-! ## Text as JSON writes it

String literals of a listing are written the way JSON writes strings,
with nothing escaped that need not be: quotes, backslashes and controls.
Line feeds, carriage returns, tabs, backspaces and form feeds have a
letter, the other controls four digits. -/

/-- How one character stands in a JSON string. -/
def jsonEscape (c : Char) : List Char :=
  if c = '"' then ['\\', '"']
  else if c = '\\' then ['\\', '\\']
  else if c = '\n' then ['\\', 'n']
  else if c = '\r' then ['\\', 'r']
  else if c = '\t' then ['\\', 't']
  else if c = '\x08' then ['\\', 'b']
  else if c = '\x0c' then ['\\', 'f']
  else if c.toNat < 0x20 then
    '\\' :: 'u' :: (List.replicate (4 - (hex c.toNat).length) '0' ++ hex c.toNat)
  else [c]

/-- **Text as a JSON string.** -/
def json (s : String) : String :=
  String.ofList ('"' :: (s.toList.flatMap jsonEscape ++ ['"']))

end Descent.Text
