import Descent.Text.Word
import Descent.Invocation.Phrase

/-!
# Literals of an invocation

A quoted literal holds text, bytes, or text that a zero ends, and is
either plain, with escapes, or raw. A raw literal ends at a quote that
is followed by as many `#` as came before its opening quote, and nothing
in it is escaped. A carriage return only ever stands before a line feed;
the two count as one line feed in a plain literal and as themselves in a
raw one. Besides there are single characters and numbers. A word that
follows a literal directly is its suffix and counts for nothing.

Every reader here takes the characters from some place on and gives
those that it leaves, or nothing if there is no such literal. What is
left is always less than what was there.
-/

namespace Descent.Invocation

open Text (isWordStart isWordPart)

/-! ## Escapes -/

/-- **What a quoted literal may hold.** -/
inductive Coding where
  /-- Any text. -/
  | text
  /-- Bytes, of which those of ASCII may stand for themselves. -/
  | bytes
  /-- Text that a zero ends, so that it holds none. -/
  | terminated
deriving DecidableEq

/-- The characters that may stand in a literal. -/
def Coding.admits : Coding → Char → Bool
  | .text, _ => true
  | .bytes, c => c.toNat < 0x80
  | .terminated, c => c ≠ '\x00'

/-- The numbers that two hexadecimal digits may give in a literal. -/
def Coding.admitsCode : Coding → Nat → Bool
  | .text, n => n < 0x80
  | .bytes, _ => true
  | .terminated, n => n ≠ 0

/-- The value of a hexadecimal digit. -/
def hexDigit? (c : Char) : Option Nat :=
  if c.isDigit then some (c.toNat - '0'.toNat)
  else if 'a' ≤ c ∧ c ≤ 'f' then some (c.toNat - 'a'.toNat + 10)
  else if 'A' ≤ c ∧ c ≤ 'F' then some (c.toNat - 'A'.toNat + 10)
  else none

/-- What an escape that is one letter stands for. -/
def escapedLetter? (c : Char) : Option Char :=
  if c = 'n' then some '\n'
  else if c = 'r' then some '\r'
  else if c = 't' then some '\t'
  else if c = '0' then some '\x00'
  else if c = '"' ∨ c = '\\' ∨ c = '\x27' then some c
  else none

/-- The number between curly delimiters, from behind the opening one: at
most six digits, and underscores after the first of them. -/
def codePoint? (digits value : Nat) : List Char → Option (Nat × List Char)
  | [] => none
  | c :: r =>
    match hexDigit? c with
    | some d => if digits = 6 then none else codePoint? (digits + 1) (16 * value + d) r
    | none =>
      if digits = 0 then none
      else if c = '_' then codePoint? digits value r
      else if c = '\x7d' then some (value, r)
      else none

/-- What is left after the blanks that follow an escaped line break. -/
def afterBreak? : List Char → Option (List Char)
  | [] => some []
  | c :: r =>
    if c = ' ' ∨ c = '\t' ∨ c = '\n' then afterBreak? r
    else if c = '\r' then
      match r with
      | '\n' :: r => afterBreak? r
      | _ => none
    else some (c :: r)

/-- **An escape**, from behind its backslash: the character that it
stands for, and what is left. An escaped line break stands for none, and
swallows the blanks that follow. -/
def escape? (k : Coding) : List Char → Option (Option Char × List Char)
  | '\n' :: r => (afterBreak? r).map fun rest => (none, rest)
  | '\r' :: '\n' :: r => (afterBreak? r).map fun rest => (none, rest)
  | 'x' :: a :: b :: r =>
    match hexDigit? a, hexDigit? b with
    | some m, some n =>
      if k.admitsCode (16 * m + n) then some (some (Char.ofNat (16 * m + n)), r) else none
    | _, _ => none
  | 'u' :: '\x7b' :: r =>
    match codePoint? 0 0 r with
    | some (n, rest) =>
      if k ≠ .bytes ∧ n.isValidChar ∧ k.admits (Char.ofNat n) then
        some (some (Char.ofNat n), rest)
      else none
    | none => none
  | c :: r =>
    match escapedLetter? c with
    | some d => if k.admits d then some (some d, r) else none
    | none => none
  | [] => none

theorem codePoint?_shorter {digits value n : Nat} {cs rest : List Char}
    (h : codePoint? digits value cs = some (n, rest)) : rest.length < cs.length := by
  fun_induction codePoint? digits value cs <;> grind

theorem afterBreak?_length_le {cs rest : List Char} (h : afterBreak? cs = some rest) :
    rest.length ≤ cs.length := by
  fun_induction afterBreak? cs <;> grind

/-- An escape takes at least one character. -/
theorem escape?_shorter {k : Coding} {cs rest : List Char} {c : Option Char}
    (h : escape? k cs = some (c, rest)) : rest.length < cs.length := by
  unfold escape? at h
  split at h
  · obtain ⟨_, hr, ⟨⟩⟩ := Option.map_eq_some_iff.1 h
    have := afterBreak?_length_le hr
    grind
  · obtain ⟨_, hr, ⟨⟩⟩ := Option.map_eq_some_iff.1 h
    have := afterBreak?_length_le hr
    grind
  · grind
  · split at h
    · next hr => have := codePoint?_shorter hr; grind
    · grind
  · grind
  · grind

/-! ## Quoted literals -/

/-- Characters in front of a content that is read. -/
def prepend (front : List Char) (read : Option (List Char × List Char)) :
    Option (List Char × List Char) :=
  read.map fun (content, rest) => (front ++ content, rest)

theorem prepend_eq_some {front content rest : List Char}
    {read : Option (List Char × List Char)}
    (h : prepend front read = some (content, rest)) :
    ∃ tail, read = some (tail, rest) ∧ content = front ++ tail := by
  obtain ⟨⟨tail, rest⟩, hr, ⟨⟩⟩ := Option.map_eq_some_iff.1 h
  exact ⟨tail, hr, rfl⟩

/-- **The content of a plain literal**, from behind its opening quote,
and what is left after the closing one. -/
def plain? (k : Coding) : List Char → Option (List Char × List Char)
  | [] => none
  | c :: r =>
    if c = '"' then some ([], r)
    else if c = '\\' then
      match h : escape? k r with
      | none => none
      | some (d, rest) =>
        have : rest.length < r.length := escape?_shorter h
        prepend d.toList (plain? k rest)
    else if c = '\r' then
      match r with
      | '\n' :: r => prepend ['\n'] (plain? k r)
      | _ => none
    else if k.admits c then prepend [c] (plain? k r)
    else none
termination_by cs => cs.length

/-- **The content of a raw literal**, from behind its opening quote, and
what is left after the closing one and its marks. -/
def raw? (k : Coding) (marks : List Char) : List Char → Option (List Char × List Char)
  | [] => none
  | c :: r =>
    if c = '"' ∧ marks.isPrefixOf r then some ([], r.drop marks.length)
    else if k.admits c ∧ (c = '\r' → r.head? = some '\n') then
      prepend [c] (raw? k marks r)
    else none

/-- A raw literal, from behind its letters. It has at most 255 marks. -/
def rawQuoted? (k : Coding) (cs : List Char) : Option (List Char × List Char) :=
  let marks := cs.takeWhile (· = '#')
  match cs.dropWhile (· = '#') with
  | '"' :: r => if marks.length ≤ 255 then raw? k marks r else none
  | _ => none

/-- A single character, from behind its opening quote, and what is left
after the closing one. -/
def character? (k : Coding) : List Char → Option (List Char × List Char)
  | '\\' :: r =>
    match escape? k r with
    | some (some c, '\x27' :: rest) => some ([c], rest)
    | _ => none
  | c :: '\x27' :: rest => if k.admits c then some ([c], rest) else none
  | _ => none

/-! ## Numbers -/

/-- What is left after the digits of a whole number in some base. There
is at least one digit, and in base ten it comes before any underscore. -/
def afterDigits? (base : Nat) (some? : Bool) : List Char → Option (List Char)
  | [] => if some? then some [] else none
  | c :: r =>
    if c = '_' then if some? ∨ base ≠ 10 then afterDigits? base some? r else none
    else
      match hexDigit? c with
      | some d =>
        if d < base then afterDigits? base true r
        else if some? ∧ !c.isDigit then some (c :: r)
        else none
      | none => if some? then some (c :: r) else none

/-- What is left after a whole number. -/
def afterWhole? : List Char → Option (List Char)
  | '0' :: 'x' :: r => afterDigits? 16 false r
  | '0' :: 'o' :: r => afterDigits? 8 false r
  | '0' :: 'b' :: r => afterDigits? 2 false r
  | cs => afterDigits? 10 false cs

/-- What is left after the digits around a point, and whether there was
one. A point before another one or before a word is not part of a
number. -/
def afterPoint? (point : Bool) : List Char → Option (Bool × List Char)
  | [] => some (point, [])
  | c :: r =>
    if c.isDigit ∨ c = '_' then afterPoint? point r
    else if c = '.' ∧ !point then
      if r.head?.any fun d => d = '.' || isWordStart d then none else afterPoint? true r
    else some (point, c :: r)

/-- What is left after an exponent, from behind its letter. -/
def afterExponent? (sign digits : Bool) : List Char → Option (List Char)
  | [] => if digits then some [] else none
  | c :: r =>
    if (c = '+' ∨ c = '-') ∧ !digits then
      if sign then none else afterExponent? true false r
    else if c.isDigit then afterExponent? sign true r
    else if c = '_' then afterExponent? sign digits r
    else if digits then some (c :: r)
    else none

/-- What is left after a number with a point or an exponent. A letter
that starts no exponent may still start a suffix, if there was a
point. -/
def afterBroken? : List Char → Option (List Char)
  | [] => none
  | c :: r =>
    if c.isDigit then
      match afterPoint? false r with
      | none => none
      | some (point, rest) =>
        match rest with
        | [] => if point then some rest else none
        | e :: after =>
          if e = 'e' ∨ e = 'E' then
            match afterExponent? false false after with
            | some rest => some rest
            | none => if point then some rest else none
          else if point then some rest
          else none
    else none

/-! ## Any literal -/

/-- What is left after a suffix, if there is one. -/
def afterSuffix : List Char → List Char
  | [] => []
  | c :: r => if isWordStart c then r.dropWhile isWordPart else c :: r

/-- What is left after a number's suffix, if nothing clings to it. -/
def afterNumberSuffix? (cs : List Char) : Option (List Char) :=
  let rest := afterSuffix cs
  if rest.head?.any isWordPart then none else some rest

/-- What is left after a number, which is whole if it is not broken. -/
def afterNumber? (cs : List Char) : Option (List Char) :=
  match (afterBroken? cs).bind afterNumberSuffix? with
  | some rest => some rest
  | none => (afterWhole? cs).bind afterNumberSuffix?

/-- A quoted literal as a phrase, with its suffix dropped. -/
def suffixed (phrase : List Char → Phrase) (quoted : Option (List Char × List Char)) :
    Option (Phrase × List Char) :=
  quoted.map fun (content, rest) => (phrase content, afterSuffix rest)

/-- **The literal in front**, and what is left. -/
def literal? : List Char → Option (Phrase × List Char)
  | '"' :: r => suffixed (fun s => .string (String.ofList s)) (plain? .text r)
  | 'r' :: r => suffixed (fun s => .string (String.ofList s)) (rawQuoted? .text r)
  | 'b' :: '"' :: r => suffixed (fun _ => .literal) (plain? .bytes r)
  | 'b' :: 'r' :: r => suffixed (fun _ => .literal) (rawQuoted? .bytes r)
  | 'b' :: '\x27' :: r => suffixed (fun _ => .literal) (character? .bytes r)
  | 'c' :: '"' :: r => suffixed (fun _ => .literal) (plain? .terminated r)
  | 'c' :: 'r' :: r => suffixed (fun _ => .literal) (rawQuoted? .terminated r)
  | '\x27' :: r => suffixed (fun _ => .literal) (character? .text r)
  | cs => (afterNumber? cs).map fun rest => (.number, rest)

/-! ## What is left is less -/

theorem plain?_shorter {k : Coding} {cs content rest : List Char}
    (h : plain? k cs = some (content, rest)) : rest.length < cs.length := by
  fun_induction plain? k cs generalizing content rest <;> grind [→ prepend_eq_some]

theorem raw?_shorter {k : Coding} {marks cs content rest : List Char}
    (h : raw? k marks cs = some (content, rest)) : rest.length < cs.length := by
  fun_induction raw? k marks cs generalizing content rest <;> grind [→ prepend_eq_some]

theorem length_dropWhile_le (p : Char → Bool) (cs : List Char) :
    (cs.dropWhile p).length ≤ cs.length :=
  (List.dropWhile_sublist p).length_le

theorem rawQuoted?_shorter {k : Coding} {cs content rest : List Char}
    (h : rawQuoted? k cs = some (content, rest)) : rest.length < cs.length := by
  have hd := length_dropWhile_le (· = '#') cs
  unfold rawQuoted? at h
  split at h
  · next r hr =>
    dsimp only at h
    split at h
    · have := raw?_shorter h
      grind
    · simp at h
  · simp at h

theorem character?_shorter {k : Coding} {cs content rest : List Char}
    (h : character? k cs = some (content, rest)) : rest.length < cs.length := by
  unfold character? at h
  split at h
  · split at h
    · next hr => have := escape?_shorter hr; grind
    · simp at h
  · grind
  · simp at h

theorem afterDigits?_length_le {base : Nat} {some? : Bool} {cs rest : List Char}
    (h : afterDigits? base some? cs = some rest) : rest.length ≤ cs.length := by
  fun_induction afterDigits? base some? cs <;> grind

theorem afterDigits?_shorter {base : Nat} {cs rest : List Char}
    (h : afterDigits? base false cs = some rest) : rest.length < cs.length := by
  induction cs with
  | nil => simp [afterDigits?] at h
  | cons c r ih =>
    unfold afterDigits? at h
    grind [→ afterDigits?_length_le]

theorem afterWhole?_shorter {cs rest : List Char} (h : afterWhole? cs = some rest) :
    rest.length < cs.length := by
  unfold afterWhole? at h
  split at h <;> have := afterDigits?_shorter h <;> grind

theorem afterPoint?_length_le {point : Bool} {cs : List Char} {r : Bool × List Char}
    (h : afterPoint? point cs = some r) : r.2.length ≤ cs.length := by
  fun_induction afterPoint? point cs <;> grind

theorem afterExponent?_length_le {sign digits : Bool} {cs rest : List Char}
    (h : afterExponent? sign digits cs = some rest) : rest.length ≤ cs.length := by
  fun_induction afterExponent? sign digits cs <;> grind

theorem afterBroken?_shorter {cs rest : List Char} (h : afterBroken? cs = some rest) :
    rest.length < cs.length := by
  fun_cases afterBroken? cs <;>
    grind [afterBroken?, → afterPoint?_length_le, → afterExponent?_length_le]

theorem afterSuffix_length_le (cs : List Char) : (afterSuffix cs).length ≤ cs.length := by
  unfold afterSuffix
  split
  · simp
  · next c r =>
    have := length_dropWhile_le isWordPart r
    grind

theorem afterNumber?_shorter {cs rest : List Char} (h : afterNumber? cs = some rest) :
    rest.length < cs.length := by
  have suffix {mid rest : List Char} (h : afterNumberSuffix? mid = some rest) :
      rest.length ≤ mid.length := by
    have := afterSuffix_length_le mid
    grind [afterNumberSuffix?]
  unfold afterNumber? at h
  split at h
  · next hr =>
    obtain ⟨mid, hm, hs⟩ := Option.bind_eq_some_iff.1 hr
    have := afterBroken?_shorter hm
    have := suffix hs
    grind
  · obtain ⟨mid, hm, hs⟩ := Option.bind_eq_some_iff.1 h
    have := afterWhole?_shorter hm
    have := suffix hs
    omega

/-- A literal takes at least one character. -/
theorem literal?_shorter {cs rest : List Char} {p : Phrase}
    (h : literal? cs = some (p, rest)) : rest.length < cs.length := by
  have quoted {f : List Char → Phrase} {q : Option (List Char × List Char)}
      (h : suffixed f q = some (p, rest)) :
      ∃ content left, q = some (content, left) ∧ rest.length ≤ left.length := by
    obtain ⟨⟨content, left⟩, hq, ⟨⟩⟩ := Option.map_eq_some_iff.1 h
    exact ⟨content, left, hq, afterSuffix_length_le left⟩
  unfold literal? at h
  split at h
  · grind [→ plain?_shorter]
  · grind [→ rawQuoted?_shorter]
  · grind [→ plain?_shorter]
  · grind [→ rawQuoted?_shorter]
  · grind [→ character?_shorter]
  · grind [→ plain?_shorter]
  · grind [→ rawQuoted?_shorter]
  · grind [→ character?_shorter]
  · obtain ⟨left, hl, ⟨⟩⟩ := Option.map_eq_some_iff.1 h
    exact afterNumber?_shorter hl

end Descent.Invocation
