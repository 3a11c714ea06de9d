/-!
# Places in a text

A position says where a character stands: how many bytes of the encoded
text come before it, on which line it is and in which column. Lines and
columns count from one, a column counts whole characters, and only a
line feed starts a line.

A text is gone through by offsets, in bytes. Only where a token or a
failure is reported is its line and column wanted, and then they are
looked up: the offsets at which lines start are noted once for the whole
text, **the line of a place is the last one that starts at the place or
before it**, and its column is counted from there.

There is no place in the middle of a character or behind the end of the
text, and looking one up there gives nothing. Lines and columns are
numbers of 32 bits: only on a text of more characters than that do they
start over.
-/

namespace Descent

/-- **A place in a text**, between two characters. -/
structure Position where
  /-- Bytes of the encoded text before the place. -/
  offset : Nat
  /-- Line feeds before the place, and one. -/
  line : Nat
  /-- Characters since the last line feed, and one. -/
  column : Nat
deriving DecidableEq

namespace Position

/-- The place before the first character. -/
def start : Position := ⟨0, 1, 1⟩

instance : Inhabited Position := ⟨start⟩

/-- Line and column, the way messages name a place. -/
def render (p : Position) : String :=
  toString p.line ++ ":" ++ toString p.column

end Position

/-! ## Lines -/

/-- How many bytes a run of characters takes in the encoded text. -/
def Text.bytes : List Char → Nat
  | [] => 0
  | c :: cs => c.utf8Size + bytes cs

@[simp] theorem Text.bytes_nil : Text.bytes [] = 0 := rfl

@[simp] theorem Text.bytes_cons (c : Char) (cs : List Char) :
    Text.bytes (c :: cs) = c.utf8Size + Text.bytes cs := rfl

/-- One run and then another take the bytes of both. -/
@[simp] theorem Text.bytes_append (cs ds : List Char) :
    Text.bytes (cs ++ ds) = Text.bytes cs + Text.bytes ds := by
  induction cs with
  | nil => simp
  | cons c cs ih => simp [ih, Nat.add_assoc]

/-- **A text, with the offsets at which its lines start** in increasing
order. -/
structure Lines where
  /-- The characters. -/
  text : List Char
  /-- Where the lines start. -/
  starts : Array Nat

namespace Lines

/-- The offsets behind the line feeds of a text that starts at an
offset. -/
def breaks : Nat → List Char → List Nat
  | _, [] => []
  | offset, c :: cs =>
    if c = '\n' then (offset + c.utf8Size) :: breaks (offset + c.utf8Size) cs
    else breaks (offset + c.utf8Size) cs

/-- **The lines of a text.** The first one starts with the text. -/
def ofText (text : List Char) : Lines :=
  ⟨text, (0 :: breaks 0 text).toArray⟩

/-- **Where a number stands among increasing numbers**, or else where it
would have to be put, looking only at those from `low` up to `high`. -/
def search (starts : Array Nat) (offset low high : Nat) : Except Nat Nat :=
  if low < high then
    let middle := (low + high) / 2
    match starts[middle]? with
    | none => .error low
    | some start =>
      if start = offset then .ok middle
      else if start < offset then search starts offset (middle + 1) high
      else search starts offset low middle
  else .error low
termination_by high - low

/-- The line that an offset is on, counting from zero: the one that starts
there, or else the one before the place where it would start. -/
def line? (lines : Lines) (offset : Nat) : Option Nat :=
  match search lines.starts offset 0 lines.starts.size with
  | .ok line => some line
  | .error 0 => none
  | .error (next + 1) => some next

/-- What is left of a text behind an offset, if that is between two
characters. -/
def drop? : List Char → Nat → Option (List Char)
  | cs, 0 => some cs
  | [], _ + 1 => none
  | c :: cs, n + 1 => if c.utf8Size ≤ n + 1 then drop? cs (n + 1 - c.utf8Size) else none

/-- The front of a text up to an offset, if that is between two
characters. -/
def take? : List Char → Nat → Option (List Char)
  | _, 0 => some []
  | [], _ + 1 => none
  | c :: cs, n + 1 =>
    if c.utf8Size ≤ n + 1 then (take? cs (n + 1 - c.utf8Size)).map (c :: ·) else none

/-- The characters from one offset up to another. -/
def slice? (text : List Char) (low high : Nat) : Option (List Char) :=
  if low ≤ high then (drop? text low).bind (take? · (high - low)) else none

/-- **The place at an offset.** Nothing is given for an offset that is not
between two characters of the text. -/
def position? (lines : Lines) (offset : Nat) : Option Position := do
  let line ← lines.line? offset
  let start ← lines.starts[line]?
  let run ← slice? lines.text start offset
  let line := UInt32.ofNat line + 1
  let column := UInt32.ofNat (run.length + 1)
  some ⟨offset, line.toNat, column.toNat⟩

/-- The place at an offset between two characters. -/
def place (lines : Lines) (offset : Nat) : Position :=
  (lines.position? offset).getD .start

end Lines

end Descent
