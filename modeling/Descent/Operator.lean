/-!
# Operators and their tables

An operator has a spelling, a number by which its users know it, a
binding power – the tighter it holds its operands, the greater – and a
fixity, which says where its operands stand.

Powers and numbers are 32-bit words. The least power that the right
operand of a left-associative operator must have is one more than the
operator's own; at the greatest word it cannot be, and stays.

A table says which spellings are operators. One spelling may be two: an
operator where an operand is due – looked up by `nud?` – and another one
after an operand – looked up by `led?`. Besides, a table may allow
casts, names the primitive types that make a cast plain even before a
sign, and lists the signs that end an expression quietly.

A table is built by entering one `Entry` after the other. **A later
entry replaces an earlier one of the same spelling and side.** Entries
put operators on the side where their fixity belongs, so every table
keeps the three facts that its proof fields record.
-/

namespace Descent

/-- **Where the operands of an operator stand.** -/
inductive Fixity where
  /-- `op x` -/
  | prefixed
  /-- `x op` -/
  | postfixed
  /-- `x op y`, where `x op y op z` is `(x op y) op z`. -/
  | infixLeft
  /-- `x op y`, where `x op y op z` is `x op (y op z)`. -/
  | infixRight
  /-- `x [ y ]`: the operand between the delimiters is required. -/
  | bracket (close : String)
  /-- `x ( y )`: the operand between the delimiters may be missing. -/
  | paramList (close : String)
  /-- `( T ) x` -/
  | cast
deriving DecidableEq

/-- Whether an operator of this fixity stands after its first operand. -/
def Fixity.follows : Fixity → Bool
  | .prefixed | .cast => false
  | .postfixed | .infixLeft | .infixRight | .bracket _ | .paramList _ => true

/-- **An operator.** -/
structure Operator where
  /-- How it is written; for delimiters, the opening one. -/
  spelling : String
  /-- The number by which users tell operators apart. -/
  opcode : UInt32
  /-- How tightly it holds its operands. -/
  power : UInt32
  /-- Where its operands stand. -/
  fixity : Fixity
deriving DecidableEq

/-- The next greater binding power. The greatest is its own. -/
def nextPower (power : UInt32) : UInt32 :=
  if power = 0xffffffff then power else power + 1

/-! ## Tables -/

/-- **A table of operators.** -/
structure OperatorTable where
  /-- Operators before their operand, latest first. -/
  nuds : List Operator := []
  /-- Operators after their first operand, latest first. -/
  leds : List Operator := []
  /-- The operator that a cast applies, if casts are allowed. -/
  cast? : Option Operator := none
  /-- Spellings of primitive types. -/
  primitives : List String := []
  /-- Signs that end an expression without being operators. -/
  terminators : List String := []
  /-- Operators before their operand have the fixity that says so. -/
  nuds_prefixed : ∀ op ∈ nuds, op.fixity = .prefixed := by simp
  /-- Operators after their first operand have a fixity that says so. -/
  leds_follow : ∀ op ∈ leds, op.fixity.follows = true := by simp
  /-- The operator of casts is written as its empty parentheses. -/
  cast_fixity : ∀ op ∈ cast?, op.fixity = .cast ∧ op.spelling = "()" := by simp

namespace OperatorTable

/-- **One thing to know about operators.** -/
inductive Entry where
  /-- `op x` -/
  | prefixed (spelling : String) (opcode power : UInt32)
  /-- `x op` -/
  | postfixed (spelling : String) (opcode power : UInt32)
  /-- `x op y`, grouped to the left. -/
  | infixLeft (spelling : String) (opcode power : UInt32)
  /-- `x op y`, grouped to the right. -/
  | infixRight (spelling : String) (opcode power : UInt32)
  /-- `x [ y ]` -/
  | bracket (opening closing : String) (opcode power : UInt32)
  /-- `x ( y )` or `x ( )` -/
  | paramList (opening closing : String) (opcode power : UInt32)
  /-- `( T ) x` is allowed, its operand read at this power. -/
  | cast (opcode power : UInt32)
  /-- These spellings are primitive types. -/
  | primitives (types : List String)
  /-- This sign ends an expression. -/
  | terminator (spelling : String)
deriving DecidableEq

/-- The table that knows nothing. -/
def empty : OperatorTable := {}

/-- Puts an operator on the side after its first operand. -/
def follow (table : OperatorTable) (op : Operator) (h : op.fixity.follows = true) :
    OperatorTable :=
  { table with
    leds := op :: table.leds
    leds_follow := by
      intro x hx
      rcases List.mem_cons.1 hx with rfl | hx
      · exact h
      · exact table.leds_follow x hx }

/-- **Enters one thing.** Look-ups take the latest entry of a spelling,
so putting it in front replaces the earlier ones. -/
def insert (table : OperatorTable) : Entry → OperatorTable
  | .prefixed s o p =>
    { table with
      nuds := ⟨s, o, p, .prefixed⟩ :: table.nuds
      nuds_prefixed := by
        intro x hx
        rcases List.mem_cons.1 hx with rfl | hx
        · rfl
        · exact table.nuds_prefixed x hx }
  | .postfixed s o p => table.follow ⟨s, o, p, .postfixed⟩ rfl
  | .infixLeft s o p => table.follow ⟨s, o, p, .infixLeft⟩ rfl
  | .infixRight s o p => table.follow ⟨s, o, p, .infixRight⟩ rfl
  | .bracket opening closing o p =>
    table.follow ⟨opening, o, p, .bracket closing⟩ rfl
  | .paramList opening closing o p =>
    table.follow ⟨opening, o, p, .paramList closing⟩ rfl
  | .cast o p =>
    { table with cast? := some ⟨"()", o, p, .cast⟩, cast_fixity := by simp }
  | .primitives types => { table with primitives := types ++ table.primitives }
  | .terminator s => { table with terminators := s :: table.terminators }

/-- Enters several things, in order. -/
def insertAll (table : OperatorTable) (entries : List Entry) : OperatorTable :=
  entries.foldl insert table

/-- The operator of this spelling where an operand is due. -/
def nud? (table : OperatorTable) (spelling : String) : Option Operator :=
  table.nuds.find? (·.spelling == spelling)

/-- The operator of this spelling after an operand. -/
def led? (table : OperatorTable) (spelling : String) : Option Operator :=
  table.leds.find? (·.spelling == spelling)

/-- Whether this is the spelling of a primitive type. -/
def isPrimitive (table : OperatorTable) (spelling : String) : Bool :=
  table.primitives.contains spelling

/-- Whether the spelling means anything to the table. -/
def isKnown (table : OperatorTable) (spelling : String) : Bool :=
  (table.nud? spelling).isSome || (table.led? spelling).isSome
    || table.terminators.contains spelling

/-- **The usual operators**, loosest first: comma, assignments, the
logical and bitwise connectives, comparisons, shifts, sums, products,
powers, signs and casts, increments, and what takes hold of its left
operand alone. -/
def standard : OperatorTable :=
  empty.insertAll [
    .infixLeft "," 1 1,
    .infixRight "=" 2 2,
    .infixRight "+=" 3 2,
    .infixRight "-=" 4 2,
    .infixRight "*=" 5 2,
    .infixRight "/=" 6 2,
    .infixRight "%=" 7 2,
    .infixLeft "||" 8 3,
    .infixLeft "&&" 9 4,
    .infixLeft "|" 10 5,
    .infixLeft "^" 11 6,
    .infixLeft "&" 12 7,
    .infixLeft "==" 13 8,
    .infixLeft "!=" 14 8,
    .infixLeft "<" 15 9,
    .infixLeft ">" 16 9,
    .infixLeft "<=" 17 9,
    .infixLeft ">=" 18 9,
    .infixLeft "<<" 19 10,
    .infixLeft ">>" 20 10,
    .infixLeft "+" 21 11,
    .infixLeft "-" 22 11,
    .infixLeft "*" 23 12,
    .infixLeft "/" 24 12,
    .infixLeft "%" 25 12,
    .infixRight "**" 26 13,
    .prefixed "-" 27 14,
    .prefixed "+" 28 14,
    .prefixed "!" 29 14,
    .prefixed "~" 30 14,
    .cast 36 14,
    .postfixed "++" 31 15,
    .postfixed "--" 32 15,
    .bracket "[" "]" 33 16,
    .paramList "(" ")" 34 16,
    .infixLeft "." 35 16,
    .primitives
      ["boolean", "bool", "byte", "char", "short", "int", "long", "float", "double"],
    .terminator ":",
    .terminator "?",
    .terminator "=>",
    .terminator "->",
    .terminator "::"]

/-! ## What look-ups find -/

/-- **What is found before an operand is a prefix operator of that
spelling.** -/
theorem nud?_spelling {table : OperatorTable} {s : String} {op : Operator}
    (h : table.nud? s = some op) : op.spelling = s ∧ op.fixity = .prefixed :=
  ⟨by simpa using List.find?_some h,
    table.nuds_prefixed op (List.mem_of_find?_eq_some h)⟩

/-- **What is found after an operand is an operator of that spelling
that stands there.** -/
theorem led?_spelling {table : OperatorTable} {s : String} {op : Operator}
    (h : table.led? s = some op) : op.spelling = s ∧ op.fixity.follows = true :=
  ⟨by simpa using List.find?_some h,
    table.leds_follow op (List.mem_of_find?_eq_some h)⟩

end OperatorTable

end Descent
