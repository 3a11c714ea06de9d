import Descent.Proofs.Expr.Chain
import Descent.Proofs.Expr.Written
import Mathlib.Logic.Relation

/-!
# Reading at a higher power

The least power of a reading is looked at in one place only: an operator
behind an operand is taken if it holds at least as tightly. What an
expression starts with, and what the operators inside it take, have powers
of their own. So a reading at a higher power does **the same steps, and
stops sooner** (`Climbs.raised`): it takes a front of the tokens, and what
it has read by then is inside the tree of the longer reading, at the bottom
of its left side.

That is why the branches of a choice may read expressions at different
powers from the same token. Where the loosest of them succeeds all of them
do, and none takes more (`parse_raised`).
-/

namespace Descent.Expr

open Relation (ReflTransGen)

/-- **The operand that the outermost operator stands behind.** Prefix
operators and casts stand before all of their operands and have none. -/
inductive LeftOperand : Expr → Expr → Prop
  /-- `x op y` -/
  | infixed {op : Operator} {x y : Expr} :
    op.fixity = .infixLeft ∨ op.fixity = .infixRight → LeftOperand (.binary op x y) x
  /-- `x [ y ]` -/
  | bracket {op : Operator} {close : String} {x y : Expr} :
    op.fixity = .bracket close → LeftOperand (.binary op x y) x
  /-- `x ( y )` -/
  | params {op : Operator} {close : String} {x y : Expr} :
    op.fixity = .paramList close → LeftOperand (.binary op x y) x
  /-- `x ( )` -/
  | noParams {op : Operator} {close : String} {x : Expr} :
    op.fixity = .paramList close → LeftOperand (.vacant op x) x
  /-- `x op` -/
  | postfixed {op : Operator} {x : Expr} :
    op.fixity = .postfixed → LeftOperand (.unary op x) x

variable {table : OperatorTable}

/-- **An application behind an operand has it as its left operand.** -/
theorem Applies.leftOperand {op : Operator} {x y : Expr} {u : List Token} {next : Option Token}
    (h : Applies table op x u y next) (hf : op.fixity.follows = true) : LeftOperand y x := by
  cases h with
  | infixLeft hfix => exact .infixed (.inl hfix)
  | infixRight hfix =>
    rcases hfix with hfix | hfix
    · exact .infixed (.inr hfix)
    · rw [hfix] at hf
      cases hf
  | unary hfix =>
    rcases hfix with hfix | hfix
    · exact .postfixed hfix
    · rw [hfix] at hf
      cases hf
  | bracket hfix => exact .bracket hfix
  | paramList hfix => exact .params hfix
  | noParams hfix => exact .noParams hfix

/-- **A climb at a higher power is the front of the climb**, and its tree is
on the left side of the whole one, between the top and what is climbed from.
By induction on the climb: at each operator the higher power either stops or
does the same step. -/
theorem Climbs.raised : ∀ {min : UInt32} {x : Expr} {u : List Token} {e : Expr}
    {next : Option Token}, Climbs table min x u e next → ∀ {power : UInt32}, min ≤ power →
      ∃ v w e', u = v ++ w ∧ Climbs table power x v e' (w.head?.or next)
        ∧ ReflTransGen LeftOperand e e' ∧ ReflTransGen LeftOperand e' x
  | _, x, _, _, _, .stop hstop, _, hle =>
    ⟨[], [], x, rfl, .stop (continuation_mono hstop hle), .refl, .refl⟩
  | _, x, _, _, _, @Climbs.apply _ _ t op u rest _ _ _ _ hop ha hc, power, hle => by
    have hled := led_of_continuation hop
    have hcont : continuation table power (some t) = _ := continuation_eq_of_led hled
    have hstep := ha.leftOperand (follows_of_led hled)
    obtain ⟨v, w, e', rfl, hclimb, htop, hbottom⟩ := hc.raised hle
    by_cases hlt : op.power < power
    · rw [if_pos hlt] at hcont
      exact ⟨[], t :: u ++ (v ++ w), x, rfl, .stop hcont, (htop.trans hbottom).tail hstep, .refl⟩
    · rw [if_neg hlt] at hcont
      -- The operand of this operator ends before the same token as it did.
      rw [List.head?_append, Option.or_assoc] at ha
      exact ⟨t :: u ++ v, w, e', (List.append_assoc _ _ _).symm, .apply hcont ha hclimb, htop,
        hbottom.tail hstep⟩

/-- **Raising the least power shortens a reading.** Where an expression is
read, one is read at any higher power as well. It takes a front of the
tokens taken, and its tree is the whole tree or what is reached in it from
left operand to left operand. -/
theorem parse_raised {min power : UInt32} (hle : min ≤ power) {c d : Cursor} {e : Expr}
    (h : parse table min c = .ok e d) :
    ∃ e' d', parse table power c = .ok e' d'
      ∧ (∃ u v, c.Takes u d' ∧ c.Takes (u ++ v) d) ∧ ReflTransGen LeftOperand e e' := by
  obtain ⟨_, take, hreads⟩ := parse_sound h
  cases hreads with
  | @intro _ u _ _ _ _ hs hc =>
    obtain ⟨v, w, e', rfl, hclimb, hleft, -⟩ := hc.raised hle
    rw [List.head?_append, Option.or_assoc] at hs
    rw [← List.append_assoc] at take
    obtain ⟨d', take', takeRest⟩ := take.split
    rw [← takeRest.current?_eq] at hs hclimb
    exact ⟨e', d', Reads.parse_eq (.intro hs hclimb) take', ⟨u ++ v, w, take', take⟩, hleft⟩

/-- The tokens of `f ( ) ++ * b + c`, placed nowhere in particular. -/
def sumTokens : List Token :=
  [⟨.identifier, "f", .start⟩, ⟨.delimiter, "(", .start⟩, ⟨.delimiter, ")", .start⟩,
    ⟨.operator, "++", .start⟩, ⟨.operator, "*", .start⟩, ⟨.identifier, "b", .start⟩,
    ⟨.operator, "+", .start⟩, ⟨.identifier, "c", .start⟩]

/-- The tree of `f()++`. -/
def incremented : Expr :=
  .unary ⟨"++", 31, 15, .postfixed⟩
    (.vacant ⟨"(", 34, 16, .paramList ")"⟩ (.atom .identifier "f"))

/-- The tree of `f()++ * b + c`. -/
def summed : Expr :=
  .binary ⟨"+", 21, 11, .infixLeft⟩
    (.binary ⟨"*", 23, 12, .infixLeft⟩ incremented (.atom .identifier "b"))
    (.atom .identifier "c")

/-- Above the power of products, `f()++ * b + c` is read up to the
product. -/
theorem parse_raised_sum :
    (0 : UInt32) ≤ 13 ∧ parse .standard 0 ⟨sumTokens, .start⟩ = .ok summed ⟨[], .start⟩
      ∧ ∃ d', parse .standard 13 ⟨sumTokens, .start⟩ = .ok incremented d'
        ∧ (∃ u v, Cursor.Takes ⟨sumTokens, .start⟩ u d'
          ∧ Cursor.Takes ⟨sumTokens, .start⟩ (u ++ v) ⟨[], .start⟩)
        ∧ ReflTransGen LeftOperand summed incremented := by
  have hsum : parse .standard 0 ⟨sumTokens, .start⟩ = .ok summed ⟨[], .start⟩ := rfl
  have hraised : parse .standard 13 ⟨sumTokens, .start⟩
      = .ok incremented ⟨sumTokens.drop 4, .start⟩ := rfl
  have hle : (0 : UInt32) ≤ 13 := by decide
  obtain ⟨e', d', hparse, htakes, hleft⟩ := parse_raised hle hsum
  obtain ⟨rfl, rfl⟩ := EStateM.Result.ok.inj (hraised.symm.trans hparse)
  exact ⟨hle, hsum, _, hparse, htakes, hleft⟩

end Descent.Expr
