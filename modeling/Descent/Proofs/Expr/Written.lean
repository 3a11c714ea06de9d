import Descent.Proofs.Expr.Reading

/-!
# Trees and the tokens they are written in

A tree keeps no token but those of its operands, and forgets where the
parentheses stood. `Expr.Written` says which runs of tokens it can be
**written** in, all powers aside: an operator stands where its fixity puts
it, as a token that the table maps to this very operator on this very
side, and any tree may stand in parentheses.

What is read is written in exactly the tokens that were taken
(`parse_written`). A climb takes operators behind an operand that is read
already, so what it takes has no tree of its own; the statement to carry
along is about **all tokens since the operand began** (`Climbs.written`).
-/

namespace Descent.Expr

/-- **A tree written in some tokens.** The operators of the tree are those
that the table has for these tokens. -/
inductive Written (table : OperatorTable) : Expr → List Token → Prop
  /-- An operand is a token of its own. -/
  | atom {t : Token} : t.kind.isOperand = true → Written table (.atom t.kind t.spelling) [t]
  /-- Parentheses leave no trace in the tree. -/
  | group {opening closing : Token} {x : Expr} {u : List Token} :
    opening.isPunct "(" = true → Written table x u → closing.isPunct ")" = true →
      Written table x (opening :: u ++ [closing])
  /-- `op x` -/
  | prefixed {t : Token} {op : Operator} {x : Expr} {u : List Token} :
    (operatorSpelling? t).bind table.nud? = some op → Written table x u →
      Written table (.unary op x) (t :: u)
  /-- `x op` -/
  | postfixed {t : Token} {op : Operator} {x : Expr} {u : List Token} :
    Written table x u → (operatorSpelling? t).bind table.led? = some op →
      op.fixity = .postfixed → Written table (.unary op x) (u ++ [t])
  /-- `x op y` -/
  | infixed {t : Token} {op : Operator} {x y : Expr} {u v : List Token} :
    Written table x u → (operatorSpelling? t).bind table.led? = some op →
      op.fixity = .infixLeft ∨ op.fixity = .infixRight → Written table y v →
      Written table (.binary op x y) (u ++ t :: v)
  /-- `x [ y ]` -/
  | bracket {t closing : Token} {op : Operator} {close : String} {x y : Expr}
      {u v : List Token} :
    Written table x u → (operatorSpelling? t).bind table.led? = some op →
      op.fixity = .bracket close → Written table y v → closing.isPunct close = true →
      Written table (.binary op x y) (u ++ t :: (v ++ [closing]))
  /-- `x ( y )` -/
  | params {t closing : Token} {op : Operator} {close : String} {x y : Expr}
      {u v : List Token} :
    Written table x u → (operatorSpelling? t).bind table.led? = some op →
      op.fixity = .paramList close → Written table y v → closing.isPunct close = true →
      Written table (.binary op x y) (u ++ t :: (v ++ [closing]))
  /-- `x ( )` -/
  | noParams {t closing : Token} {op : Operator} {close : String} {x : Expr}
      {u : List Token} :
    Written table x u → (operatorSpelling? t).bind table.led? = some op →
      op.fixity = .paramList close → closing.isPunct close = true →
      Written table (.vacant op x) (u ++ t :: [closing])
  /-- `( x ) y` -/
  | cast {opening closing : Token} {op : Operator} {x y : Expr} {u v : List Token} :
    opening.isPunct "(" = true → Written table x u → closing.isPunct ")" = true →
      table.cast? = some op → Written table y v →
      Written table (.binary op x y) (opening :: u ++ closing :: v)

variable {table : OperatorTable}

/-- **An operator that is applied is the one that the table has for its
token.** -/
theorem led_of_continuation {min : UInt32} {t : Token} {op : Operator}
    (h : continuation table min (some t) = .apply op) :
    (operatorSpelling? t).bind table.led? = some op := by
  simp only [continuation] at h
  cases hs : operatorSpelling? t with
  | none =>
    rw [hs] at h
    cases h
  | some s =>
    rw [hs] at h
    show table.led? s = some op
    cases hled : table.led? s with
    | none =>
      simp only [hled] at h
      split at h
      · cases h
      · cases h
    | some op' =>
      simp only [hled] at h
      split at h
      · cases h
      · cases h
        rfl

/-- An operator behind its first operand is no prefix operator and no
cast. -/
theorem follows_of_led {t : Token} {op : Operator}
    (h : (operatorSpelling? t).bind table.led? = some op) : op.fixity.follows = true := by
  obtain ⟨s, -, hs⟩ := Option.bind_eq_some_iff.mp h
  exact (OperatorTable.led?_spelling hs).2

mutual

/-- **A reading is written in the tokens it takes.** -/
theorem Reads.written : ∀ {min : UInt32} {u : List Token} {e : Expr} {next : Option Token},
    Reads table min u e next → Written table e u
  | _, _, _, _, .intro hs hc => hc.written hs.written

theorem Starts.written : ∀ {u : List Token} {x : Expr} {next : Option Token},
    Starts table u x next → Written table x u
  | _, _, _, .atom _ _ ho => .atom ho
  | _, _, _, .unary _ hop hr => .prefixed hop hr.written
  | _, _, _, .group hd hr hclose _ => .group (isPunct_of_isDelimiter hd) hr.written hclose
  | _, _, _, .cast (u := u) (v := v) hd hr hclose hop _ hv => by
    have h := Written.cast (isPunct_of_isDelimiter hd) hr.written hclose hop hv.written
    rwa [List.append_cons] at h

/-- What is climbed behind an operand is written behind its tokens. -/
theorem Climbs.written : ∀ {min : UInt32} {x : Expr} {v : List Token} {e : Expr}
    {next : Option Token}, Climbs table min x v e next →
      ∀ {u : List Token}, Written table x u → Written table e (u ++ v)
  | _, _, _, _, _, .stop _, u, hx => by
    rw [List.append_nil]
    exact hx
  | _, _, _, _, _, .apply (t := t) (u := u') (v := v) hop ha hc, u, hx => by
    have hy := ha.written (led_of_continuation hop) hx
    have he := hc.written hy
    rwa [List.append_assoc] at he

/-- The rest of an application is written behind its operator. -/
theorem Applies.written : ∀ {op : Operator} {x : Expr} {v : List Token} {y : Expr}
    {next : Option Token}, Applies table op x v y next →
      ∀ {t : Token} {u : List Token}, (operatorSpelling? t).bind table.led? = some op →
        Written table x u → Written table y (u ++ t :: v)
  | _, _, _, _, _, .infixLeft hf hr, _, _, hled, hx => .infixed hx hled (.inl hf) hr.written
  | _, _, _, _, _, .infixRight hf hr, _, _, hled, hx => by
    rcases hf with hf | hf
    · exact .infixed hx hled (.inr hf) hr.written
    · have hfollows := follows_of_led hled
      rw [hf] at hfollows
      cases hfollows
  | _, _, _, _, _, .unary hf, _, _, hled, hx => by
    rcases hf with hf | hf
    · exact .postfixed hx hled hf
    · have hfollows := follows_of_led hled
      rw [hf] at hfollows
      cases hfollows
  | _, _, _, _, _, .bracket hf hr ht, _, _, hled, hx => .bracket hx hled hf hr.written ht
  | _, _, _, _, _, .paramList hf _ hr ht, _, _, hled, hx => .params hx hled hf hr.written ht
  | _, _, _, _, _, .noParams hf ht, _, _, hled, hx => .noParams hx hled hf ht

end

/-- **What is read is written in the tokens taken**, of which there is at
least one: none of them is lost, added or moved, and each operator is the
one that the table has for its token. -/
theorem parse_written {min : UInt32} {c d : Cursor} {e : Expr}
    (h : parse table min c = .ok e d) : ∃ u, u ≠ [] ∧ c.Takes u d ∧ Written table e u := by
  obtain ⟨u, take, hu⟩ := parse_sound h
  exact ⟨u, hu.ne_nil, take, hu.written⟩

/-- The tokens of `( int ) - f ( ( a ) ) [ i ++ ] ;`, placed nowhere in
particular. -/
def castTokens : List Token :=
  [⟨.delimiter, "(", .start⟩, ⟨.identifier, "int", .start⟩, ⟨.delimiter, ")", .start⟩,
    ⟨.operator, "-", .start⟩, ⟨.identifier, "f", .start⟩, ⟨.delimiter, "(", .start⟩,
    ⟨.delimiter, "(", .start⟩, ⟨.identifier, "a", .start⟩, ⟨.delimiter, ")", .start⟩,
    ⟨.delimiter, ")", .start⟩, ⟨.delimiter, "[", .start⟩, ⟨.identifier, "i", .start⟩,
    ⟨.operator, "++", .start⟩, ⟨.delimiter, "]", .start⟩, ⟨.delimiter, ";", .start⟩]

/-- A sign behind a primitive type in parentheses is cast with all that it
applies to, and all tokens up to the semicolon are accounted for. -/
theorem parse_written_cast :
    ∃ e d, parse .standard 0 ⟨castTokens, .start⟩ = .ok e d
      ∧ e.render = "((int) (-f(a)[(i++)]))" ∧ d.rest.map Token.spelling = [";"]
      ∧ ∃ u, u ≠ [] ∧ Cursor.Takes ⟨castTokens, .start⟩ u d ∧ Written .standard e u := by
  have hrun : (match parse .standard 0 ⟨castTokens, .start⟩ with
      | .ok e d => some (e.render, d.rest.map Token.spelling)
      | .error _ _ => none) = some ("((int) (-f(a)[(i++)]))", [";"]) := by
    decide +kernel
  cases hparse : parse .standard 0 ⟨castTokens, .start⟩ with
  | ok e d =>
    rw [hparse] at hrun
    obtain ⟨hrender, hrest⟩ := Prod.mk.inj (Option.some.inj hrun)
    exact ⟨e, d, rfl, hrender, hrest, parse_written hparse⟩
  | error e d =>
    rw [hparse] at hrun
    cases hrun

end Descent.Expr
