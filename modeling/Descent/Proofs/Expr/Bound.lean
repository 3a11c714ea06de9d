import Descent.Expr.Parser
import Descent.Proofs.Outcome

/-!
# The bound of the expression reader does not matter

The reader of expressions counts down a bound: on how deep expressions
are nested, and on how many operators a climb takes. Nothing of what it
reads may depend on the bound, or the bound would be part of what an
expression is. It does not, **as long as the bound is above the number of
tokens left** (`expressionWithin_eq_expression`). Expressions are read to
the end or to a failure, whatever the binding powers in the table are. So a
reading comes apart into what it starts with and a climb, as if there were
no bound (`expression_eq`).

There are two reasons. A reading with such a bound finishes, and a reading
that finishes is the same with a higher bound (`Extends`). The second one
needs no counting of tokens: a bound shows only where it is used up.
-/

namespace Descent.Expr

variable {σ α β γ : Type} {table : OperatorTable} {actions : Actions σ α}

/-! ## Higher bounds -/

/-- **A reader that goes at least as far** as another one from here: it
does the same, unless the other is left unfinished. -/
def Extends (x y : Reader σ β) (s : Cursor × σ) : Prop :=
  (∃ t, x s = .error .unfinished t) ∨ x s = y s

namespace Extends

variable {x y : Reader σ β} {s : Cursor × σ}

theorem refl (x : Reader σ β) (s : Cursor × σ) : Extends x x s := .inr rfl

theorem eq_of_finishes {k : Nat} (h : Extends x y s) (hx : Finishes k x s) : x s = y s := by
  obtain ⟨t, ht⟩ | heq := h
  · exact absurd ht (hx.ne_unfinished t)
  · exact heq

/-- **Steps that go at least as far make a reading that does.** -/
theorem bind {f g : β → Reader σ γ} (h : Extends x y s) (hf : ∀ a t, Extends (f a) (g a) t) :
    Extends (x >>= f) (y >>= g) s := by
  obtain ⟨t, ht⟩ | heq := h
  · exact .inl ⟨t, Outcome.run_bind_of_error ht⟩
  · cases hx : x s with
    | ok a t =>
      unfold Extends
      rw [Outcome.run_bind_of_ok hx, Outcome.run_bind_of_ok (heq.symm.trans hx)]
      exact hf a t
    | error e t =>
      refine .inr ?_
      rw [Outcome.run_bind_of_error hx, Outcome.run_bind_of_error (heq.symm.trans hx)]

end Extends

section Readers

variable {self self' : UInt32 → Reader σ α}
  (hself : ∀ min s, Extends (self min) (self' min) s)

include hself

theorem extends_group (s : Cursor × σ) :
    Extends (group table actions self) (group table actions self') s := by
  unfold group
  refine (Extends.refl _ s).bind fun _ s₁ => (Extends.refl _ s₁).bind fun c s₂ => ?_
  refine (hself 0 s₂).bind fun inner s₃ => (Extends.refl _ s₃).bind fun _ s₄ => ?_
  cases table.cast? with
  | none => exact .refl _ s₄
  | some cast =>
    refine (Extends.refl _ s₄).bind fun c' s₅ => ?_
    split
    · exact (hself cast.power s₅).bind fun _ s₆ => .refl _ s₆
    · exact .refl _ s₅

theorem extends_operand (s : Cursor × σ) :
    Extends (operand table actions self) (operand table actions self') s := by
  unfold operand
  refine (Extends.refl _ s).bind fun c s₁ => ?_
  cases c.current? with
  | none => exact .refl _ s₁
  | some t =>
    dsimp only
    split
    · exact extends_group hself s₁
    · cases (operatorSpelling? t).bind table.nud? with
      | some op =>
        exact (Extends.refl _ s₁).bind fun _ s₂ => (hself op.power s₂).bind fun _ s₃ => .refl _ s₃
      | none => exact .refl _ s₁

theorem extends_enclosure (close : String) (s : Cursor × σ) :
    Extends (enclosure self close) (enclosure self' close) s := by
  unfold enclosure
  exact (hself 0 s).bind fun _ s₁ => .refl _ s₁

theorem extends_application (op : Operator) (left : α) (s : Cursor × σ) :
    Extends (application actions self op left) (application actions self' op left) s := by
  unfold application
  cases op.fixity with
  | infixLeft => exact (hself _ s).bind fun _ s₁ => .refl _ s₁
  | infixRight => exact (hself _ s).bind fun _ s₁ => .refl _ s₁
  | cast => exact (hself _ s).bind fun _ s₁ => .refl _ s₁
  | postfixed => exact .refl _ s
  | prefixed => exact .refl _ s
  | bracket close => exact (extends_enclosure hself close s).bind fun _ s₁ => .refl _ s₁
  | paramList close =>
    refine (Extends.refl _ s).bind fun c s₁ => ?_
    split
    · exact .refl _ s₁
    · exact (extends_enclosure hself close s₁).bind fun _ s₂ => .refl _ s₂

theorem extends_climb (min : UInt32) {n m : Nat} (hnm : n ≤ m) (left : α) (s : Cursor × σ) :
    Extends (climb table actions self min n left) (climb table actions self' min m left) s := by
  induction n generalizing m left s with
  | zero => exact .inl ⟨s, rfl⟩
  | succ n ih =>
    cases m with
    | zero => exact absurd hnm (Nat.not_succ_le_zero n)
    | succ m =>
      unfold climb
      refine (Extends.refl _ s).bind fun c s₁ => ?_
      cases continuation table min c.current? with
      | stop => exact .refl _ s₁
      | unimplemented spelling => exact .refl _ s₁
      | apply op =>
        refine (Extends.refl _ s₁).bind fun _ s₂ => ?_
        exact (extends_application hself op left s₂).bind fun joined s₃ =>
          ih (Nat.le_of_succ_le_succ hnm) joined s₃

end Readers

/-- **A higher bound goes at least as far.** -/
theorem extends_expressionWithin {n m : Nat} (hnm : n ≤ m) (min : UInt32) (s : Cursor × σ) :
    Extends (expressionWithin table actions n min) (expressionWithin table actions m min) s := by
  induction n generalizing m min s with
  | zero => exact .inl ⟨s, rfl⟩
  | succ n ih =>
    cases m with
    | zero => exact absurd hnm (Nat.not_succ_le_zero n)
    | succ m =>
      have hle := Nat.le_of_succ_le_succ hnm
      exact (extends_operand (fun min t => ih hle min t) s).bind fun left t =>
        extends_climb (fun min t => ih hle min t) min hle left t

/-! ## No bound -/

theorem extends_expression (n : Nat) (min : UInt32) (s : Cursor × σ) :
    Extends (expressionWithin table actions n min) (expression table actions min) s := by
  -- Both are compared with a bound that is enough for either.
  have henough : expression table actions min s
      = expressionWithin table actions (max n (s.1.rest.length + 1)) min s :=
    (extends_expressionWithin (Nat.le_max_right _ _) min s).eq_of_finishes
      (finishes_expression min s)
  have hfurther : Extends (expressionWithin table actions n min)
      (expressionWithin table actions (max n (s.1.rest.length + 1)) min) s :=
    extends_expressionWithin (Nat.le_max_left _ _) min s
  exact Or.imp_right (fun heq => heq.trans henough.symm) hfurther

/-- **An expression is read as with no bound at all**: what the reader
does is what it does with any bound that is large enough. -/
theorem expressionWithin_eq_expression {n : Nat} (min : UInt32) (s : Cursor × σ)
    (hn : s.1.rest.length < n) :
    expressionWithin table actions n min s = expression table actions min s :=
  (extends_expression n min s).eq_of_finishes (finishes_expressionWithin min s hn)

/-- **An expression is what it starts with and the operators that follow**,
and so are the expressions inside it. -/
theorem expression_eq (min : UInt32) (s : Cursor × σ) :
    expression table actions min s
      = (do
        let left ← operand table actions (expression table actions)
        climb table actions (expression table actions) min (s.1.rest.length + 1) left) s := by
  have hself : ∀ min t, Extends (expressionWithin table actions (s.1.rest.length + 1) min)
      (expression table actions min) t := extends_expression _
  have hn : s.1.rest.length < s.1.rest.length + 2 := by omega
  rw [← expressionWithin_eq_expression min s hn]
  exact ((extends_operand hself s).bind fun left t =>
    extends_climb hself min (Nat.le_refl _) left t).eq_of_finishes
      (finishes_expressionWithin min s hn)

/-- Behind what an expression starts with it remains to climb. -/
theorem expression_of_operand {min : UInt32} {s t : Cursor × σ} {left : α}
    (h : operand table actions (expression table actions) s = .ok left t) :
    expression table actions min s
      = climb table actions (expression table actions) min (t.1.rest.length + 1) left t := by
  have hself : ∀ min u, u.1.rest.length < s.1.rest.length →
      Finishes 1 (expression table actions min) u := fun min u _ => finishes_expression min u
  have hlength := (finishes_operand hself (Nat.le_refl _)).length_of_ok h
  rw [expression_eq, Outcome.run_bind_of_ok h]
  exact ((extends_climb (fun _ u => .refl _ u) min (by omega) left t).eq_of_finishes
    (finishes_climb hself min left (by omega) (Nat.lt_succ_self _))).symm

/-! ## What comes of it -/

section Settled

variable {τ : Type} {r : EStateM.Result Stop τ β} {h : ∀ t, r ≠ .error .unfinished t}

theorem settled_eq_ok {a : β} {t : τ} : settled r h = .ok a t ↔ r = .ok a t := by
  match r, h with
  | .ok b u, _ =>
    show EStateM.Result.ok b u = .ok a t ↔ _
    simp
  | .error (.failed e) u, _ => exact ⟨nofun, nofun⟩
  | .error .unfinished u, h => exact absurd rfl (h u)

theorem settled_eq_error {e : ParseError} {t : τ} :
    settled r h = .error e t ↔ r = .error (.failed e) t := by
  match r, h with
  | .ok b u, _ => exact ⟨nofun, nofun⟩
  | .error (.failed e') u, _ =>
    show EStateM.Result.error e' u = .error e t ↔ _
    simp
  | .error .unfinished u, h => exact absurd rfl (h u)

end Settled

variable {min : UInt32} {s t : Cursor × σ}

theorem read_eq_ok {a : α} :
    read table actions min s = .ok a t ↔ expression table actions min s = .ok a t :=
  settled_eq_ok

theorem read_eq_error {e : ParseError} :
    read table actions min s = .error e t ↔ expression table actions min s = .error (.failed e) t :=
  settled_eq_error

/-- **With any bound above the number of tokens left** the reader gives a
tree or fails, as the reader without a bound does. -/
theorem expressionWithin_settles (min : UInt32) (c : Cursor) {n : Nat}
    (hn : c.rest.length < n) :
    (∃ e d, expressionWithin table tree n min (c, ()) = .ok e (d, ())
      ∧ parse table min c = .ok e d)
    ∨ ∃ e d, expressionWithin table tree n min (c, ()) = .error (.failed e) (d, ())
      ∧ parse table min c = .error e d := by
  rw [expressionWithin_eq_expression min (c, ()) hn]
  unfold parse
  cases hread : read table tree min (c, ()) with
  | ok e s => exact .inl ⟨e, s.1, read_eq_ok.mp hread, rfl⟩
  | error e s => exact .inr ⟨e, s.1, read_eq_error.mp hread, rfl⟩

end Descent.Expr
