import Descent.Proofs.Expr.Bound
import Descent.Proofs.Placeless

/-!
# Expressions are read without places

The reader of expressions looks at tokens to see which operator comes next
and whether a group is a cast, and hands the tokens that are operands to
its actions. **Actions that do not look at the place of an operand make a
reader that does not look at places** (`unplaces_expressionWithin`),
failures and all. Those that build the tree are such actions, because a tree
keeps the kind and the spelling of an operand only (`unplaces_parse`).
-/

namespace Descent.Expr

variable {σ α β : Type} {table : OperatorTable} {actions : Actions σ α}

/-! ## Looking at tokens -/

theorem enclosed?_unplaced (ts : List Token) :
    enclosed? (ts.map Token.unplaced) = enclosed? ts := by
  cases ts with
  | nil => rfl
  | cons t ts =>
    cases ts with
    | nil => rfl
    | cons t' ts => rfl

theorem isCast_unplaced (enclosed : Option String) (next : Option Token) :
    isCast table enclosed (next.map Token.unplaced) = isCast table enclosed next := by
  cases next with
  | none => rfl
  | some t => rfl

theorem continuation_unplaced (min : UInt32) (next : Option Token) :
    continuation table min (next.map Token.unplaced) = continuation table min next := by
  cases next with
  | none => rfl
  | some t => rfl

/-! ## Readers -/

/-- What a reading stops with, without its place. -/
def Stop.unplaced : Stop → Stop
  | .failed e => .failed e.unplaced
  | .unfinished => .unfinished

/-- A state of the reader, its cursor without places. -/
def unplacedState (s : Cursor × σ) : Cursor × σ := (s.1.unplaced, s.2)

/-- **Readers that read the same without places**, with the state of their
actions the same. -/
abbrev Reader.Unplaces (h : β → β) (x y : Reader σ β) : Prop :=
  Outcome.Relabels unplacedState Stop.unplaced h x y

namespace Reader

theorem unplaces_lift {h : β → β} {p q : Parse β} (hp : Parse.Unplaces h p q) :
    Unplaces h (lift p : Reader σ β) (lift q) := by
  intro s
  unfold lift unplacedState
  rw [hp s.1]
  cases q s.1 with
  | ok a c => rfl
  | error e c => rfl

theorem unplaces_act (m : StateM σ β) : Unplaces id (act m) (act m) := fun _ => rfl

theorem unplaces_cursor : Unplaces Cursor.unplaced (cursor : Reader σ Cursor) cursor :=
  fun _ => rfl

theorem unplaces_advance : Unplaces id (advance : Reader σ Unit) advance := by
  intro s
  show EStateM.Result.ok () (s.1.unplaced.advance, s.2) = .ok () (s.1.advance.unplaced, s.2)
  rw [Cursor.advance_unplaced]

theorem unplaces_fail {error : Cursor → ParseError}
    (herror : ∀ c, error c.unplaced = (error c).unplaced) (h : β → β) :
    Unplaces h (fail error : Reader σ β) (fail error) := by
  intro s
  show EStateM.Result.error (Stop.failed (error s.1.unplaced)) _
    = .error (Stop.failed (error s.1).unplaced) _
  rw [herror]

theorem unplaces_unfinished (h : β → β) :
    Unplaces h (throw .unfinished : Reader σ β) (throw .unfinished) := fun _ => rfl

theorem unplaces_punct (s : String) :
    Unplaces Token.unplaced (lift (Parse.punct s) : Reader σ Token) (lift (Parse.punct s)) :=
  unplaces_lift (Parse.unplaces_punct s)

end Reader

open Reader

section

variable {self : UInt32 → Reader σ α} (hself : ∀ min, Unplaces id (self min) (self min))

include hself

theorem unplaces_group : Unplaces id (group table actions self) (group table actions self) := by
  unfold group
  refine (unplaces_punct "(").bind fun _ => unplaces_cursor.bind fun c => ?_
  rw [Cursor.rest_unplaced, enclosed?_unplaced]
  refine (hself 0).bind fun inner => (unplaces_punct ")").bind fun _ => ?_
  cases table.cast? with
  | none => exact Outcome.relabels_pure inner
  | some cast =>
    refine unplaces_cursor.bind fun c' => ?_
    rw [Cursor.current?_unplaced, isCast_unplaced]
    split
    · exact (hself cast.power).bind fun operand => unplaces_act _
    · exact Outcome.relabels_pure inner

theorem unplaces_operand (hatom : ∀ t : Token, actions.atom t.unplaced = actions.atom t) :
    Unplaces id (operand table actions self) (operand table actions self) := by
  unfold operand
  refine unplaces_cursor.bind fun c => ?_
  rw [Cursor.current?_unplaced]
  cases c.current? with
  | none => exact unplaces_fail (fun c => c.expected_unplaced _) _
  | some t =>
    show Unplaces id (if isDelimiter t "(" = true then _ else _)
      (if isDelimiter t "(" = true then _ else _)
    split
    · exact unplaces_group hself
    rw [show operatorSpelling? t.unplaced = operatorSpelling? t from rfl]
    cases (operatorSpelling? t).bind table.nud? with
    | some op =>
      exact unplaces_advance.bind fun _ => (hself op.power).bind fun _ => unplaces_act _
    | none =>
      show Unplaces id
        (if t.kind.isOperand = true then _ else if t.kind = .operator then _ else _) _
      split
      · refine unplaces_advance.bind fun _ => ?_
        rw [hatom]
        exact unplaces_act _
      split
      · exact unplaces_fail (fun c => c.unimplemented_unplaced _) _
      · exact unplaces_fail (fun c => c.expected_unplaced _) _

theorem unplaces_enclosure (close : String) :
    Unplaces id (enclosure self close) (enclosure self close) := by
  unfold enclosure
  exact (hself 0).bind fun inner => (unplaces_punct close).bind fun _ =>
    Outcome.relabels_pure inner

theorem unplaces_application (op : Operator) (left : α) :
    Unplaces id (application actions self op left) (application actions self op left) := by
  unfold application
  cases op.fixity with
  | infixLeft => exact (hself _).bind fun _ => unplaces_act _
  | infixRight => exact (hself _).bind fun _ => unplaces_act _
  | cast => exact (hself _).bind fun _ => unplaces_act _
  | postfixed => exact unplaces_act _
  | prefixed => exact unplaces_act _
  | bracket close => exact (unplaces_enclosure hself close).bind fun _ => unplaces_act _
  | paramList close =>
    refine unplaces_cursor.bind fun c => ?_
    rw [Cursor.atPunct_unplaced]
    split
    · exact unplaces_advance.bind fun _ => unplaces_act _
    · exact (unplaces_enclosure hself close).bind fun _ => unplaces_act _

theorem unplaces_climb (min : UInt32) (n : Nat) (left : α) :
    Unplaces id (climb table actions self min n left) (climb table actions self min n left) := by
  induction n generalizing left with
  | zero => exact unplaces_unfinished _
  | succ n ih =>
    unfold climb
    refine unplaces_cursor.bind fun c => ?_
    rw [Cursor.current?_unplaced, continuation_unplaced]
    cases continuation table min c.current? with
    | stop => exact Outcome.relabels_pure left
    | unimplemented s => exact unplaces_fail (fun c => c.unimplemented_unplaced s) _
    | apply op =>
      exact unplaces_advance.bind fun _ => (unplaces_application hself op left).bind ih

end

/-- **No place makes a difference to what is read**, whatever the bound. -/
theorem unplaces_expressionWithin (hatom : ∀ t : Token, actions.atom t.unplaced = actions.atom t)
    (n : Nat) (min : UInt32) :
    Unplaces id (expressionWithin table actions n min) (expressionWithin table actions n min) := by
  induction n generalizing min with
  | zero => exact unplaces_unfinished _
  | succ n ih => exact (unplaces_operand ih hatom).bind fun left => unplaces_climb ih min n left

theorem unplaces_expression (hatom : ∀ t : Token, actions.atom t.unplaced = actions.atom t)
    (min : UInt32) :
    Unplaces id (expression table actions min) (expression table actions min) := by
  intro s
  unfold expression
  show expressionWithin table actions (s.1.unplaced.rest.length + 1) min _ = _
  rw [Cursor.rest_unplaced, List.length_map]
  exact unplaces_expressionWithin hatom _ min s

/-- **Trees are read without places.** -/
theorem unplaces_parse (min : UInt32) :
    Parse.Unplaces id (parse table min) (parse table min) := by
  intro c
  have hexpression : expression table tree min (c.unplaced, ())
      = Outcome.relabel unplacedState Stop.unplaced id (expression table tree min (c, ())) :=
    unplaces_expression (fun _ => rfl) min (c, ())
  unfold parse
  cases hread : read table tree min (c, ()) with
  | ok e s =>
    have hunplaced : read table tree min (c.unplaced, ()) = .ok e (unplacedState s) := by
      rw [read_eq_ok, hexpression, read_eq_ok.mp hread]
      rfl
    rw [hunplaced]
    rfl
  | error e s =>
    have hunplaced : read table tree min (c.unplaced, ())
        = .error e.unplaced (unplacedState s) := by
      rw [read_eq_error, hexpression, read_eq_error.mp hread]
      rfl
    rw [hunplaced]
    rfl

end Descent.Expr
