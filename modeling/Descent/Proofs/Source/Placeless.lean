import Descent.Grammar.Source
import Descent.Proofs.Expr.Placeless

/-!
# Grammars are read without places

The reader of grammars looks at the kind and the spelling of tokens, and
only its failures tell a place. So each of its steps does the same without
places, from the argument of a directive up to the rule (`unplaces_rule`).

A step may hand a token or a cursor on to the next: a directive keeps where
it started, to tell it if its arguments are wrong. The next step is then
compared with itself on two values, one with places and one without.

**Tokens without their places write the same table**, or they fail in the
same way (`RuleTable.ofTokens_unplaced`).
-/

namespace Descent

/-- A scan error without its place. -/
def ScanError.unplaced (e : ScanError) : ScanError := { e with position := .start }

/-- What is wrong with a source text, without the place. -/
def SourceError.unplaced : SourceError → SourceError
  | .scan e => .scan e.unplaced
  | .parse e => .parse e.unplaced
  | .defect d => .defect d

namespace Source

open Parse (Unplaces unplaces_accept unplaces_punct)

variable {α : Type}

theorem unplaces_cursor : Unplaces Cursor.unplaced cursor cursor := fun _ => rfl

theorem unplaces_advance : Unplaces id advance advance := by
  intro c
  show EStateM.Result.ok () c.unplaced.advance = .ok () c.advance.unplaced
  rw [Cursor.advance_unplaced]

theorem unplaces_expected (h : α → α) (what : String) :
    Unplaces h (expected what) (expected what) := by
  intro c
  show EStateM.Result.error (c.unplaced.expected what) _ = .error (c.expected what).unplaced _
  rw [Cursor.expected_unplaced]

/-! ## Directives -/

theorem unplaces_argument : Unplaces id argument argument := by
  unfold argument
  refine unplaces_cursor.bind fun c => ?_
  have harg : c.unplaced.current?.bind argument? = c.current?.bind argument? := by
    rw [Cursor.current?_unplaced, Option.bind_map]
    rfl
  rw [harg]
  cases c.current?.bind argument? with
  | some a => exact unplaces_advance.bind fun _ => Outcome.relabels_pure a
  | none => exact unplaces_expected _ _

theorem unplaces_nextArgument (first : Bool) :
    Unplaces id (nextArgument first) (nextArgument first) := by
  unfold nextArgument
  cases first with
  | true => exact unplaces_argument
  | false => exact (unplaces_punct ",").bind fun _ => unplaces_argument

theorem unplaces_arguments (n : Nat) (first : Bool) :
    Unplaces id (arguments n first) (arguments n first) := by
  induction n generalizing first with
  | zero => exact (unplaces_nextArgument first).bind fun a => Outcome.relabels_pure [a]
  | succ n ih =>
    unfold arguments
    refine unplaces_cursor.bind fun c => ?_
    rw [Cursor.atPunct_unplaced]
    split
    · exact Outcome.relabels_pure []
    · exact (unplaces_nextArgument first).bind fun a => (ih false).bind fun rest =>
        Outcome.relabels_pure (a :: rest)

theorem unplaces_directive (kind : Directive.Kind) :
    Unplaces id (directive kind) (directive kind) := by
  unfold directive
  refine unplaces_cursor.bind fun start => unplaces_advance.bind fun _ =>
    (unplaces_punct "(").bind fun _ => ?_
  rw [Cursor.rest_unplaced, List.length_map]
  refine (unplaces_arguments _ true).bind fun args => (unplaces_punct ")").bind fun _ => ?_
  show Unplaces id (if kind = .precedence ∧ Directive.power? ⟨kind, args⟩ = none then _ else _)
    (if kind = .precedence ∧ Directive.power? ⟨kind, args⟩ = none then _ else _)
  split
  · intro c
    rw [Cursor.fail_unplaced]
    rfl
  · exact Outcome.relabels_pure _

/-! ## Elements, sequences, choices -/

theorem unplaces_emptyMark : Unplaces id emptyMark emptyMark := by
  unfold emptyMark
  exact unplaces_advance.bind fun _ => (unplaces_accept (fun _ => rfl) _).bind fun _ =>
    (unplaces_punct ">").bind fun _ => Outcome.relabels_pure _

theorem unplaces_action (operators : OperatorTable) :
    Unplaces id (action operators) (action operators) := by
  unfold action
  exact (unplaces_punct "\x7b").bind fun _ => (Expr.unplaces_parse 0).bind fun e =>
    (unplaces_punct "\x7d").bind fun _ => Outcome.relabels_pure _

section

variable {choice : Parse Node} (hchoice : Unplaces id choice choice)

include hchoice

theorem unplaces_enclosed (close : String) :
    Unplaces id (enclosed choice close) (enclosed choice close) := by
  unfold enclosed
  exact unplaces_advance.bind fun _ => hchoice.bind fun n => (unplaces_punct close).bind fun _ =>
    Outcome.relabels_pure n

theorem unplaces_element : Unplaces id (element choice) (element choice) := by
  unfold element
  refine unplaces_cursor.bind fun c => ?_
  rw [Cursor.current?_unplaced]
  cases c.current? with
  | none => exact Outcome.relabels_pure none
  | some t =>
    obtain ⟨kind, spelling, position⟩ := t
    cases kind with
    | reserved => exact Outcome.relabels_pure none
    | number => exact Outcome.relabels_pure none
    | string => exact unplaces_advance.bind fun _ => Outcome.relabels_pure _
    | identifier =>
      dsimp only [Option.map_some, Token.unplaced]
      cases Directive.Kind.ofName? spelling with
      | none => exact unplaces_advance.bind fun _ => Outcome.relabels_pure _
      | some kind =>
        have hopen : (c.unplaced.get? 1).any (·.isPunct "(") = (c.get? 1).any (·.isPunct "(") := by
          rw [Cursor.get?_unplaced, Option.any_map]
          rfl
        show Unplaces id (if (c.unplaced.get? 1).any (·.isPunct "(") = true then _ else _)
          (if (c.get? 1).any (·.isPunct "(") = true then _ else _)
        rw [hopen]
        split
        · exact (unplaces_directive kind).map fun _ => rfl
        · exact unplaces_advance.bind fun _ => Outcome.relabels_pure _
    | delimiter =>
      show Unplaces id (if spelling = "(" then _ else if spelling = "[" then _ else _)
        (if spelling = "(" then _ else if spelling = "[" then _ else _)
      split
      · exact (unplaces_enclosed hchoice ")").map fun _ => rfl
      split
      · exact (unplaces_enclosed hchoice "]").bind fun _ => Outcome.relabels_pure _
      · exact Outcome.relabels_pure none
    | operator =>
      show Unplaces id (if spelling = "<" then _ else _) (if spelling = "<" then _ else _)
      split
      · exact unplaces_emptyMark.map fun _ => rfl
      · exact Outcome.relabels_pure none

variable (operators : OperatorTable)

theorem unplaces_elements (n : Nat) :
    Unplaces id (elements operators choice n) (elements operators choice n) := by
  induction n with
  | zero => exact Outcome.relabels_pure []
  | succ n ih =>
    unfold elements
    refine unplaces_cursor.bind fun c => ?_
    rw [Cursor.atPunct_unplaced]
    split
    · exact (unplaces_action operators).bind fun a => Outcome.relabels_pure [a]
    · refine (unplaces_element hchoice).bind fun e => ?_
      cases e with
      | none => exact Outcome.relabels_pure []
      | some e => exact ih.bind fun rest => Outcome.relabels_pure (e :: rest)

theorem unplaces_sequence :
    Unplaces id (sequence operators choice) (sequence operators choice) := by
  unfold sequence
  refine unplaces_cursor.bind fun c => ?_
  rw [Cursor.rest_unplaced, List.length_map]
  exact (unplaces_elements hchoice operators _).bind fun es => Outcome.relabels_pure _

theorem unplaces_branches (n : Nat) :
    Unplaces id (branches operators choice n) (branches operators choice n) := by
  induction n with
  | zero => exact Outcome.relabels_pure []
  | succ n ih =>
    unfold branches
    refine unplaces_cursor.bind fun c => ?_
    rw [Cursor.atPunct_unplaced]
    split
    · exact unplaces_advance.bind fun _ => (unplaces_sequence hchoice operators).bind fun b =>
        ih.bind fun rest => Outcome.relabels_pure (b :: rest)
    · exact Outcome.relabels_pure []

end

section

variable (operators : OperatorTable)

theorem unplaces_choiceWithin (n : Nat) :
    Unplaces id (choiceWithin operators n) (choiceWithin operators n) := by
  induction n with
  | zero => exact Outcome.relabels_pure Node.empty
  | succ n ih =>
    exact (unplaces_sequence ih operators).bind fun first =>
      (unplaces_branches ih operators (n + 1)).bind fun rest => Outcome.relabels_pure _

theorem unplaces_choice : Unplaces id (choice operators) (choice operators) := by
  intro c
  unfold choice
  rw [Cursor.rest_unplaced, List.length_map]
  exact unplaces_choiceWithin operators c.rest.length c

/-! ## Rules -/

theorem unplaces_rule : Unplaces id (rule operators) (rule operators) := by
  unfold rule
  exact (unplaces_accept (fun _ => rfl) _).bind fun _ => (unplaces_punct "::=").bind fun _ =>
    (unplaces_choice operators).bind fun _ => (unplaces_punct ";").bind fun _ =>
      Outcome.relabels_pure _

theorem rulesWithin_unplaced (n : Nat) (table : RuleTable) (c : Cursor) :
    rulesWithin operators n table c.unplaced
      = (rulesWithin operators n table c).mapError SourceError.unplaced := by
  induction n generalizing table c with
  | zero => rfl
  | succ n ih =>
    unfold rulesWithin
    rw [Cursor.rest_unplaced, List.isEmpty_map, unplaces_rule operators c]
    split
    · rfl
    · cases rule operators c with
      | error e d => rfl
      | ok r d =>
        dsimp only [Outcome.relabel, id]
        cases table.push r with
        | error e => rfl
        | ok table => exact ih table d

end

end Source

/-- **Places do not matter to what tokens write**: without their places they
write the same table, or fail in the same way. -/
theorem RuleTable.ofTokens_unplaced (operators : OperatorTable) (c : Cursor) :
    ofTokens operators c.unplaced = (ofTokens operators c).mapError SourceError.unplaced := by
  unfold ofTokens
  rw [Cursor.rest_unplaced, List.length_map]
  exact Source.rulesWithin_unplaced operators _ _ c

end Descent
