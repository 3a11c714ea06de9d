import Descent.Cursor
import Descent.Expr

/-!
# Reading expressions

Expressions are read by **precedence climbing**. A reading starts with
an operand – a token, a prefix operator with its own operand, or a group
in parentheses – and then takes operators as long as they hold at least
as tightly as a given power. The right operand of an operator is read
the same way, at a power that the operator sets.

A group may turn out to be a cast: whether `( T )` casts what follows is
decided by the token after the closing parenthesis alone, except that a
plus or a minus there makes a cast only of a primitive type.

The reader does not build trees itself. It hands every operand and every
application to `Actions`, in the order in which they are complete, so
one reader serves to build a tree (`Expr.tree`) and to log what was
done. The actions may keep a state of their own.

Every expression takes a token, so fewer are left for those nested in it
and for what follows an operator. The readers below count down a bound on
both, on how deep expressions are nested and on how many operators a climb
takes, and tell a reading that uses it up (`Stop.unfinished`) from one
that fails. **With a bound above the number of tokens left every reading
finishes** (`finishes_expressionWithin`), so `read` has no bound, and a
value or a failure of parsing is all that comes of it.
-/

namespace Descent.Expr

/-- **What to do with the parts of an expression.** The state `σ` is
threaded through in order. -/
structure Actions (σ α : Type) where
  /-- A token stands as an operand. -/
  atom : Token → StateM σ α
  /-- A prefix or postfix operator is applied. -/
  unary : Operator → α → StateM σ α
  /-- Any other operator is applied. The right operand is missing only
  in a list of parameters that is closed right away. -/
  binary : Operator → α → Option α → StateM σ α

/-- **Why a reading stops** without a value. -/
inductive Stop where
  /-- The tokens do not make an expression. -/
  | failed (error : ParseError)
  /-- Expressions are nested deeper, or a climb is longer, than allowed. -/
  | unfinished
deriving DecidableEq

/-- A reader that carries the state of its actions along. -/
abbrev Reader (σ α : Type) := EStateM Stop (Cursor × σ) α

namespace Reader

variable {σ α : Type}

/-- A reader of tokens, which leaves the state of the actions alone. -/
def lift (p : Parse α) : Reader σ α := fun s =>
  match p s.1 with
  | .ok a c => .ok a (c, s.2)
  | .error e c => .error (.failed e) (c, s.2)

/-- An action, which leaves the tokens alone. -/
def act (m : StateM σ α) : Reader σ α := fun s =>
  let result := m s.2
  .ok result.1 (s.1, result.2)

/-- Where the reader stands. -/
def cursor : Reader σ Cursor := fun s => .ok s.1 s

/-- Passes the next token. -/
def advance : Reader σ Unit := fun s => .ok () (s.1.advance, s.2)

/-- Fails where the reader stands. -/
def fail (error : Cursor → ParseError) : Reader σ α := fun s =>
  .error (.failed (error s.1)) s

end Reader

/-- The spelling of a token that may be an operator: signs and keywords
may, words, numbers and strings never. -/
def operatorSpelling? (t : Token) : Option String :=
  match t.kind with
  | .operator | .delimiter | .reserved => some t.spelling
  | .identifier | .number | .string => none

/-- Whether a token is the delimiter of this spelling. -/
def isDelimiter (t : Token) (spelling : String) : Bool :=
  t.kind == .delimiter && t.spelling == spelling

/-- The spelling that a group encloses, if it encloses one operand token
and nothing else. Only such a group can name a primitive type. -/
def enclosed? : List Token → Option String
  | t :: close :: _ =>
    if t.kind.isOperand && isDelimiter close ")" then some t.spelling else none
  | _ => none

/-- **Whether a closed group casts what comes next.** An operand can
only be cast, and so can what a prefix operator starts. A plus or a
minus may also join two operands, so it is cast only by a primitive
type. -/
def isCast (table : OperatorTable) (enclosed : Option String) : Option Token → Bool
  | none => false
  | some t =>
    if t.kind.isOperand && (table.nud? t.spelling).isNone then true
    else
      match operatorSpelling? t with
      | none => false
      | some s =>
        if s = "+" ∨ s = "-" then enclosed.any table.isPrimitive
        else (table.nud? s).isSome

section

variable {σ α : Type} (table : OperatorTable) (actions : Actions σ α)

/-- **A group in parentheses**, or the cast that it turns out to be.
`self` reads the expressions inside. -/
def group (self : UInt32 → Reader σ α) : Reader σ α := do
  let _ ← Reader.lift (Parse.punct "(")
  let enclosed := enclosed? (← Reader.cursor).rest
  let inner ← self 0
  let _ ← Reader.lift (Parse.punct ")")
  match table.cast? with
  | none => pure inner
  | some cast =>
    if isCast table enclosed (← Reader.cursor).current? then do
      let operand ← self cast.power
      Reader.act (actions.binary cast inner (some operand))
    else pure inner

/-- **What an expression starts with.** A parenthesis opens a group,
whatever the table says of it; a prefix operator comes before the token
that it is as an operand. -/
def operand (self : UInt32 → Reader σ α) : Reader σ α := do
  match (← Reader.cursor).current? with
  | none => Reader.fail (·.expected "expression")
  | some t =>
    if isDelimiter t "(" then group table actions self
    else
      match (operatorSpelling? t).bind table.nud? with
      | some op => do
        Reader.advance
        let x ← self op.power
        Reader.act (actions.unary op x)
      | none =>
        if t.kind.isOperand then do
          Reader.advance
          Reader.act (actions.atom t)
        else if t.kind = .operator then Reader.fail (·.unimplemented t.spelling)
        else Reader.fail (·.expected "expression")

/-- What stands between the delimiters of an operator, and the closing
one. -/
def enclosure (self : UInt32 → Reader σ α) (close : String) : Reader σ α := do
  let inner ← self 0
  let _ ← Reader.lift (Parse.punct close)
  pure inner

/-- **The rest of an application**, after the operator: its remaining
operands, then the action. -/
def application (self : UInt32 → Reader σ α) (op : Operator) (left : α) :
    Reader σ α := do
  match op.fixity with
  | .infixLeft =>
    let right ← self (nextPower op.power)
    Reader.act (actions.binary op left (some right))
  | .infixRight | .cast =>
    let right ← self op.power
    Reader.act (actions.binary op left (some right))
  | .postfixed | .prefixed => Reader.act (actions.unary op left)
  | .bracket close =>
    let inner ← enclosure self close
    Reader.act (actions.binary op left (some inner))
  | .paramList close =>
    if (← Reader.cursor).atPunct close then do
      Reader.advance
      Reader.act (actions.binary op left none)
    else do
      let inner ← enclosure self close
      Reader.act (actions.binary op left (some inner))

/-- What to do after an operand. -/
inductive Continuation where
  /-- The expression is complete. -/
  | stop
  /-- The sign that comes next is no operator of the table. -/
  | unimplemented (spelling : String)
  /-- The operator that comes next belongs to the expression. -/
  | apply (op : Operator)

/-- **How an expression goes on after an operand**, by the token that
comes next. A sign that means nothing to the table is refused; all else
that is no operator, or one that holds too loosely, ends the
expression. -/
def continuation (min : UInt32) : Option Token → Continuation
  | none => .stop
  | some t =>
    match operatorSpelling? t with
    | none => .stop
    | some s =>
      match table.led? s with
      | some op => if op.power < min then .stop else .apply op
      | none =>
        if t.kind = .operator && !table.isKnown s then .unimplemented s else .stop

/-- **The climb**: takes operators that hold at least as tightly as
`min`, fewer than `n` of them. -/
def climb (self : UInt32 → Reader σ α) (min : UInt32) : Nat → α → Reader σ α
  | 0, _ => throw .unfinished
  | n + 1, left => do
    match continuation table min (← Reader.cursor).current? with
    | .stop => pure left
    | .unimplemented s => Reader.fail (·.unimplemented s)
    | .apply op => do
      Reader.advance
      let joined ← application actions self op left
      climb self min n joined

/-- An expression among fewer than `n` tokens. -/
def expressionWithin : Nat → UInt32 → Reader σ α
  | 0, _ => throw .unfinished
  | n + 1, min => do
    let left ← operand table actions (expressionWithin n)
    climb table actions (expressionWithin n) min n left

/-- **An expression among all the tokens left.** -/
def expression (min : UInt32) : Reader σ α := fun s =>
  expressionWithin table actions (s.1.rest.length + 1) min s

end

/-! ## Readings finish

That an expression takes a token is what lets the bound go down, and that
the bound is not used up is what lets a reading go on. So both are carried
from step to step together. -/

/-- **A reader that finishes** from here: it gives a value and takes at
least so many tokens, or it fails. -/
def Finishes {σ β : Type} (taken : Nat) (x : Reader σ β) (s : Cursor × σ) : Prop :=
  (∃ a t, x s = .ok a t ∧ t.1.rest.length + taken ≤ s.1.rest.length)
    ∨ ∃ e t, x s = .error (.failed e) t

section Steps

variable {σ β γ : Type} {x : Reader σ β} {s : Cursor × σ} {j k : Nat}

theorem Finishes.weaken (h : Finishes k x s) : Finishes 0 x s := by
  obtain ⟨a, t, hx, hlength⟩ | hfailed := h
  · exact .inl ⟨a, t, hx, Nat.le_trans (Nat.le_add_right _ k) hlength⟩
  · exact .inr hfailed

theorem Finishes.length_of_ok {a : β} {t : Cursor × σ} (h : Finishes k x s)
    (hx : x s = .ok a t) : t.1.rest.length + k ≤ s.1.rest.length := by
  obtain ⟨b, u, hb, hlength⟩ | ⟨e, u, he⟩ := h
  · cases hb.symm.trans hx
    exact hlength
  · cases he.symm.trans hx

theorem Finishes.ne_unfinished (h : Finishes k x s) (t : Cursor × σ) :
    x s ≠ .error .unfinished t := by
  intro hx
  obtain ⟨a, u, ha, -⟩ | ⟨e, u, he⟩ := h
  · cases hx.symm.trans ha
  · cases hx.symm.trans he

/-- **Steps that finish make a reading that does**, each from wherever the
one before may leave off. -/
theorem Finishes.bind {f : β → Reader σ γ} (h : Finishes j x s)
    (hf : ∀ a t, t.1.rest.length + j ≤ s.1.rest.length → Finishes k (f a) t) :
    Finishes (j + k) (x >>= f) s := by
  show (∃ b u, EStateM.bind x f s = .ok b u ∧ _) ∨ ∃ e u, EStateM.bind x f s = .error _ u
  unfold EStateM.bind
  obtain ⟨a, t, hx, hlength⟩ | ⟨e, t, hx⟩ := h
  · rw [hx]
    obtain ⟨b, u, hu, hrest⟩ | hfailed := hf a t hlength
    · exact .inl ⟨b, u, hu, by omega⟩
    · exact .inr hfailed
  · rw [hx]
    exact .inr ⟨e, t, rfl⟩

theorem finishes_pure (b : β) (s : Cursor × σ) : Finishes 0 (pure b) s :=
  .inl ⟨b, s, rfl, Nat.le_refl _⟩

theorem finishes_act (m : StateM σ β) (s : Cursor × σ) : Finishes 0 (Reader.act m) s :=
  .inl ⟨(m s.2).1, (s.1, (m s.2).2), rfl, Nat.le_refl _⟩

theorem finishes_fail (error : Cursor → ParseError) (k : Nat) (s : Cursor × σ) :
    Finishes k (Reader.fail error : Reader σ β) s :=
  .inr ⟨error s.1, s, rfl⟩

/-- Looking where the reader stands, and going on from what is seen. -/
theorem finishes_cursor {f : Cursor → Reader σ β} (h : Finishes k (f s.1) s) :
    Finishes k (Reader.cursor >>= f) s := h

theorem finishes_advance {t : Token} (h : s.1.current? = some t) :
    Finishes 1 (Reader.advance : Reader σ Unit) s :=
  .inl ⟨(), (s.1.advance, s.2), rfl, Nat.le_of_eq (Cursor.length_advance h)⟩

theorem finishes_punct (spelling : String) (s : Cursor × σ) :
    Finishes 1 (Reader.lift (Parse.punct spelling) : Reader σ Token) s := by
  unfold Finishes Reader.lift
  cases h : Parse.punct spelling s.1 with
  | ok t c => exact .inl ⟨t, (c, s.2), rfl, Nat.le_of_eq (Parse.length_of_accept h)⟩
  | error e c => exact .inr ⟨e, (c, s.2), rfl⟩

end Steps

section Readers

variable {σ α : Type} {table : OperatorTable} {actions : Actions σ α} {s : Cursor × σ}
  {self : UInt32 → Reader σ α} {k : Nat}
  (hself : ∀ min t, t.1.rest.length < k → Finishes 1 (self min) t)

include hself

theorem finishes_group (hs : s.1.rest.length ≤ k) : Finishes 1 (group table actions self) s := by
  unfold group
  refine Finishes.bind (k := 0) (finishes_punct "(" s) fun _ s₁ h₁ => finishes_cursor ?_
  refine ((hself 0 s₁ (by omega)).bind (k := 0) fun inner s₂ h₂ => ?_).weaken
  refine ((finishes_punct ")" s₂).bind (k := 0) fun _ s₃ h₃ => ?_).weaken
  cases table.cast? with
  | none => exact finishes_pure inner s₃
  | some cast =>
    refine finishes_cursor ?_
    split
    · exact ((hself cast.power s₃ (by omega)).bind fun _ s₄ _ => finishes_act _ s₄).weaken
    · exact finishes_pure inner s₃

/-- **What an expression starts with takes a token**, so what is nested in
it has fewer than `k` left. -/
theorem finishes_operand (hs : s.1.rest.length ≤ k) :
    Finishes 1 (operand table actions self) s := by
  unfold operand
  refine finishes_cursor ?_
  cases hc : s.1.current? with
  | none => exact finishes_fail _ 1 s
  | some t =>
    dsimp only
    split
    · exact finishes_group hself hs
    · cases (operatorSpelling? t).bind table.nud? with
      | some op =>
        refine (finishes_advance hc).bind (k := 0) fun _ s₁ h₁ => ?_
        exact ((hself op.power s₁ (by omega)).bind fun _ s₂ _ => finishes_act _ s₂).weaken
      | none =>
        dsimp only
        split
        · exact (finishes_advance hc).bind fun _ s₁ _ => finishes_act _ s₁
        · split
          · exact finishes_fail _ 1 s
          · exact finishes_fail _ 1 s

theorem finishes_enclosure (close : String) (hs : s.1.rest.length < k) :
    Finishes 0 (enclosure self close) s := by
  unfold enclosure
  refine ((hself 0 s hs).bind (k := 0) fun inner s₁ _ => ?_).weaken
  exact ((finishes_punct close s₁).bind fun _ s₂ _ => finishes_pure inner s₂).weaken

theorem finishes_application (op : Operator) (left : α) (hs : s.1.rest.length < k) :
    Finishes 0 (application actions self op left) s := by
  have hright : ∀ power, Finishes 0
      (do
        let right ← self power
        Reader.act (actions.binary op left (some right))) s := fun power =>
    ((hself power s hs).bind fun _ s₁ _ => finishes_act _ s₁).weaken
  have hinner : ∀ close, Finishes 0
      (do
        let inner ← enclosure self close
        Reader.act (actions.binary op left (some inner))) s := fun close =>
    (finishes_enclosure hself close hs).bind fun _ s₁ _ => finishes_act _ s₁
  unfold application
  cases op.fixity with
  | infixLeft => exact hright _
  | infixRight => exact hright _
  | cast => exact hright _
  | postfixed => exact finishes_act _ s
  | prefixed => exact finishes_act _ s
  | bracket close => exact hinner close
  | paramList close =>
    refine finishes_cursor ?_
    split
    · next hclose =>
      obtain ⟨t, ht, -⟩ := (Option.any_eq_true _ _).mp hclose
      exact ((finishes_advance ht).bind fun _ s₁ _ => finishes_act _ s₁).weaken
    · exact hinner close

/-- **A climb takes no more operators than there are tokens.** -/
theorem finishes_climb (min : UInt32) {n : Nat} (left : α) (hs : s.1.rest.length ≤ k)
    (hn : s.1.rest.length < n) : Finishes 0 (climb table actions self min n left) s := by
  induction n generalizing s left with
  | zero => exact absurd hn (Nat.not_lt_zero _)
  | succ n ih =>
    unfold climb
    refine finishes_cursor ?_
    cases hc : s.1.current? with
    | none => exact finishes_pure left s
    | some t =>
      cases continuation table min (some t) with
      | stop => exact finishes_pure left s
      | unimplemented spelling => exact finishes_fail _ 0 s
      | apply op =>
        refine ((finishes_advance hc).bind (k := 0) fun _ s₁ h₁ => ?_).weaken
        refine Finishes.bind (k := 0) (finishes_application hself op left (by omega))
          fun joined s₂ h₂ => ?_
        exact ih joined (by omega) (by omega)

end Readers

section Expressions

variable {σ α : Type} {table : OperatorTable} {actions : Actions σ α}

/-- **A bound above the number of tokens left is never used up.** By
induction on the bound: what is nested in an expression comes after a
token. -/
theorem finishes_expressionWithin {n : Nat} (min : UInt32) (s : Cursor × σ)
    (hn : s.1.rest.length < n) : Finishes 1 (expressionWithin table actions n min) s := by
  induction n generalizing min s with
  | zero => exact absurd hn (Nat.not_lt_zero _)
  | succ n ih =>
    have hs : s.1.rest.length ≤ n := Nat.le_of_lt_succ hn
    exact Finishes.bind (k := 0) (finishes_operand ih hs) fun left t ht =>
      finishes_climb ih min left (by omega) (by omega)

theorem finishes_expression (min : UInt32) (s : Cursor × σ) :
    Finishes 1 (expression table actions min) s :=
  finishes_expressionWithin min s (Nat.lt_succ_self _)

end Expressions

/-! ## What comes of a reading -/

/-- How a reading ends that does not use its bound up. -/
def settled {τ β : Type} : (r : EStateM.Result Stop τ β) →
    (∀ t, r ≠ .error .unfinished t) → EStateM.Result ParseError τ β
  | .ok a t, _ => .ok a t
  | .error (.failed e) t, _ => .error e t
  | .error .unfinished t, h => absurd rfl (h t)

/-- **An expression whose operators hold at least as tightly as `min`.**
What follows it is left. -/
def read {σ α : Type} (table : OperatorTable) (actions : Actions σ α) (min : UInt32) :
    EStateM ParseError (Cursor × σ) α := fun s =>
  settled (expression table actions min s) (finishes_expression min s).ne_unfinished

/-- The actions that build the tree. -/
def tree : Actions Unit Expr where
  atom t := pure (.atom t.kind t.spelling)
  unary op x := pure (.unary op x)
  binary op x y := pure (.apply op x y)

/-- **The tree of an expression.** -/
def parse (table : OperatorTable) (min : UInt32) : Parse Expr := fun c =>
  match read table tree min (c, ()) with
  | .ok e s => .ok e s.1
  | .error e s => .error e s.1

/-- **Whether an expression can start here.** Keywords do not count,
even where one could be read as an operand, so that a choice between an
expression and a keyword is one. -/
def startsAt (table : OperatorTable) (c : Cursor) : Bool :=
  c.current?.any fun t =>
    match t.kind with
    | .delimiter => t.spelling == "(" || (table.nud? t.spelling).isSome
    | .operator => (table.nud? t.spelling).isSome
    | .reserved => false
    | .identifier | .number | .string => true

/-! ## Traces

A trace is the list of what a reading did, one event for each action in
order. The value of an action is the number of its event, counted from
zero, so an event names its operands by the events that gave them. A
failed reading leaves the events that came before. -/

/-- **One action of a reading.** -/
inductive Event where
  /-- A token stands as an operand. -/
  | atom (token : Token)
  /-- A prefix or postfix operator is applied to an earlier value. -/
  | unary (op : Operator) (operand : Nat)
  /-- Any other operator is applied to earlier values. -/
  | binary (op : Operator) (lhs : Nat) (rhs : Option Nat)
deriving DecidableEq

/-- Writes an event down; its value is its number. -/
def log (e : Event) : StateM (List Event) Nat := fun events =>
  (events.length, events ++ [e])

/-- The actions that log themselves. -/
def trace : Actions (List Event) Nat where
  atom t := log (.atom t)
  unary op x := log (.unary op x)
  binary op x y := log (.binary op x y)

end Descent.Expr
