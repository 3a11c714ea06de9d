import Descent.Proofs.Cursor
import Descent.Proofs.Expr.Bound

/-!
# Readings of expressions

The reader of expressions climbs from operator to operator, counts down
a bound, and looks one token ahead to see whether to go on. This file
says what it reads without saying how: `Expr.Reads table min taken e next`
holds if **the tokens `taken`, with the token `next` after them, are read
as the tree `e` at the least power `min`**. There is one constructor for
each way in which the reader can go, and no bound.

Only the one token after a reading counts, and only as a reason to go on:
a reading that ends before some token ends before the end of the text as
well (`Reads.alone`). So what is read from a stretch of tokens is what is
read from that stretch by itself.

`parse_sound` and `Reads.parse_eq` say that the reader and the relation are
one and the same.
-/

namespace Descent.Expr

variable {table : OperatorTable}

mutual

/-- **An expression**: what it starts with, then the operators that
follow. -/
inductive Reads (table : OperatorTable) :
    UInt32 → List Token → Expr → Option Token → Prop
  | intro {min : UInt32} {u v : List Token} {x e : Expr} {next : Option Token} :
    Starts table u x (v.head?.or next) → Climbs table min x v e next →
      Reads table min (u ++ v) e next

/-- **What an expression starts with.** -/
inductive Starts (table : OperatorTable) : List Token → Expr → Option Token → Prop
  /-- A token by itself. -/
  | atom {t : Token} {next : Option Token} :
    isDelimiter t "(" = false → (operatorSpelling? t).bind table.nud? = none →
      t.kind.isOperand = true → Starts table [t] (.atom t.kind t.spelling) next
  /-- An operator and its operand. -/
  | unary {t : Token} {op : Operator} {u : List Token} {x : Expr} {next : Option Token} :
    isDelimiter t "(" = false → (operatorSpelling? t).bind table.nud? = some op →
      Reads table op.power u x next → Starts table (t :: u) (.unary op x) next
  /-- A group that casts nothing. -/
  | group {t close : Token} {u : List Token} {x : Expr} {next : Option Token} :
    isDelimiter t "(" = true → Reads table 0 u x (some close) →
      close.isPunct ")" = true →
      (∀ op, table.cast? = some op →
        isCast table (enclosed? (u ++ [close])) next = false) →
      Starts table (t :: (u ++ [close])) x next
  /-- A group that casts what comes after it. -/
  | cast {t close : Token} {op : Operator} {u v : List Token} {x y : Expr}
      {next : Option Token} :
    isDelimiter t "(" = true → Reads table 0 u x (some close) →
      close.isPunct ")" = true → table.cast? = some op →
      isCast table (enclosed? (u ++ [close])) (v.head?.or next) = true →
      Reads table op.power v y next →
      Starts table (t :: (u ++ [close]) ++ v) (.binary op x y) next

/-- **The operators that follow an operand**, which ends up inside the
tree. -/
inductive Climbs (table : OperatorTable) :
    UInt32 → Expr → List Token → Expr → Option Token → Prop
  /-- None, or none that holds tightly enough. -/
  | stop {min : UInt32} {x : Expr} {next : Option Token} :
    continuation table min next = .stop → Climbs table min x [] x next
  /-- One, and then those that follow it. -/
  | apply {min : UInt32} {t : Token} {op : Operator} {u v : List Token} {x y e : Expr}
      {next : Option Token} :
    continuation table min (some t) = .apply op →
      Applies table op x u y (v.head?.or next) → Climbs table min y v e next →
      Climbs table min x (t :: u ++ v) e next

/-- **The rest of an application**, after its operator. -/
inductive Applies (table : OperatorTable) :
    Operator → Expr → List Token → Expr → Option Token → Prop
  | infixLeft {op : Operator} {u : List Token} {x y : Expr} {next : Option Token} :
    op.fixity = .infixLeft → Reads table (nextPower op.power) u y next →
      Applies table op x u (.binary op x y) next
  | infixRight {op : Operator} {u : List Token} {x y : Expr} {next : Option Token} :
    op.fixity = .infixRight ∨ op.fixity = .cast → Reads table op.power u y next →
      Applies table op x u (.binary op x y) next
  | unary {op : Operator} {x : Expr} {next : Option Token} :
    op.fixity = .postfixed ∨ op.fixity = .prefixed → Applies table op x [] (.unary op x) next
  | bracket {op : Operator} {close : String} {t : Token} {u : List Token} {x y : Expr}
      {next : Option Token} :
    op.fixity = .bracket close → Reads table 0 u y (some t) → t.isPunct close = true →
      Applies table op x (u ++ [t]) (.binary op x y) next
  | paramList {op : Operator} {close : String} {t : Token} {u : List Token} {x y : Expr}
      {next : Option Token} :
    op.fixity = .paramList close → u.head?.any (·.isPunct close) = false →
      Reads table 0 u y (some t) → t.isPunct close = true →
      Applies table op x (u ++ [t]) (.binary op x y) next
  | noParams {op : Operator} {close : String} {t : Token} {x : Expr} {next : Option Token} :
    op.fixity = .paramList close → t.isPunct close = true →
      Applies table op x [t] (.vacant op x) next

end

/-- Before an operator that may follow an operand, the reader goes on if the
operator holds tightly enough. -/
theorem continuation_eq_of_led {min : UInt32} {t : Token} {op : Operator}
    (h : (operatorSpelling? t).bind table.led? = some op) :
    continuation table min (some t) = if op.power < min then .stop else .apply op := by
  obtain ⟨s, hs, hled⟩ := Option.bind_eq_some_iff.mp h
  unfold continuation
  simp only [hs, hled]

/-! ## Readings by themselves -/

/-- A reading takes a token, because what it starts with does. -/
theorem Starts.ne_nil {u : List Token} {x : Expr} {next : Option Token}
    (h : Starts table u x next) : u ≠ [] := by
  cases h with
  | _ => exact List.cons_ne_nil _ _

theorem Reads.ne_nil {min : UInt32} {u : List Token} {e : Expr} {next : Option Token}
    (h : Reads table min u e next) : u ≠ [] := by
  cases h with
  | intro hs _ => exact List.append_ne_nil_of_left_ne_nil hs.ne_nil _

mutual

/-- **A reading is one by itself**: it does not need the token after
it. -/
theorem Reads.alone : ∀ {min : UInt32} {u : List Token} {e : Expr} {next : Option Token},
    Reads table min u e next → Reads table min u e none
  | _, _, _, _, .intro (v := v) hs hc => by
    have hs' := hs.alone
    refine .intro ?_ hc.alone
    cases v with
    | nil => exact hs'
    | cons t v => exact hs

theorem Starts.alone : ∀ {u : List Token} {x : Expr} {next : Option Token},
    Starts table u x next → Starts table u x none
  | _, _, _, .atom hd hn ho => .atom hd hn ho
  | _, _, _, .unary hd hn hr => .unary hd hn hr.alone
  | _, _, _, .group hd hr hc _ => .group hd hr hc (fun _ _ => rfl)
  | _, _, _, .cast (v := v) hd hr hc hop hcast hv => by
    refine .cast hd hr hc hop ?_ hv.alone
    -- A cast takes its operand, so the token that decided on it is taken.
    cases v with
    | nil => exact absurd rfl hv.ne_nil
    | cons t v => exact hcast

theorem Climbs.alone : ∀ {min : UInt32} {x : Expr} {u : List Token} {e : Expr}
    {next : Option Token}, Climbs table min x u e next → Climbs table min x u e none
  | _, _, _, _, _, .stop _ => .stop rfl
  | _, _, _, _, _, .apply (v := v) hop ha hc => by
    have ha' := ha.alone
    refine .apply hop ?_ hc.alone
    cases v with
    | nil => exact ha'
    | cons t v => exact ha

theorem Applies.alone : ∀ {op : Operator} {x : Expr} {u : List Token} {y : Expr}
    {next : Option Token}, Applies table op x u y next → Applies table op x u y none
  | _, _, _, _, _, .infixLeft hf hr => .infixLeft hf hr.alone
  | _, _, _, _, _, .infixRight hf hr => .infixRight hf hr.alone
  | _, _, _, _, _, .unary hf => .unary hf
  | _, _, _, _, _, .bracket hf hr ht => .bracket hf hr ht
  | _, _, _, _, _, .paramList hf hu hr ht => .paramList hf hu hr ht
  | _, _, _, _, _, .noParams hf ht => .noParams hf ht

end

/-! ## The reader reads what the relation says -/

/-- A reader of tokens as a reader of expressions. -/
theorem lift_eq_ok {α : Type} {p : Parse α} {c : Cursor} {a : α} {s : Cursor × Unit} :
    (Reader.lift p : Reader Unit α) (c, ()) = .ok a s ↔ p c = .ok a s.1 := by
  unfold Reader.lift
  cases hp : p c with
  | ok b d =>
    constructor
    · intro h
      cases h
      exact rfl
    · intro h
      cases h
      exact rfl
  | error e d =>
    constructor
    · intro h
      cases h
    · intro h
      cases h

/-- A group encloses a single operand by its first two tokens, which a
closed group has. -/
theorem enclosed?_append {u : List Token} (h : u ≠ []) (close : Token) (r : List Token) :
    enclosed? (u ++ close :: r) = enclosed? (u ++ [close]) := by
  cases u with
  | nil => exact absurd rfl h
  | cons t u =>
    cases u with
    | nil => rfl
    | cons t' u => rfl

/-- **A reader that reads what the relation says**, where it gives a tree
at all. -/
def Faithful (table : OperatorTable) (self : UInt32 → Reader Unit Expr) : Prop :=
  ∀ {min : UInt32} {c : Cursor} {e : Expr} {s : Cursor × Unit},
    self min (c, ()) = .ok e s → ∃ u, c.Takes u s.1 ∧ Reads table min u e s.1.current?

section

variable {self : UInt32 → Reader Unit Expr} {c : Cursor} {e : Expr} {s : Cursor × Unit}

theorem group_sound (hself : Faithful table self) {t : Token} (hc : c.current? = some t)
    (ht : isDelimiter t "(" = true) (h : group table tree self (c, ()) = .ok e s) :
    ∃ u, c.Takes u s.1 ∧ Starts table u e s.1.current? := by
  unfold group at h
  obtain ⟨t', s₁, h₁, h⟩ := Outcome.run_bind_eq_ok.mp h
  obtain ⟨take₁, -⟩ := Parse.accept_eq_ok.mp (lift_eq_ok.mp h₁)
  obtain rfl : t' = t := Option.some.inj (take₁.current?_eq.symm.trans hc)
  obtain ⟨c₁, s₁', hcur, h⟩ := Outcome.run_bind_eq_ok.mp h
  obtain ⟨rfl, rfl⟩ := EStateM.Result.ok.inj hcur
  obtain ⟨inner, s₂, h₂, h⟩ := Outcome.run_bind_eq_ok.mp h
  obtain ⟨u, take₂, hu⟩ := hself h₂
  obtain ⟨close, s₃, h₃, h⟩ := Outcome.run_bind_eq_ok.mp h
  obtain ⟨take₃, hclose⟩ := Parse.accept_eq_ok.mp (lift_eq_ok.mp h₃)
  rw [take₃.current?_eq] at hu
  have take := take₁.trans (take₂.trans take₃)
  -- What the group encloses shows in its first two tokens, and both of
  -- them are taken.
  have henc : enclosed? s₁.1.rest = enclosed? (u ++ [close]) := by
    rw [take₂.rest, take₃.rest]
    exact enclosed?_append hu.ne_nil close s₃.1.rest
  rw [henc] at h
  cases hop : table.cast? with
  | none =>
    rw [hop] at h
    obtain ⟨rfl, rfl⟩ := EStateM.Result.ok.inj h
    refine ⟨_, take, .group ht hu hclose (fun op hsome => ?_)⟩
    rw [hop] at hsome
    cases hsome
  | some op =>
    rw [hop] at h
    obtain ⟨c₃, s₃', hcur, h⟩ := Outcome.run_bind_eq_ok.mp h
    obtain ⟨rfl, rfl⟩ := EStateM.Result.ok.inj hcur
    by_cases hcast : isCast table (enclosed? (u ++ [close])) s₃.1.current? = true
    · rw [if_pos hcast] at h
      obtain ⟨y, s₄, h₄, h⟩ := Outcome.run_bind_eq_ok.mp h
      obtain ⟨v, take₄, hv⟩ := hself h₄
      obtain ⟨rfl, rfl⟩ := EStateM.Result.ok.inj h
      rw [take₄.current?_eq] at hcast
      exact ⟨_, take.trans take₄, .cast ht hu hclose hop hcast hv⟩
    · rw [if_neg hcast] at h
      obtain ⟨rfl, rfl⟩ := EStateM.Result.ok.inj h
      exact ⟨_, take, .group ht hu hclose (fun _ _ => Bool.eq_false_iff.mpr hcast)⟩

theorem operand_sound (hself : Faithful table self)
    (h : operand table tree self (c, ()) = .ok e s) :
    ∃ u, c.Takes u s.1 ∧ Starts table u e s.1.current? := by
  unfold operand at h
  obtain ⟨c', s', hcur, h⟩ := Outcome.run_bind_eq_ok.mp h
  obtain ⟨rfl, rfl⟩ := EStateM.Result.ok.inj hcur
  cases hc : c.current? with
  | none =>
    rw [hc] at h
    cases h
  | some t =>
    rw [hc] at h
    dsimp only at h
    have take := Cursor.takes_advance hc
    by_cases ht : isDelimiter t "(" = true
    · rw [if_pos ht] at h
      exact group_sound hself hc ht h
    rw [if_neg ht] at h
    have ht := Bool.eq_false_iff.mpr ht
    cases hop : (operatorSpelling? t).bind table.nud? with
    | some op =>
      rw [hop] at h
      dsimp only at h
      obtain ⟨_, s₁, hadv, h⟩ := Outcome.run_bind_eq_ok.mp h
      obtain ⟨rfl, rfl⟩ := EStateM.Result.ok.inj hadv
      obtain ⟨x, s₂, h₂, h⟩ := Outcome.run_bind_eq_ok.mp h
      obtain ⟨u, take₂, hu⟩ := hself h₂
      obtain ⟨rfl, rfl⟩ := EStateM.Result.ok.inj h
      exact ⟨_, take.trans take₂, .unary ht hop hu⟩
    | none =>
      rw [hop] at h
      dsimp only at h
      by_cases ho : t.kind.isOperand = true
      · rw [if_pos ho] at h
        obtain ⟨_, s₁, hadv, h⟩ := Outcome.run_bind_eq_ok.mp h
        obtain ⟨rfl, rfl⟩ := EStateM.Result.ok.inj hadv
        obtain ⟨rfl, rfl⟩ := EStateM.Result.ok.inj h
        exact ⟨_, take, .atom ht hop ho⟩
      · rw [if_neg ho] at h
        split at h
        · cases h
        · cases h

theorem enclosure_sound (hself : Faithful table self) {close : String}
    (h : enclosure self close (c, ()) = .ok e s) :
    ∃ u t, c.Takes (u ++ [t]) s.1 ∧ Reads table 0 u e (some t) ∧ t.isPunct close = true := by
  unfold enclosure at h
  obtain ⟨y, s₁, h₁, h⟩ := Outcome.run_bind_eq_ok.mp h
  obtain ⟨u, take₁, hu⟩ := hself h₁
  obtain ⟨t, s₂, h₂, h⟩ := Outcome.run_bind_eq_ok.mp h
  obtain ⟨take₂, ht⟩ := Parse.accept_eq_ok.mp (lift_eq_ok.mp h₂)
  obtain ⟨rfl, rfl⟩ := EStateM.Result.ok.inj h
  rw [take₂.current?_eq] at hu
  exact ⟨u, t, take₁.trans take₂, hu, ht⟩

/-- Operators whose right operand goes to the end are alike. -/
theorem right_sound (hself : Faithful table self) {op : Operator} {power : UInt32} {x : Expr}
    (h : (do
      let right ← self power
      Reader.act (tree.binary op x (some right))) (c, ()) = .ok e s) :
    ∃ u y, c.Takes u s.1 ∧ e = .binary op x y ∧ Reads table power u y s.1.current? := by
  obtain ⟨y, s₁, h₁, h⟩ := Outcome.run_bind_eq_ok.mp h
  obtain ⟨u, take, hu⟩ := hself h₁
  obtain ⟨rfl, rfl⟩ := EStateM.Result.ok.inj h
  exact ⟨u, y, take, rfl, hu⟩

theorem application_sound (hself : Faithful table self) {op : Operator} {x : Expr}
    (h : application tree self op x (c, ()) = .ok e s) :
    ∃ u, c.Takes u s.1 ∧ Applies table op x u e s.1.current? := by
  unfold application at h
  cases hf : op.fixity with
  | infixLeft =>
    rw [hf] at h
    obtain ⟨u, y, take, rfl, hu⟩ := right_sound hself h
    exact ⟨u, take, .infixLeft hf hu⟩
  | infixRight =>
    rw [hf] at h
    obtain ⟨u, y, take, rfl, hu⟩ := right_sound hself h
    exact ⟨u, take, .infixRight (.inl hf) hu⟩
  | cast =>
    rw [hf] at h
    obtain ⟨u, y, take, rfl, hu⟩ := right_sound hself h
    exact ⟨u, take, .infixRight (.inr hf) hu⟩
  | postfixed =>
    rw [hf] at h
    obtain ⟨rfl, rfl⟩ := EStateM.Result.ok.inj h
    exact ⟨[], .refl c, .unary (.inl hf)⟩
  | prefixed =>
    rw [hf] at h
    obtain ⟨rfl, rfl⟩ := EStateM.Result.ok.inj h
    exact ⟨[], .refl c, .unary (.inr hf)⟩
  | bracket close =>
    rw [hf] at h
    obtain ⟨y, s₁, h₁, h⟩ := Outcome.run_bind_eq_ok.mp h
    obtain ⟨u, t, take, hu, ht⟩ := enclosure_sound hself h₁
    obtain ⟨rfl, rfl⟩ := EStateM.Result.ok.inj h
    exact ⟨_, take, .bracket hf hu ht⟩
  | paramList close =>
    rw [hf] at h
    obtain ⟨c', s', hcur, h⟩ := Outcome.run_bind_eq_ok.mp h
    obtain ⟨rfl, rfl⟩ := EStateM.Result.ok.inj hcur
    by_cases hat : c.atPunct close = true
    · rw [if_pos hat] at h
      obtain ⟨_, s₁, hadv, h⟩ := Outcome.run_bind_eq_ok.mp h
      obtain ⟨rfl, rfl⟩ := EStateM.Result.ok.inj hadv
      obtain ⟨rfl, rfl⟩ := EStateM.Result.ok.inj h
      obtain ⟨t, hc, ht⟩ := (Option.any_eq_true _ _).mp hat
      exact ⟨_, Cursor.takes_advance hc, .noParams hf ht⟩
    · rw [if_neg hat] at h
      obtain ⟨y, s₁, h₁, h⟩ := Outcome.run_bind_eq_ok.mp h
      obtain ⟨u, t, take, hu, ht⟩ := enclosure_sound hself h₁
      obtain ⟨rfl, rfl⟩ := EStateM.Result.ok.inj h
      refine ⟨_, take, .paramList hf ?_ hu ht⟩
      -- The list is not closed right away, and its first token is taken.
      obtain ⟨m, take', -⟩ := take.split
      rw [← take'.atPunct_eq hu.ne_nil]
      exact Bool.eq_false_iff.mpr hat

/-- **The climb takes what the relation says.** -/
theorem climb_sound (hself : Faithful table self) {min : UInt32} {n : Nat} {x : Expr}
    (h : climb table tree self min n x (c, ()) = .ok e s) :
    ∃ u, c.Takes u s.1 ∧ Climbs table min x u e s.1.current? := by
  induction n generalizing c x with
  | zero => cases h
  | succ n ih =>
    unfold climb at h
    obtain ⟨c', s', hcur, h⟩ := Outcome.run_bind_eq_ok.mp h
    obtain ⟨rfl, rfl⟩ := EStateM.Result.ok.inj hcur
    cases hcont : continuation table min c.current? with
    | stop =>
      rw [hcont] at h
      obtain ⟨rfl, rfl⟩ := EStateM.Result.ok.inj h
      exact ⟨[], .refl c, .stop hcont⟩
    | unimplemented spelling =>
      rw [hcont] at h
      cases h
    | apply op =>
      rw [hcont] at h
      obtain ⟨_, s₁, hadv, h⟩ := Outcome.run_bind_eq_ok.mp h
      obtain ⟨rfl, rfl⟩ := EStateM.Result.ok.inj hadv
      cases hc : c.current? with
      | none =>
        rw [hc] at hcont
        cases hcont
      | some t =>
        have take := Cursor.takes_advance hc
        obtain ⟨y, s₂, h₂, h⟩ := Outcome.run_bind_eq_ok.mp h
        obtain ⟨u, take₂, hu⟩ := application_sound hself h₂
        obtain ⟨v, take₃, hv⟩ := ih h
        rw [take₃.current?_eq] at hu
        rw [hc] at hcont
        exact ⟨_, (take.trans take₂).trans take₃, .apply hcont hu hv⟩

end

theorem expressionWithin_sound (n : Nat) : Faithful table (expressionWithin table tree n) := by
  induction n with
  | zero =>
    intro min c e s h
    cases h
  | succ n ih =>
    intro min c e s h
    obtain ⟨x, s₁, h₁, h⟩ := Outcome.run_bind_eq_ok.mp h
    obtain ⟨u, take₁, hu⟩ := operand_sound ih h₁
    obtain ⟨v, take₂, hv⟩ := climb_sound ih h
    rw [take₂.current?_eq] at hu
    exact ⟨_, take₁.trans take₂, .intro hu hv⟩

/-- **What is read from a cursor is a reading of the tokens taken.** -/
theorem parse_sound {min : UInt32} {c d : Cursor} {e : Expr} (h : parse table min c = .ok e d) :
    ∃ u, c.Takes u d ∧ Reads table min u e d.current? := by
  unfold parse at h
  split at h
  · next e' s hread =>
    cases h
    exact expressionWithin_sound _ (read_eq_ok.mp hread)
  · cases h

/-! ## The relation says what the reader reads -/

/-- A sign that is next can be taken. -/
theorem lift_punct {t : Token} {spelling : String} {c d : Cursor} (take : c.Takes [t] d)
    (ht : t.isPunct spelling = true) :
    (Reader.lift (Parse.punct spelling) : Reader Unit Token) (c, ()) = .ok t (d, ()) :=
  lift_eq_ok.mpr (Parse.accept_eq_ok.mpr ⟨take, ht⟩)

/-- An opening parenthesis is a sign. -/
theorem isPunct_of_isDelimiter {t : Token} {spelling : String}
    (h : isDelimiter t spelling = true) : t.isPunct spelling = true := by
  obtain ⟨hk, hs⟩ := (Bool.and_eq_true _ _).mp h
  unfold Token.isPunct
  rw [beq_iff_eq.mp hk, hs]
  rfl

/-- A group up to its closing parenthesis, where it remains to be seen
whether it is a cast. -/
theorem operand_group {self : UInt32 → Reader Unit Expr} {c c₁ c₂ c₃ : Cursor}
    {t close : Token} {u : List Token} {x : Expr} (take₁ : c.Takes [t] c₁)
    (ht : isDelimiter t "(" = true) (take₂ : c₁.Takes u c₂) (hu : u ≠ [])
    (hx : self 0 (c₁, ()) = .ok x (c₂, ())) (take₃ : c₂.Takes [close] c₃)
    (hclose : close.isPunct ")" = true) :
    operand table tree self (c, ())
      = (match table.cast? with
        | none => pure x
        | some op => do
          if isCast table (enclosed? (u ++ [close])) (← Reader.cursor).current? then do
            let y ← self op.power
            Reader.act (tree.binary op x (some y))
          else pure x : Reader Unit Expr) (c₃, ()) := by
  have henc : enclosed? c₁.rest = enclosed? (u ++ [close]) := by
    rw [take₂.rest, take₃.rest]
    exact enclosed?_append hu close c₃.rest
  have hc : c.current? = some t := take₁.current?_eq
  have hgroup : operand table tree self (c, ()) = group table tree self (c, ()) := by
    unfold operand
    rw [Outcome.run_bind_of_ok (show Reader.cursor (c, ()) = .ok c (c, ()) from rfl), hc]
    dsimp only
    rw [if_pos ht]
  rw [hgroup]
  unfold group
  rw [Outcome.run_bind_of_ok (lift_punct take₁ (isPunct_of_isDelimiter ht)),
    Outcome.run_bind_of_ok (show Reader.cursor (c₁, ()) = .ok c₁ (c₁, ()) from rfl),
    Outcome.run_bind_of_ok hx, henc]
  exact Outcome.run_bind_of_ok (lift_punct take₃ hclose)

mutual

/-- **A reading is what the reader gives.** -/
theorem Reads.run : ∀ {min : UInt32} {u : List Token} {e : Expr} {next : Option Token},
    Reads table min u e next → ∀ {c d : Cursor}, c.Takes u d → d.current? = next →
      expression table tree min (c, ()) = .ok e (d, ())
  | _, _, _, _, .intro (u := u) hs hc, c, d, take, hnext => by
    obtain ⟨m, take₁, take₂⟩ := take.split
    have hlen := take₁.length_eq
    have hm : m.current? = _ := hnext ▸ take₂.current?_eq
    have hbound : m.rest.length < c.rest.length + 1 := by omega
    rw [expression_eq]
    exact Outcome.run_bind_eq_ok.mpr ⟨_, (m, ()), hs.run take₁ hm, hc.run take₂ hnext hbound⟩

theorem Starts.run : ∀ {u : List Token} {x : Expr} {next : Option Token},
    Starts table u x next → ∀ {c d : Cursor}, c.Takes u d → d.current? = next →
      operand table tree (expression table tree) (c, ()) = .ok x (d, ())
  | _, _, _, .atom (t := t) hd hn ho, c, d, take, hnext => by
    obtain ⟨hc, take⟩ := take.uncons
    obtain rfl := take.eq_of_nil
    refine Outcome.run_bind_eq_ok.mpr ⟨c, (c, ()), rfl, ?_⟩
    rw [hc]
    dsimp only
    rw [if_neg (Bool.eq_false_iff.mp hd), hn]
    dsimp only
    rw [if_pos ho]
    rfl
  | _, _, _, .unary (t := t) hd hop hr, c, d, take, hnext => by
    obtain ⟨hc, take'⟩ := take.uncons
    refine Outcome.run_bind_eq_ok.mpr ⟨c, (c, ()), rfl, ?_⟩
    rw [hc]
    dsimp only
    rw [if_neg (Bool.eq_false_iff.mp hd), hop]
    refine Outcome.run_bind_eq_ok.mpr ⟨(), (c.advance, ()), rfl, ?_⟩
    exact Outcome.run_bind_eq_ok.mpr ⟨_, (d, ()), hr.run take' hnext, rfl⟩
  | _, _, _, .group hd hr hclose hcast, c, d, take, hnext => by
    obtain ⟨hc, take'⟩ := take.uncons
    obtain ⟨m, take₂, take₃⟩ := take'.split
    have take₁ := Cursor.takes_advance hc
    rw [operand_group take₁ hd take₂ hr.ne_nil (hr.run take₂ take₃.current?_eq) take₃ hclose]
    cases hop : table.cast? with
    | none => rfl
    | some op =>
      refine Outcome.run_bind_eq_ok.mpr ⟨d, (d, ()), rfl, ?_⟩
      rw [hnext, if_neg (Bool.eq_false_iff.mp (hcast op hop))]
      rfl
  | _, _, _, .cast hd hr hclose hop hcast hv, c, d, take, hnext => by
    obtain ⟨m₃, take', take₄⟩ := take.split
    obtain ⟨hc, take'⟩ := take'.uncons
    obtain ⟨m₂, take₂, take₃⟩ := take'.split
    have take₁ := Cursor.takes_advance hc
    have hnext₃ : m₃.current? = _ := hnext ▸ take₄.current?_eq
    rw [operand_group take₁ hd take₂ hr.ne_nil (hr.run take₂ take₃.current?_eq) take₃ hclose,
      hop]
    refine Outcome.run_bind_eq_ok.mpr ⟨m₃, (m₃, ()), rfl, ?_⟩
    rw [hnext₃, if_pos hcast]
    exact Outcome.run_bind_eq_ok.mpr ⟨_, (d, ()), hv.run take₄ hnext, rfl⟩

theorem Climbs.run : ∀ {min : UInt32} {x : Expr} {u : List Token} {e : Expr}
    {next : Option Token}, Climbs table min x u e next →
      ∀ {n : Nat} {c d : Cursor}, c.Takes u d → d.current? = next → c.rest.length < n →
      climb table tree (expression table tree) min n x (c, ()) = .ok e (d, ())
  | _, _, _, _, _, .stop hstop, n, c, d, take, hnext, hn => by
    obtain rfl := take.eq_of_nil
    cases n with
    | zero => exact absurd hn (Nat.not_lt_zero _)
    | succ n =>
      refine Outcome.run_bind_eq_ok.mpr ⟨c, (c, ()), rfl, ?_⟩
      rw [hnext, hstop]
      rfl
  | _, _, _, _, _, .apply hop ha hc, n, c, d, take, hnext, hn => by
    obtain ⟨m₁, take₁, take₃⟩ := take.split
    obtain ⟨hcur, take₂⟩ := take₁.uncons
    have hlen := Cursor.length_advance hcur
    have hlen₂ := take₂.length_eq
    have hnext₁ : m₁.current? = _ := hnext ▸ take₃.current?_eq
    cases n with
    | zero => exact absurd hn (Nat.not_lt_zero _)
    | succ n =>
      refine Outcome.run_bind_eq_ok.mpr ⟨c, (c, ()), rfl, ?_⟩
      rw [hcur, hop]
      refine Outcome.run_bind_eq_ok.mpr ⟨(), (c.advance, ()), rfl, ?_⟩
      exact Outcome.run_bind_eq_ok.mpr ⟨_, (m₁, ()), ha.run take₂ hnext₁,
        hc.run take₃ hnext (by omega)⟩

theorem Applies.run : ∀ {op : Operator} {x : Expr} {u : List Token} {y : Expr}
    {next : Option Token}, Applies table op x u y next →
      ∀ {c d : Cursor}, c.Takes u d → d.current? = next →
      application tree (expression table tree) op x (c, ()) = .ok y (d, ())
  | _, _, _, _, _, .infixLeft hf hr, c, d, take, hnext => by
    unfold application
    rw [hf]
    exact Outcome.run_bind_eq_ok.mpr ⟨_, (d, ()), hr.run take hnext, rfl⟩
  | _, _, _, _, _, .infixRight hf hr, c, d, take, hnext => by
    unfold application
    rcases hf with hf | hf
    · rw [hf]
      exact Outcome.run_bind_eq_ok.mpr ⟨_, (d, ()), hr.run take hnext, rfl⟩
    · rw [hf]
      exact Outcome.run_bind_eq_ok.mpr ⟨_, (d, ()), hr.run take hnext, rfl⟩
  | _, _, _, _, _, .unary hf, c, d, take, hnext => by
    obtain rfl := take.eq_of_nil
    unfold application
    rcases hf with hf | hf
    · rw [hf]
      rfl
    · rw [hf]
      rfl
  | _, _, _, _, _, .bracket hf hr ht, c, d, take, hnext => by
    obtain ⟨m, take₁, take₂⟩ := take.split
    unfold application
    rw [hf]
    refine Outcome.run_bind_eq_ok.mpr ⟨_, (d, ()), ?_, rfl⟩
    refine Outcome.run_bind_eq_ok.mpr ⟨_, (m, ()), hr.run take₁ take₂.current?_eq, ?_⟩
    exact Outcome.run_bind_eq_ok.mpr ⟨_, (d, ()), lift_punct take₂ ht, rfl⟩
  | _, _, _, _, _, .paramList hf hu hr ht, c, d, take, hnext => by
    obtain ⟨m, take₁, take₂⟩ := take.split
    have hat := (take₁.atPunct_eq hr.ne_nil _).trans hu
    unfold application
    rw [hf]
    refine Outcome.run_bind_eq_ok.mpr ⟨c, (c, ()), rfl, ?_⟩
    rw [if_neg (Bool.eq_false_iff.mp hat)]
    refine Outcome.run_bind_eq_ok.mpr ⟨_, (d, ()), ?_, rfl⟩
    refine Outcome.run_bind_eq_ok.mpr ⟨_, (m, ()), hr.run take₁ take₂.current?_eq, ?_⟩
    exact Outcome.run_bind_eq_ok.mpr ⟨_, (d, ()), lift_punct take₂ ht, rfl⟩
  | _, _, _, _, _, .noParams hf ht, c, d, take, hnext => by
    have hat := (take.atPunct_eq (List.cons_ne_nil _ _) _).trans ht
    obtain ⟨-, take'⟩ := take.uncons
    obtain rfl := take'.eq_of_nil
    unfold application
    rw [hf]
    refine Outcome.run_bind_eq_ok.mpr ⟨c, (c, ()), rfl, ?_⟩
    rw [if_pos hat]
    exact Outcome.run_bind_eq_ok.mpr ⟨(), (c.advance, ()), rfl, rfl⟩

end

/-- **A reading of the tokens taken is what is read from a cursor.** -/
theorem Reads.parse_eq {min : UInt32} {u : List Token} {e : Expr} {c d : Cursor}
    (h : Reads table min u e d.current?) (take : c.Takes u d) :
    parse table min c = .ok e d := by
  have hread : read table tree min (c, ()) = .ok e (d, ()) :=
    read_eq_ok.mpr (h.run take rfl)
  unfold parse
  rw [hread]

/-- **What is read from a stretch of tokens is read from that stretch by
itself**, whatever came after it. -/
theorem parse_alone {min : UInt32} {c d : Cursor} {e : Expr} {u : List Token}
    (h : parse table min c = .ok e d) (take : c.Takes u d) (finish : Position) :
    parse table min ⟨u, finish⟩ = .ok e ⟨[], finish⟩ := by
  obtain ⟨u', take', hu⟩ := parse_sound h
  obtain rfl : u = u' := List.append_cancel_right (take.rest.symm.trans take'.rest)
  exact Reads.parse_eq hu.alone ⟨(List.append_nil u).symm, rfl⟩

end Descent.Expr
