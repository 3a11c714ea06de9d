import Descent.Proofs.Expr.Bound
import Descent.Proofs.Expr.Chain

/-!
# What expressions start with

Whoever has to choose between an expression and something else looks at
the next token and asks `startsAt`. The reader of expressions does not ask.
It makes its own distinctions, between groups, prefix operators and
operands, and the two were written apart. They agree for every table
(`startsAt_agrees`), keywords aside: **where an expression can start the
reader takes the token, and where none can it fails on the spot.** A token
that is taken stays taken. Nothing that comes later gives it back, and a
failure further on tells of the place it happens at (`Forward`).

A group is more than what it encloses: it may be a cast, and then what
follows is read as its operand. The token behind the group decides, and an
operator that joins the group to what follows is not meant to be cast. So
parentheses around an operand should make no difference before such an
operator, and mostly they make none (`parse_parenthesized`). But a keyword
is cast whatever else it may be, and so is a sum or a difference behind a
primitive type (`parse_parenthesized_cast`).
-/

namespace Descent

/-- **A failure at a cursor** tells of the token that is next there. -/
inductive Cursor.FailsWith (c : Cursor) : ParseError → Prop
  | expected (what : String) : c.FailsWith (c.expected what)
  | unimplemented (spelling : String) : c.FailsWith (c.unimplemented spelling)

/-- From one cursor to the other at least so many tokens are taken. -/
def Cursor.Passes (c : Cursor) (least : Nat) (d : Cursor) : Prop :=
  ∃ u, least ≤ u.length ∧ c.Takes u d

theorem Cursor.Passes.trans {c d e : Cursor} {j k : Nat} (h : c.Passes j d) (h' : d.Passes k e) :
    c.Passes j e := by
  obtain ⟨u, hu, take⟩ := h
  obtain ⟨v, -, take'⟩ := h'
  refine ⟨u ++ v, ?_, take.trans take'⟩
  rw [List.length_append]
  exact Nat.le_add_right_of_le hu

theorem Cursor.passes_refl (c : Cursor) : c.Passes 0 c := ⟨[], Nat.le_refl _, .refl c⟩

namespace Expr

variable {σ α β γ : Type} {table : OperatorTable} {actions : Actions σ α}

/-! ## Going forward -/

/-- **A reader that goes forward** from here: however it ends, it has taken
at least so many tokens from the front, and if it fails, it fails where it
stands. -/
def Forward (least : Nat) (x : Reader σ β) (s : Cursor × σ) : Prop :=
  Outcome.Ends x s (fun _ t => s.1.Passes least t.1)
    (fun stop t => s.1.Passes least t.1 ∧ ∀ e, stop = .failed e → t.1.FailsWith e)

theorem Forward.of_run_eq {k : Nat} {x y : Reader σ β} {s : Cursor × σ} (h : Forward k x s)
    (hy : y s = x s) : Forward k y s := by
  unfold Forward Outcome.Ends
  rw [hy]
  exact h

theorem Forward.weaken {k : Nat} {x : Reader σ β} {s : Cursor × σ} (h : Forward k x s) :
    Forward 0 x s := by
  refine h.mono ?_ ?_
  · rintro _ t ⟨u, -, take⟩
    exact ⟨u, Nat.zero_le _, take⟩
  · rintro stop t ⟨⟨u, -, take⟩, hfails⟩
    exact ⟨⟨u, Nat.zero_le _, take⟩, hfails⟩

/-- What is taken by the first step stays taken. -/
theorem Forward.bind {k : Nat} {x : Reader σ β} {f : β → Reader σ γ} {s : Cursor × σ}
    (h : Forward k x s) (hf : ∀ a t, Forward 0 (f a) t) : Forward k (x >>= f) s := by
  refine Outcome.Ends.bind h (fun a t ht => ?_) (fun _ _ => id)
  refine (hf a t).mono (fun _ _ hu => ht.trans hu) ?_
  rintro stop u ⟨hu, hfails⟩
  exact ⟨ht.trans hu, hfails⟩

/-- Failing without taking anything. -/
theorem Forward.of_failed {x : Reader σ β} {s : Cursor × σ} {e : ParseError}
    (hx : x s = .error (.failed e) s) (he : s.1.FailsWith e) : Forward 0 x s := by
  unfold Forward Outcome.Ends
  rw [hx]
  refine ⟨s.1.passes_refl, fun e' h => ?_⟩
  cases h
  exact he

section Steps

variable {s : Cursor × σ}

theorem forward_pure (b : β) (s : Cursor × σ) : Forward 0 (pure b) s := s.1.passes_refl

theorem forward_act (m : StateM σ β) (s : Cursor × σ) : Forward 0 (Reader.act m) s :=
  s.1.passes_refl

theorem forward_fail {error : Cursor → ParseError} (h : ∀ c : Cursor, c.FailsWith (error c))
    (s : Cursor × σ) : Forward 0 (Reader.fail error : Reader σ β) s :=
  .of_failed rfl (h s.1)

theorem forward_unfinished (s : Cursor × σ) : Forward 0 (throw .unfinished : Reader σ β) s :=
  ⟨s.1.passes_refl, nofun⟩

/-- Looking where the reader stands, and going on from what is seen. -/
theorem forward_cursor {k : Nat} {f : Cursor → Reader σ β} (h : Forward k (f s.1) s) :
    Forward k (Reader.cursor >>= f) s := h

theorem forward_advance {t : Token} (h : s.1.current? = some t) :
    Forward 1 (Reader.advance : Reader σ Unit) s :=
  ⟨[t], Nat.le_refl _, Cursor.takes_advance h⟩

/-- A sign that is next is taken. -/
theorem forward_punct_of_next {spelling : String} (h : s.1.atPunct spelling = true) :
    Forward 1 (Reader.lift (Parse.punct spelling) : Reader σ Token) s := by
  obtain ⟨t, ht, hpunct⟩ := (Option.any_eq_true _ _).mp h
  have take := Cursor.takes_advance ht
  have hrun : Parse.punct spelling s.1 = .ok t s.1.advance :=
    Parse.accept_eq_ok.mpr ⟨take, hpunct⟩
  unfold Forward Outcome.Ends Reader.lift
  rw [hrun]
  exact ⟨[t], Nat.le_refl _, take⟩

/-- Asking for a sign takes it or fails. -/
theorem forward_punct (spelling : String) (s : Cursor × σ) :
    Forward 0 (Reader.lift (Parse.punct spelling) : Reader σ Token) s := by
  cases h : s.1.atPunct spelling with
  | true => exact (forward_punct_of_next h).weaken
  | false =>
    have hrun : Parse.punct spelling s.1 = .error (s.1.expected _) s.1 := Parse.accept_of_not h
    have hlift : (Reader.lift (Parse.punct spelling) : Reader σ Token) s
        = .error (.failed (s.1.expected ("`" ++ spelling ++ "`"))) s := by
      unfold Reader.lift
      rw [hrun]
    exact .of_failed hlift (.expected _)

end Steps

/-! ## What the reader takes -/

/-- **Whether the reader takes a token** where an expression is due: a
parenthesis, an operator that stands before its operand, or a token that is
an operand by itself. -/
def begins (table : OperatorTable) (t : Token) : Bool :=
  isDelimiter t "(" || ((operatorSpelling? t).bind table.nud?).isSome || t.kind.isOperand

/-- **Any other token makes the reader fail on the spot**, and so does the
end of the text. -/
theorem operand_of_not_begins {self : UInt32 → Reader σ α} {s : Cursor × σ}
    (h : s.1.current?.any (begins table) = false) :
    ∃ e, s.1.FailsWith e ∧ operand table actions self s = .error (.failed e) s := by
  unfold operand
  rw [Outcome.run_bind_of_ok (show Reader.cursor s = .ok s.1 s from rfl)]
  cases hc : s.1.current? with
  | none => exact ⟨_, .expected _, rfl⟩
  | some t =>
    rw [hc] at h
    have hbegins : begins table t = false := h
    obtain ⟨hfirst, hoperand⟩ := Bool.or_eq_false_iff.mp hbegins
    obtain ⟨hdelimiter, hnud⟩ := Bool.or_eq_false_iff.mp hfirst
    dsimp only
    rw [if_neg (Bool.eq_false_iff.mp hdelimiter),
      Option.isNone_iff_eq_none.mp (Option.isSome_eq_false_iff.mp hnud)]
    dsimp only
    rw [if_neg (Bool.eq_false_iff.mp hoperand)]
    split
    · exact ⟨_, .unimplemented _, rfl⟩
    · exact ⟨_, .expected _, rfl⟩

section Readers

variable {self : UInt32 → Reader σ α} (hself : ∀ min s, Forward 0 (self min) s)
  {s : Cursor × σ}

include hself

theorem forward_group (h : s.1.atPunct "(" = true) :
    Forward 1 (group table actions self) s := by
  unfold group
  refine (forward_punct_of_next h).bind fun _ s₁ => forward_cursor ?_
  refine (hself 0 s₁).bind fun inner s₂ => (forward_punct ")" s₂).bind fun _ s₃ => ?_
  cases table.cast? with
  | none => exact forward_pure inner s₃
  | some cast =>
    refine forward_cursor ?_
    split
    · exact (hself cast.power s₃).bind fun _ s₄ => forward_act _ s₄
    · exact forward_pure inner s₃

/-- **A token that can begin an expression is taken**, whatever comes
after it. -/
theorem forward_operand_of_begins (h : s.1.current?.any (begins table) = true) :
    Forward 1 (operand table actions self) s := by
  obtain ⟨t, hc, hbegins⟩ := (Option.any_eq_true _ _).mp h
  unfold operand
  refine forward_cursor ?_
  rw [hc]
  dsimp only
  by_cases hdelimiter : isDelimiter t "(" = true
  · rw [if_pos hdelimiter]
    refine forward_group hself ?_
    unfold Cursor.atPunct
    rw [hc]
    exact isPunct_of_isDelimiter hdelimiter
  rw [if_neg hdelimiter]
  cases hop : (operatorSpelling? t).bind table.nud? with
  | some op =>
    exact (forward_advance hc).bind fun _ s₁ => (hself op.power s₁).bind fun _ s₂ =>
      forward_act _ s₂
  | none =>
    have hoperand : t.kind.isOperand = true := by
      unfold begins at hbegins
      rw [Bool.eq_false_iff.mpr hdelimiter, hop] at hbegins
      exact hbegins
    dsimp only
    rw [if_pos hoperand]
    exact (forward_advance hc).bind fun _ s₁ => forward_act _ s₁

theorem forward_operand (s : Cursor × σ) : Forward 0 (operand table actions self) s := by
  cases h : s.1.current?.any (begins table) with
  | true => exact (forward_operand_of_begins hself h).weaken
  | false =>
    obtain ⟨e, hfails, hrun⟩ : ∃ e, s.1.FailsWith e
        ∧ operand table actions self s = .error (.failed e) s := operand_of_not_begins h
    exact .of_failed hrun hfails

theorem forward_enclosure (close : String) (s : Cursor × σ) :
    Forward 0 (enclosure self close) s := by
  unfold enclosure
  exact (hself 0 s).bind fun inner s₁ => (forward_punct close s₁).bind fun _ s₂ =>
    forward_pure inner s₂

theorem forward_application (op : Operator) (left : α) (s : Cursor × σ) :
    Forward 0 (application actions self op left) s := by
  unfold application
  cases op.fixity with
  | infixLeft => exact (hself _ s).bind fun _ s₁ => forward_act _ s₁
  | infixRight => exact (hself _ s).bind fun _ s₁ => forward_act _ s₁
  | cast => exact (hself _ s).bind fun _ s₁ => forward_act _ s₁
  | postfixed => exact forward_act _ s
  | prefixed => exact forward_act _ s
  | bracket close => exact (forward_enclosure hself close s).bind fun _ s₁ => forward_act _ s₁
  | paramList close =>
    refine forward_cursor ?_
    by_cases hclose : s.1.atPunct close = true
    · rw [if_pos hclose]
      obtain ⟨t, ht, -⟩ := (Option.any_eq_true _ _).mp hclose
      exact ((forward_advance ht).bind fun _ s₁ => forward_act _ s₁).weaken
    · rw [if_neg hclose]
      exact (forward_enclosure hself close s).bind fun _ s₁ => forward_act _ s₁

theorem forward_climb (min : UInt32) (n : Nat) (left : α) (s : Cursor × σ) :
    Forward 0 (climb table actions self min n left) s := by
  induction n generalizing left s with
  | zero => exact forward_unfinished s
  | succ n ih =>
    unfold climb
    refine forward_cursor ?_
    cases hc : s.1.current? with
    | none => exact forward_pure left s
    | some t =>
      cases continuation table min (some t) with
      | stop => exact forward_pure left s
      | unimplemented spelling => exact forward_fail (fun _ => .unimplemented _) s
      | apply op =>
        refine ((forward_advance hc).bind fun _ s₁ => ?_).weaken
        exact (forward_application hself op left s₁).bind fun joined s₂ => ih joined s₂

end Readers

theorem forward_expressionWithin (n : Nat) (min : UInt32) (s : Cursor × σ) :
    Forward 0 (expressionWithin table actions n min) s := by
  induction n generalizing min s with
  | zero => exact forward_unfinished s
  | succ n ih => exact (forward_operand ih s).bind fun left t => forward_climb ih min n left t

/-- **Expressions are read forward**, to the end or to a failure. -/
theorem forward_expression (min : UInt32) (s : Cursor × σ) :
    Forward 0 (expression table actions min) s :=
  forward_expressionWithin (s.1.rest.length + 1) min s

/-- **A token that can begin an expression is taken**, also where the
expression fails later. -/
theorem forward_expression_of_begins {min : UInt32} {s : Cursor × σ}
    (h : s.1.current?.any (begins table) = true) :
    Forward 1 (expression table actions min) s := by
  have hself : ∀ min t, Forward 0 (expression table actions min) t := forward_expression
  refine Forward.of_run_eq ?_ (expression_eq min s)
  exact (forward_operand_of_begins hself h).bind fun left t =>
    forward_climb hself min (s.1.rest.length + 1) left t

/-- What comes of an expression is taken from the front, and a failure is
met where the reader stands. -/
theorem Forward.read {k : Nat} {min : UInt32} {s : Cursor × σ}
    (h : Forward k (expression table actions min) s) :
    Outcome.Ends (read table actions min) s (fun _ t => s.1.Passes k t.1)
      (fun e t => s.1.Passes k t.1 ∧ t.1.FailsWith e) := by
  refine Outcome.ends_iff.mpr ⟨fun a t ha => h.of_ok (read_eq_ok.mp ha), fun e t he => ?_⟩
  obtain ⟨hpasses, hfails⟩ := h.of_error (read_eq_error.mp he)
  exact ⟨hpasses, hfails e rfl⟩

/-- Reading a tree ends as the reader does. -/
theorem ends_parse {min : UInt32} {c : Cursor} {P : Expr → Cursor → Prop}
    {Q : ParseError → Cursor → Prop} :
    Outcome.Ends (parse table min) c P Q
      ↔ Outcome.Ends (read table tree min) (c, ()) (fun e s => P e s.1) (fun e s => Q e s.1) := by
  unfold Outcome.Ends parse
  cases read table tree min (c, ()) with
  | ok e s => rfl
  | error e s => rfl

/-- A tree is read, or the reading fails, with that token taken. -/
theorem parse_of_begins {min : UInt32} {c : Cursor} (h : c.current?.any (begins table) = true) :
    Outcome.Ends (parse table min) c (fun _ d => c.Passes 1 d) (fun _ d => c.Passes 1 d) := by
  have hforward : Forward 1 (expression table tree min) (c, ()) := forward_expression_of_begins h
  exact ends_parse.mpr (hforward.read.mono (fun _ _ => id) fun _ _ => And.left)

theorem parse_of_not_begins {min : UInt32} {c : Cursor}
    (h : c.current?.any (begins table) = false) : ∃ e, parse table min c = .error e c := by
  obtain ⟨e, -, hrun⟩ : ∃ e, c.FailsWith e
      ∧ operand table tree (expression table tree) (c, ()) = .error (.failed e) (c, ()) :=
    operand_of_not_begins (s := (c, ())) h
  have hread : read table tree min (c, ()) = .error e (c, ()) := by
    rw [read_eq_error, expression_eq]
    exact Outcome.run_bind_of_error hrun
  refine ⟨e, ?_⟩
  unfold parse
  rw [hread]

/-! ## Where an expression can start -/

/-- **An expression can start at the tokens that the reader takes**, apart
from keywords. -/
theorem startsAt_eq (c : Cursor) :
    startsAt table c = c.current?.any fun t => t.kind != .reserved && begins table t := by
  unfold startsAt
  congr 1
  funext t
  obtain ⟨kind, spelling, position⟩ := t
  cases kind with
  | delimiter => exact (Bool.or_false _).symm
  | operator => exact (Bool.or_false _).symm
  | _ => rfl

/-- **Whether an expression can start is what the reader makes of it.**
Where the next token is no keyword: if an expression can start there, the
reader takes that token, whether it then reads an expression or fails; if
none can, or the text is at its end, the reader fails and stays where it
is. At a keyword no expression can start, although the reader takes a
keyword that is no operator for an operand. -/
theorem startsAt_agrees (table : OperatorTable) (min : UInt32) (c : Cursor) :
    ((∀ t ∈ c.current?, t.kind ≠ .reserved) →
      (startsAt table c = true → Outcome.Ends (parse table min) c
        (fun _ d => c.Passes 1 d) (fun _ d => c.Passes 1 d))
      ∧ (startsAt table c = false → ∃ e, parse table min c = .error e c))
    ∧ ∀ t ∈ c.current?, t.kind = .reserved → startsAt table c = false
      ∧ (table.nud? t.spelling = none →
        parse table min ⟨[t], c.finish⟩ = .ok (.atom .reserved t.spelling) ⟨[], c.finish⟩) := by
  refine ⟨fun hkind => ?_, fun t ht hkind => ⟨?_, fun hnud => ?_⟩⟩
  · have hstarts : startsAt table c = c.current?.any (begins table) := by
      rw [startsAt_eq]
      cases hc : c.current? with
      | none => rfl
      | some t =>
        show (t.kind != .reserved && begins table t) = begins table t
        rw [bne_iff_ne.mpr (hkind t hc), Bool.true_and]
    rw [hstarts]
    exact ⟨parse_of_begins, parse_of_not_begins⟩
  · rw [startsAt_eq, Option.mem_def.mp ht]
    show (t.kind != .reserved && begins table t) = false
    rw [hkind]
    rfl
  · have hoperand : t.kind.isOperand = true := by
      rw [hkind]
      rfl
    have hreads : Reads table min [t] (.atom t.kind t.spelling) none :=
      Operand.reads ⟨t, hoperand, hnud⟩ (.stop rfl)
    rw [hkind] at hreads
    exact Reads.parse_eq hreads ⟨rfl, rfl⟩

/-- A bracket before its operand, a sum and a negation in words. -/
def bracketed : OperatorTable :=
  .insertAll .empty [.prefixed "[" 1 5, .infixLeft "+" 2 4, .prefixed "not" 3 6]

/-- The tokens of `[ ( ;`. -/
def openTokens : List Token :=
  [⟨.delimiter, "[", .start⟩, ⟨.delimiter, "(", .start⟩, ⟨.delimiter, ";", .start⟩]

/-- The tokens of `+ a`. -/
def plusTokens : List Token := [⟨.operator, "+", .start⟩, ⟨.identifier, "a", .start⟩]

/-- With a bracket as a prefix operator, `[ ( ;` fails with at least the
bracket taken. Before `+ a` nothing is taken, and the keyword `true` is read
although no expression can start there. -/
theorem startsAt_agrees_bracketed :
    startsAt bracketed ⟨openTokens, .start⟩ = true
      ∧ Outcome.Ends (parse bracketed 0) ⟨openTokens, .start⟩
        (fun _ d => Cursor.Passes ⟨openTokens, .start⟩ 1 d)
        (fun _ d => Cursor.Passes ⟨openTokens, .start⟩ 1 d)
      ∧ startsAt bracketed ⟨plusTokens, .start⟩ = false
      ∧ (∃ e, parse bracketed 0 ⟨plusTokens, .start⟩ = .error e ⟨plusTokens, .start⟩)
      ∧ startsAt bracketed ⟨[⟨.reserved, "true", .start⟩], .start⟩ = false
      ∧ parse bracketed 0 ⟨[⟨.reserved, "true", .start⟩], .start⟩
        = .ok (.atom .reserved "true") ⟨[], .start⟩ := by
  have hopen := (startsAt_agrees bracketed 0 ⟨openTokens, .start⟩).1 (by decide)
  have hplus := (startsAt_agrees bracketed 0 ⟨plusTokens, .start⟩).1 (by decide)
  obtain ⟨hkeyword, htrue⟩ :=
    (startsAt_agrees bracketed 0 ⟨[⟨.reserved, "true", .start⟩], .start⟩).2 _ rfl rfl
  exact ⟨rfl, hopen.1 rfl, rfl, hplus.2 rfl, hkeyword, htrue rfl⟩

/-! ## Parentheses around an operand -/

theorem Operand.operand_eq (a : Operand table) (self : UInt32 → Reader Unit Expr)
    (r : List Token) (finish : Position) :
    operand table tree self (⟨a.token :: r, finish⟩, ()) = .ok a.atom (⟨r, finish⟩, ()) := by
  show (if isDelimiter a.token "(" = true then _ else _ : Reader Unit Expr) _ = _
  rw [if_neg (Bool.eq_false_iff.mp (a.not_isDelimiter "(")), a.bind_nud?]
  dsimp only
  rw [if_pos a.isOperand]
  rfl

/-- **An operator behind a group casts nothing**, unless it is a keyword, or
a sign behind the name of a primitive type. -/
theorem isCast_of_led {t : Token} {op : Operator} {name : String}
    (hled : (operatorSpelling? t).bind table.led? = some op) (hnud : table.nud? t.spelling = none)
    (hkind : t.kind ≠ .reserved)
    (hsign : t.spelling = "+" ∨ t.spelling = "-" → table.isPrimitive name = false) :
    isCast table (some name) (some t) = false := by
  obtain ⟨kind, spelling, position⟩ := t
  have hsigns : (if spelling = "+" ∨ spelling = "-" then table.isPrimitive name
      else (table.nud? spelling).isSome) = false := by
    split
    · next h => exact hsign h
    · exact Option.isSome_eq_false_iff.mpr (Option.isNone_iff_eq_none.mpr hnud)
  cases kind with
  | operator => exact hsigns
  | delimiter => exact hsigns
  | reserved => exact absurd rfl hkind
  | _ => cases hled

/-- A delimiter that is no operator ends every expression. -/
theorem continuation_of_delimiter {t : Token} {spelling : String}
    (h : isDelimiter t spelling = true) (hled : table.led? spelling = none) (min : UInt32) :
    continuation table min (some t) = .stop := by
  obtain ⟨kind, spelling', position⟩ := t
  obtain ⟨hkind, hspelling⟩ := (Bool.and_eq_true _ _).mp h
  obtain rfl : kind = .delimiter := beq_iff_eq.mp hkind
  obtain rfl : spelling' = spelling := beq_iff_eq.mp hspelling
  unfold continuation
  dsimp only [operatorSpelling?]
  rw [hled]
  rfl

/-- **A group around an operand is that operand** if it casts nothing. -/
theorem Operand.operand_group_eq (a : Operand table) {opening closing : Token}
    (hopening : isDelimiter opening "(" = true) (hclosing : isDelimiter closing ")" = true)
    (hclose : table.led? ")" = none) {r : List Token}
    (hcast : table.cast? = none ∨ isCast table (some a.token.spelling) r.head? = false)
    (finish : Position) :
    operand table tree (expression table tree) (⟨opening :: a.token :: closing :: r, finish⟩, ())
      = .ok a.atom (⟨r, finish⟩, ()) := by
  have hstop := continuation_of_delimiter hclosing hclose 0
  have htake₁ : Cursor.Takes ⟨opening :: a.token :: closing :: r, finish⟩ [opening]
    ⟨a.token :: closing :: r, finish⟩ := ⟨rfl, rfl⟩
  have htake₂ : Cursor.Takes ⟨a.token :: closing :: r, finish⟩ [a.token]
    ⟨closing :: r, finish⟩ := ⟨rfl, rfl⟩
  have htake₃ : Cursor.Takes ⟨closing :: r, finish⟩ [closing] ⟨r, finish⟩ := ⟨rfl, rfl⟩
  have hinner : expression table tree 0 (⟨a.token :: closing :: r, finish⟩, ())
      = .ok a.atom (⟨closing :: r, finish⟩, ()) :=
    (a.reads (.stop hstop)).run htake₂ rfl
  have henclosed : enclosed? ([a.token] ++ [closing]) = some a.token.spelling := by
    show (if a.token.kind.isOperand && isDelimiter closing ")" then _ else _) = _
    rw [a.isOperand, hclosing]
    rfl
  rw [operand_group htake₁ hopening htake₂ (List.cons_ne_nil _ _) hinner htake₃
    (isPunct_of_isDelimiter hclosing), henclosed]
  cases hop : table.cast? with
  | none => rfl
  | some op =>
    have hquiet : isCast table (some a.token.spelling) r.head? = false := by
      rcases hcast with hnone | hquiet
      · rw [hop] at hnone
        cases hnone
      · exact hquiet
    show (if isCast table (some a.token.spelling) r.head? = true then _ else _ :
      Reader Unit Expr) _ = _
    rw [if_neg (Bool.eq_false_iff.mp hquiet)]
    rfl

/-- **Parentheses around an operand make no difference** to an operator
behind them: the same tree is read and the same tokens are left, or the same
failure is met. With casts in the table, the operator must not be a keyword,
nor a plus or a minus behind a primitive type. -/
theorem parse_parenthesized (a : Operand table) {opening closing t : Token} {op : Operator}
    (hopening : isDelimiter opening "(" = true) (hclosing : isDelimiter closing ")" = true)
    (hclose : table.led? ")" = none)
    (hled : (operatorSpelling? t).bind table.led? = some op) (hnud : table.nud? t.spelling = none)
    (hcast : table.cast? = none ∨ t.kind ≠ .reserved
      ∧ (t.spelling = "+" ∨ t.spelling = "-" → table.isPrimitive a.token.spelling = false))
    (min : UInt32) (r : List Token) (finish : Position) :
    parse table min ⟨opening :: a.token :: closing :: t :: r, finish⟩
      = parse table min ⟨a.token :: t :: r, finish⟩ := by
  have hquiet : table.cast? = none
      ∨ isCast table (some a.token.spelling) (t :: r).head? = false :=
    hcast.imp_right fun h => isCast_of_led hled hnud h.1 h.2
  have hgroup := a.operand_group_eq hopening hclosing hclose hquiet finish
  have hbare := a.operand_eq (expression table tree) (t :: r) finish
  -- Both readings go on from the same operand at the same place.
  have hexpression : expression table tree min
        (⟨opening :: a.token :: closing :: t :: r, finish⟩, ())
      = expression table tree min (⟨a.token :: t :: r, finish⟩, ()) := by
    rw [expression_of_operand hgroup, expression_of_operand hbare]
  unfold parse read
  simp only [hexpression]

/-- A sum, a conjunction in words, and casts. -/
def joined : OperatorTable :=
  .insertAll .empty [.infixLeft "+" 21 11, .infixLeft "and" 40 4, .cast 36 14,
    .primitives ["int"]]

/-- The text `( name ) t b`. -/
def behindGroup (name : String) (t : Token) : Cursor :=
  ⟨[⟨.delimiter, "(", .start⟩, ⟨.identifier, name, .start⟩, ⟨.delimiter, ")", .start⟩, t,
    ⟨.identifier, "b", .start⟩], .start⟩

/-- The text `name t b`. -/
def behindName (name : String) (t : Token) : Cursor :=
  ⟨[⟨.identifier, name, .start⟩, t, ⟨.identifier, "b", .start⟩], .start⟩

/-- A sum behind a name in parentheses is a sum. -/
theorem parse_parenthesized_sum :
    joined.led? ")" = none ∧ joined.led? "+" = some ⟨"+", 21, 11, .infixLeft⟩
      ∧ joined.nud? "+" = none ∧ joined.cast?.isSome = true ∧ joined.isPrimitive "a" = false
      ∧ parse joined 0 (behindGroup "a" ⟨.operator, "+", .start⟩)
        = parse joined 0 (behindName "a" ⟨.operator, "+", .start⟩) :=
  ⟨rfl, rfl, rfl, rfl, rfl, parse_parenthesized ⟨⟨.identifier, "a", .start⟩, rfl, rfl⟩
    rfl rfl rfl rfl rfl (.inr ⟨by decide, fun _ => rfl⟩) 0 _ .start⟩

/-- **A keyword behind parentheses is cast, operator or not**: `( a ) and b`
is the cast of `and` to `a`, with `b` left, where `a and b` is a conjunction.
And behind a primitive type a plus is cast, although it is no prefix operator
here: `( int ) + b` fails at the plus, where `int + b` is a sum. -/
theorem parse_parenthesized_cast :
    joined.led? ")" = none
      ∧ (joined.nud? "a" = none ∧ joined.led? "a" = none)
      ∧ (joined.nud? "int" = none ∧ joined.led? "int" = none)
      ∧ ((joined.led? "and").isSome = true ∧ joined.nud? "and" = none)
      ∧ ((joined.led? "+").isSome = true ∧ joined.nud? "+" = none)
      ∧ parse joined 0 (behindGroup "a" ⟨.reserved, "and", .start⟩)
        ≠ parse joined 0 (behindName "a" ⟨.reserved, "and", .start⟩)
      ∧ parse joined 0 (behindGroup "int" ⟨.operator, "+", .start⟩)
        ≠ parse joined 0 (behindName "int" ⟨.operator, "+", .start⟩) := by
  have hcast : parse joined 0 (behindGroup "a" ⟨.reserved, "and", .start⟩)
      = .ok (.binary ⟨"()", 36, 14, .cast⟩ (.atom .identifier "a") (.atom .reserved "and"))
        ⟨[⟨.identifier, "b", .start⟩], .start⟩ := rfl
  have hand : parse joined 0 (behindName "a" ⟨.reserved, "and", .start⟩)
      = .ok (.binary ⟨"and", 40, 4, .infixLeft⟩ (.atom .identifier "a") (.atom .identifier "b"))
        ⟨[], .start⟩ := rfl
  have hfails : parse joined 0 (behindGroup "int" ⟨.operator, "+", .start⟩)
      = .error (.unimplemented "+" .start)
        ⟨[⟨.operator, "+", .start⟩, ⟨.identifier, "b", .start⟩], .start⟩ := rfl
  have hsum : parse joined 0 (behindName "int" ⟨.operator, "+", .start⟩)
      = .ok (.binary ⟨"+", 21, 11, .infixLeft⟩ (.atom .identifier "int") (.atom .identifier "b"))
        ⟨[], .start⟩ := rfl
  refine ⟨rfl, ⟨rfl, rfl⟩, ⟨rfl, rfl⟩, ⟨rfl, rfl⟩, ⟨rfl, rfl⟩, ?_, ?_⟩
  · rw [hcast, hand]
    intro h
    exact absurd (EStateM.Result.ok.inj h).1 (by decide)
  · rw [hfails, hsum]
    exact nofun

end Expr

end Descent
