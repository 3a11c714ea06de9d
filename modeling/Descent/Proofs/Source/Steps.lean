import Descent.Proofs.Expr.Reading
import Descent.Proofs.Source.Rules

/-!
# Single steps of the reader of grammars

Each piece of the reader that does not call itself reads exactly what the
rules of the notation derive: arguments, directives, the mark of the empty
body, actions, and what stands between delimiters if the choice in it is
given. Which element comes next is decided by one token, and by a second
one behind the name of a directive (`Begins`).
-/

namespace Descent.Source

variable {operators : OperatorTable}

/-- Looking where the reader stands. -/
theorem run_cursor_bind {α : Type} {f : Cursor → Parse α} {c : Cursor} :
    (cursor >>= f) c = f c c := rfl

/-- Passing a token. -/
theorem run_advance_bind {α : Type} {f : Unit → Parse α} {c : Cursor} :
    (advance >>= f) c = f () c.advance := rfl

/-- Taking a sign and going on. -/
theorem run_punct_bind_eq_ok {α : Type} {spelling : String} {f : Token → Parse α}
    {c d : Cursor} {a : α} :
    (Parse.punct spelling >>= f) c = .ok a d
      ↔ ∃ t m, c.Takes [t] m ∧ t.isPunct spelling = true ∧ f t m = .ok a d := by
  rw [Outcome.run_bind_eq_ok]
  refine exists_congr (fun t => exists_congr (fun m => ?_))
  rw [Parse.punct, Parse.accept_eq_ok, and_assoc]

/-- Which sign is next is up to the token that is. -/
theorem atPunct_eq_false {c : Cursor} {t : Token} {s s' : String} (hc : c.current? = some t)
    (ht : t.isPunct s = true) (hne : s ≠ s') : c.atPunct s' = false := by
  unfold Cursor.atPunct
  rw [hc]
  exact Bool.eq_false_iff.mpr (fun h => hne (Token.eq_of_isPunct ht h))

theorem atPunct_of_current? {c : Cursor} {t : Token} {s : String} (hc : c.current? = some t)
    (ht : t.isPunct s = true) : c.atPunct s = true := by
  unfold Cursor.atPunct
  rw [hc]
  exact ht

/-! ## Directives -/

theorem argument?_eq_some {t : Token} {a : Directive.Argument} :
    argument? t = some a ↔ IsArgument t a := by
  unfold argument?
  constructor
  · intro h
    split at h
    · next hk =>
      obtain rfl := Option.some.inj h
      exact .name hk
    · next hk =>
      obtain rfl := Option.some.inj h
      exact .string hk
    · next hk =>
      obtain rfl := Option.some.inj h
      exact .number hk
    · cases h
    · cases h
    · cases h
  · intro h
    cases h with
    | name hk => rw [hk]
    | string hk => rw [hk]
    | number hk => rw [hk]

theorem argument_eq_ok {c d : Cursor} {a : Directive.Argument} :
    argument c = .ok a d ↔ ∃ t, c.Takes [t] d ∧ IsArgument t a := by
  unfold argument
  rw [run_cursor_bind]
  cases hc : c.current? with
  | none =>
    refine iff_of_false (fun h => by cases h) ?_
    rintro ⟨t, take, -⟩
    exact nomatch hc.symm.trans take.current?_eq
  | some t =>
    have htake := Cursor.takes_advance hc
    rw [Option.bind_some]
    cases ha : argument? t with
    | none =>
      refine iff_of_false (fun h => by cases h) ?_
      rintro ⟨t', take, ht'⟩
      obtain rfl : t = t' := Option.some.inj (hc.symm.trans take.current?_eq)
      rw [← argument?_eq_some, ha] at ht'
      cases ht'
    | some b =>
      constructor
      · intro h
        obtain ⟨rfl, rfl⟩ := EStateM.Result.ok.inj h
        exact ⟨t, htake, argument?_eq_some.mp ha⟩
      · rintro ⟨t', take, ht'⟩
        obtain rfl : t = t' := Option.some.inj (hc.symm.trans take.current?_eq)
        obtain rfl := Option.some.inj (ha.symm.trans (argument?_eq_some.mpr ht'))
        rw [← htake.unique take]
        rfl

theorem nextArgument_eq_ok {c d : Cursor} {a : Directive.Argument} :
    nextArgument false c = .ok a d
      ↔ ∃ comma t, c.Takes [comma, t] d ∧ comma.isPunct "," = true ∧ IsArgument t a := by
  show (Parse.punct "," >>= fun _ => argument) c = .ok a d ↔ _
  rw [run_punct_bind_eq_ok]
  refine exists_congr (fun comma => ?_)
  constructor
  · rintro ⟨m, take, hcomma, h⟩
    obtain ⟨t, take', ht⟩ := argument_eq_ok.mp h
    exact ⟨t, take.trans take', hcomma, ht⟩
  · rintro ⟨t, take, hcomma, ht⟩
    obtain ⟨m, take₁, take₂⟩ := Cursor.Takes.split (u := [comma]) take
    exact ⟨m, take₁, hcomma, argument_eq_ok.mpr ⟨t, take₂, ht⟩⟩

/-- The arguments that are due: the first ones, or more of them. -/
def ArgumentsDue : Bool → List Token → List Directive.Argument → Prop
  | true => Arguments
  | false => MoreArguments

/-- One argument, and more of them behind it. -/
theorem argumentsDue_of_next {first : Bool} {c m d : Cursor} {a : Directive.Argument}
    {v : List Token} {more : List Directive.Argument} (ha : nextArgument first c = .ok a m)
    (take : m.Takes v d) (hmore : MoreArguments v more) :
    ∃ u, c.Takes u d ∧ ArgumentsDue first u (a :: more) := by
  cases first with
  | true =>
    obtain ⟨t, take', ht⟩ := argument_eq_ok.mp ha
    exact ⟨_, take'.trans take, .some ht hmore⟩
  | false =>
    obtain ⟨comma, t, take', hcomma, ht⟩ := nextArgument_eq_ok.mp ha
    exact ⟨_, take'.trans take, .cons hcomma ht hmore⟩

/-- **The arguments that are read are derived.** -/
theorem arguments_sound {n : Nat} {first : Bool} {c d : Cursor}
    {args : List Directive.Argument} (h : arguments n first c = .ok args d) :
    ∃ u, c.Takes u d ∧ ArgumentsDue first u args := by
  induction n generalizing first c args with
  | zero =>
    obtain ⟨a, m, ha, h⟩ := Outcome.run_bind_eq_ok.mp h
    obtain ⟨rfl, rfl⟩ := EStateM.Result.ok.inj h
    exact argumentsDue_of_next ha (.refl _) .nil
  | succ n ih =>
    unfold arguments at h
    rw [run_cursor_bind] at h
    split at h
    · obtain ⟨rfl, rfl⟩ := EStateM.Result.ok.inj h
      refine ⟨[], .refl c, ?_⟩
      cases first with
      | true => exact .none
      | false => exact .nil
    · obtain ⟨a, m, ha, h⟩ := Outcome.run_bind_eq_ok.mp h
      obtain ⟨rest, m', hrest, h⟩ := Outcome.run_bind_eq_ok.mp h
      obtain ⟨rfl, rfl⟩ := EStateM.Result.ok.inj h
      obtain ⟨v, take, hv⟩ := ih hrest
      exact argumentsDue_of_next ha take hv

/-- No arguments where the closing parenthesis is next. -/
theorem arguments_of_atPunct {n : Nat} {first : Bool} {c : Cursor} (h : c.atPunct ")" = true)
    (hn : 0 < n) : arguments n first c = .ok [] c := by
  obtain ⟨n, rfl⟩ := Nat.exists_eq_succ_of_ne_zero (Nat.pos_iff_ne_zero.mp hn)
  unfold arguments
  rw [run_cursor_bind, if_pos h]
  rfl

/-- One argument and then the others where the closing parenthesis is not
next. -/
theorem arguments_of_next {n : Nat} {first : Bool} {c m d : Cursor} {a : Directive.Argument}
    {args : List Directive.Argument} (h : c.atPunct ")" = false)
    (ha : nextArgument first c = .ok a m) (hargs : arguments n false m = .ok args d) :
    arguments (n + 1) first c = .ok (a :: args) d := by
  unfold arguments
  rw [run_cursor_bind, if_neg (Bool.eq_false_iff.mp h)]
  exact Outcome.run_bind_eq_ok.mpr
    ⟨a, m, ha, Outcome.run_bind_eq_ok.mpr ⟨args, d, hargs, rfl⟩⟩

/-- **Arguments that are derived are read.** -/
theorem MoreArguments.run {u : List Token} {args : List Directive.Argument}
    (h : MoreArguments u args) {n : Nat} {c d : Cursor} (take : c.Takes u d)
    (hd : d.atPunct ")" = true) (hn : u.length < n) : arguments n false c = .ok args d := by
  induction h generalizing n c with
  | nil =>
    obtain rfl := take.eq_of_nil
    exact arguments_of_atPunct hd hn
  | @cons comma t a u args hcomma ht _ ih =>
    obtain ⟨m, take₁, take₂⟩ := Cursor.Takes.split (u := [comma, t]) take
    obtain ⟨n, rfl⟩ := Nat.exists_eq_succ_of_ne_zero (Nat.ne_zero_of_lt hn)
    simp only [List.length_cons] at hn
    refine arguments_of_next ?_ (nextArgument_eq_ok.mpr ⟨comma, t, take₁, hcomma, ht⟩)
      (ih take₂ (by omega))
    exact atPunct_eq_false take₁.current?_eq hcomma (by decide)

/-- An argument is no sign. -/
theorem IsArgument.isPunct_eq_false {t : Token} {a : Directive.Argument} (h : IsArgument t a)
    (s : String) : t.isPunct s = false := by
  unfold Token.isPunct
  cases h with
  | name hk =>
    rw [hk]
    rfl
  | string hk =>
    rw [hk]
    rfl
  | number hk =>
    rw [hk]
    rfl

theorem Arguments.run {u : List Token} {args : List Directive.Argument} (h : Arguments u args)
    {n : Nat} {c d : Cursor} (take : c.Takes u d) (hd : d.atPunct ")" = true)
    (hn : u.length < n) : arguments n true c = .ok args d := by
  cases h with
  | none =>
    obtain rfl := take.eq_of_nil
    exact arguments_of_atPunct hd hn
  | @some t a u args ht hmore =>
    obtain ⟨m, take₁, take₂⟩ := Cursor.Takes.split (u := [t]) take
    obtain ⟨n, rfl⟩ := Nat.exists_eq_succ_of_ne_zero (Nat.ne_zero_of_lt hn)
    rw [List.length_cons] at hn
    refine arguments_of_next ?_ (argument_eq_ok.mpr ⟨t, take₁, ht⟩)
      (hmore.run take₂ hd (by omega))
    rw [take₁.atPunct_eq (List.cons_ne_nil _ _)]
    exact ht.isPunct_eq_false ")"

/-- A call gives a binding power exactly if that is its only argument. -/
theorem power?_ne_none {kind : Directive.Kind} {args : List Directive.Argument} :
    (⟨kind, args⟩ : Directive).power? ≠ none
      ↔ ∃ n, args = [.number n] ∧ (Text.word? n).isSome = true := by
  unfold Directive.power?
  dsimp only
  constructor
  · intro h
    split at h
    · exact ⟨_, rfl, Option.isSome_iff_ne_none.mpr h⟩
    · exact absurd rfl h
  · rintro ⟨n, rfl, h⟩
    exact Option.isSome_iff_ne_none.mp h

/-- **A call is read from its name on exactly if it is derived.** -/
theorem directive_eq_ok {kind : Directive.Kind} {c d : Cursor} {t : Token} {n : Node}
    (hc : c.current? = some t) :
    directive kind c = .ok n d
      ↔ ∃ opening closing u args, c.Takes (t :: opening :: (u ++ [closing])) d
        ∧ opening.isPunct "(" = true ∧ Arguments u args ∧ closing.isPunct ")" = true
        ∧ (kind = .precedence → ∃ n, args = [.number n] ∧ (Text.word? n).isSome = true)
        ∧ n = .directive ⟨kind, args⟩ := by
  have take₀ := Cursor.takes_advance hc
  unfold directive
  rw [run_cursor_bind, run_advance_bind, run_punct_bind_eq_ok]
  constructor
  · rintro ⟨opening, m₁, take₁, hopening, h⟩
    obtain ⟨args, m₂, hargs, h⟩ := Outcome.run_bind_eq_ok.mp h
    obtain ⟨closing, m₃, take₃, hclosing, h⟩ := run_punct_bind_eq_ok.mp h
    obtain ⟨u, take₂, hu⟩ := arguments_sound hargs
    split at h
    · cases h
    · next hpower =>
      obtain ⟨rfl, rfl⟩ := EStateM.Result.ok.inj h
      exact ⟨opening, closing, u, args, take₀.trans (take₁.trans (take₂.trans take₃)), hopening,
        hu, hclosing, fun hk => power?_ne_none.mp (fun hp => hpower ⟨hk, hp⟩), rfl⟩
  · rintro ⟨opening, closing, u, args, take, hopening, hu, hclosing, hpower, rfl⟩
    have hlength := take.length_eq
    simp only [List.length_cons, List.length_append, List.length_nil] at hlength
    obtain ⟨-, take'⟩ := take.uncons
    obtain ⟨m₁, take₁, take''⟩ := Cursor.Takes.split (u := [opening]) take'
    obtain ⟨m₂, take₂, take₃⟩ := take''.split
    have hread := hu.run (n := c.rest.length) take₂
      (atPunct_of_current? take₃.current?_eq hclosing) (by omega)
    refine ⟨opening, m₁, take₁, hopening, Outcome.run_bind_eq_ok.mpr ⟨args, m₂, hread, ?_⟩⟩
    refine run_punct_bind_eq_ok.mpr ⟨closing, d, take₃, hclosing, ?_⟩
    rw [if_neg (fun h => power?_ne_none.mpr (hpower h.1) h.2)]
    rfl

/-! ## Elements -/

/-- The names of the directives are those that call one. -/
theorem ofName?_eq_some {s : String} {kind : Directive.Kind} :
    Directive.Kind.ofName? s = some kind ↔ s = kind.name := by
  constructor
  · intro h
    have hname := List.find?_some (h : List.find? (·.name == s) _ = some kind)
    exact (beq_iff_eq.mp hname).symm
  · rintro rfl
    exact Directive.Kind.ofName?_name kind

theorem emptyMark_eq_ok {c d : Cursor} {t : Token} {n : Node} (hc : c.current? = some t) :
    emptyMark c = .ok n d
      ↔ ∃ word closing, c.Takes [t, word, closing] d ∧ word.kind = .identifier
        ∧ word.spelling = "empty" ∧ closing.isPunct ">" = true ∧ n = .empty := by
  have take₀ := Cursor.takes_advance hc
  unfold emptyMark
  rw [run_advance_bind, Outcome.run_bind_eq_ok]
  refine exists_congr (fun word => ?_)
  constructor
  · rintro ⟨m, hword, h⟩
    obtain ⟨take₁, hword⟩ := Parse.accept_eq_ok.mp hword
    obtain ⟨hk, hs⟩ := (Bool.and_eq_true _ _).mp hword
    obtain ⟨closing, m', take₂, hclosing, h⟩ := run_punct_bind_eq_ok.mp h
    obtain ⟨rfl, rfl⟩ := EStateM.Result.ok.inj h
    exact ⟨closing, take₀.trans (take₁.trans take₂), beq_iff_eq.mp hk, beq_iff_eq.mp hs,
      hclosing, rfl⟩
  · rintro ⟨closing, take, hk, hs, hclosing, rfl⟩
    obtain ⟨-, take'⟩ := take.uncons
    obtain ⟨m, take₁, take₂⟩ := Cursor.Takes.split (u := [word]) take'
    refine ⟨m, Parse.accept_eq_ok.mpr ⟨take₁, ?_⟩,
      run_punct_bind_eq_ok.mpr ⟨closing, d, take₂, hclosing, rfl⟩⟩
    exact (Bool.and_eq_true _ _).mpr ⟨beq_iff_eq.mpr hk, beq_iff_eq.mpr hs⟩

theorem enclosed_eq_ok {choice : Parse Node} {close : String} {c d : Cursor} {n : Node} :
    enclosed choice close c = .ok n d
      ↔ ∃ m closing, choice c.advance = .ok n m ∧ m.Takes [closing] d
        ∧ closing.isPunct close = true := by
  unfold enclosed
  rw [run_advance_bind, Outcome.run_bind_eq_ok]
  constructor
  · rintro ⟨n', m, hchoice, h⟩
    obtain ⟨closing, d', take, hclosing, h⟩ := run_punct_bind_eq_ok.mp h
    obtain ⟨rfl, rfl⟩ := EStateM.Result.ok.inj h
    exact ⟨m, closing, hchoice, take, hclosing⟩
  · rintro ⟨m, closing, hchoice, take, hclosing⟩
    exact ⟨n, m, hchoice, run_punct_bind_eq_ok.mpr ⟨closing, d, take, hclosing, rfl⟩⟩

/-- What is read as the body of an action is read so wherever it
stands. -/
theorem isBody_iff {u : List Token} {closing : Token} {e : Expr} :
    IsBody operators u closing e ↔ Expr.Reads operators 0 u e (some closing) := by
  constructor
  · rintro ⟨finish, h⟩
    obtain ⟨u', take, hu⟩ := Expr.parse_sound h
    obtain rfl : u = u' := List.append_cancel_right take.rest
    exact hu
  · intro h
    exact ⟨.start, Expr.Reads.parse_eq h ⟨rfl, rfl⟩⟩

/-- **An action is read exactly if it is derived.** -/
theorem action_eq_ok {c d : Cursor} {n : Node} :
    action operators c = .ok n d
      ↔ ∃ opening closing u e, c.Takes (opening :: (u ++ [closing])) d
        ∧ opening.isPunct "\x7b" = true ∧ IsBody operators u closing e
        ∧ closing.isPunct "\x7d" = true ∧ n = .action e := by
  unfold action
  rw [run_punct_bind_eq_ok]
  constructor
  · rintro ⟨opening, m, take, hopening, h⟩
    obtain ⟨e, m', he, h⟩ := Outcome.run_bind_eq_ok.mp h
    obtain ⟨closing, m'', take'', hclosing, h⟩ := run_punct_bind_eq_ok.mp h
    obtain ⟨rfl, rfl⟩ := EStateM.Result.ok.inj h
    obtain ⟨u, take', hu⟩ := Expr.parse_sound he
    rw [take''.current?_eq] at hu
    exact ⟨opening, closing, u, e, take.trans (take'.trans take''), hopening, isBody_iff.mpr hu,
      hclosing, rfl⟩
  · rintro ⟨opening, closing, u, e, take, hopening, he, hclosing, rfl⟩
    obtain ⟨m, take₁, take'⟩ := Cursor.Takes.split (u := [opening]) take
    obtain ⟨m', take₂, take₃⟩ := take'.split
    have hread : Expr.parse operators 0 m = .ok e m' := by
      refine Expr.Reads.parse_eq ?_ take₂
      rw [take₃.current?_eq]
      exact isBody_iff.mp he
    exact ⟨opening, m, take₁, hopening, Outcome.run_bind_eq_ok.mpr
      ⟨e, m', hread, run_punct_bind_eq_ok.mpr ⟨closing, d, take₃, hclosing, rfl⟩⟩⟩

/-! ### Which element comes next -/

section

variable {choice : Parse Node} {c : Cursor} {t : Token}

/-- The token after the next one is the one that is next behind it. -/
theorem get?_one (c : Cursor) : c.get? 1 = c.advance.current? := by
  obtain ⟨rest, finish⟩ := c
  match rest with
  | [] => rfl
  | [t] => rfl
  | t :: t' :: rest => rfl

theorem element_of_end (hc : c.current? = none) : element choice c = .ok none c := by
  unfold element
  rw [run_cursor_bind, hc]
  rfl

theorem element_of_string (hc : c.current? = some t) (hk : t.kind = .string) :
    element choice c = .ok (some (.literal (Text.unquote t.spelling))) c.advance := by
  unfold element
  rw [run_cursor_bind, hc]
  dsimp only
  rw [hk]
  rfl

theorem element_of_call {kind : Directive.Kind} (hc : c.current? = some t)
    (hk : t.kind = .identifier) (hname : t.spelling = kind.name)
    (hnext : c.advance.current?.any (·.isPunct "(") = true) :
    element choice c = (some <$> directive kind) c := by
  unfold element
  rw [run_cursor_bind, hc]
  dsimp only
  rw [hk]
  dsimp only
  rw [ofName?_eq_some.mpr hname, get?_one]
  dsimp only
  rw [if_pos hnext]

theorem element_of_name (hc : c.current? = some t) (hk : t.kind = .identifier)
    (hcall : ¬ IsCall t c.advance.current?) :
    element choice c = .ok (some (named t.spelling)) c.advance := by
  unfold element
  rw [run_cursor_bind, hc]
  dsimp only
  rw [hk]
  dsimp only
  cases hkind : Directive.Kind.ofName? t.spelling with
  | none => rfl
  | some kind =>
    dsimp only
    rw [get?_one, if_neg (fun hnext => hcall ⟨⟨kind, ofName?_eq_some.mp hkind⟩, hnext⟩)]
    rfl

theorem element_of_parenthesis (hc : c.current? = some t) (hk : t.kind = .delimiter)
    (hs : t.spelling = "(") : element choice c = (some <$> enclosed choice ")") c := by
  unfold element
  rw [run_cursor_bind, hc]
  dsimp only
  rw [hk]
  dsimp only
  rw [if_pos hs]

theorem element_of_bracket (hc : c.current? = some t) (hk : t.kind = .delimiter)
    (hs : t.spelling = "[") :
    element choice c
      = (enclosed choice "]" >>= fun n => pure (some (.alternative [n, .empty]))) c := by
  unfold element
  rw [run_cursor_bind, hc]
  dsimp only
  rw [hk]
  dsimp only
  rw [if_neg (by rw [hs]; decide), if_pos hs]

theorem element_of_angle (hc : c.current? = some t) (hk : t.kind = .operator)
    (hs : t.spelling = "<") : element choice c = (some <$> emptyMark) c := by
  unfold element
  rw [run_cursor_bind, hc]
  dsimp only
  rw [hk]
  dsimp only
  rw [if_pos hs]

/-- **A token that begins an element.** -/
def Begins (t : Token) : Prop :=
  t.kind = .string ∨ t.kind = .identifier
    ∨ (t.kind = .delimiter ∧ (t.spelling = "(" ∨ t.spelling = "["))
    ∨ (t.kind = .operator ∧ t.spelling = "<")

/-- No element comes next where no token begins one. -/
theorem element_of_not_begins (hc : c.current? = some t) (h : ¬ Begins t) :
    element choice c = .ok none c := by
  unfold element
  rw [run_cursor_bind, hc]
  dsimp only
  cases hk : t.kind with
  | string => exact absurd (.inl hk) h
  | identifier => exact absurd (.inr (.inl hk)) h
  | delimiter =>
    dsimp only
    rw [if_neg (fun hs => h (.inr (.inr (.inl ⟨hk, .inl hs⟩)))),
      if_neg (fun hs => h (.inr (.inr (.inl ⟨hk, .inr hs⟩))))]
    rfl
  | operator =>
    dsimp only
    rw [if_neg (fun hs => h (.inr (.inr (.inr ⟨hk, hs⟩))))]
    rfl
  | reserved => rfl
  | number => rfl

end

end Descent.Source
