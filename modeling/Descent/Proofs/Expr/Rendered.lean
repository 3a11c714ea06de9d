import Descent.Proofs.Expr.Primary
import Descent.Proofs.Expr.Written
import Descent.Proofs.Token.Writing

/-!
# The text of an expression is read back

A tree is shown with parentheses around every application, so its text
needs no powers to be read: it is an operand, whatever stands around it
(`Written.rendered`). Two kinds of tree are the exception.

* An application in delimiters is shown without parentheses of its own,
  which a point before it would need: `a.(b[c])` is shown as `(a . b[c])`,
  and that is read as `(a . b)[c]` (`isPointed`).
* Whether parentheses cast is up to the token behind them, and operands in
  parentheses of their own change that token: `(int) -b` is shown as
  `((int) (-b))`, and that is a call (`isMiscast`).

A cast of an operand that is shown with a token of its own in front is none
of them. The parser has to see that token to know the cast, and it is there
because **a text shows its first character in the first token**
(`Token.head_of_scanFrom`).

All other trees that are read from some text are read back from the text
that shows them (`ofText?_render`). The exceptions are not, as one example
of each shows (`ofText?_render_ne`).
-/

namespace Descent.Expr

open OperatorTable (standard)

/-! ## Parts -/

/-- **All trees within a tree**, itself among them. -/
def parts : Expr → List Expr
  | .atom kind s => [.atom kind s]
  | .unary op x => .unary op x :: x.parts
  | .binary op x y => .binary op x y :: (x.parts ++ y.parts)
  | .vacant op x => .vacant op x :: x.parts

/-- Whether the outermost operator is a cast. -/
def isCasting : Expr → Bool
  | .binary op _ _ => op.fixity == .cast
  | _ => false

/-- Whether the tree is a point with an application in delimiters on its
right. -/
def isPointed : Expr → Bool
  | .binary op _ y => op.spelling == "." && y.isEnclosing
  | _ => false

/-- Whether the tree is a cast of an operand that is shown in parentheses. -/
def isMiscast : Expr → Bool
  | .binary op _ y => op.fixity == .cast && y.render.toList.head? == some '('
  | _ => false

theorem isMiscast_of_not_isCasting {e : Expr} (h : e.isCasting = false) :
    e.isMiscast = false := by
  cases e with
  | binary op x y =>
    have hcast : (op.fixity == .cast) = false := h
    rw [isMiscast, hcast, Bool.false_and]
  | _ => rfl

theorem mem_parts_self (e : Expr) : e ∈ e.parts := by
  cases e with
  | _ => exact List.mem_cons_self

/-! ## What may stand next to an operand -/

/-- The characters that an operand can begin with. -/
def opensOperand (c : Char) : Bool :=
  Lexeme.isWordStart c || c.isDigit || c == '"' || c == '('

/-- The characters before which every operand ends. -/
def endsOperand (c : Char) : Bool :=
  Lexeme.stops .word c && Lexeme.stops .number c

/-- No operator and no blank goes on with an operand. -/
theorem stops_of_opensOperand {c : Char} (h : opensOperand c = true) :
    Lexeme.stops .operator c = true ∧ Lexeme.stops .gap c = true := by
  have htail : Lexeme.operators.all (fun op => op.tail.all (!opensOperand ·)) = true := by
    decide +kernel
  constructor
  · refine (Bool.and_eq_true _ _).mpr ⟨?_, ?_⟩
    · refine (Bool.not_eq_true' _).mpr (Bool.eq_false_iff.mpr (fun hc => ?_))
      obtain ⟨op, hop, hc⟩ := List.any_eq_true.mp hc
      have hnot := List.all_eq_true.mp (List.all_eq_true.mp htail op hop) c
        (List.contains_iff_mem.mp hc)
      rw [h] at hnot
      cases hnot
    · refine bne_iff_ne.mpr ?_
      rintro rfl
      cases h
  · refine (Bool.not_eq_true' _).mpr (Bool.eq_false_iff.mpr (fun hc => ?_))
    simp only [Lexeme.isBlank, Bool.or_eq_true, decide_eq_true_eq] at hc
    rcases hc with (((rfl | rfl) | rfl) | rfl) | rfl
    all_goals cases h

/-! ## The texts of the usual operators -/

/-- **What the usual operators behind an operand look like.** All are
signs, and those that stand right behind their operand end it. -/
theorem standard_leds_text : ∀ op ∈ standard.leds,
    (op.spelling.toList ∈ Lexeme.operators ∨ op.spelling ∈ ["[", "(", ","])
      ∧ StartsWith (Lexeme.stops .gap) op.spelling
      ∧ (op.fixity = .infixLeft ∨ op.fixity = .infixRight
        ∨ StartsWith endsOperand op.spelling) := by
  decide +kernel

/-- The usual prefix operators are signs. -/
theorem standard_nuds_text : ∀ op ∈ standard.nuds,
    op.spelling.toList ∈ Lexeme.operators := by
  decide +kernel

/-- An operator right behind its operand ends it. -/
theorem startsWith_of_led {op : Operator} (hop : op ∈ standard.leds)
    (hf : op.fixity ≠ .infixLeft ∧ op.fixity ≠ .infixRight) :
    StartsWith endsOperand op.spelling :=
  ((standard_leds_text op hop).2.2.resolve_left hf.1).resolve_left hf.2

/-- **A token in front of an operand can be cast**, unless it is a
parenthesis: no sign begins like an operand. -/
theorem isCast_of_head {t : Token} {first : Char}
    (hkind : (t.kind.isOperand || isDelimiter t "(") = true)
    (hspelling : t.spelling.toList.head? = some first) (hopens : opensOperand first = true)
    (hfirst : first ≠ '(') (enclosed : Option String) :
    isCast standard enclosed (some t) = true := by
  have hdelimiter : isDelimiter t "(" = false := by
    refine Bool.eq_false_iff.mpr (fun hd => hfirst ?_)
    have hparenthesis : t.spelling = "(" := beq_iff_eq.mp ((Bool.and_eq_true _ _).mp hd).2
    rw [hparenthesis] at hspelling
    exact (Option.some.inj hspelling).symm
  rw [hdelimiter, Bool.or_false] at hkind
  have hnud : standard.nud? t.spelling = none := by
    refine Option.eq_none_iff_forall_ne_some.mpr (fun op hop => ?_)
    have hsign := (standard_nuds op (List.mem_of_find?_eq_some hop)).1
    rw [(OperatorTable.nud?_spelling hop).1] at hsign
    have hall : ∀ s ∈ ["-", "+", "!", "~"], s.toList.head?.any opensOperand = false := by decide
    have hnot := hall _ hsign
    rw [hspelling] at hnot
    exact absurd hopens (Bool.eq_false_iff.mp hnot)
  show (if t.kind.isOperand && (standard.nud? t.spelling).isNone then true else _) = true
  rw [hkind, hnud]
  rfl

/-! ## The text of an operand -/

/-- **A tree whose text is an operand**, wherever it stands. -/
structure Rendered (e : Expr) : Prop where
  /-- The text begins as operands do. -/
  begins : StartsWith opensOperand e.render
  /-- Its tokens are an operand, and the tree that this is. -/
  writes : Writes e.render (Primary e) endsOperand

theorem shape_parenthesis : Lexeme.Shape .delimiter "(".toList := .delimiter (by decide)

theorem shape_closing : Lexeme.Shape .delimiter ")".toList := .delimiter (by decide)

/-- The usual operators behind an operand write their signs. -/
theorem writes_sign {op : Operator} (hop : op ∈ standard.leds) :
    Writes op.spelling (fun u => ∃ t, u = [t] ∧ t.isPunct op.spelling = true)
      (Lexeme.stops .operator) := by
  have hpunct : ∀ {kind : Token.Kind} {p : Position}, kind.isSign = true →
      (⟨kind, op.spelling, p⟩ : Token).isPunct op.spelling = true := by
    intro kind p hkind
    exact (Bool.and_eq_true _ _).mpr ⟨hkind, BEq.rfl⟩
  rcases (standard_leds_text op hop).1 with hs | hs
  · refine (writes_operator (.operator hs)).imp ?_
    rintro _ ⟨p, rfl⟩
    exact ⟨_, rfl, hpunct rfl⟩
  · have hdelimiter : ∀ s ∈ ["[", "(", ","], Lexeme.Shape .delimiter s.toList := by
      intro s hs
      simp only [List.mem_cons, List.not_mem_nil, or_false] at hs
      rcases hs with rfl | rfl | rfl
      · exact .delimiter (by decide)
      · exact .delimiter (by decide)
      · exact .delimiter (by decide)
    refine ((writes_delimiter (hdelimiter _ hs)).imp ?_).before (fun _ _ => rfl)
    rintro _ ⟨p, rfl⟩
    exact ⟨_, rfl, hpunct rfl⟩

/-- The opening parenthesis, and an operand behind it. -/
theorem Rendered.writes_opened {x : Expr} (hx : Rendered x) :
    Writes ("(" ++ x.render) (fun u => ∃ p v, u = ⟨.delimiter, "(", p⟩ :: v ∧ Primary x v)
      endsOperand := by
  refine ((writes_delimiter shape_parenthesis).append_any hx.writes).imp ?_
  rintro _ ⟨_, v, ⟨p, rfl⟩, hv, rfl⟩
  exact ⟨p, v, rfl, hv⟩

namespace Rendered

variable {x y : Expr} {op : Operator} {close : String}

/-- `(op x)` -/
theorem prefixed (hop : standard.nud? op.spelling = some op) (hx : Rendered x) :
    Rendered (.unary op x) := by
  have hmem := List.mem_of_find?_eq_some hop
  have hs := standard_nuds_text op hmem
  have htext : (Expr.unary op x).render = "(" ++ op.spelling ++ x.render ++ ")" := by
    rw [render, standard.nuds_prefixed op hmem]
  have hsign := (writes_delimiter shape_parenthesis).append_any (writes_operator (.operator hs))
  have hbody := hsign.append hx.writes (hx.begins.mono (fun _ h => (stops_of_opensOperand h).1))
  constructor
  · rw [htext, String.append_assoc, String.append_assoc]
    exact StartsWith.append (by decide) _
  · rw [htext]
    refine ((hbody.delimiter shape_closing (by decide)).imp ?_).before (fun _ _ => rfl)
    rintro _ ⟨_, q, ⟨_, u, ⟨_, _, ⟨p, rfl⟩, ⟨r, rfl⟩, rfl⟩, hu, rfl⟩, rfl⟩
    exact Primary.prefixed hop hu

/-- `(x op)` -/
theorem postfixed (hop : standard.led? op.spelling = some op) (hf : op.fixity = .postfixed)
    (hx : Rendered x) : Rendered (.unary op x) := by
  have hmem := List.mem_of_find?_eq_some hop
  have hbegins := startsWith_of_led hmem (by rw [hf]; decide)
  have htext : (Expr.unary op x).render = "(" ++ x.render ++ op.spelling ++ ")" := by
    rw [render, hf]
  have hbody := hx.writes_opened.append (writes_sign hmem) hbegins
  constructor
  · rw [htext, String.append_assoc, String.append_assoc]
    exact StartsWith.append (by decide) _
  · rw [htext]
    refine ((hbody.delimiter shape_closing (by decide)).imp ?_).before (fun _ _ => rfl)
    rintro _ ⟨_, q, ⟨_, _, ⟨p, u, rfl, hu⟩, ⟨t, rfl, ht⟩, rfl⟩, rfl⟩
    exact hu.applied hop ht (.unary (.inl hf))

/-- `(x op y)` -/
theorem infixed (hop : standard.led? op.spelling = some op)
    (hf : op.fixity = .infixLeft ∨ op.fixity = .infixRight)
    (hpoint : (Expr.binary op x y).isPointed = false) (hx : Rendered x) (hy : Rendered y) :
    Rendered (.binary op x y) := by
  have hmem := List.mem_of_find?_eq_some hop
  have htext : (Expr.binary op x y).render
      = "(" ++ x.render ++ " " ++ op.spelling ++ " " ++ y.render ++ ")" := by
    rcases hf with hf | hf
    · rw [render, hf]
    · rw [render, hf]
  have happly : ∀ {v : List Token} {q : Position}, Primary y v →
      Applies standard op x v (.binary op x y) (some ⟨.delimiter, ")", q⟩) := by
    intro v q hv
    have hclosing := isClosing_delimiter (s := ")") (by decide) q
    have hall := standard_leds op hmem
    rcases hf with hf | hf
    · refine .infixLeft hf (hv.reads_all hclosing (fun henclosing => ?_))
      rw [hf] at hall
      have hpower : op.spelling = "." ∨ nextPower op.power ≤ 16 := by simpa using hall
      refine hpower.resolve_left (fun hs => ?_)
      simp only [isPointed, hs, henclosing] at hpoint
      cases hpoint
    · refine .infixRight (.inl hf) (hv.reads_all hclosing (fun _ => ?_))
      rw [hf] at hall
      simpa using hall
  have hsign := (hx.writes_opened.space rfl).append (writes_sign hmem)
    (standard_leds_text op hmem).2.1
  have hbody := (hsign.space rfl).append hy.writes
    (hy.begins.mono (fun _ h => (stops_of_opensOperand h).2))
  constructor
  · rw [htext]
    simp only [String.append_assoc]
    exact StartsWith.append (by decide) _
  · rw [htext]
    refine ((hbody.delimiter shape_closing (by decide)).imp ?_).before (fun _ _ => rfl)
    rintro _ ⟨_, q, ⟨_, v, ⟨_, _, ⟨p, u, rfl, hu⟩, ⟨t, rfl, ht⟩, rfl⟩, hv, rfl⟩, rfl⟩
    have hall := hu.applied (p := p) hop ht (happly (q := q) hv)
    simpa using hall

/-- What is known of delimiters. -/
theorem delimiter_facts (hop : op ∈ standard.leds)
    (hf : op.fixity = .bracket close ∨ op.fixity = .paramList close) :
    op.power = 16 ∧ StartsWith endsOperand op.spelling ∧ Lexeme.Shape .delimiter close.toList
      ∧ StartsWith endsOperand close ∧ close ∈ [")", "]", "\x7d"]
      ∧ (op.fixity = .paramList close → close = ")") := by
  have hall := standard_leds op hop
  rcases hf with hf | hf
  · have hbegins := startsWith_of_led hop (by rw [hf]; simp)
    rw [hf] at hall
    obtain ⟨rfl, hpower⟩ : close = "]" ∧ op.power = 16 := by simpa using hall
    exact ⟨hpower, hbegins, .delimiter (by decide), by decide, by decide, by rw [hf]; simp⟩
  · have hbegins := startsWith_of_led hop (by rw [hf]; simp)
    rw [hf] at hall
    obtain ⟨rfl, hpower⟩ : close = ")" ∧ op.power = 16 := by simpa using hall
    exact ⟨hpower, hbegins, .delimiter (by decide), by decide, by decide, fun _ => rfl⟩

/-- `x[y]` and `x(y)` -/
theorem enclosed (hop : standard.led? op.spelling = some op)
    (hf : op.fixity = .bracket close ∨ op.fixity = .paramList close) (hx : Rendered x)
    (hy : Rendered y) : Rendered (.binary op x y) := by
  have hmem := List.mem_of_find?_eq_some hop
  obtain ⟨hpower, hbegins, hshape, hclose, hclosing, hparenthesis⟩ := delimiter_facts hmem hf
  have htext : (Expr.binary op x y).render = x.render ++ op.spelling ++ y.render ++ close := by
    rcases hf with hf | hf
    · rw [render, hf]
    · rw [render, hf]
  have hencloses : (Expr.binary op x y).isEnclosing = true := by
    rcases hf with hf | hf
    · rw [isEnclosing, hf]
    · rw [isEnclosing, hf]
  have happly : ∀ {v : List Token} {q : Position} {next : Option Token}, Primary y v →
      Applies standard op x (v ++ [⟨.delimiter, close, q⟩]) (.binary op x y) next := by
    intro v q next hv
    have hread : Reads standard 0 v y (some ⟨.delimiter, close, q⟩) :=
      hv.reads_all (isClosing_delimiter hclosing q) (fun _ => UInt32.zero_le)
    have hpunct : (⟨.delimiter, close, q⟩ : Token).isPunct close = true :=
      (isClosing_delimiter hclosing q).isPunct
    rcases hf with hf | hf
    · exact .bracket hf hread hpunct
    · refine .paramList hf ?_ hread hpunct
      rw [hparenthesis hf]
      exact hv.not_closing
  have hsign := hx.writes.append (writes_sign hmem) hbegins
  have hbody := hsign.append hy.writes (hy.begins.mono (fun _ h => (stops_of_opensOperand h).1))
  constructor
  · rw [htext, String.append_assoc, String.append_assoc]
    exact hx.begins.append _
  · rw [htext]
    refine ((hbody.delimiter hshape hclose).imp ?_).before (fun _ _ => rfl)
    rintro _ ⟨_, q, ⟨_, v, ⟨u, _, hu, ⟨t, rfl, ht⟩, rfl⟩, hv, rfl⟩, rfl⟩
    have hall := hu.enclosing hop ht hpower hencloses (happly (q := q) hv)
    simpa using hall

/-- `x()` -/
theorem vacant (hop : standard.led? op.spelling = some op) (hf : op.fixity = .paramList close)
    (hx : Rendered x) : Rendered (.vacant op x) := by
  have hmem := List.mem_of_find?_eq_some hop
  obtain ⟨hpower, hbegins, hshape, -, hclosing, hparenthesis⟩ := delimiter_facts hmem (.inr hf)
  obtain rfl := hparenthesis hf
  have htext : (Expr.vacant op x).render = x.render ++ op.spelling ++ ")" := by
    rw [render, hf]
  have hencloses : (Expr.vacant op x).isEnclosing = true := by
    rw [isEnclosing, hf]
  have hsign := hx.writes.append (writes_sign hmem) hbegins
  constructor
  · rw [htext, String.append_assoc]
    exact hx.begins.append _
  · rw [htext]
    refine ((hsign.delimiter hshape (by decide)).imp ?_).before (fun _ _ => rfl)
    rintro _ ⟨_, q, ⟨u, _, hu, ⟨t, rfl, ht⟩, rfl⟩, rfl⟩
    have hall := hu.enclosing hop ht hpower hencloses (v := [⟨.delimiter, ")", q⟩])
      (.noParams hf rfl)
    simpa using hall

/-- **An operand that is shown with no parenthesis in front can be cast.** -/
theorem writes_castable (hx : Rendered x) (hbare : x.render.toList.head? ≠ some '(') :
    Writes x.render (fun u => Primary x u
      ∧ ∀ enclosed next, isCast standard enclosed (u.head?.or next) = true) endsOperand := by
  obtain ⟨first, hfirst, hopens⟩ := (Option.any_eq_true _ _).mp hx.begins
  have hblank : Lexeme.isBlank first = false := by
    simpa [Lexeme.stops] using (stops_of_opensOperand hopens).2
  have hslash : first ≠ '/' := by
    rintro rfl
    cases hopens
  intro place offset rest c hrest hc
  obtain ⟨u, hu, hscan⟩ := hx.writes place offset rest c hrest hc
  refine ⟨u, ⟨hu, fun enclosed next => ?_⟩, hscan⟩
  have hhead : (x.render.toList ++ rest).head? = some first := by
    rw [List.head?_append, hfirst]
    rfl
  obtain ⟨t, ht, hspelling⟩ := Token.head_of_scanFrom hscan hhead hblank hslash
  cases u with
  | nil => cases hu.opens
  | cons t' u =>
    obtain rfl : t' = t := Option.some.inj ht
    exact isCast_of_head hu.opens hspelling hopens (fun heq => hbare (heq ▸ hfirst)) enclosed

/-- `((x) y)` -/
theorem cast (hop : standard.cast? = some op)
    (hcast : (Expr.binary op x y).isMiscast = false) (hx : Rendered x) (hy : Rendered y) :
    Rendered (.binary op x y) := by
  have hf : op.fixity = .cast := (standard.cast_fixity op hop).1
  have hbare : y.render.toList.head? ≠ some '(' := by
    intro hhead
    rw [isMiscast, hf, hhead] at hcast
    cases hcast
  have htext : (Expr.binary op x y).render
      = "(" ++ ("(" ++ x.render) ++ ")" ++ " " ++ y.render ++ ")" := by
    rw [render, hf, show "((" = "(" ++ "(" from rfl, show ") " = ")" ++ " " from rfl]
    simp only [String.append_assoc]
  have hgroup := (writes_delimiter shape_parenthesis).append_any
    (hx.writes_opened.delimiter shape_closing (by decide))
  have hbody := (hgroup.space rfl).append (hy.writes_castable hbare)
    (hy.begins.mono (fun _ h => (stops_of_opensOperand h).2))
  constructor
  · rw [htext]
    simp only [String.append_assoc]
    exact StartsWith.append (by decide) _
  · rw [htext]
    refine ((hbody.delimiter shape_closing (by decide)).imp ?_).before (fun _ _ => rfl)
    rintro _ ⟨_, q, ⟨_, v, ⟨_, _, ⟨p, rfl⟩, ⟨_, q', ⟨p', u, rfl, hu⟩, rfl⟩, rfl⟩,
      ⟨hv, hcastable⟩, rfl⟩, rfl⟩
    exact Primary.cast hop hu hv hcastable

/-- A token by itself. -/
theorem atom {t : Token} (hk : t.kind.isOperand = true) (ht : t.Spelled []) :
    Rendered (.atom t.kind t.spelling) := by
  obtain ⟨k, hshape, hkind⟩ := ht
  have hreserved : t.kind ≠ .reserved := by
    intro hr
    rw [hr] at hkind
    cases k with
    | _ => cases hkind
  -- Signs and gaps are no operands, so the lexeme is a word, a number or a
  -- string.
  have hlexeme : StartsWith opensOperand t.spelling
      ∧ ∀ c, endsOperand c = true → Lexeme.stops k c = true := by
    unfold StartsWith
    generalize t.spelling.toList = text at hshape hkind
    cases hshape with
    | blanks => cases hkind
    | word hc _ =>
      refine ⟨?_, fun c h => ((Bool.and_eq_true _ _).mp h).1⟩
      simp [opensOperand, hc]
    | integer hc _ =>
      refine ⟨?_, fun c h => ((Bool.and_eq_true _ _).mp h).2⟩
      simp [opensOperand, hc]
    | decimal hc _ _ _ =>
      refine ⟨?_, fun c h => ((Bool.and_eq_true _ _).mp h).2⟩
      simp [opensOperand, hc]
    | string _ => exact ⟨rfl, fun _ _ => rfl⟩
    | operator _ =>
      rw [← Option.some.inj hkind] at hk
      cases hk
    | delimiter _ =>
      rw [← Option.some.inj hkind] at hk
      cases hk
  refine ⟨hlexeme.1, ((writes_token hshape hkind).imp ?_).before hlexeme.2⟩
  rintro _ ⟨p, rfl⟩
  exact Primary.atom (t := ⟨t.kind, t.spelling, p⟩) hk hreserved

end Rendered

/-- An operator that is found is found by its own spelling. -/
theorem led?_of_bind {table : OperatorTable} {t : Token} {op : Operator}
    (h : (operatorSpelling? t).bind table.led? = some op) :
    table.led? op.spelling = some op := by
  obtain ⟨s, -, hs⟩ := Option.bind_eq_some_iff.mp h
  rw [(OperatorTable.led?_spelling hs).1]
  exact hs

/-- **The text of a tree is read back**: it is an operand, and the tree
that it is. Points before delimiters are out, and so are casts of operands
in parentheses. -/
theorem Written.rendered {e : Expr} {u : List Token} (h : Written standard e u)
    (hu : ∀ t ∈ u, t.Spelled [])
    (he : ∀ x ∈ e.parts, x.isPointed = false ∧ x.isMiscast = false) : Rendered e := by
  induction h with
  | atom hk => exact .atom hk (hu _ (List.mem_singleton_self _))
  | @group opening closing x u _ _ _ ih =>
    exact ih (fun t ht => hu t (List.mem_append_left _ (List.mem_cons_of_mem _ ht))) he
  | @prefixed t op x u hop _ ih =>
    obtain ⟨s, -, hs⟩ := Option.bind_eq_some_iff.mp hop
    refine .prefixed ?_ (ih (fun t ht => hu t (List.mem_cons_of_mem _ ht))
      (fun x hx => he x (List.mem_cons_of_mem _ hx)))
    rw [(OperatorTable.nud?_spelling hs).1]
    exact hs
  | @postfixed t op x u _ hop hf ih =>
    exact .postfixed (led?_of_bind hop) hf (ih (fun t ht => hu t (List.mem_append_left _ ht))
      (fun x hx => he x (List.mem_cons_of_mem _ hx)))
  | @infixed t op x y u v _ hop hf _ ihx ihy =>
    refine .infixed (led?_of_bind hop) hf (he _ (mem_parts_self _)).1 (ihx ?_ ?_) (ihy ?_ ?_)
    · exact fun t ht => hu t (List.mem_append_left _ ht)
    · exact fun x hx => he x (List.mem_cons_of_mem _ (List.mem_append_left _ hx))
    · exact fun t ht => hu t (List.mem_append_right _ (List.mem_cons_of_mem _ ht))
    · exact fun x hx => he x (List.mem_cons_of_mem _ (List.mem_append_right _ hx))
  | @bracket t closing op close x y u v _ hop hf _ _ ihx ihy =>
    refine .enclosed (led?_of_bind hop) (.inl hf) (ihx ?_ ?_) (ihy ?_ ?_)
    · exact fun t ht => hu t (List.mem_append_left _ ht)
    · exact fun x hx => he x (List.mem_cons_of_mem _ (List.mem_append_left _ hx))
    · exact fun t ht =>
        hu t (List.mem_append_right _ (List.mem_cons_of_mem _ (List.mem_append_left _ ht)))
    · exact fun x hx => he x (List.mem_cons_of_mem _ (List.mem_append_right _ hx))
  | @params t closing op close x y u v _ hop hf _ _ ihx ihy =>
    refine .enclosed (led?_of_bind hop) (.inr hf) (ihx ?_ ?_) (ihy ?_ ?_)
    · exact fun t ht => hu t (List.mem_append_left _ ht)
    · exact fun x hx => he x (List.mem_cons_of_mem _ (List.mem_append_left _ hx))
    · exact fun t ht =>
        hu t (List.mem_append_right _ (List.mem_cons_of_mem _ (List.mem_append_left _ ht)))
    · exact fun x hx => he x (List.mem_cons_of_mem _ (List.mem_append_right _ hx))
  | @noParams t closing op close x u _ hop hf _ ih =>
    exact .vacant (led?_of_bind hop) hf (ih (fun t ht => hu t (List.mem_append_left _ ht))
      (fun x hx => he x (List.mem_cons_of_mem _ hx)))
  | @cast opening closing op x y u v _ _ _ hop _ ihx ihy =>
    refine .cast hop (he _ (mem_parts_self _)).2 (ihx ?_ ?_) (ihy ?_ ?_)
    · exact fun t ht => hu t (List.mem_append_left _ (List.mem_cons_of_mem _ ht))
    · exact fun x hx => he x (List.mem_cons_of_mem _ (List.mem_append_left _ hx))
    · exact fun t ht => hu t (List.mem_append_right _ (List.mem_cons_of_mem _ ht))
    · exact fun x hx => he x (List.mem_cons_of_mem _ (List.mem_append_right _ hx))

/-! ## Whole texts -/

/-- **The tree that a whole text is read as**, by the usual operators and
without keywords. There is none if something of the text is left. -/
def ofText? (input : String) : Option Expr :=
  match Token.scan [] input with
  | .error _ => none
  | .ok c =>
    match parse standard 0 c with
    | .error _ _ => none
    | .ok e d => if d.rest.isEmpty then some e else none

theorem ofText?_eq_some {input : String} {e : Expr} :
    ofText? input = some e
      ↔ ∃ c d, Token.scan [] input = .ok c ∧ parse standard 0 c = .ok e d ∧ d.rest = [] := by
  unfold ofText?
  constructor
  · intro h
    split at h
    · cases h
    next c hscan =>
    split at h
    · cases h
    next e' d hparse =>
    split at h
    · next hrest =>
      obtain rfl := Option.some.inj h
      exact ⟨c, d, hscan, hparse, List.isEmpty_iff.mp hrest⟩
    · cases h
  · rintro ⟨c, d, hscan, hparse, hrest⟩
    rw [hscan]
    dsimp only
    rw [hparse]
    dsimp only
    rw [hrest]
    rfl

/-- **What is read is read back from the text that shows it**, if it has no
point before delimiters and no cast of an operand in parentheses. -/
theorem ofText?_render {input : String} {e : Expr} (h : ofText? input = some e)
    (hpointed : ∀ x ∈ e.parts, x.isPointed = false)
    (hcast : ∀ x ∈ e.parts, x.isMiscast = false) : ofText? e.render = some e := by
  obtain ⟨c, d, hscan, hparse, -⟩ := ofText?_eq_some.mp h
  obtain ⟨u, -, take, hwritten⟩ := parse_written hparse
  have hspelled : ∀ t ∈ u, t.Spelled [] := by
    intro t ht
    refine Token.spelled_of_scanFrom hscan t ?_
    rw [take.rest]
    exact List.mem_append_left _ ht
  have hrendered := hwritten.rendered hspelled (fun x hx => ⟨hpointed x hx, hcast x hx⟩)
  -- Nothing stands behind the text, so the operand is all that there is to read.
  obtain ⟨v, hv, hscan'⟩ := hrendered.writes (Lines.ofText e.render.toList).place 0 [] _ rfl
    Token.scanFrom_nil
  rw [List.append_nil, List.append_nil] at hscan'
  have hread : Reads standard 0 (v ++ []) e none :=
    hv.reads (fun _ => UInt32.zero_le) rfl (.stop rfl)
  rw [List.append_nil] at hread
  refine ofText?_eq_some.mpr ⟨_, ⟨[], _⟩, hscan', hread.parse_eq ⟨?_, rfl⟩, rfl⟩
  rw [List.append_nil]

/-- A cast of an application in delimiters, a point with delimiters on its
left only, and a sign before the cast. -/
theorem ofText?_render_cast :
    ∃ e, ofText? "a.b[c] * -(T) f(x, !y)[i++]" = some e
      ∧ e.render = "((a . b)[c] * (-((T) f((x , (!y)))[(i++)])))"
      ∧ ofText? e.render = some e := by
  have hrun : (ofText? "a.b[c] * -(T) f(x, !y)[i++]").map (fun e => (e.render,
      e.parts.all (fun x => !x.isPointed), e.parts.all (fun x => !x.isMiscast)))
        = some ("((a . b)[c] * (-((T) f((x , (!y)))[(i++)])))", true, true) := by
    decide +kernel
  obtain ⟨e, he, hrun⟩ := Option.map_eq_some_iff.mp hrun
  obtain ⟨htext, hparts⟩ := Prod.mk.inj hrun
  obtain ⟨hpointed, hcast⟩ := Prod.mk.inj hparts
  simp only [List.all_eq_true, Bool.not_eq_true'] at hpointed hcast
  exact ⟨e, he, htext, ofText?_render he hpointed hcast⟩

/-- **Two trees that are not read back**, one for each exception. The point
loses the parentheses of its right operand, and the cast of a sign becomes a
call. -/
theorem ofText?_render_ne :
    (∃ e, ofText? "a.(b[c])" = some e ∧ e.render = "(a . b[c])" ∧ ofText? e.render ≠ some e)
      ∧ ∃ e, ofText? "(int) -b" = some e ∧ e.render = "((int) (-b))"
        ∧ ofText? e.render ≠ some e := by
  have hrun : ∀ input text, (ofText? input).map (fun e => (e.render,
      decide (ofText? e.render = some e))) = some (text, false) →
      ∃ e, ofText? input = some e ∧ e.render = text ∧ ofText? e.render ≠ some e := by
    intro input text h
    obtain ⟨e, he, h⟩ := Option.map_eq_some_iff.mp h
    obtain ⟨htext, hne⟩ := Prod.mk.inj h
    exact ⟨e, he, htext, of_decide_eq_false hne⟩
  exact ⟨hrun _ _ (by decide +kernel), hrun _ _ (by decide +kernel)⟩

end Descent.Expr
