import Descent.Proofs.Expr.Rendered
import Descent.Proofs.Parts
import Descent.Proofs.Quoted
import Descent.Proofs.Source.Origin

/-!
# The text of a grammar is read back

A table is shown rule by rule, and what is shown is source text again. This
file follows a body through being shown, scanned and derived: the text of
every body writes tokens that the rules of the notation derive the same
body from (`Node.Rendered`), and so the source text of a table is read as
this very table (`RuleTable.ofSource_render`).

Not every body survives. Texts may have characters that are shown in a way
that is not read (`Text.isLegible`); an action in the middle of a sequence
would end it; a rule named like a directive turns into a call of it before
a parenthesis; and a cast in an action can become more or less than it was.
`Node.isPrintable` leaves these out.

Even then a point before an application in delimiters is lost in an action:
`a.(b[c])` is shown as `(a . b[c])`, which is `(a . b)[c]`
(`RuleTable.render_pointed`). So the theorem leaves out these as well
(`Node.isUnpointed`).
-/

namespace Descent

open OperatorTable (standard)

/-! ## Bodies that are shown without loss -/

/-- Whether reading knows how an argument is shown. -/
def Directive.Argument.isLegible : Directive.Argument → Bool
  | .string s => s.toList.all Text.isLegible
  | .name _ | .number _ => true

namespace Node

/-- Whether this is an action. -/
def isAction : Node → Bool
  | .action _ => true
  | _ => false

/-- **Whether a body is shown without loss**, its parts and points in
actions aside: its texts are legible, an action ends its sequence and casts
nothing, and no rule is named like a directive. -/
def isPrintable : Node → Bool
  | .seq h _ => !h.isAction
  | .literal s => s.toList.all Text.isLegible
  | .rule s => (Directive.Kind.ofName? s).isNone
  | .directive d => d.args.all (·.isLegible)
  | .action e => e.parts.all (!·.isCasting)
  | .lone _ | .alt _ _ | .reserved _ | .empty => true

/-- Whether a body is no action that has a point before delimiters. -/
def isUnpointed : Node → Bool
  | .action e => e.parts.all (!·.isPointed)
  | _ => true

end Node

namespace Source

/-! ## Arguments -/

/-- The characters before which every argument ends. -/
def endsArgument (c : Char) : Bool := c == ',' || c == ')'

theorem writes_argument {a : Directive.Argument} (ha : a.Sourced) (hl : a.isLegible = true) :
    Writes a.render (fun u => ∃ t, u = [t] ∧ IsArgument t a) endsArgument := by
  have hends : ∀ {k : Lexeme.Class}, k = .word ∨ k = .number ∨ k = .string →
      ∀ c, endsArgument c = true → Lexeme.stops k c = true := by
    intro k hk c hc
    rcases (Bool.or_eq_true _ _).mp hc with hc | hc
    · rw [beq_iff_eq.mp hc]
      rcases hk with rfl | rfl | rfl <;> rfl
    · rw [beq_iff_eq.mp hc]
      rcases hk with rfl | rfl | rfl <;> rfl
  cases a with
  | name s =>
    refine ((writes_token ha rfl).imp ?_).before (hends (.inl rfl))
    rintro _ ⟨p, rfl⟩
    exact ⟨_, rfl, .name rfl⟩
  | number s =>
    refine ((writes_token ha rfl).imp ?_).before (hends (.inr (.inl rfl)))
    rintro _ ⟨p, rfl⟩
    exact ⟨_, rfl, .number rfl⟩
  | string s =>
    have hs := List.all_eq_true.mp hl
    refine ((writes_token (Text.shape_quote s) rfl).imp ?_).before (hends (.inr (.inr rfl)))
    rintro _ ⟨p, rfl⟩
    refine ⟨_, rfl, ?_⟩
    have harg := IsArgument.string (t := ⟨.string, Text.quote s, p⟩) rfl
    rwa [Text.unquote_quote hs] at harg

theorem begins_argument {a : Directive.Argument} (ha : a.Sourced) :
    StartsWith (Lexeme.stops .gap) a.render := by
  cases a with
  | name s => exact begins_of_shape ha (by decide)
  | number s => exact begins_of_shape ha (by decide)
  | string s => exact begins_of_shape (Text.shape_quote s) (by decide)

/-- **Arguments write arguments.** -/
theorem writes_arguments {args : List Directive.Argument}
    (h : ∀ a ∈ args, a.Sourced ∧ a.isLegible = true) :
    Writes (", ".intercalate (args.map Directive.Argument.render))
      (fun u => Arguments u args) endsArgument := by
  match args with
  | [] =>
    intro place offset rest c _ hc
    exact ⟨[], .none, hc⟩
  | [a] =>
    obtain ⟨ha, hl⟩ := h a (List.mem_singleton_self a)
    refine (writes_argument ha hl).imp ?_
    rintro _ ⟨t, rfl, ht⟩
    exact .some ht .nil
  | a :: b :: r =>
    obtain ⟨⟨ha, hl⟩, hr⟩ := List.forall_mem_cons.mp h
    obtain ⟨⟨hb, -⟩, -⟩ := List.forall_mem_cons.mp hr
    have hmore := writes_arguments hr
    have hstarts : StartsWith (Lexeme.stops .gap)
        (", ".intercalate ((b :: r).map Directive.Argument.render)) := by
      have hfirst := begins_argument hb
      cases r with
      | nil => exact hfirst
      | cons c r =>
        rw [List.map_cons, List.map_cons, String.intercalate_cons_cons, String.append_assoc]
        exact hfirst.append _
    rw [List.map_cons, List.map_cons, String.intercalate_cons_cons,
      show ", " = "," ++ " " from rfl, ← String.append_assoc]
    have hcomma := (writes_argument ha hl).delimiter (s := ",") (.delimiter (by decide)) (by decide)
    refine ((hcomma.space rfl).append hmore hstarts).imp ?_
    rintro _ ⟨_, v, ⟨_, p, ⟨t, rfl, ht⟩, rfl⟩, hv, rfl⟩
    cases hv with
    | some ht' hv => exact .some ht (.cons rfl ht' hv)
termination_by args.length

end Source

/-! ## Bodies -/

namespace Node

/-- The characters before which every body ends. -/
def endsBody (c : Char) : Bool := c == ' ' || c == ')'

theorem of_endsBody {ok : Char → Bool} (hspace : ok ' ' = true) (hclosing : ok ')' = true) :
    ∀ c, endsBody c = true → ok c = true := by
  intro c hc
  rcases (Bool.or_eq_true _ _).mp hc with hc | hc
  · rwa [beq_iff_eq.mp hc]
  · rwa [beq_iff_eq.mp hc]

/-- Tokens that are the body as an element. -/
def AsElement (n : Node) (u : List Token) : Prop :=
  ∀ next, Source.Element standard u n next

/-- Tokens that are the body as a sequence. -/
def AsSequence (n : Node) (u : List Token) : Prop :=
  ∃ es, sequence es = n ∧ ∀ next, Source.Elements standard u es next

/-- Tokens that are the body as a choice. -/
def AsChoice (n : Node) (u : List Token) : Prop :=
  ∃ bs, alternative bs = n ∧ ∀ next, Source.Branches standard u bs next

/-- **A body whose text writes it back**: as a choice where it is shown by
itself, and as a sequence, or an element of one, where it is shown as a
part. -/
structure Rendered (n : Node) : Prop where
  /-- The text begins with no blank. -/
  begins : StartsWith (Lexeme.stops .gap) n.render
  /-- As a part, it is an element. -/
  element : n.isElement = true → n.isAction = false →
    Writes (render.grouped n n.render) n.AsElement endsBody
  /-- As a part, it is a sequence. -/
  sequence : Writes (render.grouped n n.render) n.AsSequence endsBody
  /-- By itself, it is a choice. -/
  choice : Writes n.render n.AsChoice endsBody

section

variable {n : Node} {u : List Token}

/-- A sequence of one element that is no sequence is that element. -/
theorem sequence_singleton (h : n.isElement = true ∨ n = .empty) : Node.sequence [n] = n := by
  cases n with
  | seq _ _ => simp [isElement] at h
  | lone _ => simp [isElement] at h
  | _ => rfl

theorem AsElement.asSequence (h : n.AsElement u) (hn : n.isElement = true ∨ n = .empty) :
    n.AsSequence u := by
  refine ⟨[n], sequence_singleton hn, fun next => ?_⟩
  have helements := Source.Elements.cons (v := []) (h next) .nil
  rwa [List.append_nil] at helements

theorem AsSequence.asChoice (h : n.AsSequence u) : n.AsChoice u := by
  obtain ⟨es, rfl, hes⟩ := h
  exact ⟨[Node.sequence es], rfl, fun next => .one (hes next)⟩

theorem grouped_of_not_isChoice (h : n.isChoice = false) (text : String) :
    render.grouped n text = text := by
  rw [render.grouped, h]
  rfl

/-- What is shown as it is, is an element everywhere. -/
theorem Rendered.of_element (hchoice : n.isChoice = false)
    (hn : n.isElement = true ∨ n = .empty)
    (hbegins : StartsWith (Lexeme.stops .gap) n.render)
    (h : Writes n.render n.AsElement endsBody) : Rendered n where
  begins := hbegins
  element _ _ := by
    rw [grouped_of_not_isChoice hchoice]
    exact h
  sequence := by
    rw [grouped_of_not_isChoice hchoice]
    exact h.imp (fun _ hu => hu.asSequence hn)
  choice := h.imp (fun _ hu => (hu.asSequence hn).asChoice)

/-- What is shown as it is, is a sequence everywhere. -/
theorem Rendered.of_sequence (hchoice : n.isChoice = false)
    (hn : n.isElement = true → n.isAction = true)
    (hbegins : StartsWith (Lexeme.stops .gap) n.render)
    (h : Writes n.render n.AsSequence endsBody) : Rendered n where
  begins := hbegins
  element he ha := by
    rw [hn he] at ha
    cases ha
  sequence := by
    rw [grouped_of_not_isChoice hchoice]
    exact h
  choice := h.imp (fun _ hu => hu.asChoice)

end

/-! ### Elements -/

theorem rendered_literal {s : String} (h : (Node.literal s).isPrintable = true) :
    Rendered (.literal s) := by
  have hs := List.all_eq_true.mp h
  refine .of_element rfl (.inl rfl) (begins_of_shape (Text.shape_quote s) (by decide)) ?_
  refine ((writes_token (Text.shape_quote s) rfl).imp ?_).before (fun _ _ => rfl)
  rintro _ ⟨p, rfl⟩ next
  have helement : Source.Element standard [⟨.string, Text.quote s, p⟩]
      (.literal (Text.unquote (Text.quote s))) next := .literal rfl
  rwa [Text.unquote_quote hs] at helement

/-- Words end where bodies end. -/
theorem writes_word_body {s : String} (h : Lexeme.Shape .word s.toList) :
    Writes s (fun u => ∃ p, u = [⟨.identifier, s, p⟩]) endsBody :=
  (writes_word h).before (of_endsBody rfl rfl)

theorem rendered_reserved {s : String} (h : (Node.reserved s).Sourced) :
    Rendered (.reserved s) := by
  obtain ⟨hs, hclass⟩ := h
  refine .of_element rfl (.inl rfl) (begins_of_shape hs (by decide)) ?_
  refine (writes_word_body hs).imp ?_
  rintro _ ⟨p, rfl⟩ next
  refine .reserved rfl ?_ hclass
  rintro ⟨⟨kind, hname⟩, -⟩
  have hlower : Source.isClassName kind.name = false := by
    cases kind with
    | _ => decide +kernel
  have hname : s = kind.name := hname
  rw [hname, hlower] at hclass
  cases hclass

theorem rendered_rule {s : String} (h : (Node.rule s).Sourced)
    (hp : (Node.rule s).isPrintable = true) : Rendered (.rule s) := by
  obtain ⟨hs, hclass⟩ := h
  refine .of_element rfl (.inl rfl) (begins_of_shape hs (by decide)) ?_
  refine (writes_word_body hs).imp ?_
  rintro _ ⟨p, rfl⟩ next
  refine .rule rfl ?_ hclass
  rintro ⟨⟨kind, hname⟩, -⟩
  have hname : s = kind.name := hname
  rw [isPrintable, hname, Directive.Kind.ofName?_name] at hp
  cases hp

theorem rendered_empty : Rendered .empty := by
  refine .of_element rfl (.inr rfl) (by decide) ?_
  have hmark := ((writes_operator (s := "<") (.operator (by decide))).append
    (writes_word (s := "empty") (.word (by decide) (by decide))) (by decide)).operator
    (s := ">") (.operator (by decide)) (by decide)
  refine (hmark.imp ?_).before (of_endsBody (by decide) (by decide))
  rintro _ ⟨_, r, ⟨_, _, ⟨p, rfl⟩, ⟨q, rfl⟩, rfl⟩, rfl⟩ next
  exact .empty rfl rfl rfl rfl rfl

theorem shape_name (kind : Directive.Kind) : Lexeme.Shape .word kind.name.toList := by
  cases kind with
  | _ => exact .word (by decide) (by decide)

theorem rendered_directive {d : Directive} (h : (Node.directive d).Sourced)
    (hp : (Node.directive d).isPrintable = true) : Rendered (.directive d) := by
  obtain ⟨hargs, hpower⟩ := h
  have hl := List.all_eq_true.mp hp
  refine .of_element rfl (.inl rfl) ?_ ?_
  · rw [render, Directive.render, String.append_assoc, String.append_assoc]
    exact (begins_of_shape (shape_name d.kind) (by decide)).append _
  · have hname := (writes_word (shape_name d.kind)).delimiter Expr.shape_parenthesis (by decide)
    have hbody := hname.append_any (Source.writes_arguments (fun a ha => ⟨hargs a ha, hl a ha⟩))
    refine ((hbody.delimiter Expr.shape_closing (by decide)).imp ?_).before (fun _ _ => rfl)
    rintro _ ⟨_, r, ⟨_, u, ⟨_, q, ⟨p, rfl⟩, rfl⟩, hu, rfl⟩, rfl⟩ next
    exact .directive rfl rfl rfl hu rfl hpower

/-! ### Actions, sequences and choices -/

theorem rendered_action {e : Expr} (h : (Node.action e).Sourced)
    (hp : (Node.action e).isPrintable = true) (hu : (Node.action e).isUnpointed = true) :
    Rendered (.action e) := by
  obtain ⟨u, he, hscanned⟩ := h
  have hexpr : e.Rendered := by
    refine he.rendered hscanned (fun x hx => ?_)
    have hcasting : x.isCasting = false := by simpa using List.all_eq_true.mp hp x hx
    have hpointed : x.isPointed = false := by simpa using List.all_eq_true.mp hu x hx
    exact ⟨hpointed, Expr.isMiscast_of_not_isCasting hcasting⟩
  have htext : (Node.action e).render = "\x7b" ++ " " ++ e.render ++ " " ++ "\x7d" := by
    rw [render, show "\x7b " = "\x7b" ++ " " from rfl, show " \x7d" = " " ++ "\x7d" from rfl,
      ← String.append_assoc]
  have hopen := (writes_delimiter (s := "\x7b") (.delimiter (by decide))).space rfl
  have hbody := hopen.append hexpr.writes
    (hexpr.begins.mono (fun _ h => (Expr.stops_of_opensOperand h).2))
  have hall := (hbody.space rfl).delimiter (s := "\x7d") (.delimiter (by decide)) (by decide)
  refine .of_sequence rfl (fun _ => rfl) ?_ ?_
  · rw [htext]
    simp only [String.append_assoc]
    exact StartsWith.append (by decide) _
  · rw [htext]
    refine (hall.imp ?_).before (fun _ _ => rfl)
    rintro _ ⟨_, q, ⟨_, v, ⟨p, rfl⟩, hv, rfl⟩, rfl⟩
    refine ⟨[.action e], rfl, fun next => .action rfl (Source.isBody_iff.mpr ?_) rfl⟩
    exact hv.reads_all (Expr.isClosing_delimiter (by decide) q) (fun _ => UInt32.zero_le)

/-- A part begins with no blank, in parentheses or not. -/
theorem Rendered.begins_grouped {n : Node} (h : n.Rendered) :
    StartsWith (Lexeme.stops .gap) (render.grouped n n.render) := by
  unfold render.grouped
  split
  · rw [String.append_assoc]
    exact StartsWith.append (by decide) _
  · exact h.begins

/-- An element in front of a sequence that is not empty. -/
theorem sequence_cons {h : Node} {es : List Node} (hh : h.isElement = true)
    (hes : Node.sequence es ≠ .empty) :
    Node.sequence (h :: es) = .seq h (Node.sequence es) := by
  have hsplice : h.splice = [h] := by
    cases h with
    | seq _ _ => cases hh
    | lone _ => cases hh
    | empty => cases hh
    | _ => rfl
  unfold Node.sequence at hes ⊢
  rw [List.flatMap_cons, hsplice]
  cases hrest : es.flatMap splice with
  | nil =>
    rw [hrest] at hes
    exact absurd rfl hes
  | cons m r => rfl

theorem rendered_seq {h t : Node} (hh : h.isElement = true) (ha : h.isAction = false)
    (hne : t ≠ .empty) (ih : h.Rendered) (it : t.Rendered) : Rendered (.seq h t) := by
  have hseam := ((ih.element hh ha).space rfl).append it.sequence it.begins_grouped
  refine .of_sequence rfl (fun he => nomatch he) ?_ ?_
  · rw [render, String.append_assoc]
    exact ih.begins_grouped.append _
  · refine hseam.imp ?_
    rintro _ ⟨u, v, hu, ⟨es, rfl, hes⟩, rfl⟩
    exact ⟨h :: es, sequence_cons hh hne, fun next => .cons (hu _) (hes next)⟩

/-- A branch in front of others. -/
theorem alternative_cons {n : Node} {bs : List Node} (hbs : bs ≠ []) :
    alternative (n :: bs) = .alt n (alternative bs) := by
  cases bs with
  | nil => exact absurd rfl hbs
  | cons m r => rfl

theorem rendered_alt {l r : Node} (il : l.Rendered) (ir : r.Rendered) :
    Rendered (.alt l r) := by
  have htext : (Node.alt l r).render
      = render.grouped l l.render ++ " " ++ "|" ++ " " ++ r.render := by
    rw [render, show " | " = " " ++ "|" ++ " " from rfl, ← String.append_assoc,
      ← String.append_assoc]
  have hbegins : StartsWith (Lexeme.stops .gap) (Node.alt l r).render := by
    rw [render, String.append_assoc]
    exact il.begins_grouped.append _
  have hchoice : Writes (Node.alt l r).render (Node.alt l r).AsChoice endsBody := by
    have hbar := (il.sequence.space rfl).operator (s := "|") (.operator (by decide)) (by decide)
    rw [htext]
    refine ((hbar.space (by decide)).append ir.choice ir.begins).imp ?_
    rintro _ ⟨_, v, ⟨u, p, ⟨es, rfl, hes⟩, rfl⟩, ⟨bs, rfl, hbs⟩, rfl⟩
    have hne : bs ≠ [] := by
      cases hbs none with
      | _ => exact List.cons_ne_nil _ _
    -- The branches of the right side go on with the left one, so a choice
    -- that leans to the right needs no parentheses there.
    refine ⟨Node.sequence es :: bs, alternative_cons hne, fun next => ?_⟩
    rw [List.append_assoc]
    exact .cons (hes _) rfl (hbs next)
  -- In parentheses a choice is an element.
  have helement : Writes (render.grouped (.alt l r) (Node.alt l r).render)
      (Node.alt l r).AsElement endsBody := by
    have hgroup := ((writes_delimiter Expr.shape_parenthesis).append_any hchoice).delimiter
      Expr.shape_closing (by decide)
    refine (hgroup.imp ?_).before (fun _ _ => rfl)
    rintro _ ⟨_, q, ⟨_, u, ⟨p, rfl⟩, ⟨bs, hn, hbs⟩, rfl⟩, rfl⟩ next
    rw [← hn]
    exact .group rfl rfl (hbs _) rfl
  exact ⟨hbegins, fun _ _ => helement, helement.imp (fun _ hu => hu.asSequence (.inl rfl)),
    hchoice⟩

/-- **The text of a body writes it back**, if it comes from source and is
shown without loss. -/
theorem Sourced.rendered {n : Node} (h : n.Sourced)
    (hp : ∀ m ∈ n.parts, m.isPrintable = true ∧ m.isUnpointed = true) : Rendered n := by
  induction n with
  | seq h' t ih it =>
    obtain ⟨hh, hne, hs, hst⟩ := h
    have hlast : (!h'.isAction) = true := (hp _ (mem_parts_self _)).1
    exact rendered_seq hh (by simpa using hlast) hne
      (ih hs (fun m hm => hp m (parts_head_subset h' t hm)))
      (it hst (fun m hm => hp m (parts_tail_subset h' t hm)))
  | lone h' => exact h.elim
  | alt l r il ir =>
    exact rendered_alt (il h.1 (fun m hm => hp m (parts_left_subset l r hm)))
      (ir h.2 (fun m hm => hp m (parts_right_subset l r hm)))
  | literal s => exact rendered_literal (hp _ (mem_parts_self _)).1
  | reserved s => exact rendered_reserved h
  | rule s => exact rendered_rule h (hp _ (mem_parts_self _)).1
  | directive d => exact rendered_directive h (hp _ (mem_parts_self _)).1
  | action e =>
    obtain ⟨hprint, hpoint⟩ := hp _ (mem_parts_self _)
    exact rendered_action h hprint hpoint
  | empty => exact rendered_empty

end Node

/-! ## Rules and tables -/

/-- **The text of a rule writes it back.** -/
theorem Rule.writes_render {r : Rule} (hr : Lexeme.Shape .word r.target.toList)
    (hbody : r.body.Rendered) :
    Writes (r.render ++ "\n") (fun u => Source.RuleText standard u r) (Lexeme.stops .gap) := by
  have htext : r.render ++ "\n"
      = r.target ++ " " ++ "::=" ++ " " ++ r.body.render ++ " " ++ ";" ++ "\n" := by
    rw [Rule.render, show " ::= " = " " ++ "::=" ++ " " from rfl,
      show " ;" = " " ++ ";" from rfl]
    simp only [String.append_assoc]
  have hsign := ((writes_word hr).space rfl).operator (s := "::=") (.operator (by decide))
    (by decide)
  have hall := (((hsign.space (by decide)).append hbody.choice hbody.begins).space rfl).delimiter
    (s := ";") (.delimiter (by decide)) (by decide)
  rw [htext]
  refine (hall.append_any (writes_blanks (s := "\n") (.blanks rfl rfl))).imp ?_
  rintro _ ⟨_, _, ⟨_, r', ⟨_, u, ⟨_, q, ⟨p, rfl⟩, rfl⟩, ⟨bs, hbs, hu⟩, rfl⟩, rfl⟩, rfl, rfl⟩
  have hrule : Source.RuleText standard
      (⟨.identifier, r.target, p⟩ :: ⟨.operator, "::=", q⟩ :: (u ++ [⟨.delimiter, ";", r'⟩]))
      ⟨r.target, .alternative bs⟩ := .intro rfl rfl (hu _) rfl
  rw [hbs] at hrule
  simpa using hrule

namespace RuleTable

/-- **The texts of rules, one behind the other, write them back.** -/
theorem scanFrom_render {rs : List Rule}
    (h : ∀ r ∈ rs, Lexeme.Shape .word r.target.toList ∧ r.body.Rendered)
    (place : Nat → Position) (offset : Nat) :
    ∃ c, Token.scanFrom [] place offset
        (String.join (rs.map fun r => r.render ++ "\n")).toList = .ok c
      ∧ Source.RuleTexts standard c.rest rs := by
  induction rs generalizing offset with
  | nil =>
    exact ⟨⟨[], place offset⟩, Token.scanFrom_nil, .nil⟩
  | cons r rs ih =>
    obtain ⟨⟨hr, hbody⟩, hrs⟩ := List.forall_mem_cons.mp h
    -- The next rule begins with its name, so the line break ends before it.
    have hnext : (String.join (rs.map fun r => r.render ++ "\n")).toList.head?.all
        (Lexeme.stops .gap) = true := by
      cases rs with
      | nil => rfl
      | cons r' rs =>
        have hname := begins_of_shape (hrs r' List.mem_cons_self).1 (by decide)
        rw [List.map_cons, String.join_cons, Rule.render]
        simp only [String.append_assoc]
        obtain ⟨c, hc, hok⟩ := (Option.any_eq_true _ _).mp (hname.append _)
        rw [hc]
        exact hok
    obtain ⟨c, hc, hcs⟩ := ih hrs (offset + Text.bytes (r.render ++ "\n").toList)
    obtain ⟨u, hu, hscan⟩ := Rule.writes_render hr hbody place offset _ c hnext hc
    refine ⟨⟨u ++ c.rest, c.finish⟩, ?_, .cons hu hcs⟩
    rw [List.map_cons, String.join_cons, String.toList_append]
    exact hscan

/-- **The source text of a table is read as this table**, if the table was
read from some source text itself, is shown without loss, and has no point
before delimiters in its actions. -/
theorem ofSource_render {source : String} {table : RuleTable}
    (h : ofSource source = .ok table)
    (hprint : ∀ r ∈ table.rules, ∀ n ∈ r.body.parts, n.isPrintable = true)
    (hpoint : ∀ r ∈ table.rules, ∀ n ∈ r.body.parts, n.isUnpointed = true) :
    ofSource table.render = .ok table := by
  unfold ofSource ofSourceWith at h
  split at h
  · cases h
  next c hc =>
  obtain ⟨rs, hrs, hrules⟩ := Source.rulesWithin_sound (Nat.le_refl _) h
  obtain rfl : table.rules = rs := hrules
  have hsourced := hrs.sourced (Token.spelled_of_scanFrom hc)
  have hrendered : ∀ r ∈ table.rules,
      Lexeme.Shape .word r.target.toList ∧ r.body.Rendered := by
    intro r hr
    obtain ⟨hname, hbody⟩ := hsourced r hr
    exact ⟨hname, hbody.rendered (fun n hn => ⟨hprint r hr n hn, hpoint r hr n hn⟩)⟩
  obtain ⟨d, hd, hds⟩ := scanFrom_render hrendered (Lines.ofText table.render.toList).place 0
  obtain ⟨result, hresult, heq⟩ : ∃ result, ofTokens standard d = .ok result
      ∧ result.rules = table.rules := hds.run rfl (Nat.le_refl _) table.nodup
  unfold ofSource ofSourceWith
  rw [show Token.scan [] table.render = .ok d from hd]
  dsimp only
  rw [hresult, eq_of_rules_eq heq]

/-- Choices on either side, an optional part, escapes, a call and an
action. -/
def layered : String :=
  "item ::= ((name | NUMBER) | [\"\\\"\\n\"]) lookahead(NAME, \"\\t\", 3) "
    ++ "\x7b f(a, -b)[i++].c \x7d\n  | precedence(4) ;\nname ::= ;"

/-- The same grammar as it is shown. -/
def layeredText : String :=
  "item ::= ((name | NUMBER) | \"\\\"\\n\" | <empty>) lookahead(NAME, \"\\t\", 3) "
    ++ "\x7b (f((a , (-b)))[(i++)] . c) \x7d | precedence(4) ;\nname ::= <empty> ;\n"

/-- All of it is shown on two lines, and read back from there. -/
theorem ofSource_render_layered :
    ∃ table, ofSource layered = .ok table
      ∧ table.render = layeredText
      ∧ ofSource table.render = .ok table := by
  have hrun : (do
      let table ← (ofSource layered).toOption
      some (table.render, table.rules.all fun r => r.body.parts.all fun n =>
        n.isPrintable && n.isUnpointed))
        = some (layeredText, true) := by
    decide +kernel
  obtain ⟨table, htable, hrun⟩ := Option.bind_eq_some_iff.mp hrun
  rw [Outcome.toOption_eq_some] at htable
  obtain ⟨htext, hall⟩ := Prod.mk.inj (Option.some.inj hrun)
  simp only [List.all_eq_true, Bool.and_eq_true] at hall
  exact ⟨table, htable, htext, ofSource_render htable (fun r hr n hn => (hall r hr n hn).1)
    (fun r hr n hn => (hall r hr n hn).2)⟩

/-- A grammar whose only action has a point before an index. -/
def pointed : String := "r ::= \x7b a.(b[c]) \x7d ;"

/-- **A point before delimiters is lost.** The table is shown without the
parentheses that made the index its right operand, and what is read back
has the point inside of the index. -/
theorem render_pointed :
    ∃ table, ofSource pointed = .ok table
      ∧ (∀ r ∈ table.rules, ∀ n ∈ r.body.parts, n.isPrintable = true)
      ∧ table.render = "r ::= \x7b (a . b[c]) \x7d ;\n"
      ∧ ofSource table.render ≠ .ok table := by
  have hrun : (do
      let table ← (ofSource pointed).toOption
      some (table.render, table.rules.all fun r => r.body.parts.all Node.isPrintable,
        decide (ofSource table.render = .ok table)))
        = some ("r ::= \x7b (a . b[c]) \x7d ;\n", true, false) := by
    decide +kernel
  obtain ⟨table, htable, hrun⟩ := Option.bind_eq_some_iff.mp hrun
  rw [Outcome.toOption_eq_some] at htable
  obtain ⟨htext, hrest⟩ := Prod.mk.inj (Option.some.inj hrun)
  obtain ⟨hall, hne⟩ := Prod.mk.inj hrest
  simp only [List.all_eq_true] at hall
  exact ⟨table, htable, hall, htext, of_decide_eq_false hne⟩

end RuleTable

end Descent
