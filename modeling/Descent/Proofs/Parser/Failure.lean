import Descent.Proofs.Expr.Opening
import Descent.Proofs.Parser.Termination

/-!
# Failures tell where they happen

A failure is made in one place and reported in another. It is made where
something is missing – a token, an operand, a closing delimiter, a branch
to go on with – and then it is handed up through all rules and all
operators that are under way. None of them goes back or on to other
tokens, and none makes a new failure of it. So **a failure tells of the
cursor that is left behind**: of the first token that was not taken, or of
the end of the text (`Cursor.FailsAt`).

Expressions have this because they are read forward (`Expr.Forward`). For
the code of rules it is shown step by step (`Run.Tells`): every piece of
code takes tokens from the front, and if it stops with a failure, it stops
where the failure is. That carries over to any depth of calls, and with it
to whole parsers (`Parser.failures_tell`).
-/

namespace Descent

/-- **From the first cursor on the reading fails at the second.** -/
structure Cursor.FailsAt (c : Cursor) (e : ParseError) (d : Cursor) : Prop where
  /-- What was taken stood in front of what is left. -/
  taken : ∃ u, c.Takes u d
  /-- The failure has the place of the first token left, or of the end. -/
  position : e.position = d.position
  /-- What it says was found is the first token left, or the end. -/
  found : ∀ {what : String} {found : Option String} {place : Position},
    e = .expected what found place →
      ParseError.foundText found = (d.current?.map Token.render).getD "end of input"

namespace Cursor

variable {c m d : Cursor} {e : ParseError}

/-! ## Failures on the spot -/

theorem failsAt_expected (c : Cursor) (what : String) : c.FailsAt (c.expected what) c where
  taken := ⟨[], .refl c⟩
  position := rfl
  found h := by
    cases h
    cases c.current? with
    | none => rfl
    | some t => rfl

theorem failsAt_unimplemented (c : Cursor) (spelling : String) :
    c.FailsAt (c.unimplemented spelling) c where
  taken := ⟨[], .refl c⟩
  position := rfl
  found := nofun

theorem failsAt_fail (c : Cursor) (message : String) : c.FailsAt (c.fail message) c where
  taken := ⟨[], .refl c⟩
  position := rfl
  found := nofun

/-- **What was taken before makes no difference to a failure.** -/
theorem FailsAt.after {u : List Token} (h : m.FailsAt e d) (take : c.Takes u m) :
    c.FailsAt e d where
  taken := by
    obtain ⟨v, take'⟩ := h.taken
    exact ⟨u ++ v, take.trans take'⟩
  position := h.position
  found := h.found

theorem FailsWith.failsAt (h : d.FailsWith e) : d.FailsAt e d := by
  cases h with
  | expected what => exact failsAt_expected d what
  | unimplemented spelling => exact failsAt_unimplemented d spelling

end Cursor

/-! ## Expressions -/

/-- **An expression fails where its reading ends**, whatever is made of its
parts. -/
theorem Expr.read_failsAt {σ α : Type} {table : OperatorTable} {actions : Actions σ α}
    {min : UInt32} {s t : Cursor × σ} {e : ParseError}
    (h : read table actions min s = .error e t) : s.1.FailsAt e t.1 := by
  obtain ⟨⟨u, -, take⟩, hfails⟩ := (forward_expression min s).read.of_error h
  exact hfails.failsAt.after take

/-! ## Runs -/

/-- **A run that tells where it fails**: it takes tokens from the front, and
if it stops, then with a failure where it stands or because calls are
nested too deep. -/
def Run.Tells {α : Type} (x : Run α) (c : Cursor) : Prop :=
  Outcome.Ends x c (fun _ d => ∃ u, c.Takes u d)
    (fun h d => h = .unfinished ∨ ∃ e, h = .failed e ∧ c.FailsAt e d)

namespace Run.Tells

variable {α β : Type} {x : Run α} {c : Cursor}

theorem of_run_eq {y : Run α} (h : Tells x c) (hy : y c = x c) : Tells y c := by
  unfold Tells Outcome.Ends
  rw [hy]
  exact h

theorem pure (a : α) (c : Cursor) : Tells (Pure.pure a) c := ⟨[], .refl c⟩

theorem fail {error : Cursor → ParseError} (h : ∀ c : Cursor, c.FailsAt (error c) c)
    (c : Cursor) : Tells (Run.fail error : Run α) c :=
  .inr ⟨error c, rfl, h c⟩

/-- **Step after step**: the second one goes on where the first one stands. -/
theorem bind {f : α → Run β} (h : Tells x c) (hf : ∀ a d, Tells (f a) d) :
    Tells (x >>= f) c := by
  refine Outcome.Ends.bind h ?_ (fun _ _ => id)
  rintro a m ⟨u, take⟩
  refine (hf a m).mono ?_ ?_
  · rintro b d ⟨v, take'⟩
    exact ⟨u ++ v, take.trans take'⟩
  · rintro h d (rfl | ⟨e, rfl, hfails⟩)
    · exact .inl rfl
    · exact .inr ⟨e, rfl, hfails.after take⟩

theorem map (h : Tells x c) (f : α → β) : Tells (x >>= fun a => Pure.pure (f a)) c :=
  h.bind fun a d => pure (f a) d

/-- A reader of tokens as a run. -/
theorem lift {q : Parse α}
    (h : Outcome.Ends q c (fun _ d => ∃ u, c.Takes u d) (fun e d => c.FailsAt e d)) :
    Tells (Run.lift q) c := by
  unfold Tells
  rw [Outcome.ends_iff]
  cases hq : q c with
  | ok a d =>
    rw [Run.lift_eq_ok.mpr hq]
    refine ⟨fun b d' hb => ?_, nofun⟩
    cases hb
    exact h.of_ok hq
  | error e d =>
    rw [Run.lift_of_error hq]
    refine ⟨nofun, fun h' d' hd => ?_⟩
    cases hd
    exact .inr ⟨e, rfl, h.of_error hq⟩

theorem accept (test : Token → Bool) (what : String) (c : Cursor) :
    Tells (Run.lift (Parse.accept test what)) c := by
  refine lift ?_
  unfold Outcome.Ends
  cases h : c.current?.any test with
  | true =>
    obtain ⟨t, ht, htest⟩ := (Option.any_eq_true _ _).mp h
    have take := Cursor.takes_advance ht
    rw [Parse.accept_eq_ok.mpr ⟨take, htest⟩]
    exact ⟨[t], take⟩
  | false =>
    rw [Parse.accept_of_not h]
    exact c.failsAt_expected what

theorem recover (anchors : List Expectation) (c : Cursor) :
    Tells (Run.lift (Parse.recover anchors)) c := by
  refine lift (Outcome.ends_iff.mpr ⟨fun ts d hts => ?_, nofun⟩)
  exact ⟨ts, (Parse.recover_eq_ok hts).1⟩

theorem expression (operators : OperatorTable) (power : UInt32) (c : Cursor) :
    Tells (Run.lift (Expr.parse operators power)) c := by
  refine lift (Expr.ends_parse.mpr (Outcome.ends_iff.mpr ⟨fun e s hs => ?_, fun e s hs => ?_⟩))
  · obtain ⟨u, -, take⟩ := (Expr.forward_expression power (c, ())).read.of_ok hs
    exact ⟨u, take⟩
  · exact Expr.read_failsAt hs

/-- Asking for the end of the text fails at the first token left. -/
theorem finish (c : Cursor) : Tells (Run.lift Parse.finish) c := by
  refine lift ?_
  unfold Outcome.Ends Parse.finish
  cases c.rest with
  | nil => exact ⟨[], .refl c⟩
  | cons t rest => exact c.failsAt_expected _

end Run.Tells

/-! ## Code -/

namespace Code

variable {operators : OperatorTable} {call : String → Run Tree}

/-- **Directives tell where they fail**, of whatever kind they are. -/
theorem directive_tells {d : Directive} {code : Code} (hcode : ofDirective d = .ok code)
    (c : Cursor) : Run.Tells (code.run operators call) c := by
  unfold ofDirective at hcode
  split at hcode
  · obtain rfl := Except.ok.inj hcode
    show Run.Tells (if c.atLookahead (d.args.map expectation) then pure []
      else Run.fail (·.expectedOneOf [d.render]) : Run (List Tree)) c
    split
    · exact .pure [] c
    · exact .fail (fun c => c.failsAt_expected _) c
  · obtain rfl := Except.ok.inj hcode
    exact (Run.Tells.recover _ c).map _
  · obtain rfl := Except.ok.inj hcode
    exact .fail (fun c => c.failsAt_fail _) c
  · split at hcode
    · next power _ =>
      obtain rfl := Except.ok.inj hcode
      exact (Run.Tells.expression operators power c).map _
    · cases hcode

/-- **A choice tells where it fails** if its branches do. The failure of
finding no branch is made where the choice stands. -/
theorem choice_tells {bs : List Branch} {c : Cursor}
    (h : ∀ br ∈ bs, Run.Tells (br.body.run operators call) c) :
    Run.Tells ((choice bs).run operators call) c := by
  obtain ⟨br, hbr, hrun⟩ | hrun := run_choice_cases operators call bs c
  · exact (h br hbr).of_run_eq hrun
  · have hfail : Run.Tells (Run.fail (·.expectedOneOf (labels bs)) : Run (List Tree)) c :=
      .fail (fun c => c.failsAt_expected _) c
    exact hfail.of_run_eq hrun

/-- **The code of a body tells where it fails** if its calls do. -/
theorem ofNode_tells {sets : FirstSets} (n : Node) :
    (∀ name, .rule name ∈ n.parts → ∀ d, Run.Tells (call name) d) →
      ∀ {code : Code}, ofNode sets n = .ok code →
        ∀ c, Run.Tells (code.run operators call) c := by
  induction n using Node.branchInduction with
  | seq h t hh ht =>
    intro hcall code hcode c
    obtain ⟨ch, ct, hch, hct, rfl⟩ := ofNode_seq.mp hcode
    have hhead := hh (fun name hname => hcall name (Node.parts_head_subset h t hname)) hch
    have htail := ht (fun name hname => hcall name (Node.parts_tail_subset h t hname)) hct
    exact (hhead c).bind fun xs d => (htail d).map _
  | lone h hh =>
    intro hcall code hcode c
    exact hh (fun name hname => hcall name (Node.parts_lone_subset h hname))
      (ofNode_lone.mp hcode) c
  | choice n hn hb =>
    intro hcall code hcode c
    obtain ⟨bs, rfl, hbs⟩ := (ofNode_choice hn).mp hcode
    refine choice_tells fun br hbr => ?_
    obtain ⟨b, hmem, -, hbody⟩ := Outcome.exists_of_mem_right hbs hbr
    have hpart := Node.mem_parts_of_mem_branches hmem
    exact hb b hmem (fun name hname => hcall name (Node.parts_trans hpart hname)) hbody c
  | literal s =>
    intro _ code hcode c
    obtain rfl := Except.ok.inj hcode
    exact (Run.Tells.accept _ _ c).map _
  | reserved s =>
    intro _ code hcode c
    obtain rfl := Except.ok.inj hcode
    exact (Run.Tells.accept _ _ c).map _
  | rule s =>
    intro hcall code hcode c
    obtain rfl := Except.ok.inj hcode
    exact (hcall s (Node.mem_parts_self _) c).map _
  | directive d =>
    intro _ code hcode c
    exact directive_tells (ofNode_directive.mp hcode) c
  | action e =>
    intro _ code hcode c
    obtain rfl := Except.ok.inj hcode
    exact .pure _ c
  | empty =>
    intro _ code hcode c
    obtain rfl := Except.ok.inj hcode
    exact .pure _ c

end Code

/-! ## Parsers -/

namespace Parser

variable {g : Grammar.Compiled} {p : Parser}

/-- **Rules tell where they fail**, however deep calls may be nested. -/
theorem runWithin_tells (hsets : g.rules.firstSets = .ok g.first) (hp : g.parser = .ok p)
    (operators : OperatorTable) (depth : Nat) {name : String} (hname : name ∈ g.rules.targets)
    (c : Cursor) : Run.Tells (p.runWithin operators depth name) c := by
  induction depth generalizing name c with
  | zero => exact .inl rfl
  | succ depth ih =>
    obtain ⟨r, code, hr, hcode, hlookup⟩ := exists_code hp hname
    have hdefined := (RuleTable.wellFormed_of_firstSets hsets).defined r
      (RuleTable.mem_of_get? hr)
    rw [runWithin_succ hlookup]
    refine (Code.ofNode_tells r.body (fun target htarget d => ?_) hcode c).map _
    exact ih (RuleTable.mem_targets.mpr (hdefined target htarget)) d

/-- **Parsers tell where they fail**: the goal does, and so does asking for
the end behind it. -/
theorem run_tells (hsets : g.rules.firstSets = .ok g.first) (hp : g.parser = .ok p)
    (operators : OperatorTable) (hgoal : p.goal ∈ g.rules.targets) (c : Cursor) :
    Run.Tells (p.run operators) c := by
  have hrule : Run.Tells (p.runRule operators p.goal) c :=
    (runWithin_tells hsets hp operators _ hgoal c).of_run_eq rfl
  exact hrule.bind fun tree d => (Run.Tells.finish d).map fun _ => tree

/-- **Failures tell where they happen.** A rule of a generated parser that
stops, however deep calls may be nested, and likewise the parser as a
whole, stops with a failure of parsing or because calls are nested too
deep. The failure has the place of the first token that was not taken, or
of the end of the text, and what it says was found there is that token or
the end; what was taken is the front of what was there. The same holds of
reading expressions, with any operators and whatever is made of them. -/
theorem failures_tell (operators : OperatorTable) :
    (∀ (source : Grammar) (g : Grammar.Compiled) (p : Parser),
      source.compile = .ok g → g.parser = .ok p →
      (∀ name ∈ source.rules.targets, ∀ (depth : Nat) (c d : Cursor) (h : Halt),
        p.runWithin operators depth name c = .error h d →
          h = .unfinished ∨ ∃ e, h = .failed e ∧ c.FailsAt e d)
      ∧ ∀ (c d : Cursor) (h : Halt), p.run operators c = .error h d →
          h = .unfinished ∨ ∃ e, h = .failed e ∧ c.FailsAt e d)
    ∧ ∀ (σ α : Type) (actions : Expr.Actions σ α) (min : UInt32) (s t : Cursor × σ)
        (e : ParseError), Expr.read operators actions min s = .error e t →
        s.1.FailsAt e t.1 := by
  refine ⟨fun source g p hc hp => ?_, fun σ α actions min s t e => Expr.read_failsAt⟩
  obtain ⟨-, hfactored, hsets, goal, hgoal, hname⟩ := Grammar.compile_eq_ok.mp hc
  obtain ⟨-, hstart, -⟩ := Grammar.Compiled.parser_eq_ok.mp hp
  have htargets := RuleTable.targets_factored hfactored
  have hmem : p.goal ∈ g.rules.targets := by
    rw [hstart, hname, htargets]
    exact List.mem_map_of_mem (Grammar.mem_of_goal hgoal)
  constructor
  · intro name hname depth c d h hrun
    rw [← htargets] at hname
    have htells : Run.Tells (p.runWithin operators depth name) c :=
      runWithin_tells hsets hp operators depth hname c
    exact htells.of_error hrun
  · intro c d h hrun
    have htells : Run.Tells (p.run operators) c := run_tells hsets hp operators hmem c
    exact htells.of_error hrun

/-- The tokens of `let x = 1 + ;`, each in its place. -/
def dangling : Cursor where
  rest := [⟨.reserved, "let", ⟨0, 1, 1⟩⟩, ⟨.identifier, "x", ⟨4, 1, 5⟩⟩,
    ⟨.operator, "=", ⟨6, 1, 7⟩⟩, ⟨.number, "1", ⟨8, 1, 9⟩⟩, ⟨.operator, "+", ⟨10, 1, 11⟩⟩,
    ⟨.delimiter, ";", ⟨12, 1, 13⟩⟩]
  finish := ⟨13, 1, 14⟩

/-- The parser of blocks fails on `let x = 1 + ;` where the right operand is
missing, with the semicolon left. So do the rule of statements and the
reading of the expression. -/
theorem failures_tell_dangling :
    ∃ g p e d, Grammar.blocks.compile = .ok g ∧ g.parser = .ok p
      ∧ p.run .standard dangling = .error (.failed e) d
      ∧ p.runWithin .standard 1 "stmt" dangling = .error (.failed e) d
      ∧ Expr.read .standard Expr.tree 0 (⟨dangling.rest.drop 3, dangling.finish⟩, ())
        = .error e (d, ())
      ∧ e.message = "1:13: expected expression, found `;`"
      ∧ d.rest = [⟨.delimiter, ";", ⟨12, 1, 13⟩⟩]
      ∧ dangling.FailsAt e d
      ∧ Cursor.FailsAt ⟨dangling.rest.drop 3, dangling.finish⟩ e d := by
  let e : ParseError := .expected "expression" (some ";") ⟨12, 1, 13⟩
  let d : Cursor := ⟨[⟨.delimiter, ";", ⟨12, 1, 13⟩⟩], ⟨13, 1, 14⟩⟩
  have hruns : (do
      let g ← Grammar.blocks.compile.toOption
      let p ← g.parser.toOption
      some (Outcome.failure? (p.run .standard dangling),
        Outcome.failure? (p.runWithin .standard 1 "stmt" dangling)))
      = some (some (.failed e, d), some (.failed e, d)) := by
    decide +kernel
  have hread : Outcome.failure?
      (Expr.read .standard Expr.tree 0 (⟨dangling.rest.drop 3, dangling.finish⟩, ()))
      = some (e, (d, ())) := by
    decide +kernel
  obtain ⟨g, hg, hruns⟩ := Option.bind_eq_some_iff.mp hruns
  obtain ⟨p, hp, hruns⟩ := Option.bind_eq_some_iff.mp hruns
  rw [Outcome.toOption_eq_some] at hg hp
  obtain ⟨hrun, hrule⟩ := Prod.mk.inj (Option.some.inj hruns)
  rw [Outcome.failure?_eq_some] at hrun hrule hread
  obtain ⟨hparser, hexpr⟩ := failures_tell .standard
  obtain hunfinished | ⟨e', he, hfails⟩ :=
    (hparser Grammar.blocks g p hg hp).1 "stmt" (by decide) 1 dangling d _ hrule
  · cases hunfinished
  · cases he
    exact ⟨g, p, e, d, hg, hp, hrun, hrule, hread, by decide +kernel, rfl, hfails,
      hexpr _ _ _ _ _ _ _ hread⟩

end Parser

end Descent
