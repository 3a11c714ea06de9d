import Descent.Proofs.First.Exactness
import Descent.Proofs.Parser.Code

/-!
# Circles that take no token

A rule that calls itself before a token is taken calls itself without end.
Whether it does is up to what stands before the call. Code gets through
an element without a token if the element is empty, an action, a skip
that skips nothing, a look ahead, or a reference to a rule for which that
holds again. `Node.Passable` says so of a body, given **which kinds of
directives code gets through**, and a rule reaches another if all that
stands before the reference can be passed in this sense
(`RuleTable.Reaches`).

FIRST sets go by another notion, on which a look ahead is a label and not
something that can be passed. Where no look ahead is involved the two
agree in one direction, which is the one that matters: **a rule that
reaches itself past skips is refused** (`RuleTable.firstSets_refuses`).
Past a look ahead it is not. The rule `a ::= lookahead("x") a` has a FIRST
set, a parser is made of it, and before the token `x` the parser calls
itself at every depth (`Parser.runWithin_peeking`).
-/

namespace Descent

open Relation (TransGen)

/-- **A body that code can get through without a token**, if it gets
through directives of these kinds. -/
inductive Node.Passable (table : RuleTable) (kinds : List Directive.Kind) : Node → Prop
  | seq {h t : Node} :
    Passable table kinds h → Passable table kinds t → Passable table kinds (.seq h t)
  | lone {h : Node} : Passable table kinds h → Passable table kinds (.lone h)
  | left {l r : Node} : Passable table kinds l → Passable table kinds (.alt l r)
  | right {l r : Node} : Passable table kinds r → Passable table kinds (.alt l r)
  | rule {name : String} {r : Rule} :
    table.get? name = some r → Passable table kinds r.body → Passable table kinds (.rule name)
  | directive {d : Directive} : d.kind ∈ kinds → Passable table kinds (.directive d)
  | action {e : Expr} : Passable table kinds (.action e)
  | empty : Passable table kinds .empty

/-- **A reference that code can come to without a token**: all that stands
before it can be passed. -/
inductive Node.Meets (table : RuleTable) (kinds : List Directive.Kind) : Node → String → Prop
  | head {h t : Node} {name : String} :
    Meets table kinds h name → Meets table kinds (.seq h t) name
  | tail {h t : Node} {name : String} :
    h.Passable table kinds → Meets table kinds t name → Meets table kinds (.seq h t) name
  | lone {h : Node} {name : String} :
    Meets table kinds h name → Meets table kinds (.lone h) name
  | left {l r : Node} {name : String} :
    Meets table kinds l name → Meets table kinds (.alt l r) name
  | right {l r : Node} {name : String} :
    Meets table kinds r name → Meets table kinds (.alt l r) name
  | rule {name : String} : Meets table kinds (.rule name) name

/-- A rule reaches the rules whose references its code can come to without
a token. -/
def RuleTable.Reaches (table : RuleTable) (kinds : List Directive.Kind)
    (name target : String) : Prop :=
  ∃ r, table.get? name = some r ∧ r.body.Meets table kinds target

variable {table : RuleTable} {kinds : List Directive.Kind}

section

variable (hkinds : ∀ k ∈ kinds, k = .error ∨ k = .recover)

include hkinds

/-- What can be passed without looking ahead counts as passed. -/
theorem Node.Passable.nullable {n : Node} (h : n.Passable table kinds) : n.Nullable table := by
  induction h with
  | seq _ _ hh ht => exact .seq hh ht
  | lone _ hh => exact .lone hh
  | left _ hl => exact .left hl
  | right _ hr => exact .right hr
  | rule hr _ hb => exact .rule hr hb
  | directive hd => exact .directive (hkinds _ hd)
  | action => exact .action
  | empty => exact .empty

theorem Node.Meets.exposes {n : Node} {name : String} (h : n.Meets table kinds name) :
    n.Exposes table name := by
  induction h with
  | head _ ih => exact .head ih
  | tail hp _ ih => exact .tail (hp.nullable hkinds) ih
  | lone _ ih => exact .lone ih
  | left _ ih => exact .left ih
  | right _ ih => exact .right ih
  | rule => exact .rule

/-- **A rule that reaches itself without a token is refused**, as long as
it does not look ahead on the way. -/
theorem RuleTable.firstSets_refuses {name : String}
    (h : TransGen (table.Reaches kinds) name name) : ∃ e, table.firstSets = .error e := by
  have hleads : table.Reaches kinds ≤ table.Leads :=
    fun _ _ ⟨r, hr, hmeets⟩ => ⟨r, hr, hmeets.exposes hkinds⟩
  have hcircle : TransGen table.Leads name name := TransGen.mono hleads _ _ h
  cases hsets : table.firstSets with
  | error e => exact ⟨e, rfl⟩
  | ok sets =>
    exact absurd hcircle ((RuleTable.wellFormed_of_firstSets hsets).noLeftRecursion name)

end

/-- Lists that skip to a semicolon before each item. The skip is a rule of
its own, and so is the way back to the list. -/
def RuleTable.skipping : RuleTable where
  rules := [
    ⟨"list", .alt (.seq (.rule "skip") (.rule "more")) (.literal ".")⟩,
    ⟨"skip", .seq (.directive ⟨.recover, [.string ";"]⟩) (.action (.atom .identifier "skipped"))⟩,
    ⟨"more", .seq (.alt (.literal ";") .empty) (.rule "list")⟩]
  nodup := by decide

/-- Skips may skip nothing, so these lists are refused. -/
theorem RuleTable.firstSets_refuses_skipping :
    TransGen (RuleTable.skipping.Reaches [.recover]) "list" "list"
      ∧ ∃ e, RuleTable.skipping.firstSets = .error e := by
  have hskip : (Node.rule "skip").Passable RuleTable.skipping [.recover] :=
    .rule rfl (.seq (.directive (List.mem_singleton_self _)) .action)
  have hmore : RuleTable.skipping.Reaches [.recover] "list" "more" :=
    ⟨_, rfl, .left (.tail hskip .rule)⟩
  have hlist : RuleTable.skipping.Reaches [.recover] "more" "list" :=
    ⟨_, rfl, .tail (.right .empty) .rule⟩
  have hcircle := (TransGen.single hmore).tail hlist
  exact ⟨hcircle, RuleTable.firstSets_refuses (by decide) hcircle⟩

/-! ## Past a look ahead -/

/-- A rule that looks ahead and calls itself. -/
def Grammar.peeking : Grammar where
  rules := ⟨[⟨"a", .seq (.directive ⟨.lookahead, [.string "x"]⟩) (.rule "a")⟩], by decide⟩

/-- The token that the rule looks for. -/
def Cursor.peeked : Cursor where
  rest := [⟨.identifier, "x", .start⟩]
  finish := .start

/-- **The code of the rule never comes to an end** before the token that it
looks for: at every depth it sees the token and calls itself. -/
theorem Parser.runWithin_peeking {p : Parser} {text : String}
    (h : p.code? "a" = some (.seq (.require [.literal "x"] text) (.call "a")))
    (operators : OperatorTable) (depth : Nat) :
    p.runWithin operators depth "a" Cursor.peeked = .error .unfinished Cursor.peeked := by
  induction depth with
  | zero => rfl
  | succ depth ih =>
    have hpeek : (Code.require [.literal "x"] text).run operators
        (p.runWithin operators depth) Cursor.peeked = .ok [] Cursor.peeked := rfl
    have hcall : (Code.call "a").run operators (p.runWithin operators depth) Cursor.peeked
        = .error .unfinished Cursor.peeked := Outcome.run_bind_of_error ih
    rw [Parser.runWithin, h]
    refine Outcome.run_bind_of_error ?_
    exact (Outcome.run_bind_of_ok hpeek).trans (Outcome.run_bind_of_error hcall)

/-- **A rule that reaches itself past a look ahead is not refused.** It
has a FIRST set and a parser, and the parser calls itself without end. -/
theorem Parser.peeking_unfinished :
    TransGen (Grammar.peeking.rules.Reaches [.recover, .lookahead]) "a" "a"
      ∧ (∃ sets, Grammar.peeking.rules.firstSets = .ok sets)
      ∧ ∃ g p, Grammar.peeking.compile = .ok g ∧ g.parser = .ok p
        ∧ ∀ operators depth, p.runWithin operators depth "a" Cursor.peeked
          = .error .unfinished Cursor.peeked := by
  have hreach : Grammar.peeking.rules.Reaches [.recover, .lookahead] "a" "a" :=
    ⟨_, rfl, .tail (.directive (List.mem_cons_of_mem _ (List.mem_singleton_self _))) .rule⟩
  have hsets : Grammar.peeking.rules.firstSets.toOption.isSome = true := by decide +kernel
  have hcode : (do
      let g ← Grammar.peeking.compile.toOption
      let p ← g.parser.toOption
      p.code? "a")
      = some (.seq (.require [.literal "x"] "lookahead(\"x\")") (.call "a")) := by
    decide +kernel
  obtain ⟨sets, hsets⟩ := Option.isSome_iff_exists.mp hsets
  obtain ⟨g, hg, hcode⟩ := Option.bind_eq_some_iff.mp hcode
  obtain ⟨p, hp, hcode⟩ := Option.bind_eq_some_iff.mp hcode
  rw [Outcome.toOption_eq_some] at hsets hg hp
  exact ⟨.single hreach, ⟨sets, hsets⟩, g, p, hg, hp, Parser.runWithin_peeking hcode⟩

end Descent
