import Descent.Proofs.Follow
import Descent.Proofs.Parser.Termination

/-!
# Generated parsers are complete

Whether a parser accepts a list of tokens is one question, and whether the
list is a sentence of the rules as they were written is another. For rules
made of literals and references (`Node.Bare`) the answers are the same,
**if what starts an optional choice never follows it**
(`RuleTable.FirstApartFollow`). That condition is not checked when FIRST
sets are computed: a choice that can be passed takes a token whenever it
can. What follows a body need only be worked out rule by rule, as is done
here for calls with arguments (`RuleTable.eq_of_followed_calls`).

A sentence is read off the factored rules. Where a body is expected and
the tokens are what it yields, its code takes these tokens and no others
(`Parser.code_complete`). The one place where code decides anything is a
choice. If the branch to take yields a token, the token stands for a
literal that starts this branch and no other, so the choice commits to it
(`Code.run_of_branch`). If it yields nothing, the next token is one that
follows the choice, and does not start it; so the choice is passed.

In the other direction an accepted list has a tree, and the tree is one of
the rules as written. Without classes, directives and actions such a tree
is a way to yield the tokens (`Conforms.yields`).
-/

namespace Descent

variable {table : RuleTable}

/-! ## Rules of literals and references -/

/-- Whether a body is a literal, a reference or empty, or made of others. -/
def Node.isBare : Node → Bool
  | .seq _ _ | .lone _ | .alt _ _ | .literal _ | .rule _ | .empty => true
  | .reserved _ | .directive _ | .action _ => false

/-- **A body of literals and references.** -/
def Node.Bare (n : Node) : Prop := ∀ m ∈ n.parts, m.isBare = true

namespace Node.Bare

theorem of_part {n m : Node} (h : n.Bare) (hm : m ∈ n.parts) : m.Bare :=
  fun k hk => h k (Node.parts_trans hm hk)

theorem plain {n : Node} (h : n.Bare) : n.Plain :=
  fun _ hd => Bool.false_ne_true (h _ hd)

theorem noLookahead {n : Node} (h : n.Bare) : n.NoLookahead :=
  fun d hd => absurd hd (h.plain d)

end Node.Bare

/-- Factoring leaves rules of literals and references as such. -/
theorem RuleTable.bare_of_factored {result : RuleTable} (h : table.factored = .ok result)
    (hbare : ∀ r ∈ table.rules, r.body.Bare) : ∀ m ∈ result.rules, m.body.Bare := by
  intro m hm n hn
  have hletter := RuleTable.letters_of_factored h (P := fun n => n.isBare = true)
    (fun r hr n hn _ => hbare r hr n hn) m hm n hn
  cases n with
  | reserved s => exact hletter rfl
  | directive d => exact hletter rfl
  | action e => exact hletter rfl
  | _ => rfl

/-- **Only literals start bodies of literals and references.** -/
theorem Node.First.exists_literal (hrules : ∀ r ∈ table.rules, r.body.Bare) {n : Node}
    {l : Label} (h : n.First table l) (hn : n.Bare) : ∃ s, l = .literal s := by
  obtain ⟨m, hm, hl⟩ := h.exists_element
  have hbare : m.isBare = true := by
    rcases hm with hm | ⟨r, hr, hm⟩
    · exact hn m hm
    · exact hrules r hr m hm
  cases m with
  | literal s => exact ⟨s, (Option.some.inj hl).symm⟩
  | reserved s => cases hbare
  | directive d => cases hbare
  | _ => cases hl

/-! ## Trees of such rules -/

mutual

/-- **The tokens of a tree are what its rule yields.** -/
theorem Conforms.yields {operators : OperatorTable} (hbare : ∀ r ∈ table.rules, r.body.Bare) :
    ∀ {name : String} {tree : Tree} {u rest : List Token},
      Conforms table operators name tree u rest → (Node.rule name).Yields table u
  | _, _, _, _, .node hr hw hs => by
    refine .rule hr (Node.yields_iff_exists_word.mpr
      ⟨_, hw, hs.yieldsAll hbare fun n hn hletter => ?_⟩)
    exact hbare _ (RuleTable.mem_of_get? hr) n
      ((Node.mem_parts_iff_mem_word hletter).mpr ⟨_, hw, hn⟩)

theorem Spelled.yieldsAll {operators : OperatorTable} (hbare : ∀ r ∈ table.rules, r.body.Bare) :
    ∀ {word : Word} {xs : List Tree} {u rest : List Token},
      Spelled table operators word xs u rest →
        (∀ n ∈ word, n.isLetter = true → n.isBare = true) → YieldsAll table word u
  | _, _, _, _, .nil, _ => .nil
  | _, _, _, _, .cons hs h, hword =>
    .cons (hs.yields hbare (hword _ List.mem_cons_self))
      (h.yieldsAll hbare fun n hn => hword n (List.mem_cons_of_mem _ hn))

theorem Stands.yields {operators : OperatorTable} (hbare : ∀ r ∈ table.rules, r.body.Bare) :
    ∀ {n : Node} {xs : List Tree} {u rest : List Token},
      Stands table operators n xs u rest → (n.isLetter = true → n.isBare = true) →
        n.Yields table u
  | _, _, _, _, .literal ht, _ => .literal ht
  | _, _, _, _, .rule hconf, _ => hconf.yields hbare
  | _, _, _, _, .reserved _, hn => absurd (hn rfl) Bool.false_ne_true
  | _, _, _, _, .precedence _ _ _ _, hn => absurd (hn rfl) Bool.false_ne_true
  | _, _, _, _, .recover _ _ _, hn => absurd (hn rfl) Bool.false_ne_true
  | _, _, _, _, .lookahead _ _, hn => absurd (hn rfl) Bool.false_ne_true
  | _, _, _, _, .action, hn => absurd (hn rfl) Bool.false_ne_true

end

/-! ## Choices -/

/-- **What starts a choice that can be passed never follows it**, for all
choices in the rules. -/
def RuleTable.FirstApartFollow (table : RuleTable) (goal : String) : Prop :=
  ∀ n ∈ table.parts, n.isChoice = true → n.Nullable table →
    ∀ s, n.First table (.literal s) → ¬ table.Follows goal n s

/-- **A choice runs the branch that the next token starts.** Branches are
apart and the token stands for one literal, so the choice can commit to no
other. It may commit to none if the branch can be passed, and then this
branch is the fallback. -/
theorem Code.run_of_branch {sets : FirstSets} {operators : OperatorTable}
    {call : String → Run Tree} {n b : Node} {bs : List Branch} {c : Cursor} {t : Token}
    (hbs : List.Forall₂ (fun b br => br.first.Describes table b
      ∧ Code.ofNode sets b = .ok br.body) n.branches bs)
    (hlit : ∀ b ∈ n.branches, ∀ l, b.First table l → ∃ s, l = .literal s)
    (hapart : n.branches.Pairwise (Node.Apart table)) (hb : b ∈ n.branches) {s : String}
    (hfirst : b.First table (.literal s)) (ht : c.current? = some t)
    (hts : t.isLiteral s = true) :
    ∃ br : Branch, Code.ofNode sets b = .ok br.body
      ∧ (Code.choice bs).run operators call c = br.body.run operators call c := by
  have hguard : ∀ b ∈ n.branches, ∀ l, b.First table l → ∀ d, l ≠ .guard d := by
    rintro b hb l hl d rfl
    obtain ⟨s, hs⟩ := hlit b hb _ hl
    cases hs
  have hat : ∀ s', c.atLiteral s' = t.isLiteral s' := by
    intro s'
    unfold Cursor.atLiteral
    rw [ht]
    rfl
  have hrun := Code.run_choice operators call bs c
  cases hcom : Code.committed? operators c bs with
  | some br =>
    obtain ⟨hmem, -, hready⟩ := Code.of_committed? hcom
    obtain ⟨b', hb', hd, hbody⟩ := Outcome.exists_of_mem_right hbs hmem
    obtain ⟨l, hl, hnext⟩ := (Foreseen.ready_iff hd (hguard b' hb')).mp hready
    obtain ⟨s', rfl⟩ := hlit b' hb' l hl
    obtain rfl : s' = s := Token.eq_of_isLiteral ((hat s').symm.trans hnext) hts
    obtain rfl : b' = b := by
      by_contra hne
      exact (hapart.forall hb' hb hne).1 _ ⟨hl, hfirst⟩
    rw [hcom] at hrun
    exact ⟨br, hbody, hrun⟩
  | none =>
    obtain ⟨br, hbody, hfallback⟩ :=
      Foreseen.fallback_of_next hbs hguard hapart hcom hb hfirst ((hat s).trans hts)
    rw [hcom, hfallback] at hrun
    exact ⟨br, hbody, hrun⟩

/-! ## Parsers -/

namespace Parser

variable {g : Grammar.Compiled} {p : Parser}

section

variable (hsets : g.rules.firstSets = .ok g.first) (hp : g.parser = .ok p)
  (hbare : ∀ r ∈ g.rules.rules, r.body.Bare) {operators : OperatorTable}

include hsets hp hbare

/-- The code of every part of a rule is foreseen. -/
theorem code_foreseen {r : Rule} (hr : r ∈ g.rules.rules) {n : Node} (hn : n ∈ r.body.parts)
    {code : Code} (hcode : Code.ofNode g.first n = .ok code) (c : Cursor) :
    Foreseen g.rules n (code.run operators (p.runRule operators)) c := by
  have hplain : ∀ r ∈ g.rules.rules, r.body.Plain := fun r hr => (hbare r hr).plain
  have hclear := ((RuleTable.wellFormed_of_firstSets hsets).clear hr).of_part hn
  have hcall : ∀ name ∈ g.rules.targets, ∀ d,
      Foreseen g.rules (.rule name) (p.runRule operators name) d :=
    fun name hname d => runRule_foreseen hsets hp hplain operators hname d
  refine Code.ofNode_foreseen hsets hplain n hclear ((hplain r hr).of_part hn) hcode c
    (fun name hname d _ => hcall name hname d) fun name he => ?_
  exact hcall name (RuleTable.mem_targets.mpr (hclear.defined name he.mem_parts)) c

/-- A rule gives a tree where its code gives children. -/
theorem runRule_of_code {name : String} {r : Rule} (hr : g.rules.get? name = some r)
    {c d : Cursor} (h : ∀ {code : Code}, Code.ofNode g.first r.body = .ok code →
      ∃ xs, code.run operators (p.runRule operators) c = .ok xs d) :
    ∃ tree, p.runRule operators name c = .ok tree d := by
  obtain ⟨r', code, hr', hcode, hlookup⟩ := exists_code hp (RuleTable.mem_targets.mpr ⟨r, hr⟩)
  rw [hr] at hr'
  cases hr'
  obtain ⟨xs, hxs⟩ := h hcode
  refine ⟨.node name xs, ?_⟩
  rw [runRule_eq hsets hp (fun r hr => (hbare r hr).noLookahead) hlookup]
  exact Outcome.run_bind_of_ok hxs

variable (hfollow : g.rules.FirstApartFollow g.goal)

include hfollow

/-- **A choice that yields nothing is passed** where it is expected: the
next token follows the choice, so it does not start it. -/
theorem choice_passed {n : Node} (hn : n.isChoice = true) (hnull : n.Nullable g.rules)
    {c : Cursor} (hexpected : n.Expected g.rules g.goal c.rest) {code : Code}
    (hcode : Code.ofNode g.first n = .ok code) :
    ∃ xs, code.run operators (p.runRule operators) c = .ok xs c := by
  obtain ⟨r, hr, hpart⟩ := RuleTable.mem_parts.mp hexpected.part
  refine (code_foreseen hsets hp hbare hr hpart hcode c).passes (fun l hl => ?_) hnull
  obtain ⟨s, rfl⟩ := hl.exists_literal hbare ((hbare r hr).of_part hpart)
  rw [← Bool.not_eq_true]
  intro hnext
  obtain ⟨rest, finish⟩ := c
  cases rest with
  | nil => cases hnext
  | cons t rest =>
    obtain ⟨s', hfollows, ht⟩ := hexpected.follows
    obtain rfl : s = s' := Token.eq_of_isLiteral hnext ht
    exact hfollow n hexpected.part hn hnull s hl hfollows

/-- **Code takes what its body yields**, where the body is expected. -/
theorem code_complete {n : Node} {u : List Token} (h : n.Yields g.rules u) :
    ∀ {code : Code}, Code.ofNode g.first n = .ok code → ∀ {c d : Cursor}, c.Takes u d →
      n.Expected g.rules g.goal d.rest →
        ∃ xs, code.run operators (p.runRule operators) c = .ok xs d := by
  induction h with
  | @seq h t u v _ hv hh ht =>
    intro code hcode c d htake hexpected
    obtain ⟨ch, ct, hch, hct, rfl⟩ := Code.ofNode_seq.mp hcode
    obtain ⟨m, htake, htake'⟩ := htake.split
    have hhead : h.Expected g.rules g.goal m.rest := by
      rw [htake'.rest]
      exact hexpected.head hv
    obtain ⟨xs, hxs⟩ := hh hch htake hhead
    obtain ⟨ys, hys⟩ := ht hct htake' hexpected.tail
    exact ⟨xs ++ ys, Outcome.run_bind_eq_ok.mpr ⟨xs, m, hxs,
      Outcome.run_bind_eq_ok.mpr ⟨ys, d, hys, rfl⟩⟩⟩
  | lone _ hh =>
    intro code hcode c d htake hexpected
    exact hh (Code.ofNode_lone.mp hcode) htake hexpected.lone
  | @choice n b u hn hb hyields ih =>
    intro code hcode c d htake hexpected
    cases u with
    | nil =>
      obtain rfl := htake.eq_of_nil
      exact choice_passed hsets hp hbare hfollow hn
        (Node.nullable_iff_branch.mpr ⟨b, hb, hyields.nullable⟩) hexpected hcode
    | cons t u =>
      obtain ⟨r, hr, hpart⟩ := RuleTable.mem_parts.mp hexpected.part
      obtain ⟨bs, rfl, hbs⟩ := (Code.ofNode_choice hn).mp hcode
      obtain ⟨s, hfirst, hts⟩ := hyields.first
      have hbare' := (hbare r hr).of_part hpart
      obtain ⟨br, hbody, hrun⟩ := Code.run_of_branch
        (hbs.imp fun b br hbr => ⟨FirstSets.describes_firstOf hsets hbr.1, hbr.2⟩)
        (fun b hb l hl => hl.exists_literal hbare
          (hbare'.of_part (Node.mem_parts_of_mem_branches hb)))
        ((RuleTable.wellFormed_of_firstSets hsets).apart r hr n hpart hn) hb hfirst
        htake.uncons.1 hts
      rw [hrun]
      exact ih hbody htake (hexpected.branch hn hb)
  | @rule name r u hr _ ih =>
    intro code hcode c d htake hexpected
    obtain rfl := Except.ok.inj hcode
    obtain ⟨tree, htree⟩ := runRule_of_code hsets hp hbare hr fun hcode =>
      ih hcode htake (hexpected.rule hr)
    exact ⟨[tree], Outcome.run_bind_of_ok htree⟩
  | literal ht =>
    intro code hcode c d htake _
    obtain rfl := Except.ok.inj hcode
    exact ⟨_, Outcome.run_bind_of_ok
      (Run.lift_eq_ok.mpr (Parse.accept_eq_ok.mpr ⟨htake, ht⟩))⟩
  | empty =>
    intro code hcode c d htake _
    obtain rfl := Except.ok.inj hcode
    obtain rfl := htake.eq_of_nil
    exact ⟨[], rfl⟩

/-- **A rule takes its sentences.** -/
theorem runRule_complete {c : Cursor} (h : (Node.rule g.goal).Yields g.rules c.rest) :
    ∃ tree d, p.runRule operators g.goal c = .ok tree d ∧ d.rest = [] := by
  cases h with
  | choice hn => cases hn
  | rule hr h =>
    obtain ⟨tree, htree⟩ := runRule_of_code hsets hp hbare (d := ⟨[], c.finish⟩) hr fun hcode =>
      code_complete hsets hp hbare hfollow h hcode ⟨(List.append_nil _).symm, rfl⟩ (.start hr)
    exact ⟨tree, _, htree, rfl⟩

end

/-- **Generated parsers are complete**, and sound: for a grammar of literals
and references in which nothing that starts an optional choice follows it,
there is a parser, and it accepts exactly the sentences of the goal in the
grammar as written. -/
theorem accepts_iff_sentence {source : Grammar} (hc : source.compile = .ok g)
    (hbare : ∀ r ∈ source.rules.rules, r.body.Bare)
    (hfollow : g.rules.FirstApartFollow g.goal) :
    ∃ p, g.parser = .ok p ∧ ∀ (operators : OperatorTable) (c : Cursor),
      (∃ tree d, p.run operators c = .ok tree d) ↔ source.rules.Sentence g.goal c.rest := by
  obtain ⟨-, hfactored, hsets, -⟩ := Grammar.compile_eq_ok.mp hc
  have hbare' := RuleTable.bare_of_factored hfactored hbare
  obtain ⟨p, hp⟩ := parser_ok_of_plain hsets fun r hr => (hbare' r hr).plain
  obtain ⟨-, hgoal, -⟩ := Grammar.Compiled.parser_eq_ok.mp hp
  refine ⟨p, hp, fun operators c => ?_⟩
  simp only [run_eq_ok, hgoal, RuleTable.sentence_iff]
  constructor
  · rintro ⟨tree, d, hrun, hd⟩
    obtain ⟨u, htake, hconforms⟩ := runWithin_conforms hfactored hp hrun
    have hrest := htake.rest
    rw [hd, List.append_nil] at hrest
    rw [hrest]
    exact hconforms.yields hbare
  · intro h
    exact runRule_complete hsets hp hbare' hfollow (h.factored hfactored)

end Parser

/-! ## Calls with arguments -/

/-- Calls with one argument or more, separated by commas. -/
def Grammar.calls : Grammar where
  rules := {
    rules := [
      ⟨"call", .seq (.literal "f") (.seq (.literal "(") (.seq (.rule "args") (.literal ")")))⟩,
      ⟨"args", .alt (.seq (.literal "x") (.seq (.literal ",") (.rule "args"))) (.literal "x")⟩]
    nodup := by decide }

/-- The rules of calls, factored: arguments may go on behind each. -/
def RuleTable.calls : RuleTable where
  rules := [
    ⟨"call", .seq (.literal "f") (.seq (.literal "(") (.seq (.rule "args") (.literal ")")))⟩,
    ⟨"args", .seq (.literal "x") (.alt (.seq (.literal ",") (.rule "args")) .empty)⟩]
  nodup := by decide

/-- Arguments, and the bodies that they may end with. -/
def RuleTable.argumentEnds : List Node := [
  .rule "args", .seq (.literal "x") (.alt (.seq (.literal ",") (.rule "args")) .empty),
  .alt (.seq (.literal ",") (.rule "args")) .empty, .seq (.literal ",") (.rule "args")]

/-- Arguments stand before the closing parenthesis or at an end of
arguments. -/
theorem RuleTable.mem_argumentEnds_of_seq {h t : Node} (hs : .seq h t ∈ RuleTable.calls.parts) :
    (h ∈ argumentEnds → t = .literal ")") ∧ (t ∈ argumentEnds → .seq h t ∈ argumentEnds) := by
  simp only [parts, calls, List.flatMap_cons, Node.parts, List.cons_append, List.nil_append,
    List.flatMap_nil, List.append_nil, List.mem_cons, Node.seq.injEq, reduceCtorEq,
    List.not_mem_nil, or_self, or_false, false_or] at hs
  rcases hs with ⟨rfl, rfl⟩ | ⟨rfl, rfl⟩ | ⟨rfl, rfl⟩ | ⟨rfl, rfl⟩ | ⟨rfl, rfl⟩ <;> decide

/-- Arguments are followed by the closing parenthesis only. -/
theorem RuleTable.eq_of_followed_calls {n : Node} {s : String}
    (h : n.Followed RuleTable.calls s) (hn : n ∈ argumentEnds) : s = ")" := by
  induction h with
  | next hpart hfirst =>
    obtain rfl := (mem_argumentEnds_of_seq hpart).1 hn
    cases hfirst
    rfl
  | head hpart hnull =>
    obtain rfl := (mem_argumentEnds_of_seq hpart).1 hn
    cases hnull
  | tail hpart _ ih => exact ih ((mem_argumentEnds_of_seq hpart).2 hn)
  | lone hpart => simp [calls, parts, Node.parts] at hpart
  | branch hpart hb _ ih =>
    have hclosed : ∀ n ∈ RuleTable.calls.parts, ∀ b ∈ n.branches,
        b ∈ argumentEnds → n ∈ argumentEnds := by decide
    exact ih (hclosed _ hpart _ hb hn)
  | rule hr _ ih =>
    have hclosed : ∀ r ∈ RuleTable.calls.rules, r.body ∈ argumentEnds →
        .rule r.target ∈ argumentEnds := by decide
    have hmem := hclosed _ (RuleTable.mem_of_get? hr) hn
    rw [RuleTable.target_of_get? hr] at hmem
    exact ih hmem

/-- The tokens of `f ( x , x )`. -/
def Cursor.calls : Cursor where
  rest := [⟨.identifier, "f", .start⟩, ⟨.delimiter, "(", .start⟩, ⟨.identifier, "x", .start⟩,
    ⟨.delimiter, ",", .start⟩, ⟨.identifier, "x", .start⟩, ⟨.delimiter, ")", .start⟩]
  finish := .start

/-- Factoring the rules of calls makes a choice that can be passed, of
whether there is one more argument. It starts with a comma and is followed
by a closing parenthesis. So the parser accepts the sentences of the rules
as written, and `f ( x , x )` is one. -/
theorem Parser.accepts_iff_sentence_calls :
    ∃ g p, Grammar.calls.compile = .ok g ∧ g.parser = .ok p
      ∧ (∀ r ∈ Grammar.calls.rules.rules, r.body.Bare)
      ∧ g.rules = RuleTable.calls ∧ g.rules.FirstApartFollow g.goal
      ∧ (∀ (operators : OperatorTable) (c : Cursor), (∃ tree d, p.run operators c = .ok tree d)
        ↔ Grammar.calls.rules.Sentence g.goal c.rest)
      ∧ Grammar.calls.rules.Sentence g.goal Cursor.calls.rest := by
  have hrun : (do
      let g ← Grammar.calls.compile.toOption
      let p ← g.parser.toOption
      let tree ← (p.run .empty).run' Cursor.calls
      some (g.rules, tree.tokens)) = some (RuleTable.calls, Cursor.calls.rest) := by
    decide +kernel
  obtain ⟨g, hg, hrun⟩ := Option.bind_eq_some_iff.mp hrun
  obtain ⟨p, hp, hrun⟩ := Option.bind_eq_some_iff.mp hrun
  obtain ⟨tree, htree, hrun⟩ := Option.bind_eq_some_iff.mp hrun
  obtain ⟨hrules, -⟩ := Prod.mk.inj (Option.some.inj hrun)
  rw [Outcome.toOption_eq_some] at hg hp
  have hbare : ∀ r ∈ Grammar.calls.rules.rules, r.body.Bare := by
    unfold Node.Bare
    decide
  have hfollow : g.rules.FirstApartFollow g.goal := by
    rw [hrules]
    intro n hn hchoice _ s hfirst hfollows
    have hmem : ∀ n ∈ RuleTable.calls.parts, n.isChoice = true →
        n = .alt (.seq (.literal ",") (.rule "args")) .empty := by decide
    obtain rfl := hmem n hn hchoice
    obtain rfl := RuleTable.eq_of_followed_calls hfollows.followed (by decide)
    rcases Node.first_alt.mp hfirst with hfirst | hfirst
    · rcases Node.first_seq.mp hfirst with hfirst | ⟨hnull, -⟩
      · exact absurd (Node.first_literal.mp hfirst) (by decide)
      · cases hnull
    · cases hfirst
  obtain ⟨p', hp', haccepts⟩ := Parser.accepts_iff_sentence hg hbare hfollow
  obtain rfl : p' = p := Except.ok.inj (hp'.symm.trans hp)
  refine ⟨g, p', hg, hp, hbare, hrules, hfollow, haccepts, ?_⟩
  obtain ⟨d, hd⟩ := Outcome.run'_eq_some.mp htree
  exact (haccepts .empty Cursor.calls).mp ⟨tree, d, hd⟩

end Descent
