import Descent.Proofs.Expr.Reading
import Descent.Proofs.Factoring
import Descent.Proofs.Parser.Code
import Mathlib.Data.List.TakeWhile

/-!
# Generated parsers are sound

A tree that a parser gives back is a reading of the tokens that it took,
**by the rules as they were written**. That takes the rules before
factoring, whereas the parser runs the code of the factored ones; the two
have the same words, so it does not matter from which of them a word is
taken (`Rule.mem_words_factored`).

`Conforms rules operators name tree taken rest` is the reading: under the
node of a rule stands, letter by letter, what some word of its body asks
for, and the tokens of the letters one after the other are the tokens
taken. Each letter also says what it demands of the tokens behind it. An
expression is the one that is read at that place, and the one that is
read from its own tokens alone; a skip ends at an anchor or at the end of
the text; a look ahead sees what it asks for. **No letter stands for a
directive that fails.**
-/

namespace Descent

mutual

/-- **A tree that a rule accounts for**, with the tokens that it stands
for and those behind them. -/
inductive Conforms (rules : RuleTable) (operators : OperatorTable) :
    String → Tree → List Token → List Token → Prop
  | node {name : String} {r : Rule} {word : Word} {children : List Tree}
      {taken rest : List Token} :
    rules.get? name = some r → word ∈ r.body.words →
      Spelled rules operators word children taken rest →
      Conforms rules operators name (.node name children) taken rest

/-- **Children that a word accounts for**, letter by letter. -/
inductive Spelled (rules : RuleTable) (operators : OperatorTable) :
    Word → List Tree → List Token → List Token → Prop
  | nil {rest : List Token} : Spelled rules operators [] [] [] rest
  | cons {n : Node} {word : Word} {xs ys : List Tree} {u v rest : List Token} :
    Stands rules operators n xs u (v ++ rest) → Spelled rules operators word ys v rest →
      Spelled rules operators (n :: word) (xs ++ ys) (u ++ v) rest

/-- **Children that a letter accounts for.** -/
inductive Stands (rules : RuleTable) (operators : OperatorTable) :
    Node → List Tree → List Token → List Token → Prop
  /-- A literal is a token that stands for it. -/
  | literal {s : String} {t : Token} {rest : List Token} :
    t.isLiteral s = true → Stands rules operators (.literal s) [.token t] [t] rest
  /-- A class is a token of that class. -/
  | reserved {s : String} {t : Token} {rest : List Token} :
    t.isReserved s = true → Stands rules operators (.reserved s) [.token t] [t] rest
  /-- A reference is a tree that the rule accounts for. -/
  | rule {name : String} {tree : Tree} {u rest : List Token} :
    Conforms rules operators name tree u rest →
      Stands rules operators (.rule name) [tree] u rest
  /-- A call for an expression is the expression read there, which is the
  one read from its tokens alone. -/
  | precedence {d : Directive} {power : UInt32} {e : Expr} {u rest : List Token} :
    d.kind = .precedence → d.power? = some power →
      (∀ finish, Expr.parse operators power ⟨u ++ rest, finish⟩ = .ok e ⟨rest, finish⟩) →
      (∀ finish, Expr.parse operators power ⟨u, finish⟩ = .ok e ⟨[], finish⟩) →
      Stands rules operators (.directive d) [.expr e] u rest
  /-- A skip is the tokens skipped. None of them is an anchor, and what
  comes next is. -/
  | recover {d : Directive} {u rest : List Token} :
    d.kind = .recover →
      (∀ t ∈ u, ∀ a ∈ d.args, (Code.expectation a).accepts t = false) →
      (∀ t ∈ rest.head?, ∃ a ∈ d.args, (Code.expectation a).accepts t = true) →
      Stands rules operators (.directive d) (u.map .token) u rest
  /-- A look ahead is nothing, where it sees what it asks for. -/
  | lookahead {d : Directive} {rest : List Token} :
    d.kind = .lookahead →
      (∀ finish, (Cursor.mk rest finish).atLookahead (d.args.map Code.expectation) = true) →
      Stands rules operators (.directive d) [] [] rest
  /-- An action is its text. -/
  | action {e : Expr} {rest : List Token} :
    Stands rules operators (.action e) [.action e.render] [] rest

end

variable {rules : RuleTable} {operators : OperatorTable}

/-- One letter is a word. -/
theorem Stands.spelled {n : Node} {xs : List Tree} {u rest : List Token}
    (h : Stands rules operators n xs u rest) : Spelled rules operators [n] xs u rest := by
  rw [← List.append_nil xs, ← List.append_nil u]
  exact .cons h .nil

/-- **Words are spelled one after the other.** -/
theorem Spelled.append : ∀ {w w' : Word} {xs ys : List Tree} {u v rest : List Token},
    Spelled rules operators w xs u (v ++ rest) → Spelled rules operators w' ys v rest →
      Spelled rules operators (w ++ w') (xs ++ ys) (u ++ v) rest
  | _, _, _, _, _, _, _, .nil, h' => h'
  | _, _, _, _, _, _, _, .cons hs h, h' => by
    rw [List.append_assoc, List.append_assoc]
    refine .cons ?_ (h.append h')
    rw [List.append_assoc]
    exact hs

/-- **Children that some word of a body accounts for**, on the way from
one cursor to another. -/
def Node.Accounts (rules : RuleTable) (operators : OperatorTable) (n : Node) (c : Cursor)
    (xs : List Tree) (d : Cursor) : Prop :=
  ∃ w ∈ n.words, ∃ u, c.Takes u d ∧ Spelled rules operators w xs u d.rest

/-- A letter accounts for what stands for it. -/
theorem Stands.accounts {n : Node} {c d : Cursor} {xs : List Tree} {u : List Token}
    (h : Stands rules operators n xs u d.rest) (hn : n.words = [[n]]) (take : c.Takes u d) :
    n.Accounts rules operators c xs d :=
  ⟨[n], by rw [hn]; exact List.mem_singleton_self _, u, take, h.spelled⟩

/-- A body that accounts for nothing taken may be passed. -/
theorem Node.accounts_empty (c : Cursor) : Node.empty.Accounts rules operators c [] c :=
  ⟨[], List.mem_singleton_self _, [], .refl c, .nil⟩

/-- **A sequence accounts for what its parts account for.** -/
theorem Node.Accounts.seq {h t : Node} {c m d : Cursor} {xs ys : List Tree}
    (hh : h.Accounts rules operators c xs m) (ht : t.Accounts rules operators m ys d) :
    (Node.seq h t).Accounts rules operators c (xs ++ ys) d := by
  obtain ⟨w, hw, u, take, hs⟩ := hh
  obtain ⟨w', hw', v, take', hs'⟩ := ht
  refine ⟨w ++ w', Word.mem_concat.mpr ⟨w, hw, w', hw', rfl⟩, u ++ v, take.trans take', ?_⟩
  rw [take'.rest] at hs
  exact hs.append hs'

/-- A choice accounts for what one of its branches accounts for. -/
theorem Node.Accounts.of_branch {n b : Node} {c d : Cursor} {xs : List Tree}
    (hb : b ∈ n.branches) (h : b.Accounts rules operators c xs d) :
    n.Accounts rules operators c xs d := by
  obtain ⟨w, hw, u, take, hs⟩ := h
  exact ⟨w, Node.words_subset_of_mem_branches hb hw, u, take, hs⟩

/-! ## Running code -/

/-- What a skip takes, and where it stops. -/
theorem Parse.recover_eq_ok {anchors : List Expectation} {c d : Cursor} {ts : List Token}
    (h : Parse.recover anchors c = .ok ts d) :
    c.Takes ts d ∧ (∀ t ∈ ts, anchors.any (·.accepts t) = false)
      ∧ ∀ t ∈ d.rest.head?, anchors.any (·.accepts t) = true := by
  obtain ⟨rfl, rfl⟩ := EStateM.Result.ok.inj h
  refine ⟨⟨(List.takeWhile_append_dropWhile).symm, rfl⟩, fun t ht => ?_, fun t ht => ?_⟩
  · have := List.mem_takeWhile_imp ht
    exact (Bool.not_eq_true' _).mp this
  · have := List.head?_dropWhile_not (fun t => !anchors.any (·.accepts t)) c.rest
    rw [Option.mem_def.mp ht] at this
    exact (Bool.not_eq_false' _).mp this

/-- **What a directive accounts for.** One that fails accounts for
nothing, since its code gives nothing. -/
theorem Code.directive_sound {call : String → Run Tree} {d : Directive} {code : Code}
    (hcode : Code.ofDirective d = .ok code) {c c' : Cursor} {xs : List Tree}
    (h : code.run operators call c = .ok xs c') :
    (Node.directive d).Accounts rules operators c xs c' := by
  unfold Code.ofDirective at hcode
  split at hcode
  · next hkind =>
    obtain rfl := Except.ok.inj hcode
    obtain ⟨m, m', hget, h⟩ := Outcome.run_bind_eq_ok.mp h
    obtain ⟨rfl, rfl⟩ := EStateM.Result.ok.inj hget
    by_cases hat : c.atLookahead (d.args.map Code.expectation) = true
    · rw [if_pos hat] at h
      obtain ⟨rfl, rfl⟩ := EStateM.Result.ok.inj h
      exact (Stands.lookahead hkind (fun _ => hat)).accounts rfl (.refl c)
    · rw [if_neg hat] at h
      cases h
  · next hkind =>
    obtain rfl := Except.ok.inj hcode
    obtain ⟨ts, m, hrec, h⟩ := Outcome.run_bind_eq_ok.mp h
    obtain ⟨rfl, rfl⟩ := EStateM.Result.ok.inj h
    obtain ⟨take, hskip, hstop⟩ := Parse.recover_eq_ok (Run.lift_eq_ok.mp hrec)
    refine (Stands.recover hkind (fun t ht a ha => ?_) (fun t ht => ?_)).accounts rfl take
    · exact Bool.eq_false_iff.mpr
        (List.any_eq_false.mp (hskip t ht) _ (List.mem_map_of_mem ha))
    · obtain ⟨e, he, hacc⟩ := List.any_eq_true.mp (hstop t ht)
      obtain ⟨a, ha, rfl⟩ := List.mem_map.mp he
      exact ⟨a, ha, hacc⟩
  · obtain rfl := Except.ok.inj hcode
    cases h
  · next hkind =>
    split at hcode
    · next power hpower =>
      obtain rfl := Except.ok.inj hcode
      obtain ⟨e, m, hparse, h⟩ := Outcome.run_bind_eq_ok.mp h
      obtain ⟨rfl, rfl⟩ := EStateM.Result.ok.inj h
      have hparse := Run.lift_eq_ok.mp hparse
      obtain ⟨u, take, hreads⟩ := Expr.parse_sound hparse
      refine (Stands.precedence hkind hpower (fun finish => ?_) (fun finish => ?_)).accounts
        rfl take
      · exact Expr.Reads.parse_eq (d := ⟨m.rest, finish⟩) hreads ⟨rfl, rfl⟩
      · exact Expr.parse_alone hparse take finish
    · cases hcode

/-- **The code of a body gives children that a word of the body accounts
for**, if calls give trees that their rules account for. -/
theorem Code.ofNode_sound {sets : FirstSets} {call : String → Run Tree}
    (hcall : ∀ {name : String} {c d : Cursor} {tree : Tree}, call name c = .ok tree d →
      ∃ u, c.Takes u d ∧ Conforms rules operators name tree u d.rest)
    (n : Node) : ∀ {code : Code}, Code.ofNode sets n = .ok code →
      ∀ {c d : Cursor} {xs : List Tree}, code.run operators call c = .ok xs d →
        n.Accounts rules operators c xs d := by
  induction n using Node.branchInduction with
  | seq h t hh ht =>
    intro code hcode c d xs hrun
    obtain ⟨ch, ct, hch, hct, rfl⟩ := Code.ofNode_seq.mp hcode
    obtain ⟨ys, m, hys, hrun⟩ := Outcome.run_bind_eq_ok.mp hrun
    obtain ⟨zs, m', hzs, hrun⟩ := Outcome.run_bind_eq_ok.mp hrun
    obtain ⟨rfl, rfl⟩ := EStateM.Result.ok.inj hrun
    exact (hh hch hys).seq (ht hct hzs)
  | lone h hh =>
    intro code hcode c d xs hrun
    exact hh (Code.ofNode_lone.mp hcode) hrun
  | choice n hn hb =>
    intro code hcode c d xs hrun
    obtain ⟨bs, rfl, hbs⟩ := (Code.ofNode_choice hn).mp hcode
    obtain ⟨br, hbr, heq⟩ | heq := Code.run_choice_cases operators call bs c
    · -- Whatever branch is run is a branch of the choice with its own code.
      obtain ⟨b, hmem, -, hbody⟩ := Outcome.exists_of_mem_right hbs hbr
      exact (hb b hmem hbody (heq.symm.trans hrun)).of_branch hmem
    · rw [heq] at hrun
      cases hrun
  | literal s =>
    intro code hcode c d xs hrun
    obtain rfl := Except.ok.inj hcode
    obtain ⟨t, m, ht, hrun⟩ := Outcome.run_bind_eq_ok.mp hrun
    obtain ⟨rfl, rfl⟩ := EStateM.Result.ok.inj hrun
    obtain ⟨take, hlit⟩ := Parse.accept_eq_ok.mp (Run.lift_eq_ok.mp ht)
    exact (Stands.literal hlit).accounts rfl take
  | reserved s =>
    intro code hcode c d xs hrun
    obtain rfl := Except.ok.inj hcode
    obtain ⟨t, m, ht, hrun⟩ := Outcome.run_bind_eq_ok.mp hrun
    obtain ⟨rfl, rfl⟩ := EStateM.Result.ok.inj hrun
    obtain ⟨take, hres⟩ := Parse.accept_eq_ok.mp (Run.lift_eq_ok.mp ht)
    exact (Stands.reserved hres).accounts rfl take
  | rule s =>
    intro code hcode c d xs hrun
    obtain rfl := Except.ok.inj hcode
    obtain ⟨tree, m, ht, hrun⟩ := Outcome.run_bind_eq_ok.mp hrun
    obtain ⟨rfl, rfl⟩ := EStateM.Result.ok.inj hrun
    obtain ⟨u, take, hconf⟩ := hcall ht
    exact (Stands.rule hconf).accounts rfl take
  | directive dir =>
    intro code hcode c d xs hrun
    exact Code.directive_sound (Code.ofNode_directive.mp hcode) hrun
  | action e =>
    intro code hcode c d xs hrun
    obtain rfl := Except.ok.inj hcode
    obtain ⟨rfl, rfl⟩ := EStateM.Result.ok.inj hrun
    exact Stands.action.accounts rfl (.refl c)
  | empty =>
    intro code hcode c d xs hrun
    obtain rfl := Except.ok.inj hcode
    obtain ⟨rfl, rfl⟩ := EStateM.Result.ok.inj hrun
    exact Node.accounts_empty c

/-! ## Running parsers -/

/-- **A rule gives trees that it accounts for as written**, however deep
calls may be nested. -/
theorem Parser.runWithin_conforms {table : RuleTable} {g : Grammar.Compiled} {p : Parser}
    (hf : table.factored = .ok g.rules) (hp : g.parser = .ok p) {depth : Nat} {name : String}
    {c d : Cursor} {tree : Tree} (h : p.runWithin operators depth name c = .ok tree d) :
    ∃ u, c.Takes u d ∧ Conforms table operators name tree u d.rest := by
  induction depth generalizing name c d tree with
  | zero => cases h
  | succ depth ih =>
    unfold Parser.runWithin at h
    cases hcode : p.code? name with
    | none =>
      rw [hcode] at h
      cases h
    | some code =>
      rw [hcode] at h
      obtain ⟨xs, m, hrun, h⟩ := Outcome.run_bind_eq_ok.mp h
      obtain ⟨rfl, rfl⟩ := EStateM.Result.ok.inj h
      obtain ⟨r, hr, hofNode⟩ := (Parser.code?_eq_some hp).mp hcode
      obtain ⟨w, hw, u, take, hs⟩ := Code.ofNode_sound ih r.body hofNode hrun
      -- The word was found in the factored body; it stands in the body as
      -- written too.
      obtain ⟨written, hwritten, hfactored⟩ := RuleTable.get?_factored hf hr
      exact ⟨u, take, .node hwritten ((Rule.mem_words_factored hfactored).mp hw) hs⟩

/-- The goal is done only where nothing is left. -/
theorem Parser.run_eq_ok {p : Parser} {c d : Cursor} {tree : Tree} :
    p.run operators c = .ok tree d
      ↔ p.runRule operators p.goal c = .ok tree d ∧ d.rest = [] := by
  have hfinish : ∀ {m m' : Cursor}, Run.lift Parse.finish m = .ok () m' ↔ m = m' ∧ m.rest = [] := by
    intro m m'
    rw [Run.lift_eq_ok]
    unfold Parse.finish
    constructor
    · intro h
      split at h
      · next hm =>
        cases h
        exact ⟨rfl, hm⟩
      · cases h
    · rintro ⟨rfl, hm⟩
      rw [hm]
  unfold Parser.run
  constructor
  · intro h
    obtain ⟨tree', m, hrun, h⟩ := Outcome.run_bind_eq_ok.mp h
    obtain ⟨_, m', hend, h⟩ := Outcome.run_bind_eq_ok.mp h
    obtain ⟨rfl, hm⟩ := hfinish.mp hend
    obtain ⟨rfl, rfl⟩ := EStateM.Result.ok.inj h
    exact ⟨hrun, hm⟩
  · rintro ⟨hrun, hd⟩
    exact Outcome.run_bind_eq_ok.mpr ⟨tree, d, hrun,
      Outcome.run_bind_eq_ok.mpr ⟨(), d, hfinish.mpr ⟨rfl, hd⟩, rfl⟩⟩

/-- **Generated parsers are sound.** A tree that a rule gives, however
deep calls may be nested, is a node of that rule, and some word of the
rule's body as written accounts for its children letter by letter; the
tokens that the letters stand for are, one after the other, the tokens
that were taken. The parser as a whole gives a tree only if no token is
left, and then all tokens are accounted for by the goal. -/
theorem Parser.run_sound {g : Grammar} {compiled : Grammar.Compiled} {p : Parser}
    (hc : g.compile = .ok compiled) (hp : compiled.parser = .ok p)
    (operators : OperatorTable) :
    (∀ (depth : Nat) (name : String) (c d : Cursor) (tree : Tree),
      p.runWithin operators depth name c = .ok tree d →
        ∃ taken children, c.rest = taken ++ d.rest ∧ tree = .node name children
          ∧ ∃ r word, g.rules.get? name = some r ∧ word ∈ r.body.words
            ∧ Spelled g.rules operators word children taken d.rest)
    ∧ ∀ (c d : Cursor) (tree : Tree), p.run operators c = .ok tree d →
        d.rest = [] ∧ Conforms g.rules operators compiled.goal tree c.rest [] := by
  obtain ⟨-, hf, -, -⟩ := Grammar.compile_eq_ok.mp hc
  obtain ⟨-, hgoal, -⟩ := Grammar.Compiled.parser_eq_ok.mp hp
  constructor
  · intro depth name c d tree h
    obtain ⟨taken, take, hconf⟩ := Parser.runWithin_conforms hf hp h
    cases hconf with
    | node hr hw hs => exact ⟨taken, _, take.rest, rfl, _, _, hr, hw, hs⟩
  · intro c d tree h
    obtain ⟨hrun, hd⟩ := Parser.run_eq_ok.mp h
    obtain ⟨taken, take, hconf⟩ := Parser.runWithin_conforms hf hp hrun
    have htaken : c.rest = taken := by rw [take.rest, hd, List.append_nil]
    rw [hd, ← htaken, hgoal] at hconf
    exact ⟨hd, hconf⟩

/-- Blocks of statements. A binding with a value and one without share
two steps, which factoring takes out; a statement that begins with `!` is
skipped. -/
def Grammar.blocks : Grammar where
  rules := ⟨[
    ⟨"block", .seq (.rule "stmt") (.alt (.rule "block") .empty)⟩,
    ⟨"stmt", .alt
      (.seq (.reserved "LET") (.seq (.reserved "IDENT") (.literal ";")))
      (.alt
        (.seq (.reserved "LET") (.seq (.reserved "IDENT") (.seq (.literal "=")
          (.seq (.directive ⟨.precedence, [.number "0"]⟩)
            (.seq (.literal ";") (.action (.atom .identifier "bind")))))))
        (.seq (.literal "!") (.seq (.directive ⟨.recover, [.string ";"]⟩) (.literal ";"))))⟩],
    by decide⟩

/-- The tokens of `let x = 1 + 2 ; ! 7 ;`, placed nowhere in particular. -/
def Cursor.blocks : Cursor where
  rest := [⟨.reserved, "let", .start⟩, ⟨.identifier, "x", .start⟩, ⟨.operator, "=", .start⟩,
    ⟨.number, "1", .start⟩, ⟨.operator, "+", .start⟩, ⟨.number, "2", .start⟩,
    ⟨.delimiter, ";", .start⟩, ⟨.operator, "!", .start⟩, ⟨.number, "7", .start⟩,
    ⟨.delimiter, ";", .start⟩]
  finish := .start

/-- The parser of blocks reads the two statements, and the rules as
written account for all ten tokens. -/
theorem Parser.run_sound_blocks :
    ∃ compiled p tree d,
      Grammar.blocks.compile = .ok compiled ∧ compiled.parser = .ok p
        ∧ p.run (OperatorTable.empty.insert (.infixLeft "+" 21 11)) Cursor.blocks = .ok tree d
        ∧ tree.render = "(block (stmt let x = (1 + 2) ; \x7b bind \x7d) (block (stmt ! 7 ;)))"
        ∧ d.rest = []
        ∧ Conforms Grammar.blocks.rules (OperatorTable.empty.insert (.infixLeft "+" 21 11))
            compiled.goal tree Cursor.blocks.rest [] := by
  have hrun : (do
      let compiled ← Grammar.blocks.compile.toOption
      let p ← compiled.parser.toOption
      let tree ← (p.run (OperatorTable.empty.insert (.infixLeft "+" 21 11))).run' Cursor.blocks
      some tree.render)
      = some "(block (stmt let x = (1 + 2) ; \x7b bind \x7d) (block (stmt ! 7 ;)))" := by
    decide +kernel
  obtain ⟨compiled, hc, hrun⟩ := Option.bind_eq_some_iff.mp hrun
  obtain ⟨p, hp, hrun⟩ := Option.bind_eq_some_iff.mp hrun
  obtain ⟨tree, htree, hrun⟩ := Option.bind_eq_some_iff.mp hrun
  rw [Outcome.toOption_eq_some] at hc hp
  obtain ⟨d, hok⟩ := Outcome.run'_eq_some.mp htree
  exact ⟨compiled, p, tree, d, hc, hp, hok, Option.some.inj hrun,
    (Parser.run_sound hc hp _).2 _ _ _ hok⟩

end Descent
