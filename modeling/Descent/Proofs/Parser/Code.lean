import Descent.Parser.Run
import Descent.Proofs.Outcome

/-!
# What code does

The code of a body is made branch by branch. Here is what that amounts
to, one statement for each shape of a body: the code of a sequence is
that of its parts one after the other, the code of a choice is the chain
of tests over the codes of its branches (`Code.ofNode_choice`), and the
code of a rule is the code of its body (`Parser.code?_eq_some`).

A chain of tests runs **the first branch that must take a token and one
of whose guards holds, and the fallback if there is none**
(`Code.run_choice`).

Choices are flattened on the way, so an induction over a body that is to
follow the code needs the statement for every branch of a choice and not
for its two sides. `Node.branchInduction` is that induction.
-/

namespace Descent

namespace Node

/-- **Induction over a body by branches**: a choice is reached from all
of its branches at once. -/
theorem branchInduction {motive : Node → Prop}
    (seq : ∀ h t, motive h → motive t → motive (.seq h t))
    (lone : ∀ h, motive h → motive (.lone h))
    (choice : ∀ n, n.isChoice = true → (∀ b ∈ n.branches, motive b) → motive n)
    (literal : ∀ s, motive (.literal s)) (reserved : ∀ s, motive (.reserved s))
    (rule : ∀ s, motive (.rule s)) (directive : ∀ d, motive (.directive d))
    (action : ∀ e, motive (.action e)) (empty : motive .empty) (n : Node) : motive n := by
  have self : ∀ {n : Node}, n.isChoice = false → motive n →
      motive n ∧ ∀ b ∈ n.branches, motive b := by
    intro n hn h
    refine ⟨h, fun b hb => ?_⟩
    rw [branches_of_not_choice hn] at hb
    exact List.mem_singleton.mp hb ▸ h
  -- The statement is shown of a body and of its branches at once, so that
  -- the sides of a choice hand on those of their branches.
  have both : motive n ∧ ∀ b ∈ n.branches, motive b := by
    induction n with
    | seq h t hh ht => exact self rfl (seq h t hh.1 ht.1)
    | lone h hh => exact self rfl (lone h hh.1)
    | alt l r hl hr =>
      have hall : ∀ b ∈ (alt l r).branches, motive b :=
        fun b hb => (List.mem_append.mp hb).elim (hl.2 b) (hr.2 b)
      exact ⟨choice _ rfl hall, hall⟩
    | literal s => exact self rfl (literal s)
    | reserved s => exact self rfl (reserved s)
    | rule s => exact self rfl (rule s)
    | directive d => exact self rfl (directive d)
    | action e => exact self rfl (action e)
    | empty => exact self rfl empty
  exact both.1

end Node

/-- A reader of tokens as a run. -/
theorem Run.lift_eq_ok {α : Type} {p : Parse α} {c d : Cursor} {a : α} :
    Run.lift p c = .ok a d ↔ p c = .ok a d := by
  unfold Run.lift
  cases p c with
  | ok b e =>
    constructor
    · intro h
      cases h
      rfl
    · intro h
      cases h
      rfl
  | error e d' =>
    constructor
    · intro h
      cases h
    · intro h
      cases h

theorem Run.lift_of_error {α : Type} {p : Parse α} {c d : Cursor} {e : ParseError}
    (h : p c = .error e d) : Run.lift p c = .error (.failed e) d := by
  unfold Run.lift
  rw [h]

namespace Code

variable {sets : FirstSets}

/-! ## The code of a body -/

theorem ofNode_seq {h t : Node} {code : Code} :
    ofNode sets (.seq h t) = .ok code
      ↔ ∃ ch ct, ofNode sets h = .ok ch ∧ ofNode sets t = .ok ct ∧ code = .seq ch ct := by
  unfold ofNode
  simp only [Outcome.bind_eq_ok]
  constructor
  · rintro ⟨bs, hbs, hclose⟩
    obtain ⟨hs, hhs, hbs⟩ := Outcome.bind_eq_ok.mp hbs
    obtain ⟨ch, hch, hbs⟩ := Outcome.bind_eq_ok.mp hbs
    obtain ⟨ts, hts, hbs⟩ := Outcome.bind_eq_ok.mp hbs
    obtain ⟨ct, hct, hbs⟩ := Outcome.bind_eq_ok.mp hbs
    obtain rfl := Except.ok.inj hbs
    exact ⟨ch, ct, ⟨hs, hhs, hch⟩, ⟨ts, hts, hct⟩, (Except.ok.inj hclose).symm⟩
  · rintro ⟨ch, ct, ⟨hs, hhs, hch⟩, ⟨ts, hts, hct⟩, rfl⟩
    refine ⟨[(.seq h t, .seq ch ct)], ?_, rfl⟩
    unfold branches
    exact Outcome.bind_eq_ok.mpr ⟨hs, hhs, Outcome.bind_eq_ok.mpr ⟨ch, hch,
      Outcome.bind_eq_ok.mpr ⟨ts, hts, Outcome.bind_eq_ok.mpr ⟨ct, hct, rfl⟩⟩⟩⟩

theorem ofNode_lone {h : Node} {code : Code} :
    ofNode sets (.lone h) = .ok code ↔ ofNode sets h = .ok code := by
  unfold ofNode
  simp only [Outcome.bind_eq_ok]
  constructor
  · rintro ⟨bs, hbs, hclose⟩
    obtain ⟨hs, hhs, hbs⟩ := Outcome.bind_eq_ok.mp hbs
    obtain ⟨ch, hch, hbs⟩ := Outcome.bind_eq_ok.mp hbs
    obtain rfl := Except.ok.inj hbs
    obtain rfl : ch = code := Except.ok.inj hclose
    exact ⟨hs, hhs, hch⟩
  · rintro ⟨hs, hhs, hch⟩
    refine ⟨[(.lone h, code)], ?_, rfl⟩
    unfold branches
    exact Outcome.bind_eq_ok.mpr ⟨hs, hhs, Outcome.bind_eq_ok.mpr ⟨code, hch, rfl⟩⟩

theorem ofNode_directive {d : Directive} {code : Code} :
    ofNode sets (.directive d) = .ok code ↔ ofDirective d = .ok code := by
  unfold ofNode
  rw [Outcome.bind_eq_ok]
  constructor
  · rintro ⟨bs, hbs, hclose⟩
    obtain ⟨c, hc, hbs⟩ := Outcome.bind_eq_ok.mp hbs
    obtain rfl := Except.ok.inj hbs
    exact hc.trans hclose
  · intro h
    exact ⟨[(.directive d, code)], Outcome.bind_eq_ok.mpr ⟨code, h, rfl⟩, rfl⟩

/-- What is no choice is its own branch, with its own code. -/
theorem branches_of_not_choice {n : Node} (hn : n.isChoice = false) {bs : List (Node × Code)} :
    branches sets n = .ok bs ↔ ∃ code, ofNode sets n = .ok code ∧ bs = [(n, code)] := by
  have hclose : ∀ code, close sets n [(n, code)] = .ok code := by
    intro code
    unfold close
    rw [hn]
    rfl
  have hself : ∀ {bs}, branches sets n = .ok bs → ∃ code, bs = [(n, code)] := by
    intro bs hbs
    cases n with
    | alt l r => cases hn
    | seq h t =>
      obtain ⟨hs, hhs, hbs⟩ := Outcome.bind_eq_ok.mp hbs
      obtain ⟨ch, hch, hbs⟩ := Outcome.bind_eq_ok.mp hbs
      obtain ⟨ts, hts, hbs⟩ := Outcome.bind_eq_ok.mp hbs
      obtain ⟨ct, hct, hbs⟩ := Outcome.bind_eq_ok.mp hbs
      exact ⟨_, (Except.ok.inj hbs).symm⟩
    | lone h =>
      obtain ⟨hs, hhs, hbs⟩ := Outcome.bind_eq_ok.mp hbs
      obtain ⟨ch, hch, hbs⟩ := Outcome.bind_eq_ok.mp hbs
      exact ⟨_, (Except.ok.inj hbs).symm⟩
    | directive d =>
      obtain ⟨c, hc, hbs⟩ := Outcome.bind_eq_ok.mp hbs
      exact ⟨_, (Except.ok.inj hbs).symm⟩
    | _ => exact ⟨_, (Except.ok.inj hbs).symm⟩
  constructor
  · intro hbs
    obtain ⟨code, rfl⟩ := hself hbs
    exact ⟨code, Outcome.bind_eq_ok.mpr ⟨_, hbs, hclose code⟩, rfl⟩
  · rintro ⟨code, hcode, rfl⟩
    obtain ⟨bs, hbs, h⟩ := Outcome.bind_eq_ok.mp hcode
    obtain ⟨code', rfl⟩ := hself hbs
    rw [hclose code'] at h
    obtain rfl := Except.ok.inj h
    exact hbs

/-- **The branches of a body, each with its own code.** -/
theorem branches_eq_ok {n : Node} {bs : List (Node × Code)} :
    branches sets n = .ok bs
      ↔ List.Forall₂ (fun b p => p.1 = b ∧ ofNode sets b = .ok p.2) n.branches bs := by
  induction n generalizing bs with
  | alt l r hl hr =>
    unfold branches
    simp only [Outcome.bind_eq_ok, hl, hr, Node.branches_alt, Outcome.forall₂_append_left]
    constructor
    · rintro ⟨ls, hls, rs, hrs, h⟩
      exact ⟨ls, rs, hls, hrs, (Except.ok.inj h).symm⟩
    · rintro ⟨ls, rs, hls, hrs, rfl⟩
      exact ⟨ls, hls, rs, hrs, rfl⟩
  | _ =>
    rw [branches_of_not_choice rfl, Node.branches_of_not_choice rfl,
      List.forall₂_cons_left_iff]
    constructor
    · rintro ⟨code, hcode, rfl⟩
      exact ⟨_, _, ⟨rfl, hcode⟩, .nil, rfl⟩
    · rintro ⟨⟨b, code⟩, bs, ⟨rfl, hcode⟩, hnil, rfl⟩
      obtain rfl := List.forall₂_nil_left_iff.mp hnil
      exact ⟨code, hcode, rfl⟩

/-- **The code of a choice is the chain of tests over its branches**, each
with its FIRST set and its code. -/
theorem ofNode_choice {n : Node} (hn : n.isChoice = true) {code : Code} :
    ofNode sets n = .ok code
      ↔ ∃ bs : List Branch, code = choice bs
        ∧ List.Forall₂
          (fun b br => sets.firstOf b = .ok br.first ∧ ofNode sets b = .ok br.body)
          n.branches bs := by
  have hclose : ∀ ps : List (Node × Code), close sets n ps = .ok code
      ↔ ∃ bs : List Branch, code = choice bs
        ∧ List.Forall₂ (fun p br => sets.firstOf p.1 = .ok br.first ∧ p.2 = br.body) ps bs := by
    intro ps
    unfold close
    rw [if_pos hn, Outcome.bind_eq_ok]
    constructor
    · rintro ⟨bs, hbs, h⟩
      refine ⟨bs, (Except.ok.inj h).symm, ?_⟩
      refine (Outcome.mapM_eq_ok.mp hbs).imp (fun p br hp => ?_)
      cases hfirst : sets.firstOf p.1 with
      | ok s =>
        rw [hfirst] at hp
        obtain rfl := Except.ok.inj hp
        exact ⟨rfl, rfl⟩
      | error d =>
        rw [hfirst] at hp
        cases hp
    · rintro ⟨bs, rfl, hbs⟩
      refine ⟨bs, Outcome.mapM_eq_ok.mpr (hbs.imp (fun p br hp => ?_)), rfl⟩
      rw [hp.1, hp.2]
  have hmid : ∀ (b : Node) (br : Branch),
      (sets.firstOf b = .ok br.first ∧ ofNode sets b = .ok br.body)
        ↔ ∃ p : Node × Code, (p.1 = b ∧ ofNode sets b = .ok p.2)
          ∧ sets.firstOf p.1 = .ok br.first ∧ p.2 = br.body := by
    intro b br
    constructor
    · rintro ⟨hfirst, hbody⟩
      exact ⟨(b, br.body), ⟨rfl, hbody⟩, hfirst, rfl⟩
    · rintro ⟨⟨_, body⟩, ⟨rfl, hcode⟩, hfirst, rfl⟩
      exact ⟨hfirst, hcode⟩
  simp only [hmid, Outcome.forall₂_comp]
  unfold ofNode
  rw [Outcome.bind_eq_ok]
  constructor
  · rintro ⟨ps, hps, h⟩
    obtain ⟨bs, hcode, hbs⟩ := (hclose ps).mp h
    exact ⟨bs, hcode, ps, branches_eq_ok.mp hps, hbs⟩
  · rintro ⟨bs, hcode, ps, hps, hbs⟩
    exact ⟨ps, branches_eq_ok.mpr hps, (hclose ps).mpr ⟨bs, hcode, hbs⟩⟩

/-! ## Running code -/

/-- Whether one of the labels of a branch is next. -/
def Branch.ready (operators : OperatorTable) (c : Cursor) (b : Branch) : Bool :=
  (b.first.labels.map guard).any (·.holds operators c)

/-- **The branch that a choice commits to**: the first one that must take
a token and has a label that is next. -/
def committed? (operators : OperatorTable) (c : Cursor) (bs : List Branch) : Option Branch :=
  (bs.filter (!·.first.nullable)).find? (Branch.ready operators c)

/-- **What a choice runs**: the branch that it commits to, and the
fallback if there is none. -/
theorem run_choice (operators : OperatorTable) (call : String → Run Tree) (bs : List Branch)
    (c : Cursor) :
    (choice bs).run operators call c
      = match committed? operators c bs with
        | some b => b.body.run operators call c
        | none => (fallback bs).run operators call c := by
  unfold choice committed?
  generalize bs.filter (!·.first.nullable) = guarded
  induction guarded with
  | nil => rfl
  | cons b guarded ih =>
    rw [List.foldr_cons, List.find?_cons]
    show (if b.ready operators c then _ else _ : Run _) c = _
    cases b.ready operators c with
    | true => rfl
    | false => exact ih

theorem of_committed? {operators : OperatorTable} {c : Cursor} {bs : List Branch} {b : Branch}
    (h : committed? operators c bs = some b) :
    b ∈ bs ∧ b.first.nullable = false ∧ b.ready operators c = true := by
  obtain ⟨hmem, hnull⟩ := List.mem_filter.mp (List.mem_of_find?_eq_some h)
  exact ⟨hmem, (Bool.not_eq_true' _).mp hnull, List.find?_some h⟩

theorem of_committed?_none {operators : OperatorTable} {c : Cursor} {bs : List Branch}
    {b : Branch} (h : committed? operators c bs = none) (hb : b ∈ bs)
    (hnull : b.first.nullable = false) : b.ready operators c = false := by
  refine Bool.eq_false_iff.mpr (List.find?_eq_none.mp h b (List.mem_filter.mpr ⟨hb, ?_⟩))
  rw [hnull]
  rfl

/-- **A choice runs one of its branches, or fails on the spot** for want of
one. -/
theorem run_choice_cases (operators : OperatorTable) (call : String → Run Tree)
    (bs : List Branch) (c : Cursor) :
    (∃ b ∈ bs, (choice bs).run operators call c = b.body.run operators call c)
      ∨ (choice bs).run operators call c
        = .error (.failed (c.expectedOneOf (labels bs))) c := by
  rw [run_choice]
  cases hcom : committed? operators c bs with
  | some b => exact .inl ⟨b, (of_committed? hcom).1, rfl⟩
  | none =>
    unfold fallback
    cases hlast : (bs.filter (·.first.nullable)).getLast? with
    | some b => exact .inl ⟨b, (List.mem_filter.mp (List.mem_of_getLast? hlast)).1, rfl⟩
    | none => exact .inr rfl

/-- The fallback is a branch that can be passed, if there is one. -/
theorem fallback_of_nullable {bs : List Branch} {b : Branch} (hb : b ∈ bs)
    (hnull : b.first.nullable = true) :
    ∃ b' ∈ bs, b'.first.nullable = true ∧ fallback bs = b'.body := by
  unfold fallback
  cases hlast : (bs.filter (·.first.nullable)).getLast? with
  | none =>
    rw [List.getLast?_eq_none_iff] at hlast
    have hmem : b ∈ bs.filter (·.first.nullable) := List.mem_filter.mpr ⟨hb, hnull⟩
    rw [hlast] at hmem
    cases hmem
  | some b' =>
    obtain ⟨hmem, hnull'⟩ := List.mem_filter.mp (List.mem_of_getLast? hlast)
    exact ⟨b', hmem, hnull', rfl⟩

/-- The fallback is to fail, if no branch can be passed. -/
theorem fallback_of_not_nullable {bs : List Branch}
    (h : ∀ b ∈ bs, b.first.nullable = false) : fallback bs = .reject (labels bs) := by
  unfold fallback
  have hnil : bs.filter (·.first.nullable) = [] :=
    List.filter_eq_nil_iff.mpr fun b hb => Bool.eq_false_iff.mp (h b hb)
  rw [hnil]
  rfl

end Code

/-! ## The code of rules -/

/-- **What a grammar compiles to**: its rules factored, their FIRST sets,
and the name of its goal. -/
theorem Grammar.compile_eq_ok {g : Grammar} {compiled : Grammar.Compiled} :
    g.compile = .ok compiled
      ↔ g.rules.isEmpty = false ∧ g.rules.factored = .ok compiled.rules
        ∧ compiled.rules.firstSets = .ok compiled.first
        ∧ ∃ goal, g.goal = .ok goal ∧ compiled.goal = goal.target := by
  unfold Grammar.compile
  cases g.rules.isEmpty with
  | true =>
    constructor
    · intro h
      cases h
    · rintro ⟨h, -⟩
      cases h
  | false =>
    simp only [Bool.false_eq_true, if_false, Outcome.bind_eq_ok, true_and]
    constructor
    · rintro ⟨rules, hrules, first, hfirst, goal, hgoal, h⟩
      obtain rfl := Except.ok.inj h
      exact ⟨hrules, hfirst, goal, hgoal, rfl⟩
    · rintro ⟨hrules, hfirst, goal, hgoal, hname⟩
      refine ⟨compiled.rules, hrules, compiled.first, hfirst, goal, hgoal, ?_⟩
      rw [← hname]

/-- The goal is one of the rules as written. -/
theorem Grammar.mem_of_goal {g : Grammar} {r : Rule} (h : g.goal = .ok r) : r ∈ g.rules.rules := by
  unfold Grammar.goal at h
  split at h
  · split at h
    · next hget =>
      obtain rfl := Except.ok.inj h
      exact RuleTable.mem_of_get? hget
    · cases h
  · split at h
    · next hgoal =>
      obtain rfl := Except.ok.inj h
      unfold RuleTable.goal? at hgoal
      split at hgoal
      · next hfilter =>
        obtain rfl := Option.some.inj hgoal
        exact List.mem_of_mem_filter (hfilter ▸ List.mem_singleton_self _)
      · exact List.mem_of_head? hgoal
    · cases h

/-- **A parser has the code of every rule**, in order. -/
theorem Grammar.Compiled.parser_eq_ok {g : Grammar.Compiled} {p : Parser} :
    g.parser = .ok p
      ↔ p.keywords = g.rules.keywords ∧ p.goal = g.goal
        ∧ List.Forall₂ (fun r m => m.1 = r.target ∧ Code.ofNode g.first r.body = .ok m.2)
          g.rules.rules p.methods := by
  have hstep : ∀ (r : Rule) (m : String × Code),
      (do
        let code ← Code.ofNode g.first r.body
        .ok (r.target, code) : Except Code.Error (String × Code)) = .ok m
        ↔ m.1 = r.target ∧ Code.ofNode g.first r.body = .ok m.2 := by
    intro r m
    rw [Outcome.bind_eq_ok]
    constructor
    · rintro ⟨code, hcode, h⟩
      obtain rfl := Except.ok.inj h
      exact ⟨rfl, hcode⟩
    · rintro ⟨ht, hcode⟩
      exact ⟨m.2, hcode, congrArg Except.ok (Prod.ext ht.symm rfl)⟩
  unfold Grammar.Compiled.parser
  rw [Outcome.bind_eq_ok]
  simp only [Outcome.mapM_eq_ok, hstep]
  constructor
  · rintro ⟨methods, hall, h⟩
    obtain rfl := Except.ok.inj h
    exact ⟨rfl, rfl, hall⟩
  · rintro ⟨hk, hg, hall⟩
    refine ⟨p.methods, hall, ?_⟩
    rw [← hk, ← hg]

/-- **The code of a rule is the code of its body**, and there is code for
rules only. -/
theorem Parser.code?_eq_some {g : Grammar.Compiled} {p : Parser} (hp : g.parser = .ok p)
    {name : String} {code : Code} :
    p.code? name = some code
      ↔ ∃ r, g.rules.get? name = some r ∧ Code.ofNode g.first r.body = .ok code := by
  obtain ⟨-, -, hall⟩ := Grammar.Compiled.parser_eq_ok.mp hp
  unfold Parser.code? RuleTable.get?
  generalize g.rules.rules = rs, p.methods = ms at hall
  induction hall with
  | nil =>
    constructor
    · intro h
      cases h
    · rintro ⟨r, hr, -⟩
      cases hr
  | @cons r m rs ms hrm _ ih =>
    obtain ⟨target, code'⟩ := m
    obtain ⟨rfl, hcode⟩ := hrm
    rw [List.lookup_cons, List.find?_cons]
    by_cases hname : r.target = name
    · rw [beq_iff_eq.mpr hname, beq_iff_eq.mpr hname.symm]
      constructor
      · intro h
        obtain rfl := Option.some.inj h
        exact ⟨r, rfl, hcode⟩
      · rintro ⟨r', hr, hcode'⟩
        obtain rfl := Option.some.inj hr
        exact congrArg some (Except.ok.inj (hcode.symm.trans hcode'))
    · rw [beq_false_of_ne hname, beq_false_of_ne (Ne.symm hname)]
      exact ih

end Descent
