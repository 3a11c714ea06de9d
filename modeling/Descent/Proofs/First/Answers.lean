import Descent.Proofs.First.Fragments

/-!
# What a resolver answers does not depend on its past

A resolver is asked for one set after the other, and some of the questions
may fail. It keeps what it found, and a failure leaves marks on the rules
that were being looked into. Neither shows in a set. What is kept is
right, and a mark that is left behind is on a rule that does not settle, so
asking for the rule fails with it and without it. These two facts hold
between any two questions (`Resolver.Seasoned`), and from them **a resolver
with a past answers as a fresh one does**, but for the defect that a
failure names (`Resolver.answers_toOption`).

A resolver can also be spared its work: the sets of all rules answer every
reference at once. There the two do not even differ in the defects that
they name, because no rule fails any more. What is left to fail is the body
itself, by a name that is no rule's or by an ambiguity in it, and both
resolvers come upon these in the same order with the same sets in hand
(`Resolver.Echoes`). So **a fragment has the set, or the defect, that a full
resolution gives it** (`FirstSets.firstOf_agrees`).
-/

namespace Descent

namespace Resolver

variable {table : RuleTable}

/-! ## Questions one after the other -/

/-- **A question to a resolver.** -/
inductive Question where
  /-- What starts the rule of this name? -/
  | rule (name : String)
  /-- What starts this body? -/
  | body (n : Node)

/-- How a resolver goes about a question. -/
def Question.ask (table : RuleTable) : Question → Resolving FirstSet
  | .rule name => Resolver.rule table name
  | .body n => Resolver.node table n

/-- What a step comes to, whatever it leaves behind. -/
def outcome (x : Resolving FirstSet) (q : Resolver) : Except Defect FirstSet :=
  match x q with
  | .ok s _ => .ok s
  | .error e _ => .error e

/-- What a step leaves behind, whatever it comes to. -/
def remains (x : Resolving FirstSet) (q : Resolver) : Resolver :=
  match x q with
  | .ok _ q' => q'
  | .error _ q' => q'

/-- The answer of a resolver that knows nothing. -/
def Question.fresh (table : RuleTable) (question : Question) : Except Defect FirstSet :=
  outcome (question.ask table) .start

/-- **The answers to questions that are put to one resolver in a row**,
and what it knows in the end. It goes on after a failure. -/
def answers (table : RuleTable) :
    List Question → Resolver → List (Except Defect FirstSet) × Resolver
  | [], q => ([], q)
  | question :: rest, q =>
    let others := answers table rest (remains (question.ask table) q)
    (outcome (question.ask table) q :: others.1, others.2)

/-- The body that a question is about. -/
def Question.node : Question → Node
  | .rule name => .rule name
  | .body n => n

/-- A question about a rule is one about a reference to it. -/
theorem Question.ask_eq (question : Question) :
    question.ask table = Resolver.node table question.node := by
  cases question with
  | rule name => rfl
  | body n => rfl

/-! ## A resolver with a past -/

/-- **What holds of a resolver after any questions**: it knows nothing that
is wrong, and what it has marked does not settle. -/
structure Seasoned (table : RuleTable) (q : Resolver) : Prop where
  truthful : q.Truthful table
  marks : ∀ name, q.find? name = some none → ¬ (Node.rule name).Settles table

theorem seasoned_start (table : RuleTable) : Seasoned table .start :=
  ⟨(calm_start table).truthful, nofun⟩

/-- The marks of a resolver are taken for rules that were stuck before. -/
theorem Seasoned.ready {q : Resolver} (h : Seasoned table q) (n : Node) :
    Ready table (fun name => ¬ (Node.rule name).Settles table) table.size n q where
  truthful := h.truthful
  marks name hm := .inl (h.marks name hm)
  room := room_size q

/-- **A question gives the set that is right, if the body settles, and
fails otherwise**; and either way the resolver is fit for the next one. -/
theorem Seasoned.ask {q : Resolver} (hq : Seasoned table q) (question : Question) :
    Outcome.Ends (question.ask table) q
      (fun s q' => Seasoned table q' ∧ question.node.Settles table
        ∧ s.Describes table question.node)
      (fun _ q' => Seasoned table q' ∧ ¬ question.node.Settles table) := by
  rw [question.ask_eq]
  refine (resolves_node (fun _ => id) question.node q (hq.ready question.node)).mono ?_ ?_
  · intro s q' h
    exact ⟨⟨h.truthful, fun name hm => hq.marks name (h.extension.marks name hm)⟩, h.settles,
      h.describes⟩
  · intro e q' h
    exact ⟨⟨h.truthful, fun name hm => (h.marks name hm).elim (hq.marks name) id⟩, h.unsettled⟩

/-- **What a set is answered by is a matter of the body alone.** -/
theorem Seasoned.toOption_outcome {q : Resolver} (hq : Seasoned table q) (question : Question)
    (s : FirstSet) :
    (outcome (question.ask table) q).toOption = some s
      ↔ question.node.Settles table ∧ s.Describes table question.node := by
  rw [Outcome.toOption_eq_some]
  unfold outcome
  cases hrun : question.ask table q with
  | ok s' q' =>
    obtain ⟨-, hsettles, hright⟩ := (hq.ask question).of_ok hrun
    constructor
    · intro h
      rw [← Except.ok.inj h]
      exact ⟨hsettles, hright⟩
    · rintro ⟨-, hright'⟩
      rw [hright.unique hright']
  | error e q' => exact iff_of_false nofun (fun h => ((hq.ask question).of_error hrun).2 h.1)

/-- **One answer does not depend on the past**, as far as it is a set. -/
theorem Seasoned.toOption_eq_fresh {q : Resolver} (hq : Seasoned table q)
    (question : Question) :
    (outcome (question.ask table) q).toOption = (question.fresh table).toOption :=
  Option.ext fun s => (hq.toOption_outcome question s).trans
    ((seasoned_start table).toOption_outcome question s).symm

/-- What a question leaves behind is fit for the next one. -/
theorem Seasoned.remains {q : Resolver} (hq : Seasoned table q) (question : Question) :
    Seasoned table (remains (question.ask table) q) := by
  unfold Resolver.remains
  cases hrun : question.ask table q with
  | ok s q' => exact ((hq.ask question).of_ok hrun).1
  | error e q' => exact ((hq.ask question).of_error hrun).1

/-- **No answer depends on the past**, by induction on the questions. -/
theorem Seasoned.answers {q : Resolver} (hq : Seasoned table q) (questions : List Question) :
    (answers table questions q).1.map Except.toOption
        = questions.map (fun question => (question.fresh table).toOption)
      ∧ Seasoned table (answers table questions q).2 := by
  induction questions generalizing q with
  | nil => exact ⟨rfl, hq⟩
  | cons question rest ih =>
    obtain ⟨hrest, hend⟩ := ih (hq.remains question)
    refine ⟨?_, hend⟩
    rw [List.map_cons, ← hrest, ← hq.toOption_eq_fresh question]
    rfl

/-- A rule that is marked is answered by left recursion. -/
theorem ask_of_marked {q : Resolver} {name : String} (h : q.find? name = some none) :
    (Question.rule name).ask table q = .error (.leftRecursion name) q := by
  show ruleWithin table table.size name q = _
  rw [ruleWithin_run, h]

/-- **The past of a resolver does not show in sets.** Whatever questions are
put to one resolver in a row, with failures anywhere among them, each is
answered by a set exactly if a fresh resolver answers it by a set, and by
the same one. Only the defects may differ: a rule that a failure left marked
is answered by left recursion, and it is a rule that fails from scratch
too. -/
theorem answers_toOption (table : RuleTable) (questions : List Question) :
    (answers table questions .start).1.map Except.toOption
        = questions.map (fun question => (question.fresh table).toOption)
      ∧ ∀ name, (answers table questions .start).2.find? name = some none →
        (Question.rule name).ask table (answers table questions .start).2
            = .error (.leftRecursion name) (answers table questions .start).2
          ∧ ((Question.rule name).fresh table).toOption = none := by
  obtain ⟨hanswers, hend⟩ := (seasoned_start table).answers questions
  refine ⟨hanswers, fun name hmarked => ⟨ask_of_marked hmarked, ?_⟩⟩
  rw [← hend.toOption_eq_fresh]
  unfold outcome
  rw [ask_of_marked hmarked]
  rfl

end Resolver

/-- Two rules, the second of which can start with the first one, and the
first one with a rule that there is none of. -/
def RuleTable.dangling : RuleTable where
  rules :=
    [⟨"a", .seq (.alt (.literal "y") .empty) (.rule "b")⟩,
      ⟨"d", .alt (.literal "z") (.rule "a")⟩]
  nodup := by decide

namespace Resolver

/-- A rule twice, then a body that needs no rule, then a rule that the first
question came upon. -/
def Question.retries : List Question :=
  [.rule "d", .rule "d", .body (.seq (.literal "z") (.rule "d")), .rule "a"]

/-- In `RuleTable.dangling` the body is answered as ever, and the rules that
the first failure left marked are answered by another defect. -/
theorem answers_toOption_retries :
    (answers .dangling Question.retries .start).1.map (fun answer => match answer with
        | .ok s => s.render
        | .error e => e.message)
      = ["no definition for rule `b`", "left recursion detected in rule `d`", "\x7bz\x7d",
        "left recursion detected in rule `a`"]
      ∧ (answers .dangling Question.retries .start).1.map Except.toOption
        = Question.retries.map (fun question => (question.fresh .dangling).toOption)
      ∧ ((Question.rule "a").fresh .dangling).toOption = none := by
  obtain ⟨hsets, hmarks⟩ := answers_toOption .dangling Question.retries
  exact ⟨by decide +kernel, hsets, (hmarks "a" (by decide +kernel)).2⟩

/-! ## Two resolvers in step -/

variable {α β : Type} {table : RuleTable}

/-- **A step that another one echoes.** Where no mark is left and both are
looking at the same rule, the two give the same value and are in such a
state again, or they name the same defect. -/
def Echoes (table : RuleTable) (x y : Resolving α) : Prop :=
  ∀ q p : Resolver, Calm table q → q.current = p.current →
    Outcome.Ends x q
      (fun a q' => ∃ p', y p = .ok a p' ∧ Calm table q' ∧ q'.current = p'.current)
      (fun e _ => ∃ p', y p = .error e p')

theorem echoes_pure (a : α) : Echoes table (pure a) (pure a) :=
  fun _ p hq hcurrent => ⟨p, rfl, hq, hcurrent⟩

/-- **Steps that are echoed make up steps that are echoed.** -/
theorem Echoes.bind {x y : Resolving α} {f g : α → Resolving β} (hx : Echoes table x y)
    (hf : ∀ a, Echoes table (f a) (g a)) : Echoes table (x >>= f) (y >>= g) := by
  intro q p hq hcurrent
  refine (hx q p hq hcurrent).bind ?_ ?_
  · rintro a q₁ ⟨p₁, hy, hq₁, hcurrent₁⟩
    rw [Outcome.run_bind_of_ok hy]
    exact hf a q₁ p₁ hq₁ hcurrent₁
  · rintro e q₁ ⟨p₁, hy⟩
    exact ⟨p₁, Outcome.run_bind_of_error hy⟩

/-- From scratch, a step and its echo come to the same. -/
theorem Echoes.outcome_eq {x y : Resolving FirstSet} (h : Echoes table x y) :
    outcome y .start = outcome x .start := by
  have hends := h .start .start (calm_start table) rfl
  unfold outcome
  cases hrun : x .start with
  | ok s q =>
    obtain ⟨p, hp, -⟩ := hends.of_ok hrun
    rw [hp]
  | error e q =>
    obtain ⟨p, hp⟩ := hends.of_error hrun
    rw [hp]

/-- An ambiguity names the rule being looked at, and that is the same. -/
theorem echoes_ambiguous (label : String) :
    Echoes table (ambiguous label : Resolving α) (ambiguous label) := by
  intro q p _ hcurrent
  show ∃ p', EStateM.Result.error (Defect.ambiguous label p.current) p
    = EStateM.Result.error (Defect.ambiguous label q.current) p'
  rw [hcurrent]
  exact ⟨p, rfl⟩

theorem echoes_either (s t : FirstSet) : Echoes table (either s t) (either s t) := by
  unfold either
  split
  · exact echoes_ambiguous _
  · split
    · exact echoes_ambiguous _
    · exact echoes_pure _

/-- **Going through a body is echoed if references are**, by induction on
the body. -/
theorem echoes_firstOf {reference reference' : String → Resolving FirstSet}
    (href : ∀ name, Echoes table (reference name) (reference' name)) (n : Node) :
    Echoes table (firstOf reference n) (firstOf reference' n) := by
  induction n with
  | seq h t hh ht =>
    refine hh.bind (fun s => ?_)
    by_cases hs : s.nullable = true
    · rw [if_pos hs, if_pos hs]
      exact ht.bind (fun rest => echoes_pure _)
    · rw [if_neg hs, if_neg hs]
      exact echoes_pure s
  | lone h hh => exact hh
  | alt l r hl hr => exact hl.bind (fun s => hr.bind (fun t => echoes_either s t))
  | rule name => exact href name
  | directive d =>
    unfold firstOf
    cases d.kind with
    | _ => exact echoes_pure _
  | _ => exact echoes_pure _

end Resolver

/-- A set that is right about a body that settles is not the empty one. -/
theorem FirstSet.Describes.isEmpty_eq_false {table : RuleTable} {n : Node} {s : FirstSet}
    (hs : s.Describes table n) (hn : n.Settles table) : s.isEmpty = false := by
  unfold isEmpty
  rcases hn.nullable_or_first with hnull | ⟨l, hl⟩
  · rw [hs.nullable_iff.mpr hnull, Bool.not_true, Bool.and_false]
  · have hne : s.labels ≠ [] := List.ne_nil_of_mem ((hs.mem_labels l).mpr hl)
    rw [List.isEmpty_eq_false_iff.mpr hne, Bool.false_and]

namespace FirstSets

variable {table : RuleTable} {sets : FirstSets}

/-- **The sets of the rules echo the resolver**: they have the set of every
rule, and a name that is no rule's fails in both in the same way. -/
theorem echoes_reference (h : table.firstSets = .ok sets) (name : String) :
    Resolver.Echoes table (Resolver.rule table name)
      (match sets.get? name with
        | some s => pure s
        | none => throw (.undefined name)) := by
  intro q p hq hcurrent
  by_cases hname : name ∈ table.targets
  · obtain ⟨hsettles, s, hs, hright⟩ := (RuleTable.resolved_of_firstSets h).2 name hname
    rw [hs]
    refine (Resolver.resolves_node (fun _ => False.elim) (.rule name) q (hq.ready _)).mono ?_ ?_
    · intro s' q' hgives
      rw [hgives.describes.unique hright]
      exact ⟨p, rfl, hgives.calm hq, hgives.extension.current.trans hcurrent⟩
    · intro e q' hbreaks
      exact absurd hsettles hbreaks.unsettled
  · have hnone : table.get? name = none := by
      rw [RuleTable.mem_targets, not_exists] at hname
      exact Option.eq_none_iff_forall_ne_some.mpr hname
    -- Nothing is known of the name: a set is known only of a rule, and no
    -- mark is left.
    have hunknown : q.find? name = none := by
      rcases hfind : q.find? name with _ | _ | s
      · rfl
      · exact absurd hfind (hq.unmarked name)
      · obtain ⟨r, hr, -⟩ := Node.settles_rule.mp (hq.truthful.settles name s hfind)
        rw [hnone] at hr
        cases hr
    rw [get?_eq_none h hname]
    have hrun : Resolver.rule table name q = .error (.undefined name) q := by
      show Resolver.ruleWithin table table.size name q = _
      rw [Resolver.ruleWithin_run, hunknown, hnone]
      cases table.size with
      | _ => rfl
    unfold Outcome.Ends
    rw [hrun]
    exact ⟨p, rfl⟩

/-- **A fragment is answered as by a resolver that starts from scratch**, by
the same set or by the same defect. -/
theorem firstOf_eq_fresh (h : table.firstSets = .ok sets) (n : Node) :
    sets.firstOf n = (Resolver.Question.body n).fresh table :=
  (Resolver.echoes_firstOf (echoes_reference h) n).outcome_eq

/-- **The sets of the rules answer for every fragment.** Of any body they
say what a full resolution says, be it a set or a defect; and every part of
a rule has a set, which has a label or allows passing. -/
theorem firstOf_agrees (h : table.firstSets = .ok sets) :
    (∀ n, sets.firstOf n = (Resolver.Question.body n).fresh table)
      ∧ ∀ r ∈ table.rules, ∀ n ∈ r.body.parts,
        ∃ s, sets.firstOf n = .ok s ∧ s.isEmpty = false := by
  refine ⟨firstOf_eq_fresh h, fun r hr n hn => ?_⟩
  have hsettles := RuleTable.settles_of_mem_parts h hr hn
  obtain ⟨s, hs⟩ := (firstOf_ok_iff h).mpr hsettles
  exact ⟨s, hs, (describes_firstOf h hs).isEmpty_eq_false hsettles⟩

/-- Of the lists in brackets, what follows the bracket has a set; and a choice
that is in no rule has the same defect either way. -/
theorem firstOf_agrees_lists :
    ∃ sets, RuleTable.lists.firstSets = .ok sets
      ∧ (∃ s, sets.firstOf (.seq (.rule "items") (.literal "]")) = .ok s ∧ s.isEmpty = false)
      ∧ sets.firstOf (.alt (.rule "items") (.rule "item")) = .error (.ambiguous "[" "")
      ∧ (Resolver.Question.body (.alt (.rule "items") (.rule "item"))).fresh .lists
        = .error (.ambiguous "[" "") := by
  have hrun : RuleTable.lists.firstSets.toOption.map
      (fun sets => sets.firstOf (.alt (.rule "items") (.rule "item")))
        = some (.error (.ambiguous "[" "")) := by
    decide +kernel
  obtain ⟨sets, hsets, hclash⟩ := Option.map_eq_some_iff.mp hrun
  rw [Outcome.toOption_eq_some] at hsets
  obtain ⟨hfresh, hparts⟩ := firstOf_agrees hsets
  refine ⟨sets, hsets, ?_, hclash, (hfresh _).symm.trans hclash⟩
  exact hparts _ List.mem_cons_self _ (Node.tail_mem_parts (.literal "[") _)

end FirstSets

end Descent
