import Descent.Proofs.Factoring
import Descent.Proofs.First.Meaning
import Descent.Proofs.Parser.Code

/-!
# Sentences

Rules generate lists of tokens. A **form** is a list of bodies, and a step
replaces one of them: a sequence by its parts, a choice by one of its
branches, a reference by the body of its rule, the empty body by nothing
(`Node.Expands`). A list of tokens is a sentence of a rule if the rule
derives literals that the tokens stand for, one by one
(`RuleTable.Sentence`).

A derivation replaces bodies in any order. What a body comes to in the end
does not depend on the order, and can be said along the body instead
(`Node.Yields`). The two say the same (`RuleTable.sentence_iff`). The
second one sees a body only through its words
(`Node.yields_iff_exists_word`), so **factoring loses no sentence**
(`Node.Yields.factored`).

What may come behind a body is a matter of derivations again: a literal
*follows* a body if some form that the goal derives has the two next to
each other (`RuleTable.Follows`).
-/

namespace Descent

open Relation (ReflTransGen)

/-- **What a step replaces a body by.** -/
inductive Node.Expands (table : RuleTable) : Node → List Node → Prop
  | seq {h t : Node} : Expands table (.seq h t) [h, t]
  | lone {h : Node} : Expands table (.lone h) [h]
  | choice {n b : Node} : n.isChoice = true → b ∈ n.branches → Expands table n [b]
  | rule {name : String} {r : Rule} :
    table.get? name = some r → Expands table (.rule name) [r.body]
  | empty : Expands table .empty []

/-- A body that is a literal for which a token stands. -/
def Node.Matches (n : Node) (t : Token) : Prop :=
  ∃ s, n = .literal s ∧ t.isLiteral s = true

namespace RuleTable

/-- **A step of a derivation** replaces one body of a form. -/
inductive Step (table : RuleTable) : List Node → List Node → Prop
  | expand (pre post : List Node) {n : Node} {ns : List Node} :
    n.Expands table ns → Step table (pre ++ n :: post) (pre ++ ns ++ post)

/-- **Forms that derive forms**, in any number of steps. -/
abbrev Derives (table : RuleTable) : List Node → List Node → Prop := ReflTransGen table.Step

/-- **A sentence of a rule.** -/
def Sentence (table : RuleTable) (goal : String) (tokens : List Token) : Prop :=
  ∃ form, table.Derives [.rule goal] form ∧ List.Forall₂ Node.Matches form tokens

/-- **A literal that can follow a body** in what a rule derives. -/
def Follows (table : RuleTable) (goal : String) (n : Node) (s : String) : Prop :=
  ∃ pre post, table.Derives [.rule goal] (pre ++ n :: .literal s :: post)

end RuleTable

/-- **The tokens that a body comes to.** -/
inductive Node.Yields (table : RuleTable) : Node → List Token → Prop
  | seq {h t : Node} {u v : List Token} :
    Yields table h u → Yields table t v → Yields table (.seq h t) (u ++ v)
  | lone {h : Node} {u : List Token} : Yields table h u → Yields table (.lone h) u
  | choice {n b : Node} {u : List Token} :
    n.isChoice = true → b ∈ n.branches → Yields table b u → Yields table n u
  | rule {name : String} {r : Rule} {u : List Token} :
    table.get? name = some r → Yields table r.body u → Yields table (.rule name) u
  | literal {s : String} {t : Token} :
    t.isLiteral s = true → Yields table (.literal s) [t]
  | empty : Yields table .empty []

/-- The tokens that a form comes to. -/
inductive YieldsAll (table : RuleTable) : List Node → List Token → Prop
  | nil : YieldsAll table [] []
  | cons {n : Node} {ns : List Node} {u v : List Token} :
    n.Yields table u → YieldsAll table ns v → YieldsAll table (n :: ns) (u ++ v)

variable {table : RuleTable}

/-! ## Forms -/

theorem Node.Yields.all {n : Node} {u : List Token} (h : n.Yields table u) :
    YieldsAll table [n] u := by
  rw [← List.append_nil u]
  exact .cons h .nil

theorem yieldsAll_singleton {n : Node} {u : List Token} :
    YieldsAll table [n] u ↔ n.Yields table u := by
  constructor
  · rintro (_ | ⟨h, _ | _⟩)
    rw [List.append_nil]
    exact h
  · exact Node.Yields.all

/-- **A form comes to what its parts come to**, one after the other. -/
theorem yieldsAll_append {ns ms : List Node} {w : List Token} :
    YieldsAll table (ns ++ ms) w
      ↔ ∃ u v, YieldsAll table ns u ∧ YieldsAll table ms v ∧ w = u ++ v := by
  induction ns generalizing w with
  | nil =>
    constructor
    · intro h
      exact ⟨[], w, .nil, h, rfl⟩
    · rintro ⟨u, v, hu, hv, rfl⟩
      cases hu
      exact hv
  | cons n ns ih =>
    constructor
    · rintro (_ | ⟨hn, h⟩)
      obtain ⟨u, v, hu, hv, rfl⟩ := ih.mp h
      exact ⟨_, v, .cons hn hu, hv, (List.append_assoc _ _ _).symm⟩
    · rintro ⟨_, v, _ | ⟨hn, hu⟩, hv, rfl⟩
      rw [List.append_assoc]
      exact .cons hn (ih.mpr ⟨_, v, hu, hv, rfl⟩)

namespace RuleTable

/-- A step can be made inside a form. -/
theorem Step.inside {ns ms : List Node} (h : table.Step ns ms) (pre post : List Node) :
    table.Step (pre ++ ns ++ post) (pre ++ ms ++ post) := by
  obtain ⟨pre', post', he⟩ := h
  have hstep := Step.expand (pre ++ pre') (post' ++ post) he
  simpa only [List.append_assoc, List.cons_append] using hstep

/-- **A derivation can be carried out inside a form.** -/
theorem Derives.inside {ns ms : List Node} (h : table.Derives ns ms) (pre post : List Node) :
    table.Derives (pre ++ ns ++ post) (pre ++ ms ++ post) := by
  induction h with
  | refl => exact .refl
  | tail _ hstep ih => exact ih.tail (hstep.inside pre post)

/-- Forms next to each other derive forms next to each other. -/
theorem Derives.append {ns ns' ms ms' : List Node} (h : table.Derives ns ns')
    (h' : table.Derives ms ms') : table.Derives (ns ++ ms) (ns' ++ ms') := by
  have hleft := h.inside [] ms
  have hright := h'.inside ns' []
  rw [List.append_nil, List.append_nil] at hright
  exact hleft.trans hright

/-- A body derives what it expands to. -/
theorem derives_of_expands {n : Node} {ns : List Node} (h : n.Expands table ns) :
    table.Derives [n] ns := by
  have hstep := Step.expand [] [] h
  rw [List.append_nil] at hstep
  exact .single hstep

end RuleTable

/-! ## Parts of rules -/

/-- **All bodies within the rules.** -/
def RuleTable.parts (table : RuleTable) : List Node := table.rules.flatMap (·.body.parts)

theorem RuleTable.mem_parts {n : Node} :
    n ∈ table.parts ↔ ∃ r ∈ table.rules, n ∈ r.body.parts :=
  List.mem_flatMap

theorem RuleTable.body_mem_parts {name : String} {r : Rule} (hr : table.get? name = some r) :
    r.body ∈ table.parts :=
  RuleTable.mem_parts.mpr ⟨r, RuleTable.mem_of_get? hr, Node.mem_parts_self _⟩

/-- The parts of a part are parts. -/
theorem RuleTable.parts_trans {n m : Node} (hn : n ∈ table.parts) (hm : m ∈ n.parts) :
    m ∈ table.parts := by
  obtain ⟨r, hr, hn⟩ := RuleTable.mem_parts.mp hn
  exact RuleTable.mem_parts.mpr ⟨r, hr, Node.parts_trans hn hm⟩

/-- **Parts of rules and references expand to parts of rules.** -/
theorem Node.Expands.mem_parts {n : Node} {ns : List Node} (h : n.Expands table ns)
    (hn : (∃ name, n = .rule name) ∨ n ∈ table.parts) : ∀ m ∈ ns, m ∈ table.parts := by
  have hpart : ∀ m ∈ n.parts, (∀ name, n ≠ .rule name) → m ∈ table.parts := by
    intro m hm hne
    rcases hn with ⟨name, rfl⟩ | hn
    · exact absurd rfl (hne name)
    · exact RuleTable.parts_trans hn hm
  cases h with
  | @seq h t =>
    intro m hm
    rcases List.mem_cons.mp hm with rfl | hm
    · exact hpart m (Node.head_mem_parts m t) nofun
    · obtain rfl := List.mem_singleton.mp hm
      exact hpart m (Node.tail_mem_parts h m) nofun
  | lone =>
    intro m hm
    obtain rfl := List.mem_singleton.mp hm
    exact hpart m (Node.lone_mem_parts m) nofun
  | choice hc hb =>
    intro m hm
    obtain rfl := List.mem_singleton.mp hm
    refine hpart m (Node.mem_parts_of_mem_branches hb) ?_
    rintro name rfl
    cases hc
  | rule hr =>
    intro m hm
    obtain rfl := List.mem_singleton.mp hm
    exact RuleTable.body_mem_parts hr
  | empty => exact nofun

/-! ## Two ways to say what a body comes to -/

/-- What a body yields it derives, literal by literal. -/
theorem Node.Yields.derives {n : Node} {u : List Token} (h : n.Yields table u) :
    ∃ form, table.Derives [n] form ∧ List.Forall₂ Node.Matches form u := by
  induction h with
  | seq _ _ hh ht =>
    obtain ⟨f, hf, hu⟩ := hh
    obtain ⟨f', hf', hv⟩ := ht
    exact ⟨f ++ f', (RuleTable.derives_of_expands .seq).trans (hf.append hf'),
      List.rel_append hu hv⟩
  | lone _ hh =>
    obtain ⟨f, hf, hu⟩ := hh
    exact ⟨f, (RuleTable.derives_of_expands .lone).trans hf, hu⟩
  | choice hn hb _ ih =>
    obtain ⟨f, hf, hu⟩ := ih
    exact ⟨f, (RuleTable.derives_of_expands (.choice hn hb)).trans hf, hu⟩
  | rule hr _ ih =>
    obtain ⟨f, hf, hu⟩ := ih
    exact ⟨f, (RuleTable.derives_of_expands (.rule hr)).trans hf, hu⟩
  | @literal s t ht => exact ⟨[.literal s], .refl, .cons ⟨s, rfl, ht⟩ .nil⟩
  | empty => exact ⟨[], RuleTable.derives_of_expands .empty, .nil⟩

theorem YieldsAll.derives {ns : List Node} {u : List Token} (h : YieldsAll table ns u) :
    ∃ form, table.Derives ns form ∧ List.Forall₂ Node.Matches form u := by
  induction h with
  | nil => exact ⟨[], .refl, .nil⟩
  | cons hn _ ih =>
    obtain ⟨f, hf, hu⟩ := hn.derives
    obtain ⟨f', hf', hv⟩ := ih
    exact ⟨f ++ f', hf.append hf', List.rel_append hu hv⟩

/-- A body yields what it expands to yields. -/
theorem Node.Expands.yields {n : Node} {ns : List Node} {u : List Token}
    (h : n.Expands table ns) (hns : YieldsAll table ns u) : n.Yields table u := by
  cases h with
  | @seq h t =>
    have hparts : YieldsAll table ([h] ++ [t]) u := hns
    obtain ⟨u, v, hu, hv, rfl⟩ := yieldsAll_append.mp hparts
    exact .seq (yieldsAll_singleton.mp hu) (yieldsAll_singleton.mp hv)
  | lone => exact .lone (yieldsAll_singleton.mp hns)
  | choice hn hb => exact .choice hn hb (yieldsAll_singleton.mp hns)
  | rule hr => exact .rule hr (yieldsAll_singleton.mp hns)
  | empty =>
    cases hns
    exact .empty

/-- **A form yields what it derives.** -/
theorem RuleTable.Derives.yieldsAll {ns form : List Node} {u : List Token}
    (h : table.Derives ns form) (hu : List.Forall₂ Node.Matches form u) :
    YieldsAll table ns u := by
  -- The literals at the end are yielded, and a step backwards changes
  -- nothing about what is.
  induction h using ReflTransGen.head_induction_on with
  | refl =>
    induction hu with
    | nil => exact .nil
    | cons hn _ ih =>
      obtain ⟨s, rfl, ht⟩ := hn
      exact .cons (.literal ht) ih
  | head hstep _ ih =>
    obtain ⟨pre, post, he⟩ := hstep
    obtain ⟨_, w, hfront, hpost, rfl⟩ := yieldsAll_append.mp ih
    obtain ⟨u, v, hpre, hns, rfl⟩ := yieldsAll_append.mp hfront
    rw [List.append_assoc]
    exact yieldsAll_append.mpr ⟨u, _, hpre, .cons (he.yields hns) hpost, rfl⟩

/-- **The sentences of a rule are what a reference to it yields.** -/
theorem RuleTable.sentence_iff {goal : String} {tokens : List Token} :
    table.Sentence goal tokens ↔ (Node.rule goal).Yields table tokens := by
  constructor
  · rintro ⟨form, hderives, hmatches⟩
    exact yieldsAll_singleton.mp (hderives.yieldsAll hmatches)
  · exact Node.Yields.derives

/-! ## Words -/

theorem Node.yields_choice {n : Node} (hn : n.isChoice = true) {u : List Token} :
    n.Yields table u ↔ ∃ b ∈ n.branches, b.Yields table u := by
  constructor
  · intro h
    cases h with
    | choice _ hb h => exact ⟨_, hb, h⟩
    | _ => cases hn
  · rintro ⟨b, hb, h⟩
    exact .choice hn hb h

/-- **A body yields what one of its words yields.** -/
theorem Node.yields_iff_exists_word {n : Node} {u : List Token} :
    n.Yields table u ↔ ∃ w ∈ n.words, YieldsAll table w u := by
  induction n using Node.branchInduction generalizing u with
  | seq h t hh ht =>
    constructor
    · intro hn
      cases hn with
      | seq hu hv =>
        obtain ⟨w, hw, hwu⟩ := hh.mp hu
        obtain ⟨w', hw', hwv⟩ := ht.mp hv
        exact ⟨w ++ w', Word.mem_concat.mpr ⟨w, hw, w', hw', rfl⟩,
          yieldsAll_append.mpr ⟨_, _, hwu, hwv, rfl⟩⟩
      | choice hn => cases hn
    · rintro ⟨_, hconcat, hwu⟩
      obtain ⟨w, hw, w', hw', rfl⟩ := Word.mem_concat.mp hconcat
      obtain ⟨u, v, hu, hv, rfl⟩ := yieldsAll_append.mp hwu
      exact .seq (hh.mpr ⟨w, hw, hu⟩) (ht.mpr ⟨w', hw', hv⟩)
  | lone h hh =>
    constructor
    · intro hn
      cases hn with
      | lone hu => exact hh.mp hu
      | choice hn => cases hn
    · exact fun hw => .lone (hh.mpr hw)
  | choice n hn hb =>
    rw [yields_choice hn, ← flatMap_words_branches n]
    constructor
    · rintro ⟨b, hmem, hbu⟩
      obtain ⟨w, hw, hwu⟩ := (hb b hmem).mp hbu
      exact ⟨w, List.mem_flatMap.mpr ⟨b, hmem, hw⟩, hwu⟩
    · rintro ⟨w, hw, hwu⟩
      obtain ⟨b, hmem, hw⟩ := List.mem_flatMap.mp hw
      exact ⟨b, hmem, (hb b hmem).mpr ⟨w, hw, hwu⟩⟩
  | empty =>
    constructor
    · intro hn
      cases hn with
      | choice hn => cases hn
      | empty => exact ⟨[], List.mem_singleton_self _, .nil⟩
    · rintro ⟨w, hw, hwu⟩
      obtain rfl := List.mem_singleton.mp hw
      cases hwu
      exact .empty
  | _ =>
    -- A letter is its only word.
    constructor
    · exact fun hn => ⟨_, List.mem_singleton_self _, hn.all⟩
    · rintro ⟨w, hw, hwu⟩
      obtain rfl := List.mem_singleton.mp hw
      exact yieldsAll_singleton.mp hwu

/-- Every rule of a table is in the factored table, factored. -/
theorem RuleTable.exists_get?_factored {result : RuleTable} (hf : table.factored = .ok result)
    {name : String} {r : Rule} (hr : table.get? name = some r) :
    ∃ m, result.get? name = some m ∧ r.factored = .ok m := by
  have hname : name ∈ result.targets := by
    rw [RuleTable.targets_factored hf]
    exact RuleTable.mem_targets.mpr ⟨r, hr⟩
  obtain ⟨m, hm⟩ := RuleTable.mem_targets.mp hname
  obtain ⟨r', hr', hfactored⟩ := RuleTable.get?_factored hf hm
  rw [hr] at hr'
  cases hr'
  exact ⟨m, hm, hfactored⟩

/-- **Factoring loses no sentence.** The rules change, but a body that
refers to them yields what it did, since they have the same words. -/
theorem Node.Yields.factored {result : RuleTable} (hf : table.factored = .ok result) {n : Node}
    {u : List Token} (h : n.Yields table u) : n.Yields result u := by
  induction h with
  | seq _ _ hh ht => exact .seq hh ht
  | lone _ hh => exact .lone hh
  | choice hn hb _ ih => exact .choice hn hb ih
  | @rule name r u hr _ ih =>
    obtain ⟨m, hm, hfactored⟩ := RuleTable.exists_get?_factored hf hr
    obtain ⟨w, hw, hwu⟩ := Node.yields_iff_exists_word.mp ih
    exact .rule hm (Node.yields_iff_exists_word.mpr
      ⟨w, (Rule.mem_words_factored hfactored).mpr hw, hwu⟩)
  | literal ht => exact .literal ht
  | empty => exact .empty

/-! ## What starts a body and what follows it -/

/-- A body that yields nothing can be passed. -/
theorem Node.Yields.nullable {n : Node} (h : n.Yields table []) : n.Nullable table := by
  generalize hu : ([] : List Token) = u at h
  induction h with
  | seq _ _ hh ht =>
    obtain ⟨rfl, rfl⟩ := List.append_eq_nil_iff.mp hu.symm
    exact .seq (hh rfl) (ht rfl)
  | lone _ hh => exact .lone (hh hu)
  | choice _ hb _ ih => exact Node.nullable_iff_branch.mpr ⟨_, hb, ih hu⟩
  | rule hr _ ih => exact .rule hr (ih hu)
  | literal => cases hu
  | empty => exact .empty

/-- **The first token that a body yields stands for a literal that can
start it.** -/
theorem Node.Yields.first {n : Node} {t : Token} {u : List Token} (h : n.Yields table (t :: u)) :
    ∃ s, n.First table (.literal s) ∧ t.isLiteral s = true := by
  generalize hw : t :: u = w at h
  induction h generalizing u with
  | @seq h' t' v v' hv _ hh ht =>
    cases v with
    | nil =>
      obtain ⟨s, hs, hlit⟩ := ht hw
      exact ⟨s, .tail hv.nullable hs, hlit⟩
    | cons t'' v =>
      obtain ⟨rfl, -⟩ := List.cons.inj hw
      obtain ⟨s, hs, hlit⟩ := hh rfl
      exact ⟨s, .head hs, hlit⟩
  | lone _ hh =>
    obtain ⟨s, hs, hlit⟩ := hh hw
    exact ⟨s, .lone hs, hlit⟩
  | choice _ hb _ ih =>
    obtain ⟨s, hs, hlit⟩ := ih hw
    exact ⟨s, Node.first_iff_branch.mpr ⟨_, hb, hs⟩, hlit⟩
  | rule hr _ ih =>
    obtain ⟨s, hs, hlit⟩ := ih hw
    exact ⟨s, .rule hr hs, hlit⟩
  | @literal s t' ht =>
    obtain ⟨rfl, -⟩ := List.cons.inj hw
    exact ⟨s, .literal, ht⟩
  | empty => cases hw

/-- **A body that the goal expects before some tokens**: it is part of a
rule, and some form that the goal derives has it before bodies that yield
the tokens. -/
structure Node.Expected (table : RuleTable) (goal : String) (n : Node) (rest : List Token) :
    Prop where
  part : n ∈ table.parts
  form : ∃ pre post, table.Derives [.rule goal] (pre ++ n :: post) ∧ YieldsAll table post rest

namespace Node.Expected

variable {goal : String} {rest : List Token}

/-- The body of the goal is expected before the end. -/
theorem start {r : Rule} (hr : table.get? goal = some r) : r.body.Expected table goal [] :=
  ⟨RuleTable.body_mem_parts hr, [], [], RuleTable.derives_of_expands (.rule hr), .nil⟩

/-- **What a body expands to is expected in its place.** -/
theorem expand {n m : Node} {ms : List Node} {v : List Token} (h : n.Expected table goal rest)
    (ns : List Node) (he : n.Expands table (ns ++ m :: ms)) (hms : YieldsAll table ms v) :
    m.Expected table goal (v ++ rest) := by
  obtain ⟨hn, pre, post, hderives, hpost⟩ := h
  refine ⟨he.mem_parts (.inr hn) m (List.mem_append_right _ List.mem_cons_self),
    pre ++ ns, ms ++ post, ?_, yieldsAll_append.mpr ⟨v, rest, hms, hpost, rfl⟩⟩
  have hstep := hderives.tail (.expand pre post he)
  simpa only [List.append_assoc, List.cons_append] using hstep

theorem head {h t : Node} {v : List Token} (hs : (Node.seq h t).Expected table goal rest)
    (ht : t.Yields table v) : h.Expected table goal (v ++ rest) :=
  hs.expand [] .seq ht.all

theorem tail {h t : Node} (hs : (Node.seq h t).Expected table goal rest) :
    t.Expected table goal rest :=
  hs.expand [h] .seq .nil

theorem lone {h : Node} (hs : (Node.lone h).Expected table goal rest) :
    h.Expected table goal rest :=
  hs.expand [] .lone .nil

theorem branch {n b : Node} (h : n.Expected table goal rest) (hn : n.isChoice = true)
    (hb : b ∈ n.branches) : b.Expected table goal rest :=
  h.expand [] (.choice hn hb) .nil

theorem rule {name : String} {r : Rule} (h : (Node.rule name).Expected table goal rest)
    (hr : table.get? name = some r) : r.body.Expected table goal rest :=
  h.expand [] (.rule hr) .nil

/-- **The first token behind a body stands for a literal that follows
it.** -/
theorem follows {n : Node} {t : Token} (h : n.Expected table goal (t :: rest)) :
    ∃ s, table.Follows goal n s ∧ t.isLiteral s = true := by
  obtain ⟨-, pre, post, hderives, hpost⟩ := h
  obtain ⟨form, hform, hmatches⟩ := hpost.derives
  obtain ⟨_, post', ⟨s, rfl, ht⟩, -, rfl⟩ := List.forall₂_cons_right_iff.mp hmatches
  refine ⟨s, ⟨pre, post', hderives.trans ?_⟩, ht⟩
  have hinside := hform.inside (pre ++ [n]) []
  simpa only [List.append_assoc, List.append_nil, List.singleton_append] using hinside

end Node.Expected

end Descent
