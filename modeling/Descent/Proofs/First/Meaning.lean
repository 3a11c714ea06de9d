import Descent.Grammar.First.Resolver
import Descent.Proofs.Parts
import Mathlib.Data.List.Pairwise
import Mathlib.Logic.Relation

/-!
# What FIRST sets mean

A FIRST set is computed rule by rule, with a cache, marks and a bound.
What it is meant to hold can be said without any of these, as **the least
relations that the rules give**: which bodies can be passed without
taking a token (`Node.Nullable`), and which labels can start a body
(`Node.First`). Both go through references, so they are inductive, and a
rule that refers to itself is no obstacle to saying what they are.

Left recursion is about references that come first. A body *exposes* a
reference if all that stands before it can be passed (`Node.Exposes`). A
rule leads to the rules that its body exposes (`RuleTable.Leads`), and it
is left recursive if it leads to itself in one or more steps.

The branches of a choice are *apart* if no label starts both and not both
can be passed (`Node.Apart`). A table is **well formed** if every
reference is to a rule, no rule is left recursive, and the branches of
every choice are apart from each other (`RuleTable.WellFormed`).
-/

namespace Descent

namespace Node

/-- **A body that can be passed without taking a token.** -/
inductive Nullable (table : RuleTable) : Node → Prop
  | seq {h t : Node} : Nullable table h → Nullable table t → Nullable table (.seq h t)
  | lone {h : Node} : Nullable table h → Nullable table (.lone h)
  | left {l r : Node} : Nullable table l → Nullable table (.alt l r)
  | right {l r : Node} : Nullable table r → Nullable table (.alt l r)
  | rule {name : String} {r : Rule} :
    table.get? name = some r → Nullable table r.body → Nullable table (.rule name)
  | directive {d : Directive} :
    d.kind = .error ∨ d.kind = .recover → Nullable table (.directive d)
  | action {e : Expr} : Nullable table (.action e)
  | empty : Nullable table .empty

/-- **A label that can start a body.** -/
inductive First (table : RuleTable) : Node → Label → Prop
  | head {h t : Node} {l : Label} : First table h l → First table (.seq h t) l
  | tail {h t : Node} {l : Label} :
    Nullable table h → First table t l → First table (.seq h t) l
  | lone {h : Node} {l : Label} : First table h l → First table (.lone h) l
  | left {a b : Node} {l : Label} : First table a l → First table (.alt a b) l
  | right {a b : Node} {l : Label} : First table b l → First table (.alt a b) l
  | rule {name : String} {r : Rule} {l : Label} :
    table.get? name = some r → First table r.body l → First table (.rule name) l
  | literal {s : String} : First table (.literal s) (.literal s)
  | reserved {s : String} : First table (.reserved s) (.reserved s)
  | guard {d : Directive} :
    d.kind = .lookahead ∨ d.kind = .precedence → First table (.directive d) (.guard d)

/-- **A reference that can come first**: all that stands before it can be
passed. -/
inductive Exposes (table : RuleTable) : Node → String → Prop
  | head {h t : Node} {name : String} : Exposes table h name → Exposes table (.seq h t) name
  | tail {h t : Node} {name : String} :
    Nullable table h → Exposes table t name → Exposes table (.seq h t) name
  | lone {h : Node} {name : String} : Exposes table h name → Exposes table (.lone h) name
  | left {a b : Node} {name : String} : Exposes table a name → Exposes table (.alt a b) name
  | right {a b : Node} {name : String} : Exposes table b name → Exposes table (.alt a b) name
  | rule {name : String} : Exposes table (.rule name) name

/-- **Bodies that what comes next tells apart**: no label starts both, and
not both can be passed. -/
def Apart (table : RuleTable) (a b : Node) : Prop :=
  (∀ l, ¬ (a.First table l ∧ b.First table l)) ∧ ¬ (a.Nullable table ∧ b.Nullable table)

end Node

namespace RuleTable

/-- A rule leads to the rules that its body exposes. -/
def Leads (table : RuleTable) (name target : String) : Prop :=
  ∃ r, table.get? name = some r ∧ r.body.Exposes table target

/-- **A table that FIRST sets can be computed for.** -/
structure WellFormed (table : RuleTable) : Prop where
  /-- Every reference in a body is to a rule. -/
  defined : ∀ r ∈ table.rules, ∀ name, Node.rule name ∈ r.body.parts →
    ∃ target, table.get? name = some target
  /-- No rule leads to itself. -/
  noLeftRecursion : ∀ name, ¬ Relation.TransGen table.Leads name name
  /-- The branches of every choice in a body are apart from each other. -/
  apart : ∀ r ∈ table.rules, ∀ n ∈ r.body.parts, n.isChoice = true →
    n.branches.Pairwise (Node.Apart table)

/-- **A rule of a table is found by its name**, since no other has it. -/
theorem get?_target {table : RuleTable} {r : Rule} (h : r ∈ table.rules) :
    table.get? r.target = some r := by
  have hnodup := table.nodup
  unfold get?
  generalize table.rules = rs at h hnodup
  induction rs with
  | nil => cases h
  | cons r' rs ih =>
    obtain ⟨hr', hrs⟩ := List.nodup_cons.mp hnodup
    rw [List.find?_cons]
    rcases List.mem_cons.mp h with rfl | h
    · rw [beq_self_eq_true]
    · have hne : r'.target ≠ r.target :=
        fun heq => hr' (heq ▸ List.mem_map_of_mem h)
      rw [beq_false_of_ne hne]
      exact ih h hrs

/-- The names of rules are the names under which a rule is found. -/
theorem mem_targets {table : RuleTable} {name : String} :
    name ∈ table.targets ↔ ∃ r, table.get? name = some r := by
  constructor
  · intro h
    obtain ⟨r, hr, rfl⟩ := List.mem_map.mp h
    exact ⟨r, get?_target hr⟩
  · rintro ⟨r, hr⟩
    exact List.mem_map.mpr ⟨r, mem_of_get? hr, target_of_get? hr⟩

end RuleTable

namespace Node

variable {table : RuleTable}

/-! ## The relations, shape by shape -/

theorem nullable_seq {h t : Node} :
    (seq h t).Nullable table ↔ h.Nullable table ∧ t.Nullable table := by
  constructor
  · intro hn
    cases hn with
    | seq hh ht => exact ⟨hh, ht⟩
  · rintro ⟨hh, ht⟩
    exact .seq hh ht

theorem nullable_lone {h : Node} : (lone h).Nullable table ↔ h.Nullable table := by
  constructor
  · intro hn
    cases hn with
    | lone hh => exact hh
  · exact .lone

theorem nullable_alt {l r : Node} :
    (alt l r).Nullable table ↔ l.Nullable table ∨ r.Nullable table := by
  constructor
  · intro hn
    cases hn with
    | left hl => exact .inl hl
    | right hr => exact .inr hr
  · rintro (hl | hr)
    · exact .left hl
    · exact .right hr

theorem nullable_rule {name : String} {r : Rule} (hr : table.get? name = some r) :
    (Node.rule name).Nullable table ↔ r.body.Nullable table := by
  constructor
  · intro hn
    cases hn with
    | rule hr' hb =>
      rw [hr] at hr'
      cases hr'
      exact hb
  · exact .rule hr

theorem nullable_directive {d : Directive} :
    (directive d).Nullable table ↔ d.kind = .error ∨ d.kind = .recover := by
  constructor
  · intro hn
    cases hn with
    | directive hd => exact hd
  · exact .directive

theorem first_seq {h t : Node} {l : Label} :
    (seq h t).First table l
      ↔ h.First table l ∨ (h.Nullable table ∧ t.First table l) := by
  constructor
  · intro hf
    cases hf with
    | head hh => exact .inl hh
    | tail hn ht => exact .inr ⟨hn, ht⟩
  · rintro (hh | ⟨hn, ht⟩)
    · exact .head hh
    · exact .tail hn ht

theorem first_lone {h : Node} {l : Label} : (lone h).First table l ↔ h.First table l := by
  constructor
  · intro hf
    cases hf with
    | lone hh => exact hh
  · exact .lone

theorem first_alt {a b : Node} {l : Label} :
    (alt a b).First table l ↔ a.First table l ∨ b.First table l := by
  constructor
  · intro hf
    cases hf with
    | left ha => exact .inl ha
    | right hb => exact .inr hb
  · rintro (ha | hb)
    · exact .left ha
    · exact .right hb

theorem first_rule {name : String} {r : Rule} {l : Label} (hr : table.get? name = some r) :
    (Node.rule name).First table l ↔ r.body.First table l := by
  constructor
  · intro hf
    cases hf with
    | rule hr' hb =>
      rw [hr] at hr'
      cases hr'
      exact hb
  · exact .rule hr

theorem first_literal {s : String} {l : Label} :
    (literal s).First table l ↔ l = .literal s := by
  constructor
  · intro hf
    cases hf with
    | literal => rfl
  · rintro rfl
    exact .literal

theorem first_directive {d : Directive} {l : Label} :
    (directive d).First table l
      ↔ (d.kind = .lookahead ∨ d.kind = .precedence) ∧ l = .guard d := by
  constructor
  · intro hf
    cases hf with
    | guard hd => exact ⟨hd, rfl⟩
  · rintro ⟨hd, rfl⟩
    exact .guard hd

/-- **What starts a choice starts one of its branches.** -/
theorem first_iff_branch {n : Node} {l : Label} :
    n.First table l ↔ ∃ b ∈ n.branches, b.First table l := by
  induction n with
  | alt a b ha hb =>
    rw [first_alt, ha, hb, branches_alt]
    simp only [List.mem_append, or_and_right, exists_or]
  | _ =>
    unfold branches
    simp only [List.mem_singleton, exists_eq_left]

/-- **A choice can be passed if one of its branches can.** -/
theorem nullable_iff_branch {n : Node} :
    n.Nullable table ↔ ∃ b ∈ n.branches, b.Nullable table := by
  induction n with
  | alt a b ha hb =>
    rw [nullable_alt, ha, hb, branches_alt]
    simp only [List.mem_append, or_and_right, exists_or]
  | _ =>
    unfold branches
    simp only [List.mem_singleton, exists_eq_left]

/-- What a branch exposes the choice exposes. -/
theorem Exposes.of_branch {n b : Node} {name : String} (hb : b ∈ n.branches)
    (h : b.Exposes table name) : n.Exposes table name := by
  induction n with
  | alt l r hl hr =>
    rcases List.mem_append.mp hb with hb | hb
    · exact .left (hl hb)
    · exact .right (hr hb)
  | _ =>
    obtain rfl := List.mem_singleton.mp hb
    exact h

/-- **The branches of a choice are apart exactly if those of each side are
and the sides are.** -/
theorem pairwise_apart_alt {l r : Node} :
    (alt l r).branches.Pairwise (Apart table)
      ↔ l.branches.Pairwise (Apart table) ∧ r.branches.Pairwise (Apart table)
        ∧ Apart table l r := by
  rw [branches_alt, List.pairwise_append]
  refine and_congr_right (fun _ => and_congr_right (fun _ => ?_))
  constructor
  · intro h
    refine ⟨fun x hx => ?_, fun hx => ?_⟩
    · obtain ⟨a, ha, hal⟩ := first_iff_branch.mp hx.1
      obtain ⟨b, hb, hbl⟩ := first_iff_branch.mp hx.2
      exact (h a ha b hb).1 x ⟨hal, hbl⟩
    · obtain ⟨a, ha, hal⟩ := nullable_iff_branch.mp hx.1
      obtain ⟨b, hb, hbl⟩ := nullable_iff_branch.mp hx.2
      exact (h a ha b hb).2 ⟨hal, hbl⟩
  · intro h a ha b hb
    refine ⟨fun x hx => ?_, fun hx => ?_⟩
    · exact h.1 x ⟨first_iff_branch.mpr ⟨a, ha, hx.1⟩, first_iff_branch.mpr ⟨b, hb, hx.2⟩⟩
    · exact h.2
        ⟨nullable_iff_branch.mpr ⟨a, ha, hx.1⟩, nullable_iff_branch.mpr ⟨b, hb, hx.2⟩⟩

instance : Std.Symm (Apart table) where
  symm _ _ h := ⟨fun l hl => h.1 l hl.symm, fun hn => h.2 hn.symm⟩

/-- **At most one branch can be passed** of those that are apart. -/
theorem eq_of_nullable {ns : List Node} (h : ns.Pairwise (Apart table)) {a b : Node}
    (ha : a ∈ ns) (hb : b ∈ ns) (han : a.Nullable table) (hbn : b.Nullable table) : a = b := by
  by_contra hne
  exact (h.forall ha hb hne).2 ⟨han, hbn⟩

/-- What is no choice has a single branch, which there is nothing to tell
apart from. -/
theorem pairwise_apart_of_not_choice {n : Node} (h : n.isChoice = false) :
    n.branches.Pairwise (Apart table) := by
  rw [branches_of_not_choice h]
  exact List.pairwise_singleton _ _

end Node

/-! ## Sets that say what they mean -/

/-- **A FIRST set that is right about a body.** -/
structure FirstSet.Describes (table : RuleTable) (s : FirstSet) (n : Node) : Prop where
  /-- Its labels are those that can start the body. -/
  mem_labels : ∀ l, l ∈ s.labels ↔ n.First table l
  /-- It says whether the body can be passed. -/
  nullable_iff : s.nullable = true ↔ n.Nullable table

namespace FirstSet

variable {table : RuleTable} {s s' : FirstSet}

/-- **Only one set is right about a body.** -/
theorem Describes.unique {n : Node} (h : s.Describes table n) (h' : s'.Describes table n) :
    s = s' := by
  refine ext_mem (fun l => (h.mem_labels l).trans (h'.mem_labels l).symm) ?_
  exact Bool.eq_iff_iff.mpr (h.nullable_iff.trans h'.nullable_iff.symm)

theorem Describes.not_nullable {n : Node} (h : s.Describes table n) (hs : s.nullable = false) :
    ¬ n.Nullable table := by
  rw [← h.nullable_iff, hs]
  exact Bool.false_ne_true

/-- A head that takes a token decides by itself how a sequence starts. -/
theorem Describes.seq_of_not_nullable {h t : Node} (hs : s.Describes table h)
    (hn : s.nullable = false) : s.Describes table (.seq h t) where
  mem_labels l := by
    rw [hs.mem_labels, Node.first_seq, or_iff_left]
    exact fun hx => hs.not_nullable hn hx.1
  nullable_iff := by
    rw [hs.nullable_iff, Node.nullable_seq]
    exact ⟨fun hx => absurd hx (hs.not_nullable hn), fun hx => hx.1⟩

/-- After a head that can be passed, the tail has a say as well. -/
theorem Describes.followedBy {h t : Node} (hs : s.Describes table h)
    (ht : s'.Describes table t) (hn : s.nullable = true) :
    (s.followedBy s').Describes table (.seq h t) where
  mem_labels l := by
    rw [mem_followedBy, hs.mem_labels, ht.mem_labels, Node.first_seq, or_comm,
      and_iff_right (hs.nullable_iff.mp hn)]
  nullable_iff := by
    show s'.nullable = true ↔ _
    rw [ht.nullable_iff, Node.nullable_seq, and_iff_right (hs.nullable_iff.mp hn)]

theorem Describes.lone {h : Node} (hs : s.Describes table h) : s.Describes table (.lone h) where
  mem_labels l := (hs.mem_labels l).trans Node.first_lone.symm
  nullable_iff := hs.nullable_iff.trans Node.nullable_lone.symm

theorem Describes.union {l r : Node} (hl : s.Describes table l) (hr : s'.Describes table r) :
    (s.union s').Describes table (.alt l r) where
  mem_labels x := by
    rw [mem_union, hl.mem_labels, hr.mem_labels, Node.first_alt, or_comm]
  nullable_iff := by
    show (s.nullable || s'.nullable) = true ↔ _
    rw [Bool.or_eq_true, hl.nullable_iff, hr.nullable_iff, Node.nullable_alt]

theorem Describes.rule {name : String} {r : Rule} (hr : table.get? name = some r)
    (hs : s.Describes table r.body) : s.Describes table (.rule name) where
  mem_labels l := (hs.mem_labels l).trans (Node.first_rule hr).symm
  nullable_iff := hs.nullable_iff.trans (Node.nullable_rule hr).symm

/-- A single label is right about a body that only that label starts. -/
theorem describes_singleton {l : Label} {n : Node} (hf : ∀ x, n.First table x ↔ x = l)
    (hn : ¬ n.Nullable table) : (singleton l).Describes table n where
  mem_labels x := by
    rw [hf]
    exact List.mem_singleton
  nullable_iff := ⟨fun h => absurd h Bool.false_ne_true, fun h => absurd h hn⟩

/-- The set without labels is right about a body that can be passed and
that nothing starts. -/
theorem describes_passing {n : Node} (hf : ∀ x, ¬ n.First table x) (hn : n.Nullable table) :
    passing.Describes table n where
  mem_labels x := ⟨fun h => (List.not_mem_nil h).elim, fun h => absurd h (hf x)⟩
  nullable_iff := ⟨fun _ => hn, fun _ => rfl⟩

/-- A call that decides for itself whether it applies is its own label. -/
theorem describes_guard {d : Directive} (hd : d.kind = .lookahead ∨ d.kind = .precedence) :
    (singleton (.guard d)).Describes table (.directive d) := by
  refine describes_singleton (fun x => ?_) (fun hn => ?_)
  · rw [Node.first_directive, and_iff_right hd]
  · rcases hd with hd | hd <;> rcases Node.nullable_directive.mp hn with hk | hk <;>
      exact Directive.Kind.noConfusion (hd.symm.trans hk)

/-- A call that takes no token can be passed. -/
theorem describes_call {d : Directive} (hd : d.kind = .error ∨ d.kind = .recover) :
    passing.Describes table (.directive d) := by
  refine describes_passing (fun x hf => ?_) (.directive hd)
  have hk := (Node.first_directive.mp hf).1
  rcases hd with hd | hd <;> rcases hk with hk | hk <;>
    exact Directive.Kind.noConfusion (hd.symm.trans hk)

/-- **Two sets can be told apart exactly if the bodies can** that they are
right about. -/
theorem Describes.apart_iff {a b : Node} (ha : s.Describes table a) (hb : s'.Describes table b) :
    Node.Apart table a b
      ↔ s'.labels.find? s.contains = none ∧ (s.nullable && s'.nullable) = false := by
  unfold Node.Apart
  rw [List.find?_eq_none, ← ha.nullable_iff, ← hb.nullable_iff, ← Bool.and_eq_true,
    Bool.not_eq_true]
  refine and_congr_left (fun _ => forall_congr' (fun l => ?_))
  rw [← ha.mem_labels, ← hb.mem_labels, contains, List.contains_iff_mem, and_comm, not_and]

end FirstSet

end Descent
