import Descent.Proofs.First.Exactness

/-!
# FIRST sets of fragments

The sets of the rules are all that is needed to find the set of any body
over them. There is nothing to look into any more, so a reference is
answered at once, and going through a body comes to what it came to when
the rules were resolved: **a body has a FIRST set exactly if it settles**
(`FirstSets.firstOf_ok_iff`), and the set is right about it
(`FirstSets.describes_firstOf`).

Of the parts of a rule, every reference is to a rule that settles, and
every choice has sides that are apart. So every part has a set
(`RuleTable.settles_of_mem_parts`).
-/

namespace Descent

variable {table : RuleTable} {sets : FirstSets}

/-- A name that is no rule's has no set. -/
theorem FirstSets.get?_eq_none (h : table.firstSets = .ok sets) {name : String}
    (hname : name ∉ table.targets) : sets.get? name = none := by
  obtain ⟨hnames, -⟩ := RuleTable.resolved_of_firstSets h
  refine List.lookup_eq_none_iff.mpr (fun p hp => ?_)
  rw [bne_iff_ne]
  rintro rfl
  rw [← hnames] at hname
  exact hname (List.mem_map_of_mem hp)

/-- **The sets of the rules answer references as the resolver does.** -/
theorem FirstSets.resolves_reference (h : table.firstSets = .ok sets) (k : Nat) (name : String) :
    Resolver.Resolves table (fun _ => False) k (.rule name)
      (match sets.get? name with
        | some s => pure s
        | none => throw (.undefined name)) := by
  by_cases hname : name ∈ table.targets
  · obtain ⟨hsettles, s, hs, hdescribes⟩ := (RuleTable.resolved_of_firstSets h).2 name hname
    rw [hs]
    exact Resolver.resolves_pure hdescribes hsettles
  · have hnone : table.get? name = none := by
      rw [RuleTable.mem_targets, not_exists] at hname
      exact Option.eq_none_iff_forall_ne_some.mpr hname
    rw [FirstSets.get?_eq_none h hname]
    exact fun q hq => Resolver.breaks_of_undefined hq.truthful hnone

/-- Going through a body ends in one of two ways. -/
theorem FirstSets.firstOf_cases (h : table.firstSets = .ok sets) (n : Node) :
    (∃ s, sets.firstOf n = .ok s ∧ n.Settles table ∧ s.Describes table n)
      ∨ ∃ e, sets.firstOf n = .error e ∧ ¬ n.Settles table := by
  have hends := Resolver.resolves_firstOf (FirstSets.resolves_reference h table.size) n
    .start ((Resolver.calm_start table).ready n)
  unfold FirstSets.firstOf
  dsimp only
  cases hrun : Resolver.firstOf (fun name => match sets.get? name with
      | some s => pure s
      | none => throw (.undefined name)) n .start with
  | ok s q =>
    have hgives := hends.of_ok hrun
    exact .inl ⟨s, rfl, hgives.settles, hgives.describes⟩
  | error e q => exact .inr ⟨e, rfl, (hends.of_error hrun).unsettled⟩

/-- **A body has a FIRST set exactly if it settles.** -/
theorem FirstSets.firstOf_ok_iff (h : table.firstSets = .ok sets) {n : Node} :
    (∃ s, sets.firstOf n = .ok s) ↔ n.Settles table := by
  rcases firstOf_cases h n with ⟨s, hs, hn, -⟩ | ⟨e, he, hn⟩
  · exact iff_of_true ⟨s, hs⟩ hn
  · refine iff_of_false ?_ hn
    rintro ⟨s, hs⟩
    rw [he] at hs
    cases hs

/-- **The FIRST set of a body is right about it.** -/
theorem FirstSets.describes_firstOf (h : table.firstSets = .ok sets) {n : Node} {s : FirstSet}
    (hs : sets.firstOf n = .ok s) : s.Describes table n := by
  rcases firstOf_cases h n with ⟨s', hs', -, hdescribes⟩ | ⟨e, he, -⟩
  · rw [hs] at hs'
    cases hs'
    exact hdescribes
  · rw [hs] at he
    cases he

/-! ## The parts of rules -/

/-- A part of a body that is clear of defects is clear of them too. -/
theorem Node.Clear.of_part {n m : Node} (h : n.Clear table) (hm : m ∈ n.parts) :
    m.Clear table where
  defined name hk := h.defined name (Node.parts_trans hm hk)
  apart k hk := h.apart k (Node.parts_trans hm hk)

/-- The body of a rule is clear of defects in a table that is well
formed. -/
theorem RuleTable.WellFormed.clear (h : table.WellFormed) {r : Rule} (hr : r ∈ table.rules) :
    r.body.Clear table :=
  ⟨h.defined r hr, h.apart r hr⟩

/-- **A body that is clear of defects settles if the rules do.** -/
theorem Node.Clear.settles {n : Node} (h : n.Clear table)
    (hrules : ∀ name ∈ table.targets, (Node.rule name).Settles table) : n.Settles table := by
  induction n with
  | seq a b ha hb =>
    exact .seq (ha (h.of_part (head_mem_parts a b)))
      fun _ => hb (h.of_part (tail_mem_parts a b))
  | lone a ha => exact .lone (ha (h.of_part (lone_mem_parts a)))
  | alt a b ha hb =>
    have hapart := h.apart _ (mem_parts_self _) rfl
    exact .alt (ha (h.of_part (left_mem_parts a b)))
      (hb (h.of_part (right_mem_parts a b)))
      (pairwise_apart_alt.mp hapart).2.2
  | literal s => exact .literal
  | reserved s => exact .reserved
  | rule name =>
    exact hrules name (RuleTable.mem_targets.mpr (h.defined name (mem_parts_self _)))
  | directive d => exact .directive
  | action e => exact .action
  | empty => exact .empty

/-- **Every rule of a table that has FIRST sets settles.** -/
theorem RuleTable.settles_rules (h : table.firstSets = .ok sets) :
    ∀ name ∈ table.targets, (Node.rule name).Settles table :=
  fun name hname => ((RuleTable.resolved_of_firstSets h).2 name hname).1

/-- **Every part of a rule settles.** -/
theorem RuleTable.settles_of_mem_parts (h : table.firstSets = .ok sets) {r : Rule}
    (hr : r ∈ table.rules) {n : Node} (hn : n ∈ r.body.parts) : n.Settles table := by
  have hclear := (RuleTable.wellFormed_of_firstSets h).clear hr
  exact (hclear.of_part hn).settles (RuleTable.settles_rules h)

end Descent
