import Descent.Proofs.First.Meaning
import Descent.Proofs.Parser.Code
import Mathlib.Data.Finset.Card
import Mathlib.Data.Finset.Dedup

/-!
# How deep calls are nested

A rule calls another either after a token was taken or with none taken
yet. In the second case it leads to the other, and rules that lead to each
other form no circle, so **there is a rank that drops with every call that
comes before a token** (`RuleTable.WellFormed.exists_rank`). It counts the
rules that a rule leads to in any number of steps, and so it is never more
than the number of rules.

A call that takes no token drops the rank, a call after a token may raise
it to the top again. What holds of a call because it holds of these two
kinds of calls within it therefore holds of every call whose bound is the
number of rules for each token left and once more
(`RuleTable.WellFormed.descend`). That is the bound that a parser uses
(`Parser.depth_eq`).
-/

namespace Descent

open Relation (TransGen)

variable {table : RuleTable}

/-- A reference that a body exposes is a part of it. -/
theorem Node.Exposes.mem_parts {n : Node} {name : String} (h : n.Exposes table name) :
    .rule name ∈ n.parts := by
  induction h with
  | head _ ih => exact Node.parts_head_subset _ _ ih
  | tail _ _ ih => exact Node.parts_tail_subset _ _ ih
  | lone _ ih => exact Node.parts_lone_subset _ ih
  | left _ ih => exact Node.parts_left_subset _ _ ih
  | right _ ih => exact Node.parts_right_subset _ _ ih
  | rule => exact Node.mem_parts_self _

/-- A rule leads to rules only. -/
theorem RuleTable.WellFormed.mem_targets_of_leads (h : table.WellFormed) {name target : String}
    (hl : table.Leads name target) : target ∈ table.targets := by
  obtain ⟨r, hr, he⟩ := hl
  exact RuleTable.mem_targets.mpr
    (h.defined r (RuleTable.mem_of_get? hr) target he.mem_parts)

open Classical in
/-- **Rules have a rank that drops from a rule to those it leads to.** -/
theorem RuleTable.WellFormed.exists_rank (h : table.WellFormed) :
    ∃ rank : String → Nat, (∀ name, rank name ≤ table.size)
      ∧ ∀ name target, table.Leads name target → rank target < rank name := by
  refine ⟨fun name => (table.targets.toFinset.filter (TransGen table.Leads name)).card,
    fun name => ?_, fun name target hl => ?_⟩
  · calc (table.targets.toFinset.filter (TransGen table.Leads name)).card
        ≤ table.targets.toFinset.card := Finset.card_filter_le _ _
      _ ≤ table.targets.length := List.toFinset_card_le _
      _ = table.size := List.length_map _
  · refine Finset.card_lt_card ⟨fun m hm => ?_, fun hsub => ?_⟩
    · obtain ⟨hm, hlead⟩ := Finset.mem_filter.mp hm
      exact Finset.mem_filter.mpr ⟨hm, .head hl hlead⟩
    · -- The rule led to is itself counted for the first, but not for itself.
      have hmem : target ∈ table.targets.toFinset.filter (TransGen table.Leads name) :=
        Finset.mem_filter.mpr ⟨List.mem_toFinset.mpr (h.mem_targets_of_leads hl), .single hl⟩
      exact h.noLeftRecursion target (Finset.mem_filter.mp (hsub hmem)).2

/-- **Induction over calls.** A statement about a call and the bound on
what is nested in it holds of every call with a bound of all rules for
each token left and once more, if it holds of a call whenever, with the
bound lowered by one, it holds of all calls that have fewer tokens left
and of the calls that the rule leads to. -/
theorem RuleTable.WellFormed.descend (h : table.WellFormed)
    {motive : Nat → String → Cursor → Prop}
    (step : ∀ k name c,
      (∀ target d, d.rest.length < c.rest.length → motive k target d) →
      (∀ target, table.Leads name target → motive k target c) → motive (k + 1) name c)
    (name : String) (c : Cursor) :
    motive ((table.size + 1) * (c.rest.length + 1)) name c := by
  obtain ⟨rank, hsize, hdrop⟩ := h.exists_rank
  have key : ∀ k name (c : Cursor),
      (table.size + 1) * c.rest.length + rank name < k → motive k name c := by
    intro k
    induction k with
    | zero =>
      intro name c hk
      omega
    | succ k ih =>
      intro name c hk
      refine step k name c (fun target d hd => ih target d ?_) (fun target hl => ih target c ?_)
      · have hmul := Nat.mul_le_mul_left (table.size + 1) hd
        have hrank := hsize target
        rw [Nat.mul_succ] at hmul
        omega
      · have hrank := hdrop name target hl
        omega
  refine key _ name c ?_
  have hrank := hsize name
  rw [Nat.mul_succ]
  omega

/-- The bound of a parser counts its rules. -/
theorem Parser.depth_eq {g : Grammar.Compiled} {p : Parser} (hp : g.parser = .ok p)
    (tokens : Nat) : p.depth tokens = (g.rules.size + 1) * (tokens + 1) := by
  obtain ⟨-, -, hall⟩ := Grammar.Compiled.parser_eq_ok.mp hp
  unfold Parser.depth RuleTable.size
  rw [hall.length_eq]

end Descent
