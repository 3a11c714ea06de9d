import Descent.Grammar.Factor
import Descent.Grammar.First.Resolver
import Descent.Grammar.Source

/-!
# Grammars

A grammar is a table of rules with perhaps a chosen goal. Compiling it
factors the rules, computes their FIRST sets and settles the goal, and
reports the first defect found on the way: no rules, then those of
factoring, then those of the FIRST sets, then a goal that is no rule.

The goal is looked for among the rules as written.
-/

namespace Descent

/-- **A grammar**: rules, and the name of the goal if one is chosen. -/
structure Grammar where
  /-- The rules as written. -/
  rules : RuleTable
  /-- The chosen goal. -/
  chosen : Option String := none

/-- **A grammar ready to generate a parser from.** -/
structure Grammar.Compiled where
  /-- The factored rules. -/
  rules : RuleTable
  /-- Their FIRST sets. -/
  first : FirstSets
  /-- The name of the rule to start from. -/
  goal : String

namespace Grammar

/-- The grammar that a text writes. -/
def ofSource (source : String) : Except SourceError Grammar := do
  let rules ← RuleTable.ofSource source
  .ok { rules }

/-- The grammar with its goal chosen. -/
def withGoal (g : Grammar) (goal : String) : Grammar := { g with chosen := some goal }

/-- The FIRST sets of the factored rules. -/
def firstSets (g : Grammar) : Except Defect FirstSets := do
  let factored ← g.rules.factored
  factored.firstSets

/-- **The rule to start from**: the chosen one if there is a choice,
which must be defined, and otherwise the one that the rules suggest. -/
def goal (g : Grammar) : Except Defect Rule :=
  match g.chosen with
  | some name =>
    match g.rules.get? name with
    | some r => .ok r
    | none => .error (.undefined name)
  | none =>
    match g.rules.goal? with
    | some r => .ok r
    | none => .error .noRules

/-- **Factors the rules and computes their FIRST sets**, reporting the
first defect found. -/
def compile (g : Grammar) : Except Defect Compiled := do
  if g.rules.isEmpty then .error .noRules
  else
    let rules ← g.rules.factored
    let first ← rules.firstSets
    let goal ← g.goal
    .ok { rules, first, goal := goal.target }

end Grammar

end Descent
