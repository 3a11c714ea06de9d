import Descent.Grammar.Node
import Descent.Ordered

/-!
# Rules and tables of rules

A rule gives a name to a body. A table holds rules in the order in which
they were written, **no two of one name**: a second rule of a name is
refused when it is added, so the fact belongs to the type.

A table has a goal, the rule that reading starts from when none is
named: the only rule that no rule mentions, itself included, and the
first rule if there is not exactly one such.
-/

namespace Descent

/-- **What can be wrong with a grammar** as a whole. -/
inductive Defect where
  /-- The rule can reach itself before any token is taken. -/
  | leftRecursion (rule : String)
  /-- Two branches of a choice in the rule can start with the label. -/
  | ambiguous (label rule : String)
  /-- The empty branch of a choice in the rule is not its last. -/
  | malformed (rule : String)
  /-- No rule of this name is defined. -/
  | undefined (rule : String)
  /-- A second rule of this name. -/
  | duplicate (rule : String)
  /-- There is no rule at all. -/
  | noRules
deriving DecidableEq

/-- The wording of a defect. -/
def Defect.message : Defect → String
  | .leftRecursion rule => "left recursion detected in rule `" ++ rule ++ "`"
  | .ambiguous label rule =>
    "ambiguous grammar: `" ++ label ++ "` can start more than one alternative in rule `"
      ++ rule ++ "`"
  | .malformed rule => "empty alternative must appear last, in rule `" ++ rule ++ "`"
  | .undefined rule => "no definition for rule `" ++ rule ++ "`"
  | .duplicate rule => "rule `" ++ rule ++ "` is defined more than once"
  | .noRules => "grammar defines no rules"

/-- **A rule.** -/
structure Rule where
  /-- Its name. -/
  target : String
  /-- What it matches. -/
  body : Node
deriving DecidableEq

namespace Rule

/-- Whether the body mentions the rule of this name. -/
def references (r : Rule) (name : String) : Bool := r.body.references name

/-- How a rule is written. -/
def render (r : Rule) : String :=
  r.target ++ " ::= " ++ r.body.render ++ " ;"

end Rule

/-- **A table of rules**, in the order they were written. -/
structure RuleTable where
  /-- The rules. -/
  rules : List Rule
  /-- No two rules have one name. -/
  nodup : (rules.map Rule.target).Nodup
deriving DecidableEq

namespace RuleTable

/-- The table without rules. -/
def empty : RuleTable := ⟨[], by simp⟩

instance : Inhabited RuleTable := ⟨empty⟩

/-- The rule of this name. -/
def get? (table : RuleTable) (name : String) : Option Rule :=
  table.rules.find? (·.target == name)

/-- How many rules there are. -/
def size (table : RuleTable) : Nat := table.rules.length

/-- Whether there are no rules. -/
def isEmpty (table : RuleTable) : Bool := table.rules.isEmpty

/-- The names of the rules, in order. -/
def targets (table : RuleTable) : List String := table.rules.map Rule.target

/-- **Adds a rule at the end**, unless its name is taken. -/
def push (table : RuleTable) (rule : Rule) : Except Defect RuleTable :=
  if h : rule.target ∈ table.targets then .error (.duplicate rule.target)
  else
    .ok ⟨table.rules ++ [rule], by
      have := table.nodup
      simp only [targets, List.mem_map, not_exists, not_and] at h
      simp only [List.map_append, List.map_cons, List.map_nil, List.nodup_append]
      refine ⟨this, by simp, ?_⟩
      intro a ha b hb hab
      obtain ⟨r, hr, rfl⟩ := List.mem_map.1 ha
      simp only [List.mem_singleton] at hb
      exact h r hr (hab.trans hb)⟩

/-- Adds several rules in order, up to the first whose name is taken. -/
def pushAll (table : RuleTable) (rules : List Rule) : Except Defect RuleTable :=
  rules.foldlM push table

/-- **The rule to start from when none is named.** -/
def goal? (table : RuleTable) : Option Rule :=
  match table.rules.filter fun r => !table.rules.any (·.references r.target) with
  | [goal] => some goal
  | _ => table.rules.head?

/-- **The source text of a table**: each rule on a line of its own. -/
def render (table : RuleTable) : String :=
  String.join (table.rules.map fun r => r.render ++ "\n")

/-! ## Small facts -/

/-- A rule that is found has the name asked for. -/
theorem target_of_get? {table : RuleTable} {name : String} {r : Rule}
    (h : table.get? name = some r) : r.target = name := by
  simpa using List.find?_some h

/-- A rule that is found is in the table. -/
theorem mem_of_get? {table : RuleTable} {name : String} {r : Rule}
    (h : table.get? name = some r) : r ∈ table.rules :=
  List.mem_of_find?_eq_some h

/-- What a successful addition adds. -/
theorem rules_push {table result : RuleTable} {rule : Rule}
    (h : table.push rule = .ok result) : result.rules = table.rules ++ [rule] := by
  unfold push at h
  split at h
  · cases h
  · cases h; rfl

/-- Of rules that have names of their own, the first one can be added, and
the others can still be added after it. -/
theorem push_of_nodup {table : RuleTable} {rule : Rule} {rest : List Rule}
    (h : ((table.rules ++ rule :: rest).map Rule.target).Nodup) :
    ∃ result, table.push rule = .ok result ∧ result.rules = table.rules ++ [rule]
      ∧ ((result.rules ++ rest).map Rule.target).Nodup := by
  have hnew : rule.target ∉ table.targets := by
    intro hmem
    rw [List.map_append] at h
    exact (List.nodup_append.mp h).2.2 _ hmem _ List.mem_cons_self rfl
  unfold push
  rw [dif_neg hnew]
  refine ⟨_, rfl, rfl, ?_⟩
  rwa [List.append_assoc, List.singleton_append]

/-- A table is no more than its rules. -/
theorem eq_of_rules_eq {table result : RuleTable} (h : result.rules = table.rules) :
    result = table := by
  cases result
  cases table
  cases h
  rfl

end RuleTable

/-! ## Keywords

A token class that is not one of the kinds is a keyword. The keywords of
a grammar are all those that it mentions, as an element of a body or as
an argument of a directive; a scan for the grammar has to know them.
They are compared without case, so they are kept in lower case, each
once and in order. -/

/-- The words among some arguments. -/
def Directive.names (d : Directive) : List String :=
  d.args.filterMap fun
    | .name s => some s
    | .string _ | .number _ => none

/-- **The class names that a body mentions**, those in directives
included. -/
def Node.classNames : Node → List String
  | .seq h t => h.classNames ++ t.classNames
  | .lone h => h.classNames
  | .alt l r => l.classNames ++ r.classNames
  | .reserved name => [name]
  | .directive d => d.names
  | .literal _ | .rule _ | .action _ | .empty => []

/-- **The keywords of a table of rules**, in lower case and in order. -/
def RuleTable.keywords (table : RuleTable) : List String :=
  let names := table.rules.flatMap fun r => r.body.classNames
  Ordered.ofList ((names.filter fun s => (Token.classKind? s).isNone).map Text.lower)

end Descent
