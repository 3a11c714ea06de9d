import Descent.Grammar.First.Set
import Descent.Grammar.Rule

/-!
# Computing FIRST sets

The FIRST set of a rule is that of its body, and a body that refers to a
rule needs that rule's set first. The resolver keeps what it found, and
**marks a rule as in progress** before it looks into its body: coming
back to a marked rule means that the rule can reach itself before a
token is taken, which is left recursion.

A label that can start two branches of a choice makes the grammar
ambiguous, and so do two branches that can both be passed. A label that
starts a nullable head and also what comes after it is no defect: the
head is taken whenever it can be.

A failure leaves the rules that were being resolved marked, so a
resolver that goes on after a failure answers left recursion for them.
The rule that a defect names is restored, though: it is the one whose
body was being looked at.

Each rule is looked into at most once on the way down, since it is
marked there. So the number of rules bounds the depth, and where that is
used up every rule is marked or done.
-/

namespace Descent

/-- **What is known so far**: for each rule that was reached, its set,
or nothing while it is in progress; and the rule being looked at. -/
structure Resolver where
  /-- Latest first. -/
  cache : List (String × Option FirstSet)
  /-- The rule that a defect would name. -/
  current : String

/-- A step of a resolver. Its state is kept when it fails. -/
abbrev Resolving (α : Type) := EStateM Defect Resolver α

namespace Resolver

/-- A resolver that knows nothing. -/
def start : Resolver := ⟨[], ""⟩

/-- What is known of a rule: nothing, that it is in progress, or its
set. -/
def find? (r : Resolver) (name : String) : Option (Option FirstSet) :=
  r.cache.lookup name

/-- Fails with an ambiguity in the rule being looked at. -/
def ambiguous {α : Type} (label : String) : Resolving α := fun r =>
  .error (.ambiguous label r.current) r

/-- **The set of a choice**, if its sides can be told apart. Of several
labels that start both sides the least is named. -/
def either (s t : FirstSet) : Resolving FirstSet :=
  match t.labels.find? s.contains with
  | some label => ambiguous label.render
  | none =>
    if s.nullable && t.nullable then ambiguous "EMPTY" else pure (s.union t)

/-- **The FIRST set of a body**, given those of rules. -/
def firstOf (reference : String → Resolving FirstSet) : Node → Resolving FirstSet
  | .seq h t => do
    let s ← firstOf reference h
    if s.nullable then
      let rest ← firstOf reference t
      pure (s.followedBy rest)
    else pure s
  | .lone h => firstOf reference h
  | .alt l r => do
    let s ← firstOf reference l
    let t ← firstOf reference r
    either s t
  | .literal spelling => pure (.singleton (.literal spelling))
  | .reserved name => pure (.singleton (.reserved name))
  | .rule name => reference name
  | .directive d =>
    match d.kind with
    | .lookahead | .precedence => pure (.singleton (.guard d))
    | .error | .recover => pure .passing
  | .action _ | .empty => pure .passing

/-- Looks into a rule, which is marked meanwhile. -/
def enter (name : String) (body : Resolving FirstSet) : Resolving FirstSet := fun r =>
  match body ⟨(name, none) :: r.cache, name⟩ with
  | .ok set r' => .ok set ⟨(name, some set) :: r'.cache, r.current⟩
  | .error e r' => .error e { r' with current := r.current }

/-- The FIRST set of a rule, at most `n` rules deep. -/
def ruleWithin (table : RuleTable) : Nat → String → Resolving FirstSet
  | n, name => do
    match (← get).find? name with
    | some (some set) => pure set
    | some none => throw (.leftRecursion name)
    | none =>
      match n, table.get? name with
      | n + 1, some rule => enter name (firstOf (ruleWithin table n) rule.body)
      | _, _ => throw (.undefined name)

/-- **The FIRST set of a rule.** -/
def rule (table : RuleTable) (name : String) : Resolving FirstSet :=
  ruleWithin table table.size name

/-- **The FIRST set of any body** whose references are to rules of the
table. -/
def node (table : RuleTable) (n : Node) : Resolving FirstSet :=
  firstOf (rule table) n

/-- Computes the set of a choice for the sake of its defects. -/
def inspect (table : RuleTable) (n : Node) : Resolving Unit := do
  if n.isChoice then
    let _ ← node table n

/-- The choices and references below a body, in order. Choices nested in
choices are part of those. -/
def checkInside (table : RuleTable) : Node → Resolving Unit
  | .alt l r => do
    checkInside table l
    checkInside table r
  | .seq h t => do
    inspect table h
    checkInside table h
    inspect table t
    checkInside table t
  | .lone h => do
    inspect table h
    checkInside table h
  | .rule name => do
    let _ ← rule table name
  | _ => pure ()

/-- **Looks for defects that the FIRST set of the rule does not show**:
those in what comes after a head that takes tokens. -/
def check (table : RuleTable) (r : Rule) : Resolving Unit := do
  modify fun s => { s with current := r.target }
  inspect table r.body
  checkInside table r.body

/-- Resolves every rule, then checks every rule. -/
def all (table : RuleTable) : Resolving Unit := do
  table.rules.forM fun r => do
    let _ ← rule table r.target
  table.rules.forM (check table)

end Resolver

/-- **The FIRST sets of the rules of a table**, in the order of the
rules. -/
structure FirstSets where
  /-- Each rule's name with its set. -/
  sets : List (String × FirstSet)
deriving DecidableEq

namespace FirstSets

/-- The set of the rule of this name. -/
def get? (sets : FirstSets) (name : String) : Option FirstSet :=
  sets.sets.lookup name

/-- Asking for the set of a rule that there is none of. -/
structure Missing where
  /-- The name asked for. -/
  rule : String
deriving DecidableEq

/-- The wording of the error. -/
def Missing.message (m : Missing) : String :=
  "no first set for rule `" ++ m.rule ++ "`"

/-- The set of the rule of this name, which must exist. -/
def get (sets : FirstSets) (name : String) : Except Missing FirstSet :=
  match sets.get? name with
  | some set => .ok set
  | none => .error ⟨name⟩

/-- **The FIRST set of a fragment** of one of the rules. An ambiguity in
it belongs to no rule and names the empty one. -/
def firstOf (sets : FirstSets) (n : Node) : Except Defect FirstSet :=
  let reference (name : String) : Resolving FirstSet :=
    match sets.get? name with
    | some set => pure set
    | none => throw (.undefined name)
  match Resolver.firstOf reference n .start with
  | .ok set _ => .ok set
  | .error e _ => .error e

/-- The sets in the order of the names. -/
def sorted (sets : FirstSets) : List (String × FirstSet) :=
  sets.sets.mergeSort fun a b => decide (a.1 ≤ b.1)

end FirstSets

/-- **The FIRST sets of a table**, or the first defect found. -/
def RuleTable.firstSets (table : RuleTable) : Except Defect FirstSets :=
  match Resolver.all table .start with
  | .ok _ r =>
    .ok ⟨table.targets.filterMap fun name =>
      ((r.find? name).join).map fun set => (name, set)⟩
  | .error e _ => .error e

end Descent
