import Descent.Grammar.Rule

/-!
# Left factoring

Two branches of a choice that begin with the same step cannot be told
apart by what comes next. Factoring takes the step out in front:
`a b | a c` becomes `a (b | c)`, and so on inside. Branches are grouped
by their first step, a group stands where its first member stood, and
members keep their order.

A branch that is nothing but the common step leaves an empty branch
behind. **The empty branch of a choice must be its last**, for whatever
comes after it would never be taken; so `a | a b` is refused while
`a b | a` is not.

What is inside the branches is factored before they are grouped, since
factoring can change how a branch begins: `(a b | a c) d` begins with
`a`. A choice that stands as a tail is opened again and its branches are
grouped with the others.

Taking the step out shortens every branch of the group, so the length of
the longest branch (`Node.height`) bounds the depth of the grouping.
-/

namespace Descent

/-- **How many steps the longest branch takes**, not looking into
heads. The empty body takes none. -/
def Node.height : Node → Nat
  | .empty => 0
  | .seq _ t => t.height + 1
  | .alt l r => max l.height r.height
  | _ => 1

namespace Factor

/-- Branches that begin with the same step: the first of them, and the
others in order. -/
abbrev Group := Node × List Node

/-- Puts a branch into the first group that begins with the same step,
or into a new one at the end. -/
def place (n : Node) : List Group → List Group
  | [] => [(n, [])]
  | g :: gs =>
    if g.1.sharesHead n then (g.1, g.2 ++ [n]) :: gs else g :: place n gs

/-- **The branches grouped by their first step**, groups in the order of
their first members. -/
def groups (flat : List Node) : List Group :=
  flat.foldl (fun gs n => place n gs) []

/-- What is left of a branch once its first step is taken out. -/
def remainder (n : Node) : Node := n.tail?.getD .empty

/-- **A group as one branch.** A single member stays as it is. Several
share their first step, and `self` joins what is left of them. -/
def ofGroup (self : List Node → Except Defect Node) : Group → Except Defect Node
  | (n, []) => .ok n
  | (n, m :: ms) => do
    let tail ← self ((n :: m :: ms).map remainder)
    .ok (.sequence [n.head, tail])

/-- The branches of several bodies, if only the last is empty. -/
def flatten (rule : String) (bodies : List Node) : Except Defect (List Node) :=
  let flat := bodies.flatMap Node.branches
  if flat.dropLast.any Node.isEmpty then .error (.malformed rule) else .ok flat

/-- The choice between bodies of at most `n` steps. Bodies of no steps
are empty and need no grouping. -/
def joinWithin (rule : String) : Nat → List Node → Except Defect Node
  | 0, bodies => do
    let flat ← flatten rule bodies
    .ok (.alternative flat)
  | n + 1, bodies => do
    let flat ← flatten rule bodies
    let joined ← (groups flat).mapM (ofGroup (joinWithin rule n))
    .ok (.alternative joined)

/-- **The choice between bodies that are factored themselves.** -/
def join (rule : String) (bodies : List Node) : Except Defect Node :=
  joinWithin rule (Node.alternative bodies).height bodies

/-- The body made of its factored branches: they are joined if it is a
choice, and otherwise there is only one. -/
def close (rule : String) (n : Node) (branches : List Node) : Except Defect Node :=
  if n.isChoice then join rule branches else .ok (.alternative branches)

/-- **The branches of a body, each factored inside.** -/
def branches (rule : String) : Node → Except Defect (List Node)
  | .alt l r => do
    let ls ← branches rule l
    let rs ← branches rule r
    .ok (ls ++ rs)
  | .seq h t => do
    let hs ← branches rule h
    let head ← close rule h hs
    let ts ← branches rule t
    let tail ← close rule t ts
    .ok [.sequence [head, tail]]
  | .lone h => do
    let hs ← branches rule h
    let head ← close rule h hs
    .ok [.sequence [head, .empty]]
  | n => .ok [n]

/-- **The factored body**, on behalf of a rule that a defect would
name. -/
def node (rule : String) (n : Node) : Except Defect Node := do
  let bs ← branches rule n
  close rule n bs

end Factor

/-- **The rule with its body factored.** -/
def Rule.factored (r : Rule) : Except Defect Rule := do
  let body ← Factor.node r.target r.body
  .ok ⟨r.target, body⟩

/-- **The table with every rule factored**, in the same order. -/
def RuleTable.factored (table : RuleTable) : Except Defect RuleTable :=
  table.rules.foldlM (fun t r => do t.push (← r.factored)) .empty

end Descent
