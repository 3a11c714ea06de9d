import Descent.Expr
import Descent.Grammar.Directive

/-!
# Rule bodies

The body of a rule is a tree of sequences and choices over elements. A
tree made by `Node.sequence` and `Node.alternative` is **canonical**: it
leans to the right, a sequence of one element is the element, and a
sequence holds no sequence and no empty element in front. Other trees
are bodies all the same, and every definition below gives them their
meaning; `lone` is there for a sequence that has one element and still
is a sequence.
-/

namespace Descent

/-- **A rule body**, or a part of one. -/
inductive Node where
  /-- One thing and then another. -/
  | seq (head tail : Node)
  /-- A sequence of a single element. -/
  | lone (head : Node)
  /-- One thing or another. -/
  | alt (left right : Node)
  /-- A token that stands for this literal. -/
  | literal (spelling : String)
  /-- A token of this class. -/
  | reserved (name : String)
  /-- What the rule of this name matches. -/
  | rule (name : String)
  /-- A built-in call. -/
  | directive (call : Directive)
  /-- An expression attached to what comes before it. -/
  | action (expr : Expr)
  /-- Nothing. -/
  | empty
deriving DecidableEq

namespace Node

/-- **The branches of a choice**, however it is nested, in order. What is
no choice is its own only branch. -/
def branches : Node → List Node
  | .alt l r => l.branches ++ r.branches
  | n => [n]

/-- **The elements of a sequence**, in order. An element that is itself
a sequence stays whole; what is no sequence is its own only element. -/
def elements : Node → List Node
  | .seq h t => h :: t.elements
  | .lone h => [h]
  | n => [n]

/-- The first element of a sequence. All else is its own head. -/
def head : Node → Node
  | .seq h _ | .lone h => h
  | n => n

/-- What follows the head of a sequence, if anything does. -/
def tail? : Node → Option Node
  | .seq _ t => some t
  | _ => none

/-- Whether this is the empty body. -/
def isEmpty (n : Node) : Bool := n == .empty

/-- Whether this is a choice. -/
def isChoice : Node → Bool
  | .alt _ _ => true
  | _ => false

/-- The first element that is no sequence itself, however deep it
stands. -/
def lead : Node → Node
  | .seq h _ | .lone h => h.lead
  | n => n

/-- **Whether two elements are one and the same step.** Literals,
classes, references, calls and choices are compared as they are. An
action or the empty body is no step, so it is the same as nothing, not
even as itself. -/
def sameStep : Node → Node → Bool
  | .literal a, .literal b => a == b
  | .reserved a, .reserved b => a == b
  | .rule a, .rule b => a == b
  | .directive a, .directive b => a == b
  | .alt a b, .alt c d => a == c && b == d
  | _, _ => false

/-- **Whether two bodies begin with the same step.** -/
def sharesHead (a b : Node) : Bool := sameStep a.lead b.lead

/-! ## Canonical sequences and choices -/

/-- A sequence that leans to the right. -/
def chain : List Node → Node
  | [] => .empty
  | [n] => n
  | n :: m :: r => .seq n (chain (m :: r))

/-- What an element contributes to a sequence: nothing if it is empty,
its own elements if it is a sequence. -/
def splice : Node → List Node
  | .empty => []
  | .seq h t => (Node.seq h t).elements
  | .lone h => [h]
  | n => [n]

/-- **The canonical sequence of some elements.** -/
def sequence (elements : List Node) : Node :=
  chain (elements.flatMap splice)

/-- **The choice between some branches**, leaning to the right. -/
def alternative : List Node → Node
  | [] => .empty
  | [n] => n
  | n :: m :: r => .alt n (alternative (m :: r))

/-! ## Text and references -/

/-- **How a body is written.** A choice stands in parentheses inside a
sequence, and as the left side of a choice. -/
def render : Node → String
  | .seq h t => grouped h h.render ++ " " ++ grouped t t.render
  | .lone h => grouped h h.render
  | .alt l r => grouped l l.render ++ " | " ++ r.render
  | .literal s => Text.quote s
  | .reserved s | .rule s => s
  | .directive d => d.render
  | .action e => "\x7b " ++ e.render ++ " \x7d"
  | .empty => "<empty>"
where
  /-- A text, in parentheses if it is that of a choice. -/
  grouped (n : Node) (text : String) : String :=
    if n.isChoice then "(" ++ text ++ ")" else text

/-- Whether a body mentions the rule of this name. -/
def references (name : String) : Node → Bool
  | .seq h t => h.references name || t.references name
  | .lone h => h.references name
  | .alt l r => l.references name || r.references name
  | .rule n => n == name
  | _ => false

/-! ## Small facts -/

@[simp] theorem branches_alt (l r : Node) :
    (Node.alt l r).branches = l.branches ++ r.branches := rfl

@[simp] theorem elements_seq (h t : Node) :
    (Node.seq h t).elements = h :: t.elements := rfl

theorem branches_of_not_choice {n : Node} (h : n.isChoice = false) :
    n.branches = [n] := by
  cases n <;> simp_all [branches, isChoice]

/-- Every body has a branch. -/
theorem branches_ne_nil (n : Node) : n.branches ≠ [] := by
  induction n with
  | alt l r hl _ => simp [hl]
  | _ => simp [branches]

/-- The branches of a body are no choices. -/
theorem isChoice_of_mem_branches {n b : Node} (h : b ∈ n.branches) :
    b.isChoice = false := by
  induction n with
  | alt l r hl hr => exact (List.mem_append.1 h).elim hl hr
  | _ => simp_all [branches, isChoice]

/-- **A choice of branches has these branches**, if none of them is a
choice itself. -/
theorem branches_alternative {bs : List Node} (hne : bs ≠ [])
    (h : ∀ b ∈ bs, b.isChoice = false) : (alternative bs).branches = bs := by
  fun_induction alternative bs with
  | case1 => exact absurd rfl hne
  | case2 n => exact branches_of_not_choice (h n (by simp))
  | case3 n m r ih =>
    rw [branches_alt, ih (by simp) (fun b hb => h b (by simp_all)),
      branches_of_not_choice (h n (by simp))]
    rfl

/-- A sequence of elements that are not empty is not empty. -/
theorem chain_ne_empty {es : List Node} (h : ∀ e ∈ es, e ≠ .empty) (hne : es ≠ []) :
    chain es ≠ .empty := by
  match es with
  | [] => exact absurd rfl hne
  | [n] => exact h n (List.mem_singleton_self n)
  | n :: m :: r => exact fun h => nomatch h

end Node

end Descent
