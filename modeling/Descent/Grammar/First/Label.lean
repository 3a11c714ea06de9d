import Descent.Grammar.Directive

/-!
# Labels

A label is one way in which a body can start: a literal, a token class,
or a directive that decides for itself whether it applies. Labels are
ordered – literals, then classes, then directives – so that a set of
labels has one form and is always shown the same way. Among themselves
literals and classes go by their text, directives by what they do and
then by their arguments, compared one after the other, a bare word
before a quoted text before a number.
-/

namespace Descent

/-- **One way in which a body can start.** -/
inductive Label where
  /-- With a token that stands for this literal. -/
  | literal (spelling : String)
  /-- With a token of this class. -/
  | reserved (name : String)
  /-- With whatever the directive admits. -/
  | guard (call : Directive)
deriving DecidableEq

/-- The place of a kind of directive among the kinds. -/
def Directive.Kind.rank : Directive.Kind → Nat
  | .lookahead => 0
  | .recover => 1
  | .error => 2
  | .precedence => 3

namespace Directive.Argument

/-- The place of a sort of argument among the sorts. -/
def rank : Argument → Nat
  | .name _ => 0
  | .string _ => 1
  | .number _ => 2

/-- What an argument says, whatever its sort. -/
def text : Argument → String
  | .name s | .string s | .number s => s

/-- Arguments by sort, then by text. -/
instance : Ord Argument := ⟨compareLex (compareOn rank) (compareOn text)⟩

instance : Std.TransOrd Argument :=
  inferInstanceAs (Std.TransCmp (compareLex (compareOn rank) (compareOn text)))

instance : Std.LawfulEqOrd Argument where
  eq_of_compare {a b} h := by
    have h : (compare a.rank b.rank).then (compare a.text b.text) = .eq := h
    simp only [Ordering.then_eq_eq, Std.LawfulEqOrd.compare_eq_iff_eq] at h
    cases a <;> cases b <;> simp_all [rank, text]

end Directive.Argument

namespace Label

/-- The place of a sort of label among the sorts, directives by what
they do. -/
def rank : Label → Nat
  | .literal _ => 0
  | .reserved _ => 1
  | .guard d => 2 + d.kind.rank

/-- The text of a label that is no directive. -/
def text : Label → String
  | .literal s | .reserved s => s
  | .guard _ => ""

/-- The arguments of a label that is a directive. -/
def args : Label → List Directive.Argument
  | .literal _ | .reserved _ => []
  | .guard d => d.args

/-- **The order of labels**: by sort, by text, by arguments. -/
instance : Ord Label :=
  ⟨compareLex (compareOn rank) (compareLex (compareOn text) (compareOn args))⟩

instance : Std.TransOrd Label :=
  inferInstanceAs (Std.TransCmp
    (compareLex (compareOn rank) (compareLex (compareOn text) (compareOn args))))

/-- **Labels that are not ordered either way are equal.** -/
instance : Std.LawfulEqOrd Label where
  eq_of_compare {a b} h := by
    have h : (compare a.rank b.rank).then
        ((compare a.text b.text).then (compare a.args b.args)) = .eq := h
    simp only [Ordering.then_eq_eq, Std.LawfulEqOrd.compare_eq_iff_eq] at h
    obtain ⟨hr, ht, ha⟩ := h
    match a, b with
    | .literal _, .literal _ => simpa [text] using ht
    | .reserved _, .reserved _ => simpa [text] using ht
    | .guard ⟨k, _⟩, .guard ⟨l, _⟩ =>
      cases k <;> cases l <;> simp_all [rank, args, Directive.Kind.rank]
    | .literal _, .reserved _ | .reserved _, .literal _ => simp [rank] at hr
    | .literal _, .guard d =>
      have : 0 = 2 + d.kind.rank := hr
      omega
    | .reserved _, .guard d =>
      have : 1 = 2 + d.kind.rank := hr
      omega
    | .guard d, .literal _ =>
      have : 2 + d.kind.rank = 0 := hr
      omega
    | .guard d, .reserved _ =>
      have : 2 + d.kind.rank = 1 := hr
      omega

/-- How a message names a label among what was expected. -/
def describe : Label → String
  | .literal s => "`" ++ s ++ "`"
  | .reserved name => name
  | .guard d => d.render

/-- How a label is shown in a set. -/
def render : Label → String
  | .literal s | .reserved s => s
  | .guard d => d.render

end Label

end Descent
