import Descent.Grammar.Source

/-!
# The notation of grammars

The notation of grammars is given by rules of its own:

```text
grammar     := rule*
rule        := IDENT "::=" alternation ";"
alternation := sequence ("|" sequence)*
sequence    := element* action?
element     := STRING | DIRECTIVE "(" arguments ")" | IDENT | "<" "empty" ">"
             | "(" alternation ")" | "[" alternation "]"
action      := "{" expression "}"
```

This file has them as inductive relations between runs of tokens and what
they write, one constructor for each way to go.

The rules look ahead in one place only: a name that calls a directive is a
reference unless a parenthesis comes next. So every relation has the token
`next` after the run as a parameter, and nothing but that place uses it.
-/

namespace Descent.Source

/-- **An argument of a directive**: a word, a quoted text or a number. -/
inductive IsArgument (t : Token) : Directive.Argument → Prop
  | name : t.kind = .identifier → IsArgument t (.name t.spelling)
  | string : t.kind = .string → IsArgument t (.string (Text.unquote t.spelling))
  | number : t.kind = .number → IsArgument t (.number t.spelling)

/-- Arguments after the first, each behind a comma. -/
inductive MoreArguments : List Token → List Directive.Argument → Prop
  | nil : MoreArguments [] []
  | cons {comma t : Token} {a : Directive.Argument} {u : List Token}
      {args : List Directive.Argument} :
    comma.isPunct "," = true → IsArgument t a → MoreArguments u args →
      MoreArguments (comma :: t :: u) (a :: args)

/-- **The arguments of a directive**, separated by commas. -/
inductive Arguments : List Token → List Directive.Argument → Prop
  | none : Arguments [] []
  | some {t : Token} {a : Directive.Argument} {u : List Token}
      {args : List Directive.Argument} :
    IsArgument t a → MoreArguments u args → Arguments (t :: u) (a :: args)

/-- **A name that calls a directive**: one of the four, with an opening
parenthesis right behind it. -/
def IsCall (t : Token) (next : Option Token) : Prop :=
  (∃ kind : Directive.Kind, t.spelling = kind.name) ∧ next.any (·.isPunct "(") = true

/-- **A run of tokens that is read as an expression up to the closing
brace** behind it. -/
def IsBody (operators : OperatorTable) (u : List Token) (closing : Token) (e : Expr) : Prop :=
  ∃ finish, Expr.parse operators 0 ⟨u ++ [closing], finish⟩ = .ok e ⟨[closing], finish⟩

mutual

/-- **An element.** -/
inductive Element (operators : OperatorTable) : List Token → Node → Option Token → Prop
  | literal {t : Token} {next : Option Token} :
    t.kind = .string → Element operators [t] (.literal (Text.unquote t.spelling)) next
  /-- A name in capitals. -/
  | reserved {t : Token} {next : Option Token} :
    t.kind = .identifier → ¬ IsCall t next → isClassName t.spelling = true →
      Element operators [t] (.reserved t.spelling) next
  /-- Any other name. -/
  | rule {t : Token} {next : Option Token} :
    t.kind = .identifier → ¬ IsCall t next → isClassName t.spelling = false →
      Element operators [t] (.rule t.spelling) next
  /-- A call. The directive that reads expressions needs a binding power
  and nothing else. -/
  | directive {t opening closing : Token} {kind : Directive.Kind} {u : List Token}
      {args : List Directive.Argument} {next : Option Token} :
    t.kind = .identifier → t.spelling = kind.name → opening.isPunct "(" = true →
      Arguments u args → closing.isPunct ")" = true →
      (kind = .precedence → ∃ n, args = [.number n] ∧ (Text.word? n).isSome = true) →
      Element operators (t :: opening :: (u ++ [closing])) (.directive ⟨kind, args⟩) next
  | empty {opening word closing : Token} {next : Option Token} :
    opening.kind = .operator → opening.spelling = "<" → word.kind = .identifier →
      word.spelling = "empty" → closing.isPunct ">" = true →
      Element operators [opening, word, closing] .empty next
  | group {opening closing : Token} {u : List Token} {bs : List Node} {next : Option Token} :
    opening.kind = .delimiter → opening.spelling = "(" →
      Branches operators u bs (some closing) → closing.isPunct ")" = true →
      Element operators (opening :: (u ++ [closing])) (.alternative bs) next
  /-- What stands in brackets or nothing. -/
  | optional {opening closing : Token} {u : List Token} {bs : List Node}
      {next : Option Token} :
    opening.kind = .delimiter → opening.spelling = "[" →
      Branches operators u bs (some closing) → closing.isPunct "]" = true →
      Element operators (opening :: (u ++ [closing]))
        (.alternative [.alternative bs, .empty]) next

/-- **The elements of a sequence**, with an action at most at the end. -/
inductive Elements (operators : OperatorTable) :
    List Token → List Node → Option Token → Prop
  | nil {next : Option Token} : Elements operators [] [] next
  | action {opening closing : Token} {u : List Token} {e : Expr} {next : Option Token} :
    opening.isPunct "\x7b" = true → IsBody operators u closing e →
      closing.isPunct "\x7d" = true →
      Elements operators (opening :: (u ++ [closing])) [.action e] next
  | cons {u v : List Token} {n : Node} {es : List Node} {next : Option Token} :
    Element operators u n (v.head?.or next) → Elements operators v es next →
      Elements operators (u ++ v) (n :: es) next

/-- **The branches of a choice**, each the canonical sequence of its
elements. -/
inductive Branches (operators : OperatorTable) :
    List Token → List Node → Option Token → Prop
  | one {u : List Token} {es : List Node} {next : Option Token} :
    Elements operators u es next → Branches operators u [.sequence es] next
  | cons {u v : List Token} {bar : Token} {es bs : List Node} {next : Option Token} :
    Elements operators u es (some bar) → bar.isPunct "|" = true →
      Branches operators v bs next →
      Branches operators (u ++ bar :: v) (.sequence es :: bs) next

end

/-- **A rule.** -/
inductive RuleText (operators : OperatorTable) : List Token → Rule → Prop
  | intro {name sign closing : Token} {u : List Token} {bs : List Node} :
    name.kind = .identifier → sign.isPunct "::=" = true →
      Branches operators u bs (some closing) → closing.isPunct ";" = true →
      RuleText operators (name :: sign :: (u ++ [closing])) ⟨name.spelling, .alternative bs⟩

/-- **Rules one after the other.** -/
inductive RuleTexts (operators : OperatorTable) : List Token → List Rule → Prop
  | nil : RuleTexts operators [] []
  | cons {u v : List Token} {r : Rule} {rs : List Rule} :
    RuleText operators u r → RuleTexts operators v rs →
      RuleTexts operators (u ++ v) (r :: rs)

end Descent.Source
