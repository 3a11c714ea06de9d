import Descent.Proofs.Factoring
import Descent.Proofs.Parts
import Mathlib.Data.List.Nodup

/-!
# What factoring leaves mentioned

Factoring drops things: where several branches begin with one step only
the step of the first one is kept, be it a whole choice in parentheses,
and empty elements go. What is dropped is there once more elsewhere, so
**a factored table mentions what the table mentions**, rule by rule. Two
things hang on that. The goal of a grammar is looked for among the rules
as written while its parser is made of the factored ones, and the keywords
that a scan has to know are collected from the factored ones only
(`RuleTable.names_factored`).

A mention is a letter somewhere in the body. Letters are where the words
of a body have them, and factoring keeps the words; so nothing here looks
at how factoring works.
-/

namespace Descent

namespace Node

/-- **A property of bodies that comes from their letters**: a body has it
if one of its parts has it, and the empty body does not. -/
structure FromLetters (P : Node → Prop) : Prop where
  seq (h t : Node) : P (.seq h t) ↔ P h ∨ P t
  lone (h : Node) : P (.lone h) ↔ P h
  alt (l r : Node) : P (.alt l r) ↔ P l ∨ P r
  empty : ¬ P .empty

namespace FromLetters

variable {P : Node → Prop} (hP : FromLetters P)

include hP

/-- The property is that of some letter among the parts. -/
theorem iff_exists_part (n : Node) : P n ↔ ∃ e ∈ n.parts, e.isLetter = true ∧ P e := by
  induction n with
  | seq h t hh ht => simp [parts, isLetter, hP.seq, hh, ht, or_and_right, exists_or]
  | lone h hh => simp [parts, isLetter, hP.lone, hh]
  | alt l r hl hr => simp [parts, isLetter, hP.alt, hl, hr, or_and_right, exists_or]
  | empty => simp [parts, isLetter, hP.empty]
  | _ => simp [parts, isLetter]

/-- **Bodies with the same words have it alike.** -/
theorem iff_of_words_perm {n m : Node} (h : m.words.Perm n.words) : P m ↔ P n := by
  rw [hP.iff_exists_part m, hP.iff_exists_part n]
  refine exists_congr fun e => and_congr_left fun ⟨he, _⟩ => ?_
  rw [mem_parts_iff_mem_word he, mem_parts_iff_mem_word he]
  exact exists_congr fun w => and_congr_left fun _ => h.mem_iff

end FromLetters

theorem fromLetters_references (name : String) :
    FromLetters fun n => n.references name = true where
  seq _ _ := Bool.or_eq_true_iff
  lone _ := Iff.rfl
  alt _ _ := Bool.or_eq_true_iff
  empty := Bool.false_ne_true

theorem fromLetters_classNames (name : String) : FromLetters fun n => name ∈ n.classNames where
  seq _ _ := List.mem_append
  lone _ := Iff.rfl
  alt _ _ := List.mem_append
  empty := List.not_mem_nil

end Node

namespace Rule

variable {r m : Rule}

/-- **A factored rule refers to the rules that the rule refers to.** -/
theorem references_factored (h : r.factored = .ok m) (name : String) :
    m.references name = r.references name :=
  Bool.eq_iff_iff.mpr ((Node.fromLetters_references name).iff_of_words_perm
    (Factor.node_joins (factored_eq_ok.mp h).2).1)

theorem mem_classNames_factored (h : r.factored = .ok m) {name : String} :
    name ∈ m.body.classNames ↔ name ∈ r.body.classNames :=
  (Node.fromLetters_classNames name).iff_of_words_perm
    (Factor.node_joins (factored_eq_ok.mp h).2).1

end Rule

namespace RuleTable

variable {table result : RuleTable}

/-- A rule is referred to in the factored table if it is in the table. -/
theorem any_references_factored (h : table.factored = .ok result) (name : String) :
    result.rules.any (·.references name) = table.rules.any (·.references name) := by
  have hall := forall₂_factored h
  generalize table.rules = rs, result.rules = ms at hall
  induction hall with
  | nil => rfl
  | cons hr _ ih => rw [List.any_cons, List.any_cons, ih, Rule.references_factored hr]

/-- **The goal keeps its name.** Rules that none refers to stand in the same
places, so there is one of them in either table or in none. -/
theorem goal?_factored (h : table.factored = .ok result) :
    result.goal?.map Rule.target = table.goal?.map Rule.target := by
  have hall := forall₂_factored h
  have hfree : List.Forall₂ (fun r m => r.factored = .ok m)
      (table.rules.filter fun r => !table.rules.any (·.references r.target))
      (result.rules.filter fun m => !result.rules.any (·.references m.target)) := by
    refine List.rel_filter (fun r m hr => ?_) hall
    show (!table.rules.any (·.references r.target)) = true
      ↔ (!result.rules.any (·.references m.target)) = true
    rw [any_references_factored h, (Rule.factored_eq_ok.mp hr).1]
  have hfirst : result.rules.head?.map Rule.target = table.rules.head?.map Rule.target := by
    generalize table.rules = rs, result.rules = ms at hall
    cases hall with
    | nil => rfl
    | cons hr _ => exact congrArg some (Rule.factored_eq_ok.mp hr).1
  unfold goal?
  generalize (table.rules.filter _) = rs, (result.rules.filter _) = ms at hfree
  cases hfree with
  | nil => exact hfirst
  | cons hr hrest =>
    cases hrest with
    | nil => exact congrArg some (Rule.factored_eq_ok.mp hr).1
    | cons _ _ => exact hfirst

/-- A word is a keyword if it is the lower case form of a class name that
stands in a rule and names no kind of token. -/
theorem mem_keywords {s : String} :
    s ∈ table.keywords ↔ ∃ r ∈ table.rules, ∃ name ∈ r.body.classNames,
      (Token.classKind? name).isNone = true ∧ Text.lower name = s := by
  unfold keywords
  simp only [Ordered.mem_ofList, List.mem_map, List.mem_filter, List.mem_flatMap]
  constructor
  · rintro ⟨name, ⟨⟨r, hr, hname⟩, hkind⟩, hs⟩
    exact ⟨r, hr, name, hname, hkind, hs⟩
  · rintro ⟨r, hr, name, hname, hkind, hs⟩
    exact ⟨name, ⟨⟨r, hr, hname⟩, hkind⟩, hs⟩

/-- **The keywords stay the same**, as lists. -/
theorem keywords_factored (h : table.factored = .ok result) :
    result.keywords = table.keywords := by
  have hall := forall₂_factored h
  refine (Ordered.increasing_ofList _).eq_of_mem_iff (Ordered.increasing_ofList _) fun s => ?_
  show s ∈ result.keywords ↔ s ∈ table.keywords
  rw [mem_keywords, mem_keywords]
  constructor
  · rintro ⟨m, hm, name, hname, hs⟩
    obtain ⟨r, hr, hrm⟩ := Outcome.exists_of_mem_right hall hm
    exact ⟨r, hr, name, (Rule.mem_classNames_factored hrm).mp hname, hs⟩
  · rintro ⟨r, hr, name, hname, hs⟩
    obtain ⟨m, hm, hrm⟩ := Outcome.exists_of_mem_left hall hr
    exact ⟨m, hm, name, (Rule.mem_classNames_factored hrm).mpr hname, hs⟩

/-- **Factoring a table changes neither its goal nor its keywords.** The
rules keep their names and their order, each refers to the rules that it
referred to, the goal that the rules suggest is the same one, and so are
the keywords that a scan has to know. -/
theorem names_factored (h : table.factored = .ok result) :
    result.targets = table.targets
      ∧ (∀ r ∈ table.rules, ∀ m ∈ result.rules, m.target = r.target →
          ∀ name, m.references name = r.references name)
      ∧ result.goal?.map Rule.target = table.goal?.map Rule.target
      ∧ result.keywords = table.keywords := by
  refine ⟨targets_factored h, fun r hr m hm htarget name => ?_, goal?_factored h,
    keywords_factored h⟩
  obtain ⟨r', hr', hrm⟩ := Outcome.exists_of_mem_right (forall₂_factored h) hm
  -- No two rules have one name, so `m` is made of `r` and of no other.
  have heq : r' = r := by
    refine List.inj_on_of_nodup_map table.nodup hr' hr ?_
    rw [← htarget, (Rule.factored_eq_ok.mp hrm).1]
  exact heq ▸ Rule.references_factored hrm name

/-- Two branches that begin with the same choice in parentheses, which
mentions a rule and a keyword that the other parts do not. -/
def doubled : RuleTable where
  rules :=
    [⟨"name", .seq (.reserved "IDENT") (.directive ⟨.recover, [.name "END", .string ";"]⟩)⟩,
      ⟨"list", .alt
        (.seq (.alt (.rule "name") (.reserved "Nil")) (.seq (.literal ",") (.rule "list")))
        (.seq (.alt (.rule "name") (.reserved "Nil")) (.literal "."))⟩,
      ⟨"text", .seq (.rule "list") (.lone (.reserved "END"))⟩]
  nodup := by decide

/-- The second occurrence of the choice is dropped. The goal is still the last
rule, which no rule refers to, and both keywords are still known. -/
theorem names_factored_doubled :
    ∃ result, doubled.factored = .ok result
      ∧ result.rules.map Rule.render
        = ["name ::= IDENT recover(END, \";\") ;", "list ::= (name | Nil) (\",\" list | \".\") ;",
          "text ::= list END ;"]
      ∧ result.targets = ["name", "list", "text"]
      ∧ result.goal?.map Rule.target = some "text"
      ∧ result.keywords = ["end", "nil"] := by
  have hrun : doubled.factored.toOption.map (·.rules.map Rule.render)
      = some ["name ::= IDENT recover(END, \";\") ;",
          "list ::= (name | Nil) (\",\" list | \".\") ;", "text ::= list END ;"] := by
    decide +kernel
  obtain ⟨result, hresult, htext⟩ := Option.map_eq_some_iff.mp hrun
  rw [Outcome.toOption_eq_some] at hresult
  obtain ⟨htargets, -, hgoal, hkeywords⟩ := names_factored hresult
  refine ⟨result, hresult, htext, htargets, hgoal.trans ?_, hkeywords.trans ?_⟩
  · decide
  · decide +kernel

end RuleTable

end Descent
