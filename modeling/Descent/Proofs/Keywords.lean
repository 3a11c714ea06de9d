import Descent.Proofs.Mentions
import Descent.Proofs.Parser.Code
import Descent.Proofs.Token.Munch
import Descent.Proofs.Token.Writing

/-!
# Keywords of a grammar in its texts

What a keyword is gets decided three times over. The rules of a grammar
are searched for names, and the names are put in lower case. A scan is
told these words, and takes for keywords the words that are among them
without case. A parser then asks of a token whether it is of some class,
which is a comparison of kind and spelling.

**The three agree** (`Grammar.keywords_agree`). A word of the text is of
the class that a rule asks for exactly if it is the same word without
case, and it is an identifier exactly if no rule asks for it. Telling a
scan the keywords changes nothing else: a text has the same lexemes in the
same places with them and without.

Which names the rules ask for is said of the rules as written
(`RuleTable.AsksFor`). The search goes through the factored ones, and that
comes to the same because they mention the same names.
-/

namespace Descent

/-! ## Names that rules ask for -/

/-- **A keyword that the rules ask for**: a name that stands in them as a
token class or as an argument of a directive, unless it is the name of a
kind of token. -/
structure RuleTable.AsksFor (table : RuleTable) (name : String) : Prop where
  /-- It stands in some rule. -/
  mentioned : ∃ r ∈ table.rules, .reserved name ∈ r.body.parts
    ∨ ∃ d : Directive, .directive d ∈ r.body.parts ∧ .name name ∈ d.args
  /-- It is the name of no kind. -/
  keyword : name ∉ ["IDENTIFIER", "IDENT", "NUMBER", "STRING"]

theorem Directive.mem_names {d : Directive} {name : String} :
    name ∈ d.names ↔ .name name ∈ d.args := by
  unfold names
  rw [List.mem_filterMap]
  constructor
  · rintro ⟨a, ha, hname⟩
    cases a with
    | name s =>
      obtain rfl := Option.some.inj hname
      exact ha
    | string s => cases hname
    | number s => cases hname
  · intro h
    exact ⟨.name name, h, rfl⟩

/-- **The class names of a body** stand in it as elements or in
directives. -/
theorem Node.mem_classNames {n : Node} {name : String} :
    name ∈ n.classNames
      ↔ .reserved name ∈ n.parts ∨ ∃ d : Directive, .directive d ∈ n.parts
        ∧ .name name ∈ d.args := by
  rw [(fromLetters_classNames name).iff_exists_part]
  constructor
  · rintro ⟨e, he, hletter, hname⟩
    cases e with
    | reserved s =>
      obtain rfl := List.mem_singleton.mp hname
      exact .inl he
    | directive d => exact .inr ⟨d, he, Directive.mem_names.mp hname⟩
    | seq h t => cases hletter
    | lone h => cases hletter
    | alt l r => cases hletter
    | _ => cases hname
  · rintro (h | ⟨d, hd, hname⟩)
    · exact ⟨_, h, rfl, List.mem_singleton_self name⟩
    · exact ⟨_, hd, rfl, Directive.mem_names.mpr hname⟩

/-- A name is a keyword unless it is one of the names of kinds. -/
theorem Token.isNone_classKind? {name : String} :
    (classKind? name).isNone = true ↔ name ∉ ["IDENTIFIER", "IDENT", "NUMBER", "STRING"] := by
  unfold classKind?
  grind

/-- **The keywords of a table are what its rules ask for**, in lower
case. -/
theorem RuleTable.mem_keywords_iff_asksFor {table : RuleTable} {s : String} :
    s ∈ table.keywords ↔ ∃ name, table.AsksFor name ∧ Text.lower name = s := by
  rw [mem_keywords]
  constructor
  · rintro ⟨r, hr, name, hname, hkind, rfl⟩
    exact ⟨name, ⟨⟨r, hr, Node.mem_classNames.mp hname⟩, Token.isNone_classKind?.mp hkind⟩, rfl⟩
  · rintro ⟨name, ⟨⟨r, hr, hname⟩, hkind⟩, rfl⟩
    exact ⟨r, hr, name, Node.mem_classNames.mpr hname, Token.isNone_classKind?.mpr hkind, rfl⟩

/-! ## Words of a text -/

/-- **What it is to be of a class**: of the kind that the name stands for, or
a keyword that is the name up to case. -/
theorem Token.isReserved_iff {t : Token} {name : String} :
    t.isReserved name = true
      ↔ t.kind ≠ .reserved ∧ classKind? name = some t.kind
        ∨ t.kind = .reserved ∧ classKind? name = none
          ∧ Text.lower t.spelling = Text.lower name := by
  have hkind : classKind? name ≠ some .reserved := by
    unfold classKind?
    grind
  unfold isReserved
  cases hname : classKind? name with
  | some k =>
    rw [hname] at hkind
    grind
  | none => grind

namespace Token

variable {keywords : List String} {t : Token}

/-- **A word is a keyword if the scan was told so**, without case, and an
identifier if not. -/
theorem Spelled.kind_eq_of_word (h : t.Spelled keywords)
    (hword : t.spelling.toList ∈ Lexeme.language .word) :
    t.kind = if Text.lower t.spelling ∈ keywords.map Text.lower then .reserved
      else .identifier := by
  obtain ⟨k, hshape, hkind⟩ := h
  obtain rfl : k = .word :=
    Lexeme.Form.unique (Lexeme.mem_language_iff.mp hword) (.shape hshape)
  have hkind : (if Text.lower (String.ofList t.spelling.toList) ∈ keywords.map Text.lower
      then some Kind.reserved else some .identifier) = some t.kind := hkind
  rw [String.ofList_toList, ← apply_ite some] at hkind
  exact (Option.some.inj hkind).symm

end Token

/-- The words that a scan is told are what the rules ask for, without
case. -/
theorem RuleTable.lower_mem_keywords {table : RuleTable} {word : String} :
    Text.lower word ∈ table.keywords.map Text.lower
      ↔ ∃ name, table.AsksFor name ∧ Text.lower word = Text.lower name := by
  rw [List.mem_map]
  constructor
  · rintro ⟨s, hs, heq⟩
    obtain ⟨name, hname, rfl⟩ := mem_keywords_iff_asksFor.mp hs
    rw [Text.lower_lower] at heq
    exact ⟨name, hname, heq.symm⟩
  · rintro ⟨name, hname, heq⟩
    refine ⟨Text.lower name, mem_keywords_iff_asksFor.mpr ⟨name, hname, rfl⟩, ?_⟩
    rw [Text.lower_lower, heq]

/-- **Grammar, scan and parser agree on keywords.** A text that scans
scans to the same spellings in the same places when the scan is told the
keywords of a compiled grammar. Then a word is of a class that the rules
ask for exactly if it is that name without case, and an identifier exactly
if it is no such name. -/
theorem Grammar.keywords_agree {g : Grammar} {compiled : Grammar.Compiled}
    (h : g.compile = .ok compiled) {input : String} {c : Cursor}
    (hc : Token.scan [] input = .ok c) :
    ∃ d, Token.scan compiled.rules.keywords input = .ok d
      ∧ d.rest.map (fun t => (t.spelling, t.position))
        = c.rest.map (fun t => (t.spelling, t.position))
      ∧ d.finish = c.finish
      ∧ ∀ t ∈ d.rest, t.spelling.toList ∈ Lexeme.language .word →
        (∀ name, g.rules.AsksFor name →
          (t.isReserved name = true ↔ Text.lower t.spelling = Text.lower name))
        ∧ (t.isReserved "IDENT" = true
          ↔ ¬ ∃ name, g.rules.AsksFor name ∧ Text.lower t.spelling = Text.lower name) := by
  obtain ⟨-, hfactored, -⟩ := Grammar.compile_eq_ok.mp h
  rw [RuleTable.keywords_factored hfactored]
  obtain ⟨d, hd, hsame, hfinish⟩ := Token.scanFrom_keywords g.rules.keywords hc
  refine ⟨d, hd, hsame, hfinish, fun t ht hword => ?_⟩
  have hkind := (Token.spelled_of_scanFrom hd t ht).kind_eq_of_word hword
  have hident : t.isReserved "IDENT" = true ↔ t.kind = .identifier := beq_iff_eq
  rw [hident]
  by_cases hasked : ∃ name, g.rules.AsksFor name ∧ Text.lower t.spelling = Text.lower name
  · rw [if_pos (RuleTable.lower_mem_keywords.mpr hasked)] at hkind
    refine ⟨fun name hname => ?_, ?_⟩
    · have hnone := Option.isNone_iff_eq_none.mp (Token.isNone_classKind?.mpr hname.keyword)
      simp [Token.isReserved_iff, hkind, hnone]
    · simp [hkind, hasked]
  · rw [if_neg (mt RuleTable.lower_mem_keywords.mp hasked)] at hkind
    refine ⟨fun name hname => ?_, ?_⟩
    · have hnone := Option.isNone_iff_eq_none.mp (Token.isNone_classKind?.mpr hname.keyword)
      have hne : Text.lower t.spelling ≠ Text.lower name := fun heq => hasked ⟨name, hname, heq⟩
      simp [Token.isReserved_iff, hkind, hnone, hne]
    · simp [hkind, hasked]

/-- Statements with two keywords as elements and one in a directive. -/
def statements : Grammar where
  rules :=
    { rules := [⟨"statement", .alt
        (.seq (.reserved "RETURN") (.seq (.directive ⟨.precedence, [.number "0"]⟩) (.literal ";")))
        (.alt (.seq (.reserved "If") (.seq (.reserved "IDENT") (.rule "statement")))
          (.directive ⟨.recover, [.name "Semi", .string ";"]⟩))⟩]
      nodup := by decide }

/-- The last word is a keyword because a directive names it, and the middle
one is an identifier because no rule does. -/
theorem Grammar.keywords_agree_statements :
    ∃ compiled d, statements.compile = .ok compiled
      ∧ compiled.rules.keywords = ["if", "return", "semi"]
      ∧ Token.scan ["if", "return", "semi"] "iF x\nSEMI" = .ok d
      ∧ d.rest.map (fun t => (t.spelling, t.position))
        = [("iF", ⟨0, 1, 1⟩), ("x", ⟨3, 1, 4⟩), ("SEMI", ⟨5, 2, 1⟩)]
      ∧ ∀ t ∈ d.rest, (t.spelling = "SEMI" → t.isReserved "Semi" = true)
        ∧ (t.spelling = "x" → t.isReserved "Semi" = false) := by
  have hrun : statements.compile.toOption.map (·.rules.keywords)
      = some ["if", "return", "semi"] := by
    decide +kernel
  obtain ⟨compiled, hcompiled, hkeywords⟩ := Option.map_eq_some_iff.mp hrun
  rw [Outcome.toOption_eq_some] at hcompiled
  have hscan : Token.scan [] "iF x\nSEMI"
      = .ok ⟨[⟨.identifier, "iF", ⟨0, 1, 1⟩⟩, ⟨.identifier, "x", ⟨3, 1, 4⟩⟩,
          ⟨.identifier, "SEMI", ⟨5, 2, 1⟩⟩], ⟨9, 2, 5⟩⟩ := by
    decide +kernel
  have hsemi : statements.rules.AsksFor "Semi" := by
    refine ⟨⟨_, List.mem_cons_self, .inr ⟨⟨.recover, [.name "Semi", .string ";"]⟩, ?_, ?_⟩⟩, ?_⟩
    · decide
    · decide
    · decide
  have hkeyword : "SEMI".toList ∈ Lexeme.language .word :=
    Lexeme.mem_language_iff.mpr (.shape (.word rfl rfl))
  have hname : "x".toList ∈ Lexeme.language .word :=
    Lexeme.mem_language_iff.mpr (.shape (.word rfl rfl))
  obtain ⟨d, hd, hsame, -, hagree⟩ := Grammar.keywords_agree hcompiled hscan
  rw [hkeywords] at hd
  refine ⟨compiled, d, hcompiled, hkeywords, hd, hsame, fun t ht => ⟨fun hs => ?_, fun hs => ?_⟩⟩
  · have h := (hagree t ht (hs ▸ hkeyword)).1 "Semi" hsemi
    exact h.mpr (by rw [hs]; decide)
  · have h := (hagree t ht (hs ▸ hname)).1 "Semi" hsemi
    exact Bool.eq_false_iff.mpr (mt h.mp (by rw [hs]; decide))

end Descent
