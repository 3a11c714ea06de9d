import Descent.Proofs.Keywords
import Descent.Proofs.Parser.Prediction
import Descent.Proofs.Source.Origin

/-!
# Guards of one choice

The branches of a choice are told apart by labels, and a parser tells
them apart by tokens. Labels are compared as they are written, tokens by
their kind, by their spelling without case or by what they quote. So it
is one thing that no label starts two branches, and another that no token
does.

Within the labels that ask for one token the two come to the same. **A
token stands for one literal only, and it is of one class only**
(`Token.eq_of_isLiteral`, `Token.eq_of_isReserved`): classes are written
in capitals, so two names that are the same without case are the same.
The exception is the class of identifiers, which has two names.

Directives are the author's own tests and are told apart by how they are
called. All those that read an expression make **one and the same test**,
whatever their binding power. Where two of them start two branches of a
choice, the choice is accepted and the order of the branches decides, as
it does between labels of different sorts (`Grammar.guards_apart`).
-/

namespace Descent

/-! ## What a token stands for -/

/-- The two names of the class of identifiers. -/
def Token.Aliases (x y : String) : Prop :=
  x = "IDENT" ∧ y = "IDENTIFIER" ∨ x = "IDENTIFIER" ∧ y = "IDENT"

/-- No kind of token but that of identifiers has two names. -/
theorem Token.eq_of_classKind? {x y : String} {k : Token.Kind} (hx : classKind? x = some k)
    (hy : classKind? y = some k) (h : ¬ Aliases x y) : x = y := by
  unfold classKind? at hx hy
  unfold Aliases at h
  grind

namespace Source

/-- A character of a class name can be told from its lower case. -/
theorem toUpper_toLower {c : Char} (h : (c.isUpper || c.isDigit || c == '_') = true) :
    c.toLower.toUpper = c := by
  rw [Bool.or_eq_true, Bool.or_eq_true, beq_iff_eq] at h
  rcases h with (hupper | hdigit) | rfl
  · have hbounds : c.val ≥ 'A'.val ∧ c.val ≤ 'Z'.val := of_decide_eq_true hupper
    have hlower : c.toLower.val = c.val + 32 := congrArg Char.val (dif_pos hbounds)
    have hraise : ∀ {d : Char}, d.val ≥ 'a'.val ∧ d.val ≤ 'z'.val → d.toUpper.val = d.val - 32 :=
      fun hd => (congrArg Char.val (dif_pos hd)).trans (by grind)
    refine Char.ext ?_
    rw [hraise (by grind), hlower]
    grind
  · have hlower : c.toLower = c := dif_neg (by grind [Char.isDigit])
    have hupper : c.toUpper = c := dif_neg (by grind [Char.isDigit])
    rw [hlower, hupper]
  · rfl

/-- **Names of classes that are the same without case are the same.** -/
theorem eq_of_lower_eq {x y : String} (hx : isClassName x = true) (hy : isClassName y = true)
    (h : Text.lower x = Text.lower y) : x = y := by
  have hupper : ∀ {s : String}, isClassName s = true →
      (Text.lower s).toList.map Char.toUpper = s.toList := by
    intro s hs
    have hall := List.all_eq_true.mp (Bool.and_eq_true_iff.mp hs).2
    rw [Text.toList_lower, List.map_map]
    calc s.toList.map (Char.toUpper ∘ Char.toLower)
      _ = s.toList.map id := List.map_congr_left fun c hc => toUpper_toLower (hall c hc)
      _ = s.toList := List.map_id _
  refine String.toList_inj.mp ?_
  rw [← hupper hx, ← hupper hy, h]

end Source

/-- **A token is of one class**, apart from the two names of one class. -/
theorem Token.eq_of_isReserved {t : Token} {x y : String} (hx : Source.isClassName x = true)
    (hy : Source.isClassName y = true) (h : ¬ Aliases x y) (htx : t.isReserved x = true)
    (hty : t.isReserved y = true) : x = y := by
  rcases Token.isReserved_iff.mp htx with ⟨hk, hkx⟩ | ⟨hk, -, hlx⟩
  · rcases Token.isReserved_iff.mp hty with ⟨-, hky⟩ | ⟨hk', -⟩
    · exact Token.eq_of_classKind? hkx hky h
    · exact absurd hk' hk
  · rcases Token.isReserved_iff.mp hty with ⟨hk', -⟩ | ⟨-, -, hly⟩
    · exact absurd hk hk'
    · exact Source.eq_of_lower_eq hx hy (hlx.symm.trans hly)

/-! ## Guards -/

/-- **Guards that no state of a parser meets both**, whatever its operators
are. -/
def Guard.Exclusive (a b : Guard) : Prop :=
  ∀ (operators : OperatorTable) (c : Cursor),
    ¬ (a.holds operators c = true ∧ b.holds operators c = true)

theorem Guard.exclusive_literal {x y : String} (h : x ≠ y) :
    Exclusive (.literal x) (.literal y) := by
  rintro operators c ⟨hx, hy⟩
  obtain ⟨t, ht, hx⟩ := (Option.any_eq_true _ _).mp hx
  obtain ⟨t', ht', hy⟩ := (Option.any_eq_true _ _).mp hy
  obtain rfl : t = t' := Option.some.inj (ht.symm.trans ht')
  exact h (Token.eq_of_isLiteral hx hy)

theorem Guard.exclusive_reserved {x y : String} (hx : Source.isClassName x = true)
    (hy : Source.isClassName y = true) (hname : ¬ Token.Aliases x y) (h : x ≠ y) :
    Exclusive (.reserved x) (.reserved y) := by
  rintro operators c ⟨htx, hty⟩
  obtain ⟨t, ht, htx⟩ := (Option.any_eq_true _ _).mp htx
  obtain ⟨t', ht', hty⟩ := (Option.any_eq_true _ _).mp hty
  obtain rfl : t = t' := Option.some.inj (ht.symm.trans ht')
  exact h (Token.eq_of_isReserved hx hy hname htx hty)

/-! ## Rules that were read and compiled -/

namespace Grammar

variable {source : String} {g : Grammar} {compiled : Grammar.Compiled}

/-- **The letters of a compiled grammar are as source gives them**, for
factoring brings in none. -/
theorem sourced_of_compile (hsource : RuleTable.ofSource source = .ok g.rules)
    (hcompile : g.compile = .ok compiled) {r : Rule} (hr : r ∈ compiled.rules.rules)
    {n : Node} (hn : n ∈ r.body.parts) (hletter : n.isLetter = true) : n.Sourced := by
  obtain ⟨-, hfactored, -, -⟩ := compile_eq_ok.mp hcompile
  obtain ⟨written, hwritten, hr⟩ :=
    RuleTable.get?_factored hfactored (RuleTable.get?_target hr)
  have hbody := (RuleTable.sourced_of_ofSource hsource written
    (RuleTable.mem_of_get? hwritten)).2
  exact hbody.of_part (Rule.mem_parts_of_factored hr hletter hn)

/-- A class that can start a part of a rule is written in capitals. -/
theorem isClassName_of_first (hsource : RuleTable.ofSource source = .ok g.rules)
    (hcompile : g.compile = .ok compiled) {r : Rule} (hr : r ∈ compiled.rules.rules)
    {n : Node} (hn : n ∈ r.body.parts) {name : String}
    (h : n.First compiled.rules (.reserved name)) : Source.isClassName name = true := by
  obtain ⟨m, hm, hlabel⟩ := h.exists_element
  obtain ⟨r', hr', hm⟩ : ∃ r ∈ compiled.rules.rules, m ∈ r.body.parts :=
    hm.elim (fun hm => ⟨r, hr, Node.parts_trans hn hm⟩) id
  cases m with
  | reserved s =>
    obtain ⟨rfl⟩ := Option.some.inj hlabel
    exact (sourced_of_compile hsource hcompile hr' hm rfl).2
  | _ => cases hlabel

/-- **Two branches of a choice share no token within a sort of labels.** In
a grammar that is read from a text and accepted, any two branches of a
choice have FIRST sets, and a guard for a label of the one and a guard for
a label of the other never hold both if both labels are literals, or if
both are classes, the two names of one class apart. Two directives that
read an expression are different calls, but make the same test. -/
theorem guards_apart (hsource : RuleTable.ofSource source = .ok g.rules)
    (hcompile : g.compile = .ok compiled) {r : Rule} (hr : r ∈ compiled.rules.rules)
    {n : Node} (hn : n ∈ r.body.parts) {a b : Node} (hab : [a, b].Sublist n.branches) :
    ∃ s t, compiled.first.firstOf a = .ok s ∧ compiled.first.firstOf b = .ok t
      ∧ (∀ x y, .literal x ∈ s.labels → .literal y ∈ t.labels →
        Guard.Exclusive (Code.guard (.literal x)) (Code.guard (.literal y)))
      ∧ (∀ x y, .reserved x ∈ s.labels → .reserved y ∈ t.labels → ¬ Token.Aliases x y →
        Guard.Exclusive (Code.guard (.reserved x)) (Code.guard (.reserved y)))
      ∧ ∀ d e, .guard d ∈ s.labels → .guard e ∈ t.labels →
        d.kind = .precedence → e.kind = .precedence →
        d ≠ e ∧ Code.guard (.guard d) = Code.guard (.guard e) := by
  obtain ⟨-, -, hsets, -⟩ := compile_eq_ok.mp hcompile
  have ha : a ∈ r.body.parts :=
    Node.parts_trans hn (Node.mem_parts_of_mem_branches (hab.subset List.mem_cons_self))
  have hb : b ∈ r.body.parts :=
    Node.parts_trans hn (Node.mem_parts_of_mem_branches
      (hab.subset (List.mem_cons_of_mem a List.mem_cons_self)))
  obtain ⟨s, hs⟩ := (FirstSets.firstOf_ok_iff hsets).mpr
    (RuleTable.settles_of_mem_parts hsets hr ha)
  obtain ⟨t, ht⟩ := (FirstSets.firstOf_ok_iff hsets).mpr
    (RuleTable.settles_of_mem_parts hsets hr hb)
  have hsa := (FirstSets.describes_firstOf hsets hs).mem_labels
  have htb := (FirstSets.describes_firstOf hsets ht).mem_labels
  have hapart : ∀ l ∈ s.labels, l ∉ t.labels := by
    have hpairwise := (RuleTable.settles_of_mem_parts hsets hr hn).pairwise_apart
    intro l hl hl'
    exact (List.pairwise_iff_forall_sublist.mp hpairwise hab).1 l ⟨(hsa l).mp hl, (htb l).mp hl'⟩
  refine ⟨s, t, hs, ht, fun x y hx hy => ?_, fun x y hx hy hname => ?_,
    fun d e hd he hkd hke => ⟨?_, ?_⟩⟩
  · refine Guard.exclusive_literal ?_
    rintro rfl
    exact hapart _ hx hy
  · refine Guard.exclusive_reserved
      (isClassName_of_first hsource hcompile hr ha ((hsa _).mp hx))
      (isClassName_of_first hsource hcompile hr hb ((htb _).mp hy)) hname ?_
    rintro rfl
    exact hapart _ hx hy
  · rintro rfl
    exact hapart _ hd he
  · simp only [Code.guard, hkd, hke]

/-- **Labels that start two branches of one choice**, in a grammar that the
text writes and that is accepted. -/
def Rivals (source : String) (l m : Label) : Prop :=
  ∃ rules compiled, RuleTable.ofSource source = .ok rules
    ∧ (Grammar.mk rules none).compile = .ok compiled
    ∧ ∃ r ∈ compiled.rules.rules, ∃ n ∈ r.body.parts, ∃ a b s t, [a, b].Sublist n.branches
      ∧ compiled.first.firstOf a = .ok s ∧ compiled.first.firstOf b = .ok t
      ∧ l ∈ s.labels ∧ m ∈ t.labels

/-- What can start the first two branches of the first rule. -/
def openings? (source : String) : Option (List Label × List Label) := do
  let rules ← (RuleTable.ofSource source).toOption
  let compiled ← (Grammar.mk rules none).compile.toOption
  let r ← compiled.rules.rules.head?
  let a ← r.body.branches[0]?
  let b ← r.body.branches[1]?
  let s ← (compiled.first.firstOf a).toOption
  let t ← (compiled.first.firstOf b).toOption
  some (s.labels, t.labels)

theorem rivals_of_openings? {ls ms : List Label} (h : openings? source = some (ls, ms))
    {l m : Label} (hl : l ∈ ls) (hm : m ∈ ms) : Rivals source l m := by
  obtain ⟨rules, hrules, h⟩ := Option.bind_eq_some_iff.mp h
  obtain ⟨compiled, hcompile, h⟩ := Option.bind_eq_some_iff.mp h
  obtain ⟨r, hr, h⟩ := Option.bind_eq_some_iff.mp h
  obtain ⟨a, ha, h⟩ := Option.bind_eq_some_iff.mp h
  obtain ⟨b, hb, h⟩ := Option.bind_eq_some_iff.mp h
  obtain ⟨s, hs, h⟩ := Option.bind_eq_some_iff.mp h
  obtain ⟨t, ht, h⟩ := Option.bind_eq_some_iff.mp h
  rw [Outcome.toOption_eq_some] at hrules hcompile hs ht
  obtain ⟨rfl, rfl⟩ := Prod.mk.inj (Option.some.inj h)
  refine ⟨rules, compiled, hrules, hcompile, r, List.mem_of_head? hr, r.body,
    Node.mem_parts_self _, a, b, s, t, ?_, hs, ht, hl, hm⟩
  cases hbranches : r.body.branches with
  | nil =>
    rw [hbranches] at ha
    cases ha
  | cons a' rest =>
    rw [hbranches] at ha hb
    rw [List.getElem?_cons_succ] at hb
    obtain rfl := Option.some.inj ha
    exact (List.singleton_sublist.mpr (List.mem_of_getElem? hb)).cons_cons a'

/-- A choice whose branches start with several literals and classes each,
in other rules and behind an optional part, or with an expression. -/
def branching : String :=
  "s ::= t \"a\" | IF s | precedence(2) \"b\" ;\nt ::= [\"x\" | WHEN] (IDENT | \"y\") ;"

/-- A class that starts the first branch through another rule and the class
that starts the second one are not met by one token. -/
theorem guards_apart_branching :
    Rivals branching (.reserved "WHEN") (.reserved "IF") ∧ ¬ Token.Aliases "WHEN" "IF"
      ∧ Guard.Exclusive (Code.guard (.reserved "WHEN")) (Code.guard (.reserved "IF")) := by
  have hrun : openings? branching
      = some ([.literal "x", .literal "y", .reserved "IDENT", .reserved "WHEN"],
        [.reserved "IF"]) := by
    decide +kernel
  have hrivals := rivals_of_openings? hrun (l := .reserved "WHEN") (m := .reserved "IF")
    (by decide) (by decide)
  have hname : ¬ Token.Aliases "WHEN" "IF" := by
    unfold Token.Aliases
    decide
  refine ⟨hrivals, hname, ?_⟩
  obtain ⟨rules, compiled, hrules, hcompile, r, hr, n, hn, a, b, s, t, hab, hs, ht, hl, hm⟩ :=
    hrivals
  obtain ⟨s', t', hs', ht', -, hclasses, -⟩ := guards_apart hrules hcompile hr hn hab
  obtain rfl : s = s' := Except.ok.inj (hs.symm.trans hs')
  obtain rfl : t = t' := Except.ok.inj (ht.symm.trans ht')
  exact hclasses "WHEN" "IF" hl hm hname

/-- Two branches that read an expression, at different powers. -/
def twoExpressions : String := "a ::= precedence(1) \"x\" | precedence(2) \"y\" ;"

/-- Two branches that start with an identifier, under two names. -/
def twoNames : String := "a ::= IDENT \"x\" | IDENTIFIER \"y\" ;"

/-- **Guards of one sort may hold together** in a choice that is accepted:
before a number two expressions can be read, and before a name both names
of the class of identifiers are met. -/
theorem guards_overlap :
    (∃ l m, Rivals twoExpressions (.guard l) (.guard m)
      ∧ l.kind = .precedence ∧ m.kind = .precedence
      ∧ ¬ Guard.Exclusive (Code.guard (.guard l)) (Code.guard (.guard m)))
    ∧ Rivals twoNames (.reserved "IDENT") (.reserved "IDENTIFIER")
      ∧ ¬ Guard.Exclusive (Code.guard (.reserved "IDENT"))
        (Code.guard (.reserved "IDENTIFIER")) := by
  have hexpressions : openings? twoExpressions
      = some ([.guard ⟨.precedence, [.number "1"]⟩], [.guard ⟨.precedence, [.number "2"]⟩]) := by
    decide +kernel
  have hnames : openings? twoNames
      = some ([.reserved "IDENT"], [.reserved "IDENTIFIER"]) := by
    decide +kernel
  refine ⟨⟨⟨.precedence, [.number "1"]⟩, ⟨.precedence, [.number "2"]⟩,
    rivals_of_openings? hexpressions (by decide) (by decide), rfl, rfl, fun h => ?_⟩,
    rivals_of_openings? hnames (by decide) (by decide), fun h => ?_⟩
  · exact h .standard ⟨[⟨.number, "7", .start⟩], .start⟩ (by decide +kernel)
  · exact h .standard ⟨[⟨.identifier, "x", .start⟩], .start⟩ (by decide +kernel)

end Grammar

end Descent
