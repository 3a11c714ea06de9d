import Descent.Proofs.First.Resolving

/-!
# FIRST sets are exact

The sets of a table are found in two passes. The first resolves every
rule. The second goes through the bodies once more, for the defects that
no FIRST set shows because they stand after a head that takes tokens.
Neither pass goes on after a defect, so **no mark is left while they do**
(`Resolver.Calm`), and a step fails only for a defect that the body of
some rule has (`Defect.Real`). An ambiguity may come to light far from
where it is, while another rule is resolved; it is reported of the rule
whose body has it all the same (`RuleTable.firstSets_eq_error`).

A table that has such a defect is not well formed
(`Defect.Real.not_wellFormed`). Where both passes get through, every body
is clear of defects (`Node.Clear`), and that is what being well formed
means. So the sets are computed **exactly for the tables that are well
formed**, and they are those that the rules give
(`RuleTable.firstSets_exact`).
-/

namespace Descent

open Relation (TransGen)

/-- **A defect that the body of some rule has.** -/
def Defect.Real (table : RuleTable) (e : Defect) : Prop :=
  ∃ r ∈ table.rules, e.Arises table r.target r.body

namespace Defect

variable {table : RuleTable} {e : Defect}

/-- **A table with a defect is not well formed.** -/
theorem Real.not_wellFormed (h : e.Real table) : ¬ table.WellFormed := by
  intro hw
  obtain ⟨r, hr, he⟩ := h
  cases e with
  | leftRecursion name => exact hw.noLeftRecursion name he
  | undefined name =>
    obtain ⟨target, htarget⟩ := hw.defined r hr name he.2
    rw [he.1] at htarget
    cases htarget
  | ambiguous label rule =>
    obtain ⟨m, hm, hchoice, a, b, hsub, hab⟩ := he.2
    have hapart := List.pairwise_iff_forall_sublist.mp (hw.apart r hr m hm hchoice) hsub
    rcases hab with ⟨l, -, ha, hb⟩ | ⟨-, ha, hb⟩
    · exact hapart.1 l ⟨ha, hb⟩
    · exact hapart.2 ⟨ha, hb⟩
  | malformed rule => exact he
  | duplicate rule => exact he
  | noRules => exact he

/-- A defect that shows in a part of a body is one of the rule. -/
theorem Explained.real {r : Rule} {n : Node} (h : e.Explained table (fun _ => False) r.target n)
    (hr : r ∈ table.rules) (hn : n ∈ r.body.parts) : e.Real table := by
  rcases h with h | h | ⟨name, hname, -⟩
  · exact ⟨r, hr, h.mono fun m hm => Node.parts_trans hn hm⟩
  · exact h
  · exact hname.elim

/-- A defect that shows in a reference to a rule is none of the
reference. -/
theorem Explained.real_of_rule {r : Rule} {current : String}
    (h : e.Explained table (fun _ => False) current (.rule r.target)) (hr : r ∈ table.rules) :
    e.Real table := by
  rcases h with h | h | ⟨name, hname, -⟩
  · cases e with
    | leftRecursion name => exact ⟨r, hr, h⟩
    | undefined name =>
      obtain ⟨hnone, hm⟩ := h
      cases List.mem_singleton.mp hm
      rw [RuleTable.get?_target hr] at hnone
      cases hnone
    | ambiguous label rule =>
      obtain ⟨m, hm, hchoice, -⟩ := h.2
      cases List.mem_singleton.mp hm
      cases hchoice
    | _ => exact h.elim
  · exact h
  · exact hname.elim

end Defect

/-- **A body that has no defects**, however deep they might stand. -/
structure Node.Clear (table : RuleTable) (n : Node) : Prop where
  defined : ∀ name, .rule name ∈ n.parts → ∃ target, table.get? name = some target
  apart : ∀ m ∈ n.parts, m.isChoice = true → m.branches.Pairwise (Node.Apart table)

namespace Node

variable {table : RuleTable}

theorem Clear.seq {h t : Node} (hh : h.Clear table) (ht : t.Clear table) :
    (seq h t).Clear table where
  defined name hm := by
    rcases List.mem_append.mp ((List.mem_cons.mp hm).resolve_left nofun) with hm | hm
    · exact hh.defined name hm
    · exact ht.defined name hm
  apart m hm hc := by
    rcases List.mem_cons.mp hm with rfl | hm
    · cases hc
    rcases List.mem_append.mp hm with hm | hm
    · exact hh.apart m hm hc
    · exact ht.apart m hm hc

theorem Clear.lone {h : Node} (hh : h.Clear table) : (lone h).Clear table where
  defined name hm := hh.defined name ((List.mem_cons.mp hm).resolve_left nofun)
  apart m hm hc := by
    rcases List.mem_cons.mp hm with rfl | hm
    · cases hc
    · exact hh.apart m hm hc

theorem Clear.alt {l r : Node} (hl : l.Clear table) (hr : r.Clear table)
    (h : (alt l r).branches.Pairwise (Apart table)) : (alt l r).Clear table where
  defined name hm := by
    rcases List.mem_append.mp ((List.mem_cons.mp hm).resolve_left nofun) with hm | hm
    · exact hl.defined name hm
    · exact hr.defined name hm
  apart m hm hc := by
    rcases List.mem_cons.mp hm with rfl | hm
    · exact h
    rcases List.mem_append.mp hm with hm | hm
    · exact hl.apart m hm hc
    · exact hr.apart m hm hc

theorem clear_rule {name : String} {r : Rule} (hr : table.get? name = some r) :
    (Node.rule name).Clear table where
  defined target hm := by
    cases List.mem_singleton.mp hm
    exact ⟨r, hr⟩
  apart m hm hc := by
    cases List.mem_singleton.mp hm
    cases hc

end Node

/-! ## One pass after the other -/

namespace Resolver

variable {table : RuleTable}

/-- **A resolver between two steps that went well.** -/
structure Calm (table : RuleTable) (q : Resolver) : Prop where
  truthful : q.Truthful table
  unmarked : ∀ name, q.find? name ≠ some none

theorem calm_start (table : RuleTable) : Calm table .start :=
  ⟨⟨nofun, nofun⟩, nofun⟩

theorem Calm.ready {q : Resolver} (h : Calm table q) (n : Node) :
    Ready table (fun _ => False) table.size n q where
  truthful := h.truthful
  marks name hm := absurd hm (h.unmarked name)
  room := room_size q

theorem Gives.calm {n : Node} {s : FirstSet} {q q' : Resolver} (h : Gives table n q s q')
    (hq : Calm table q) : Calm table q' where
  truthful := h.truthful
  unmarked name hm := hq.unmarked name (h.extension.marks name hm)

/-- **A step that looks for defects in the body of a rule** and finds
`found` where there are none. -/
def Inspects {α : Type} (table : RuleTable) (current : String) (x : Resolving α)
    (found : Prop) : Prop :=
  ∀ q, Calm table q → q.current = current →
    Outcome.Ends x q (fun _ q' => (Calm table q' ∧ q.Extends q') ∧ found) (fun e _ => e.Real table)

/-- Two steps find what both find. The second may rely on the first. -/
theorem Inspects.bind {α β : Type} {current : String} {x : Resolving α} {y : Resolving β}
    {p p' : Prop} (hx : Inspects table current x p) (hy : p → Inspects table current y p') :
    Inspects table current (x >>= fun _ => y) p' := by
  intro q hq hcurrent
  refine (hx q hq hcurrent).bind ?_ (fun _ _ => id)
  rintro a q₁ ⟨⟨hq₁, hext⟩, hp⟩
  refine (hy hp q₁ hq₁ (hext.current.trans hcurrent)).mono ?_ (fun _ _ => id)
  rintro b q₂ ⟨⟨hq₂, hext'⟩, hp'⟩
  exact ⟨⟨hq₂, hext.trans hext'⟩, hp'⟩

theorem Inspects.imp {α : Type} {current : String} {x : Resolving α} {p p' : Prop}
    (hx : Inspects table current x p) (h : p → p') : Inspects table current x p' :=
  fun q hq hcurrent => (hx q hq hcurrent).mono (fun _ _ => And.imp_right h) (fun _ _ => id)

theorem inspects_pure {α : Type} {current : String} {a : α} {p : Prop} (hp : p) :
    Inspects table current (pure a) p :=
  fun q hq _ => ⟨⟨hq, Extends.refl q⟩, hp⟩

/-- **A part of a body that is resolved settles.** -/
theorem inspects_node {r : Rule} {n : Node} (hr : r ∈ table.rules) (hn : n ∈ r.body.parts) :
    Inspects table r.target (node table n) (n.Settles table) := by
  intro q hq hcurrent
  refine (resolves_node (fun _ => False.elim) n q (hq.ready n)).mono ?_ ?_
  · intro s q' h
    exact ⟨⟨h.calm hq, h.extension⟩, h.settles⟩
  · intro e q' h
    have hexplained := h.explained
    rw [hcurrent] at hexplained
    exact hexplained.real hr hn

/-- A body that was inspected has branches that are apart. -/
theorem inspects_inspect {r : Rule} {n : Node} (hr : r ∈ table.rules) (hn : n ∈ r.body.parts) :
    Inspects table r.target (inspect table n) (n.branches.Pairwise (Node.Apart table)) := by
  unfold inspect
  by_cases hc : n.isChoice = true
  · rw [if_pos hc]
    exact (inspects_node hr hn).bind fun hs => inspects_pure hs.pairwise_apart
  · rw [if_neg hc]
    exact inspects_pure (Node.pairwise_apart_of_not_choice (Bool.not_eq_true _ ▸ hc))

/-- **The second pass misses no defect of a body**, by induction on the
body. A choice is inspected before its sides are gone through, so the
branches of each side are known to be apart. -/
theorem inspects_checkInside {r : Rule} {n : Node} (hr : r ∈ table.rules)
    (hn : n ∈ r.body.parts) (hapart : n.branches.Pairwise (Node.Apart table)) :
    Inspects table r.target (checkInside table n) (n.Clear table) := by
  induction n with
  | seq h t ihh iht =>
    have hh := Node.parts_trans hn (Node.head_mem_parts h t)
    have ht := Node.parts_trans hn (Node.tail_mem_parts h t)
    refine (inspects_inspect hr hh).bind fun hah => ?_
    refine (ihh hh hah).bind fun hch => ?_
    refine (inspects_inspect hr ht).bind fun hat => ?_
    exact (iht ht hat).imp fun hct => hch.seq hct
  | lone h ihh =>
    have hh := Node.parts_trans hn (Node.lone_mem_parts h)
    refine (inspects_inspect hr hh).bind fun hah => ?_
    exact (ihh hh hah).imp fun hch => hch.lone
  | alt a b iha ihb =>
    have ha := Node.parts_trans hn (Node.left_mem_parts a b)
    have hb := Node.parts_trans hn (Node.right_mem_parts a b)
    obtain ⟨haa, hab, -⟩ := Node.pairwise_apart_alt.mp hapart
    refine (iha ha haa).bind fun hca => ?_
    exact (ihb hb hab).imp fun hcb => hca.alt hcb hapart
  | rule name =>
    refine (inspects_node hr hn).bind fun hs => inspects_pure ?_
    obtain ⟨target, htarget, -⟩ := Node.settles_rule.mp hs
    exact Node.clear_rule htarget
  | _ =>
    refine inspects_pure ⟨fun name hm => ?_, fun m hm hc => ?_⟩
    · cases List.mem_singleton.mp hm
    · cases List.mem_singleton.mp hm
      cases hc

/-- A rule that was resolved is known, and what was known still is. -/
theorem ends_rule {r : Rule} {q : Resolver} (hr : r ∈ table.rules) (hq : Calm table q) :
    Outcome.Ends (rule table r.target >>= fun _ => pure ()) q
      (fun _ q' => Calm table q' ∧ q'.find? r.target ≠ none
        ∧ ∀ r' : Rule, q.find? r'.target ≠ none → q'.find? r'.target ≠ none)
      (fun e _ => e.Real table) := by
  have hrule := resolves_node (fun _ => False.elim) (.rule r.target) q (hq.ready _)
  rw [Outcome.ends_iff] at hrule
  have hends : Outcome.Ends (rule table r.target) q
      (fun s q' => Gives table (.rule r.target) q s q' ∧ q'.find? r.target = some (some s))
      (fun e _ => e.Real table) := by
    rw [Outcome.ends_iff]
    refine ⟨fun s q' h => ⟨hrule.1 s q' h, find?_of_ruleWithin h⟩, fun e q' h => ?_⟩
    exact (hrule.2 e q' h).explained.real_of_rule hr
  refine hends.bind ?_ (fun _ _ => id)
  rintro s q' ⟨h, hfind⟩
  refine ⟨h.calm hq, ?_, fun r' hknown hnone => hknown (h.extension.known _ hnone)⟩
  rw [hfind]
  nofun

/-- **A rule that was checked is clear of defects.** -/
theorem ends_check {r : Rule} {q : Resolver} (hr : r ∈ table.rules) (hq : Calm table q) :
    Outcome.Ends (check table r) q
      (fun _ q' => Calm table q' ∧ (∀ name, q'.find? name = none → q.find? name = none)
        ∧ r.body.Clear table)
      (fun e _ => e.Real table) := by
  have hbody : Inspects table r.target
      (inspect table r.body >>= fun _ => checkInside table r.body) (r.body.Clear table) :=
    (inspects_inspect hr (Node.mem_parts_self _)).bind
      (inspects_checkInside hr (Node.mem_parts_self _))
  refine (hbody { q with current := r.target } ⟨⟨hq.truthful.describes, hq.truthful.settles⟩,
    hq.unmarked⟩ rfl).mono ?_ (fun _ _ => id)
  rintro ⟨⟩ q' ⟨⟨hq', hext⟩, hclear⟩
  exact ⟨hq', hext.known, hclear⟩

/-- **Both passes get through only if every rule is known and clear.** -/
theorem ends_all (table : RuleTable) :
    Outcome.Ends (all table) .start
      (fun _ q => Calm table q ∧ (∀ r ∈ table.rules, q.find? r.target ≠ none)
        ∧ ∀ r ∈ table.rules, r.body.Clear table)
      (fun e _ => e.Real table) := by
  refine (Outcome.ends_forM (fun r hr q hq => ends_rule hr hq) (calm_start table)).bind ?_
    (fun _ _ => id)
  rintro ⟨⟩ q ⟨hq, hknown, -⟩
  -- The second pass forgets nothing of what the first one found.
  have hcheck : ∀ r ∈ table.rules, ∀ q,
      (Calm table q ∧ ∀ r ∈ table.rules, q.find? r.target ≠ none) →
      Outcome.Ends (check table r) q
        (fun _ q' => (Calm table q' ∧ ∀ r ∈ table.rules, q'.find? r.target ≠ none)
          ∧ r.body.Clear table ∧ ∀ r' : Rule, r'.body.Clear table → r'.body.Clear table)
        (fun e _ => e.Real table) := by
    rintro r hr q ⟨hq, hknown⟩
    refine (ends_check hr hq).mono ?_ (fun _ _ => id)
    rintro ⟨⟩ q' ⟨hq', hkept, hclear⟩
    exact ⟨⟨hq', fun r' hr' hnone => hknown r' hr' (hkept _ hnone)⟩, hclear, fun _ => id⟩
  refine (Outcome.ends_forM (P := fun r _ => r.body.Clear table) hcheck ⟨hq, hknown⟩).mono ?_
    (fun _ _ => id)
  rintro ⟨⟩ q' ⟨⟨hq', hknown'⟩, hclear, -⟩
  exact ⟨hq', hknown', hclear⟩

end Resolver

/-! ## The sets of a table -/

section Listing

variable {f : String → Option FirstSet} {names : List String}

/-- Names that all have a set are listed one by one. -/
theorem FirstSets.map_fst_filterMap (hf : ∀ name ∈ names, ∃ s, f name = some s) :
    (names.filterMap fun name => (f name).map fun s => (name, s)).map Prod.fst = names := by
  induction names with
  | nil => rfl
  | cons first names ih =>
    obtain ⟨s, hs⟩ := hf first List.mem_cons_self
    rw [List.filterMap_cons, hs]
    show first :: _ = _
    rw [ih fun name hname => hf name (List.mem_cons_of_mem first hname)]

/-- Each of them is found with its set. -/
theorem FirstSets.get?_filterMap (hf : ∀ name ∈ names, ∃ s, f name = some s) {name : String}
    (h : name ∈ names) :
    FirstSets.get? ⟨names.filterMap fun name => (f name).map fun s => (name, s)⟩ name
      = f name := by
  unfold FirstSets.get?
  induction names with
  | nil => cases h
  | cons first names ih =>
    obtain ⟨s, hs⟩ := hf first List.mem_cons_self
    rw [List.filterMap_cons, hs]
    show List.lookup name ((first, s) :: _) = f name
    by_cases heq : name = first
    · rw [heq, List.lookup_cons_self, hs]
    · rw [List.lookup_cons, beq_false_of_ne heq]
      exact ih (fun name hname => hf name (List.mem_cons_of_mem first hname))
        ((List.mem_cons.mp h).resolve_left heq)

end Listing

namespace RuleTable

variable {table : RuleTable}

/-- **A table that both passes get through is well formed.** -/
theorem wellFormed_of_all {q : Resolver} (h : Resolver.all table .start = .ok () q) :
    table.WellFormed := by
  obtain ⟨hq, hknown, hclear⟩ := (Resolver.ends_all table).of_ok h
  refine ⟨fun r hr => (hclear r hr).defined, fun name hcycle => ?_,
    fun r hr => (hclear r hr).apart⟩
  -- Whatever leads somewhere is a rule, so it was resolved and it settles.
  obtain ⟨target, ⟨r, hr, -⟩, -⟩ := TransGen.head'_iff.mp hcycle
  have hname : q.find? name ≠ none :=
    RuleTable.target_of_get? hr ▸ hknown r (RuleTable.mem_of_get? hr)
  rcases hfind : q.find? name with _ | _ | s
  · exact hname hfind
  · exact hq.unmarked name hfind
  · exact (hq.truthful.settles name s hfind).not_leads_self .rule hcycle

/-- The sets are those that the resolver has in the end. -/
theorem firstSets_eq_ok {sets : FirstSets} :
    table.firstSets = .ok sets ↔ ∃ q, Resolver.all table .start = .ok () q
      ∧ sets = ⟨table.targets.filterMap fun name =>
          ((q.find? name).join).map fun s => (name, s)⟩ := by
  unfold firstSets
  cases hall : Resolver.all table .start with
  | ok u q =>
    constructor
    · intro h
      exact ⟨q, rfl, (Except.ok.inj h).symm⟩
    · rintro ⟨q', hq', rfl⟩
      cases hq'
      rfl
  | error e q =>
    constructor
    · intro h
      cases h
    · rintro ⟨q', hq', -⟩
      cases hq'

/-- **Every rule settles and has a set that is right about it**, and no
other name has a set. -/
theorem resolved_of_firstSets {sets : FirstSets} (h : table.firstSets = .ok sets) :
    sets.sets.map Prod.fst = table.targets
      ∧ ∀ name ∈ table.targets, (Node.rule name).Settles table
        ∧ ∃ s, sets.get? name = some s ∧ s.Describes table (.rule name) := by
  obtain ⟨q, hall, rfl⟩ := firstSets_eq_ok.mp h
  obtain ⟨hq, hknown, -⟩ := (Resolver.ends_all table).of_ok hall
  have hfind : ∀ name ∈ table.targets, ∃ s, q.find? name = some (some s) := by
    intro name hname
    obtain ⟨r, hr, rfl⟩ := List.mem_map.mp hname
    rcases hfind : q.find? r.target with _ | _ | s
    · exact absurd hfind (hknown r hr)
    · exact absurd hfind (hq.unmarked r.target)
    · exact ⟨s, rfl⟩
  have hset : ∀ name ∈ table.targets, ∃ s, (q.find? name).join = some s := by
    intro name hname
    obtain ⟨s, hs⟩ := hfind name hname
    exact ⟨s, by rw [hs]; rfl⟩
  refine ⟨FirstSets.map_fst_filterMap hset, fun name hname => ?_⟩
  obtain ⟨s, hs⟩ := hfind name hname
  refine ⟨hq.truthful.settles name s hs, s, ?_, hq.truthful.describes name s hs⟩
  rw [FirstSets.get?_filterMap hset hname, hs]
  rfl

/-- **FIRST sets exist exactly for the tables that are well formed.** -/
theorem firstSets_ok_iff : (∃ sets, table.firstSets = .ok sets) ↔ table.WellFormed := by
  constructor
  · rintro ⟨sets, h⟩
    obtain ⟨q, hall, -⟩ := firstSets_eq_ok.mp h
    exact wellFormed_of_all hall
  · intro hw
    cases hall : Resolver.all table .start with
    | ok u q => exact ⟨_, firstSets_eq_ok.mpr ⟨q, hall, rfl⟩⟩
    | error e q => exact absurd hw ((Resolver.ends_all table).of_error hall).not_wellFormed

theorem wellFormed_of_firstSets {sets : FirstSets} (h : table.firstSets = .ok sets) :
    table.WellFormed :=
  firstSets_ok_iff.mp ⟨sets, h⟩

/-- **FIRST sets are exact.** They exist exactly for the tables that are
well formed, one for each rule in the order of the rules, and each holds
exactly the labels that can start its rule and says whether the rule can
be passed. -/
theorem firstSets_exact (table : RuleTable) :
    ((∃ sets, table.firstSets = .ok sets) ↔ table.WellFormed)
      ∧ ∀ sets, table.firstSets = .ok sets →
        sets.sets.map Prod.fst = table.targets
          ∧ ∀ name ∈ table.targets, ∃ s, sets.get? name = some s
            ∧ (∀ l, l ∈ s.labels ↔ (Node.rule name).First table l)
            ∧ (s.nullable = true ↔ (Node.rule name).Nullable table) := by
  refine ⟨firstSets_ok_iff, fun sets h => ?_⟩
  obtain ⟨hnames, hsets⟩ := resolved_of_firstSets h
  refine ⟨hnames, fun name hname => ?_⟩
  obtain ⟨-, s, hs, hdescribes⟩ := hsets name hname
  exact ⟨s, hs, hdescribes.mem_labels, hdescribes.nullable_iff⟩

/-- Lists in brackets, which may be empty and hold lists. -/
def lists : RuleTable where
  rules :=
    [⟨"list", .seq (.literal "[") (.seq (.rule "items") (.literal "]"))⟩,
      ⟨"items", .alt (.seq (.rule "item") (.rule "items")) .empty⟩,
      ⟨"item", .alt (.reserved "IDENT") (.rule "list")⟩]
  nodup := by decide

/-- Lists in brackets are well formed, and the computed set of `items` is
the one that the rules give. -/
theorem firstSets_exact_lists :
    lists.WellFormed ∧ (Node.rule "items").Nullable lists
      ∧ ∀ l, (Node.rule "items").First lists l ↔ l = .literal "[" ∨ l = .reserved "IDENT" := by
  obtain ⟨hok, hsets⟩ := firstSets_exact lists
  have hrun : (lists.firstSets.toOption.bind fun sets =>
      (sets.get? "items").map fun s => (s.labels, s.nullable))
        = some ([.literal "[", .reserved "IDENT"], true) := by
    decide +kernel
  obtain ⟨sets, hfirst, hget⟩ := Option.bind_eq_some_iff.mp hrun
  obtain ⟨s, hs, hvalue⟩ := Option.map_eq_some_iff.mp hget
  obtain ⟨hlabels, hnullable⟩ := Prod.mk.inj hvalue
  rw [Outcome.toOption_eq_some] at hfirst
  obtain ⟨s', hs', hmem, hpass⟩ := (hsets sets hfirst).2 "items" (by decide)
  obtain rfl := Option.some.inj (hs.symm.trans hs')
  refine ⟨hok.mp ⟨sets, hfirst⟩, hpass.mp hnullable, fun l => ?_⟩
  rw [← hmem, hlabels, List.mem_cons, List.mem_singleton]

/-- **What is reported is there.** Left recursion is reported of a rule that
leads to itself, an undefined name only where a body refers to it and no
rule has it, and an ambiguity of the very rule in whose body two branches
of a choice start with the label, or can both be passed; and nothing else
is ever reported. -/
theorem firstSets_eq_error {e : Defect} (h : table.firstSets = .error e) :
    (∃ name, e = .leftRecursion name ∧ TransGen table.Leads name name)
      ∨ (∃ name, e = .undefined name ∧ table.get? name = none
        ∧ ∃ r ∈ table.rules, Node.rule name ∈ r.body.parts)
      ∨ ∃ label, ∃ r ∈ table.rules, e = .ambiguous label r.target ∧ r.body.Clash table label := by
  have hreal : e.Real table := by
    unfold firstSets at h
    split at h
    · cases h
    · next hall =>
      obtain rfl := Except.error.inj h
      exact (Resolver.ends_all table).of_error hall
  obtain ⟨r, hr, he⟩ := hreal
  cases e with
  | leftRecursion name => exact .inl ⟨name, rfl, he⟩
  | undefined name => exact .inr (.inl ⟨name, rfl, he.1, r, hr, he.2⟩)
  | ambiguous label rule =>
    obtain ⟨rfl, hclash⟩ := he
    exact .inr (.inr ⟨label, r, hr, rfl, hclash⟩)
  | _ => exact he.elim

/-- The rule `w` can be passed, which makes a choice in `u` ambiguous, and
that shows as soon as `s` is resolved, through `t`. The choice in `s` is
ambiguous as well. -/
def farApart : RuleTable where
  rules :=
    [⟨"s", .seq (.rule "t") (.alt (.literal "x") (.literal "x"))⟩,
      ⟨"t", .seq (.alt (.literal "y") .empty) (.rule "u")⟩,
      ⟨"u", .alt (.literal "x") (.seq (.rule "w") (.literal "y"))⟩,
      ⟨"w", .alt (.literal "x") .empty⟩]
  nodup := by decide

/-- The rule that is named is `u`, whose body has the clash. -/
theorem firstSets_eq_error_farApart :
    farApart.firstSets = .error (.ambiguous "x" "u")
      ∧ ∃ r ∈ farApart.rules, r.target = "u" ∧ r.body.Clash farApart "x" := by
  have hrun : farApart.firstSets = .error (.ambiguous "x" "u") := by decide +kernel
  refine ⟨hrun, ?_⟩
  rcases firstSets_eq_error hrun with ⟨_, h, -⟩ | ⟨_, h, -⟩ | ⟨label, r, hr, h, hclash⟩
  · cases h
  · cases h
  · obtain ⟨rfl, htarget⟩ := Defect.ambiguous.inj h
    exact ⟨r, hr, htarget.symm, hclash⟩

end RuleTable

end Descent
