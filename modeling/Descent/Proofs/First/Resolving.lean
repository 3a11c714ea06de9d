import Descent.Proofs.First.Meaning
import Descent.Proofs.Outcome

/-!
# What the resolver does

The resolver goes through a body from the left and looks into each rule
that it meets, up to the first defect. **It gets through exactly if the
body settles** (`Node.Settles`): what it meets is defined, the sides of
every choice it meets are apart, and following references comes to an
end. Settling is an inductive relation, so a body that settles leads to
no rule that leads to itself (`Node.Settles.not_leads_self`).

What is kept between the steps has to be true (`Resolver.Truthful`), and
a mark has to be a warning. A rule is marked while its body is looked
into, so it leads to all that can come up there. Coming back to it then
is left recursion. A mark that an earlier failure left behind says that
the rule does not settle. Both go into what a step may start from
(`Resolver.Ready`).

From there a step ends in one of two ways. It gives the set that is right
about the body, which settles (`Resolver.Gives`), or it names a defect
that is there, and the body does not settle (`Resolver.Breaks`). This is
shown for bodies by induction on the body (`Resolver.resolves_firstOf`)
and for rules by induction on the number of rules that are still unknown
(`Resolver.resolves_ruleWithin`).
-/

namespace Descent

open Relation (TransGen)

/-! ## Bodies that settle -/

namespace Node

variable {table : RuleTable}

/-- **A body whose FIRST set can be found** by going through it from the
left. What comes after a head that takes tokens does not matter. -/
inductive Settles (table : RuleTable) : Node → Prop
  | seq {h t : Node} : Settles table h → (h.Nullable table → Settles table t) →
    Settles table (.seq h t)
  | lone {h : Node} : Settles table h → Settles table (.lone h)
  | alt {l r : Node} : Settles table l → Settles table r → Apart table l r →
    Settles table (.alt l r)
  | rule {name : String} {r : Rule} : table.get? name = some r → Settles table r.body →
    Settles table (.rule name)
  | literal {s : String} : Settles table (.literal s)
  | reserved {s : String} : Settles table (.reserved s)
  | directive {d : Directive} : Settles table (.directive d)
  | action {e : Expr} : Settles table (.action e)
  | empty : Settles table .empty

/-- A reference settles exactly if it is to a rule whose body does. -/
theorem settles_rule {name : String} :
    (Node.rule name).Settles table ↔ ∃ r, table.get? name = some r ∧ r.body.Settles table := by
  constructor
  · intro h
    cases h with
    | rule hr hb => exact ⟨_, hr, hb⟩
  · rintro ⟨r, hr, hb⟩
    exact .rule hr hb

/-- **What settles leads to no rule that leads to itself.** -/
theorem Settles.not_leads_self {n : Node} (h : n.Settles table) {name : String}
    (he : n.Exposes table name) : ¬ TransGen table.Leads name name := by
  induction h generalizing name with
  | seq _ _ hh ht =>
    cases he with
    | head he => exact hh he
    | tail hn he => exact ht hn he
  | lone _ hh =>
    cases he with
    | lone he => exact hh he
  | alt _ _ _ hl hr =>
    cases he with
    | left he => exact hl he
    | right he => exact hr he
  | @rule name r hr _ hb =>
    cases he with
    | rule =>
      -- A way around would pass a rule that the body exposes, and that
      -- rule would be on it too.
      intro hcycle
      obtain ⟨target, hfirst, hrest⟩ := TransGen.head'_iff.mp hcycle
      obtain ⟨r', hr', htarget⟩ := hfirst
      rw [hr] at hr'
      cases hr'
      exact hb htarget (TransGen.tail' hrest ⟨r, hr, htarget⟩)
  | _ => cases he

/-- The branches of a choice that settles are apart from each other. -/
theorem Settles.pairwise_apart {n : Node} (h : n.Settles table) :
    n.branches.Pairwise (Apart table) := by
  induction h with
  | alt _ _ hapart hl hr => exact pairwise_apart_alt.mpr ⟨hl, hr, hapart⟩
  | _ => exact pairwise_apart_of_not_choice rfl

/-- **A body that settles can be passed, or something starts it.** -/
theorem Settles.nullable_or_first {n : Node} (h : n.Settles table) :
    n.Nullable table ∨ ∃ l, n.First table l := by
  induction h with
  | seq _ _ hh ht =>
    rcases hh with hn | ⟨l, hl⟩
    · rcases ht hn with hn' | ⟨l, hl⟩
      · exact .inl (.seq hn hn')
      · exact .inr ⟨l, .tail hn hl⟩
    · exact .inr ⟨l, .head hl⟩
  | lone _ hh => exact hh.imp .lone (fun ⟨l, hl⟩ => ⟨l, .lone hl⟩)
  | alt _ _ _ hl _ => exact hl.imp .left (fun ⟨l, hl⟩ => ⟨l, .left hl⟩)
  | rule hr _ ih => exact ih.imp (.rule hr) (fun ⟨l, hl⟩ => ⟨l, .rule hr hl⟩)
  | @literal s => exact .inr ⟨_, .literal⟩
  | @reserved s => exact .inr ⟨_, .reserved⟩
  | @directive d =>
    cases hk : d.kind with
    | lookahead => exact .inr ⟨_, .guard (.inl hk)⟩
    | precedence => exact .inr ⟨_, .guard (.inr hk)⟩
    | error => exact .inl (.directive (.inl hk))
    | recover => exact .inl (.directive (.inr hk))
  | action => exact .inl .action
  | empty => exact .inl .empty

/-- **Two branches of a choice that a label does not tell apart**, the
choice standing anywhere in the body. That both can be passed counts as
the label `EMPTY`. -/
def Clash (table : RuleTable) (n : Node) (label : String) : Prop :=
  ∃ m ∈ n.parts, m.isChoice = true ∧ ∃ a b, [a, b].Sublist m.branches
    ∧ ((∃ l : Label, l.render = label ∧ a.First table l ∧ b.First table l)
      ∨ (label = "EMPTY" ∧ a.Nullable table ∧ b.Nullable table))

theorem Clash.mono {n n' : Node} {label : String} (h : n.Clash table label)
    (hparts : n.parts ⊆ n'.parts) : n'.Clash table label := by
  obtain ⟨m, hm, hclash⟩ := h
  exact ⟨m, hparts hm, hclash⟩

/-- A label that starts both sides of a choice is a clash. -/
theorem clash_of_first {l r : Node} {label : Label} (hl : l.First table label)
    (hr : r.First table label) : (alt l r).Clash table label.render := by
  obtain ⟨a, ha, hal⟩ := first_iff_branch.mp hl
  obtain ⟨b, hb, hbl⟩ := first_iff_branch.mp hr
  refine ⟨_, mem_parts_self _, rfl, a, b, ?_, .inl ⟨label, rfl, hal, hbl⟩⟩
  exact (List.singleton_sublist.mpr ha).append (List.singleton_sublist.mpr hb)

/-- Two sides of a choice that can both be passed are a clash. -/
theorem clash_of_nullable {l r : Node} (hl : l.Nullable table) (hr : r.Nullable table) :
    (alt l r).Clash table "EMPTY" := by
  obtain ⟨a, ha, hal⟩ := nullable_iff_branch.mp hl
  obtain ⟨b, hb, hbl⟩ := nullable_iff_branch.mp hr
  refine ⟨_, mem_parts_self _, rfl, a, b, ?_, .inr ⟨rfl, hal, hbl⟩⟩
  exact (List.singleton_sublist.mpr ha).append (List.singleton_sublist.mpr hb)

end Node

/-! ## Defects that are there -/

/-- **A defect that a body has**, looked at for the sake of the rule
`current`. -/
def Defect.Arises (table : RuleTable) (current : String) (n : Node) : Defect → Prop
  | .leftRecursion name => TransGen table.Leads name name
  | .undefined name => table.get? name = none ∧ .rule name ∈ n.parts
  | .ambiguous label rule => rule = current ∧ n.Clash table label
  | _ => False

theorem Defect.Arises.mono {table : RuleTable} {current : String} {n n' : Node} {e : Defect}
    (h : e.Arises table current n) (hparts : n.parts ⊆ n'.parts) :
    e.Arises table current n' := by
  cases e with
  | leftRecursion name => exact h
  | undefined name => exact ⟨h.1, hparts h.2⟩
  | ambiguous label rule => exact ⟨h.1, h.2.mono hparts⟩
  | _ => exact h

/-- **A defect that the body has, or the body of some rule.** A rule that
was `stuck` before shows as left recursion. -/
def Defect.Explained (table : RuleTable) (stuck : String → Prop) (current : String) (n : Node)
    (e : Defect) : Prop :=
  e.Arises table current n ∨ (∃ r ∈ table.rules, e.Arises table r.target r.body)
    ∨ ∃ name, stuck name ∧ e = .leftRecursion name

/-! ## What a step starts from and where it ends -/

namespace Resolver

variable {table : RuleTable} {stuck : String → Prop} {k : Nat}

/-- **What is kept is right**, and kept only of rules that settle. -/
structure Truthful (table : RuleTable) (r : Resolver) : Prop where
  describes : ∀ name s, r.find? name = some (some s) → s.Describes table (.rule name)
  settles : ∀ name s, r.find? name = some (some s) → (Node.rule name).Settles table

/-- Some `k` names hold all rules of which nothing is known. -/
def Room (table : RuleTable) (k : Nat) (r : Resolver) : Prop :=
  ∃ names : List String, names.length ≤ k
    ∧ ∀ name ∈ table.targets, r.find? name = none → name ∈ names

/-- **What a step on a body may start from.** -/
structure Ready (table : RuleTable) (stuck : String → Prop) (k : Nat) (n : Node)
    (r : Resolver) : Prop where
  truthful : r.Truthful table
  /-- A marked rule is stuck, or leads to all that can come up. -/
  marks : ∀ name, r.find? name = some none →
    stuck name ∨ ∀ target, n.Exposes table target → TransGen table.Leads name target
  room : r.Room table k

/-- **No mark is new, nothing is forgotten**, and the rule being looked at
is the same. -/
structure Extends (r r' : Resolver) : Prop where
  marks : ∀ name, r'.find? name = some none → r.find? name = some none
  known : ∀ name, r'.find? name = none → r.find? name = none
  current : r'.current = r.current

/-- **Where a step on a body ends well.** -/
structure Gives (table : RuleTable) (n : Node) (r : Resolver) (s : FirstSet)
    (r' : Resolver) : Prop where
  truthful : r'.Truthful table
  extension : r.Extends r'
  describes : s.Describes table n
  settles : n.Settles table

/-- **Where a step on a body ends badly.** -/
structure Breaks (table : RuleTable) (stuck : String → Prop) (n : Node) (r : Resolver)
    (e : Defect) (r' : Resolver) : Prop where
  truthful : r'.Truthful table
  /-- A mark that is new is on a rule that does not settle. -/
  marks : ∀ name, r'.find? name = some none →
    r.find? name = some none ∨ ¬ (Node.rule name).Settles table
  current : r'.current = r.current
  unsettled : ¬ n.Settles table
  explained : e.Explained table stuck r.current n

/-- **A step that resolves a body** whenever at most `k` rules are
unknown. -/
def Resolves (table : RuleTable) (stuck : String → Prop) (k : Nat) (n : Node)
    (x : Resolving FirstSet) : Prop :=
  ∀ r, Ready table stuck k n r → Outcome.Ends x r (Gives table n r) (Breaks table stuck n r)

theorem Extends.refl (r : Resolver) : r.Extends r where
  marks _ h := h
  known _ h := h
  current := rfl

theorem Extends.trans {r₁ r₂ r₃ : Resolver} (h : r₁.Extends r₂) (h' : r₂.Extends r₃) :
    r₁.Extends r₃ where
  marks name hm := h.marks name (h'.marks name hm)
  known name hn := h.known name (h'.known name hn)
  current := h'.current.trans h.current

/-- What may start on a body may start on one that exposes no more. -/
theorem Ready.mono {n n' : Node} {r : Resolver} (h : Ready table stuck k n r)
    (hn : ∀ target, n'.Exposes table target → n.Exposes table target) :
    Ready table stuck k n' r where
  truthful := h.truthful
  marks name hm := (h.marks name hm).imp_right (fun hl target ht => hl target (hn target ht))
  room := h.room

/-- What could start before a step that ended well can start after it. -/
theorem Ready.after {n : Node} {r r' : Resolver} (h : Ready table stuck k n r)
    (ht : r'.Truthful table) (he : r.Extends r') : Ready table stuck k n r' where
  truthful := ht
  marks name hm := h.marks name (he.marks name hm)
  room := by
    obtain ⟨names, hlength, hnames⟩ := h.room
    exact ⟨names, hlength, fun name hname hu => hnames name hname (he.known name hu)⟩

/-- A part that cannot be resolved is the undoing of the whole. -/
theorem Breaks.mono {n n' : Node} {r r' : Resolver} {e : Defect}
    (h : Breaks table stuck n r e r') (hparts : n.parts ⊆ n'.parts)
    (hn : n'.Settles table → n.Settles table) : Breaks table stuck n' r e r' where
  truthful := h.truthful
  marks := h.marks
  current := h.current
  unsettled := fun hs => h.unsettled (hn hs)
  explained := h.explained.imp_left (fun ha => ha.mono hparts)

/-- A step that ends badly after one that ended well ends both badly. -/
theorem Breaks.after {n : Node} {r r₁ r' : Resolver} {e : Defect} (he : r.Extends r₁)
    (h : Breaks table stuck n r₁ e r') : Breaks table stuck n r e r' where
  truthful := h.truthful
  marks name hm := (h.marks name hm).imp_left (he.marks name)
  current := h.current.trans he.current
  unsettled := h.unsettled
  explained := by
    rw [← he.current]
    exact h.explained

/-! ## Bodies -/

/-- A body that is an element by itself needs nothing to be known. -/
theorem resolves_pure {n : Node} {s : FirstSet} (hs : s.Describes table n)
    (hn : n.Settles table) : Resolves table stuck k n (pure s) :=
  fun r hr => ⟨hr.truthful, Extends.refl r, hs, hn⟩

/-- **A sequence is resolved by its head, and by its tail if the head can
be passed.** -/
theorem Resolves.seq {h t : Node} {x y : Resolving FirstSet}
    (hx : Resolves table stuck k h x) (hy : Resolves table stuck k t y) :
    Resolves table stuck k (.seq h t) (do
      let s ← x
      if s.nullable then
        let rest ← y
        pure (s.followedBy rest)
      else pure s) := by
  intro r hr
  refine (hx r (hr.mono fun _ => .head)).bind ?_ ?_
  · intro s r₁ h₁
    by_cases hn : s.nullable = true
    · have hnull := h₁.describes.nullable_iff.mp hn
      rw [if_pos hn]
      refine (hy r₁ ((hr.after h₁.truthful h₁.extension).mono fun _ => .tail hnull)).bind ?_ ?_
      · intro s' r₂ h₂
        exact ⟨h₂.truthful, h₁.extension.trans h₂.extension,
          h₁.describes.followedBy h₂.describes hn, .seq h₁.settles fun _ => h₂.settles⟩
      · intro e r₂ h₂
        refine (h₂.after h₁.extension).mono (Node.parts_tail_subset h t) (fun hs => ?_)
        cases hs with
        | seq _ ht => exact ht hnull
    · rw [Bool.not_eq_true] at hn
      rw [hn]
      exact ⟨h₁.truthful, h₁.extension, h₁.describes.seq_of_not_nullable hn,
        .seq h₁.settles fun hnull => absurd hnull (h₁.describes.not_nullable hn)⟩
  · intro e r₁ h₁
    refine h₁.mono (Node.parts_head_subset h t) (fun hs => ?_)
    cases hs with
    | seq hh _ => exact hh

theorem Resolves.lone {h : Node} {x : Resolving FirstSet} (hx : Resolves table stuck k h x) :
    Resolves table stuck k (.lone h) x := by
  intro r hr
  refine (hx r (hr.mono fun _ => .lone)).mono ?_ ?_
  · intro s r₁ h₁
    exact ⟨h₁.truthful, h₁.extension, h₁.describes.lone, .lone h₁.settles⟩
  · intro e r₁ h₁
    refine h₁.mono (Node.parts_lone_subset h) (fun hs => ?_)
    cases hs with
    | lone hh => exact hh

/-- **Sides that are right are compared rightly.** -/
theorem ends_either (stuck : String → Prop) {l r : Node} {s t : FirstSet} {q : Resolver}
    (hq : q.Truthful table) (hs : s.Describes table l) (ht : t.Describes table r)
    (hl : l.Settles table) (hr : r.Settles table) :
    Outcome.Ends (either s t) q (Gives table (.alt l r) q) (Breaks table stuck (.alt l r) q) := by
  have hfails : ∀ label, (Node.alt l r).Clash table label → ¬ Node.Apart table l r →
      Breaks table stuck (.alt l r) q (.ambiguous label q.current) q := by
    intro label hclash hapart
    refine ⟨hq, fun _ hm => .inl hm, rfl, fun hn => ?_, .inl ⟨rfl, hclash⟩⟩
    cases hn with
    | alt _ _ h => exact hapart h
  unfold either
  cases hfind : t.labels.find? s.contains with
  | some label =>
    have hfl := (hs.mem_labels label).mp (List.contains_iff_mem.mp (List.find?_some hfind))
    have hfr := (ht.mem_labels label).mp (List.mem_of_find?_eq_some hfind)
    exact hfails _ (Node.clash_of_first hfl hfr) (fun h => h.1 label ⟨hfl, hfr⟩)
  | none =>
    by_cases hn : (s.nullable && t.nullable) = true
    · obtain ⟨hsn, htn⟩ := (Bool.and_eq_true _ _).mp hn
      have hnl := hs.nullable_iff.mp hsn
      have hnr := ht.nullable_iff.mp htn
      dsimp only
      rw [if_pos hn]
      exact hfails _ (Node.clash_of_nullable hnl hnr) (fun h => h.2 ⟨hnl, hnr⟩)
    · rw [Bool.not_eq_true] at hn
      dsimp only
      rw [hn]
      exact ⟨hq, Extends.refl q, hs.union ht,
        .alt hl hr ((hs.apart_iff ht).mpr ⟨hfind, hn⟩)⟩

/-- **A choice is resolved by its sides and by comparing them.** -/
theorem Resolves.alt {l r : Node} {x y : Resolving FirstSet}
    (hx : Resolves table stuck k l x) (hy : Resolves table stuck k r y) :
    Resolves table stuck k (.alt l r) (do
      let s ← x
      let t ← y
      either s t) := by
  intro q hq
  refine (hx q (hq.mono fun _ => .left)).bind ?_ ?_
  · intro s q₁ h₁
    refine (hy q₁ ((hq.after h₁.truthful h₁.extension).mono fun _ => .right)).bind ?_ ?_
    · intro t q₂ h₂
      have hext := h₁.extension.trans h₂.extension
      refine (ends_either stuck h₂.truthful h₁.describes h₂.describes h₁.settles
        h₂.settles).mono ?_ ?_
      · intro u q₃ h₃
        exact ⟨h₃.truthful, hext.trans h₃.extension, h₃.describes, h₃.settles⟩
      · intro e q₃ h₃
        exact h₃.after hext
    · intro e q₂ h₂
      refine (h₂.after h₁.extension).mono (Node.parts_right_subset l r) (fun hs => ?_)
      cases hs with
      | alt _ hr _ => exact hr
  · intro e q₁ h₁
    refine h₁.mono (Node.parts_left_subset l r) (fun hs => ?_)
    cases hs with
    | alt hl _ _ => exact hl

/-- **Bodies are resolved if references are**, by induction on the body. -/
theorem resolves_firstOf {reference : String → Resolving FirstSet}
    (href : ∀ name, Resolves table stuck k (.rule name) (reference name)) (n : Node) :
    Resolves table stuck k n (firstOf reference n) := by
  induction n with
  | seq h t hh ht => exact hh.seq ht
  | lone h hh => exact hh.lone
  | alt l r hl hr => exact hl.alt hr
  | literal s =>
    refine resolves_pure (FirstSet.describes_singleton (fun x => ?_) nofun) .literal
    exact ⟨fun | .literal => rfl, fun h => h ▸ .literal⟩
  | reserved s =>
    refine resolves_pure (FirstSet.describes_singleton (fun x => ?_) nofun) .reserved
    exact ⟨fun | .reserved => rfl, fun h => h ▸ .reserved⟩
  | rule name => exact href name
  | directive d =>
    -- Nothing of a call but its kind decides on its set.
    unfold firstOf
    cases hd : d.kind with
    | lookahead => exact resolves_pure (FirstSet.describes_guard (.inl hd)) .directive
    | precedence => exact resolves_pure (FirstSet.describes_guard (.inr hd)) .directive
    | error => exact resolves_pure (FirstSet.describes_call (.inl hd)) .directive
    | recover => exact resolves_pure (FirstSet.describes_call (.inr hd)) .directive
  | action e => exact resolves_pure (FirstSet.describes_passing nofun .action) .action
  | empty => exact resolves_pure (FirstSet.describes_passing nofun .empty) .empty

/-! ## Rules -/

theorem find?_cons (name target : String) (known : Option FirstSet)
    (cache : List (String × Option FirstSet)) (current : String) :
    (Resolver.mk ((name, known) :: cache) current).find? target
      = if target = name then some known else cache.lookup target := by
  show ((name, known) :: cache).lookup target = _
  by_cases h : target = name
  · rw [if_pos h, h, List.lookup_cons_self]
  · rw [if_neg h, List.lookup_cons, beq_false_of_ne h]

/-- A rule that is being looked into leads to what its body exposes, and
so does each rule that leads to it. -/
theorem Ready.enter {name : String} {r : Rule} {q : Resolver} (hrule : table.get? name = some r)
    (hq : Ready table stuck (k + 1) (.rule name) q) (hu : q.find? name = none) :
    Ready table stuck k r.body ⟨(name, none) :: q.cache, name⟩ where
  truthful := by
    constructor
    · intro target s h
      rw [find?_cons] at h
      split at h
      · cases h
      · exact hq.truthful.describes target s h
    · intro target s h
      rw [find?_cons] at h
      split at h
      · cases h
      · exact hq.truthful.settles target s h
  marks target h := by
    -- The new mark leads to what the body exposes directly, an old one by
    -- way of the rule that is entered.
    rw [find?_cons] at h
    split at h
    · next heq =>
      rw [heq]
      exact .inr fun b hb => .single ⟨r, hrule, hb⟩
    · refine (hq.marks target h).imp_right (fun hl b hb => ?_)
      exact (hl name .rule).tail ⟨r, hrule, hb⟩
  room := by
    obtain ⟨names, hlength, hnames⟩ := hq.room
    have hname := hnames name (RuleTable.mem_targets.mpr ⟨r, hrule⟩) hu
    refine ⟨names.erase name, ?_, fun target htarget h => ?_⟩
    · rw [List.length_erase_of_mem hname]
      omega
    · rw [find?_cons] at h
      split at h
      · cases h
      · next hne => exact (List.mem_erase_of_ne hne).mpr (hnames target htarget h)

/-- **Looking into a rule resolves it** if its body is resolved. -/
theorem ends_enter {name : String} {r : Rule} {q : Resolver} {x : Resolving FirstSet}
    (hrule : table.get? name = some r) (hq : Ready table stuck (k + 1) (.rule name) q)
    (hu : q.find? name = none) (hx : Resolves table stuck k r.body x) :
    Outcome.Ends (enter name x) q (Gives table (.rule name) q)
      (Breaks table stuck (.rule name) q) := by
  have hbody := hx _ (hq.enter hrule hu)
  unfold Outcome.Ends Resolver.enter
  cases hrun : x ⟨(name, none) :: q.cache, name⟩ with
  | ok s q' =>
    have h := hbody.of_ok hrun
    have hs := h.describes.rule hrule
    have hset : (Node.rule name).Settles table := .rule hrule h.settles
    -- The set that was found stands in front of the mark and covers it.
    refine ⟨⟨fun target s' hf => ?_, fun target s' hf => ?_⟩,
      ⟨fun target hm => ?_, fun target hm => ?_, rfl⟩, hs, hset⟩
    · rw [find?_cons] at hf
      split at hf
      · next heq =>
        cases hf
        exact heq ▸ hs
      · exact h.truthful.describes target s' hf
    · rw [find?_cons] at hf
      split at hf
      · next heq => exact heq ▸ hset
      · exact h.truthful.settles target s' hf
    · rw [find?_cons] at hm
      split at hm
      · cases hm
      · next hne =>
        have := h.extension.marks target hm
        rwa [find?_cons, if_neg hne] at this
    · rw [find?_cons] at hm
      split at hm
      · cases hm
      · next hne =>
        have := h.extension.known target hm
        rwa [find?_cons, if_neg hne] at this
  | error e q' =>
    have h := hbody.of_error hrun
    have hset : ¬ (Node.rule name).Settles table := by
      intro hs
      obtain ⟨r', hr', hb⟩ := Node.settles_rule.mp hs
      rw [hrule] at hr'
      cases hr'
      exact h.unsettled hb
    refine ⟨⟨h.truthful.describes, h.truthful.settles⟩, fun target hm => ?_, rfl, hset, ?_⟩
    · rcases h.marks target hm with hm | hm
      · rw [find?_cons] at hm
        split at hm
        · next heq => exact .inr (heq ▸ hset)
        · exact .inl hm
      · exact .inr hm
    · rcases h.explained with ha | ha
      · rw [← RuleTable.target_of_get? hrule] at ha
        exact .inr (.inl ⟨r, RuleTable.mem_of_get? hrule, ha⟩)
      · exact .inr ha

/-- **What is looked at first is what is known of the rule.** -/
theorem ruleWithin_run (k : Nat) (name : String) (q : Resolver) :
    ruleWithin table k name q = match q.find? name with
      | some (some s) => .ok s q
      | some none => .error (.leftRecursion name) q
      | none =>
        match k, table.get? name with
        | k + 1, some r => enter name (firstOf (ruleWithin table k) r.body) q
        | _, _ => .error (.undefined name) q := by
  unfold ruleWithin
  show EStateM.bind EStateM.get _ q = _
  unfold EStateM.bind EStateM.get
  dsimp only
  rcases q.find? name with _ | _ | s
  · rcases k with _ | k
    · rfl
    · rcases table.get? name with _ | r
      · rfl
      · rfl
  · rfl
  · rfl

/-- A rule that is come back to is left recursive or was stuck before. -/
theorem breaks_of_marked (hstuck : ∀ name, stuck name → ¬ (Node.rule name).Settles table)
    {name : String} {q : Resolver} (hq : Ready table stuck k (.rule name) q)
    (hm : q.find? name = some none) :
    Breaks table stuck (.rule name) q (.leftRecursion name) q := by
  rcases hq.marks name hm with hs | hl
  · exact ⟨hq.truthful, fun _ => .inl, rfl, hstuck name hs, .inr (.inr ⟨name, hs, rfl⟩)⟩
  · have hcycle := hl name .rule
    exact ⟨hq.truthful, fun _ => .inl, rfl, fun h => h.not_leads_self .rule hcycle, .inl hcycle⟩

/-- A reference that there is no rule for is a defect of its own. -/
theorem breaks_of_undefined {name : String} {q : Resolver} (hq : q.Truthful table)
    (hnone : table.get? name = none) :
    Breaks table stuck (.rule name) q (.undefined name) q := by
  refine ⟨hq, fun _ => .inl, rfl, fun h => ?_, .inl ⟨hnone, Node.mem_parts_self _⟩⟩
  obtain ⟨r, hr, -⟩ := Node.settles_rule.mp h
  rw [hnone] at hr
  cases hr

/-- **Rules are resolved**, by induction on how many are unknown. A stuck
rule must be one that does not settle. -/
theorem resolves_ruleWithin (hstuck : ∀ name, stuck name → ¬ (Node.rule name).Settles table)
    (k : Nat) (name : String) :
    Resolves table stuck k (.rule name) (ruleWithin table k name) := by
  induction k using Nat.strongRecOn generalizing name with
  | _ k ih =>
    intro q hq
    unfold Outcome.Ends
    rw [ruleWithin_run]
    rcases hknown : q.find? name with _ | _ | s
    · cases hrule : table.get? name with
      | none => cases k with | _ => exact breaks_of_undefined hq.truthful hrule
      | some r =>
        cases k with
        | zero =>
          -- With no room left there is no rule of which nothing is known.
          obtain ⟨names, hlength, hnames⟩ := hq.room
          have hmem := hnames name (RuleTable.mem_targets.mpr ⟨r, hrule⟩) hknown
          exact absurd (List.length_pos_of_mem hmem) (by omega)
        | succ k =>
          exact ends_enter hrule hq hknown (resolves_firstOf (ih k (Nat.lt_succ_self k)) r.body)
    · exact breaks_of_marked hstuck hq hknown
    · exact ⟨hq.truthful, Extends.refl q, hq.truthful.describes name s hknown,
        hq.truthful.settles name s hknown⟩

/-- A rule that was resolved is known from then on. -/
theorem find?_of_ruleWithin {name : String} {q q' : Resolver} {s : FirstSet}
    (h : ruleWithin table k name q = .ok s q') : q'.find? name = some (some s) := by
  rw [ruleWithin_run] at h
  rcases hknown : q.find? name with _ | _ | s'
  · rw [hknown] at h
    dsimp only at h
    split at h
    · unfold enter at h
      split at h
      · cases h
        rw [find?_cons, if_pos rfl]
      · cases h
    · cases h
  · rw [hknown] at h
    cases h
  · rw [hknown] at h
    cases h
    exact hknown

/-- There is room for all rules of the table. -/
theorem room_size (q : Resolver) : q.Room table table.size :=
  ⟨table.targets, Nat.le_of_eq (List.length_map _), fun _ hname _ => hname⟩

/-- **The FIRST set of any body is found if there is one.** -/
theorem resolves_node (hstuck : ∀ name, stuck name → ¬ (Node.rule name).Settles table)
    (n : Node) : Resolves table stuck table.size n (node table n) :=
  resolves_firstOf (resolves_ruleWithin hstuck table.size) n

end Resolver

end Descent
