import Descent.Proofs.Derivation
import Descent.Proofs.First.Fragments
import Descent.Proofs.First.Words

/-!
# FIRST sets of factored tables

Factoring moves choices to other places, so the choices whose branches
have to be told apart are not the ones of the table as written. It still
breaks nothing: **a table that has FIRST sets has the same ones when it is
factored** (`RuleTable.firstSets_factored`).

Names, labels and references that come first are a matter of words, and
factoring keeps the words. What needs a reason is that the branches of the
new choices are apart. A step that two branches share starts both of them,
so if the branches are apart nothing starts the step; it settles, so then
it can be passed (`Node.Settles.nullable_or_first`). What is left of the
branches behind such a step starts as they do, and is apart because they
are (`Factor.pairwise_apart_remainder`).

The other way round nothing is said about defects: a choice that factoring
resolves may well be ambiguous as written. But the sets that a factored
table has are right about the rules as written.
-/

namespace Descent

namespace Node

variable {table : RuleTable}

/-! ## Bodies that start as others do -/

/-- **A body that starts like some of these**: whatever starts it starts
one of them, and it can be passed only if one of them can. -/
structure StartsAmong (table : RuleTable) (n : Node) (bodies : List Node) : Prop where
  first : ∀ {l : Label}, n.First table l → ∃ b ∈ bodies, b.First table l
  nullable : n.Nullable table → ∃ b ∈ bodies, b.Nullable table

/-- A body whose words are words of some bodies starts like these. -/
theorem startsAmong_of_words {n : Node} {bodies : List Node}
    (h : n.words ⊆ bodies.flatMap words) : n.StartsAmong table bodies where
  first {l} hf := by
    obtain ⟨w, hw, hshows⟩ := (leading_first l).iff_exists_word.mp hf
    obtain ⟨b, hb, hwb⟩ := List.mem_flatMap.mp (h hw)
    exact ⟨b, hb, (leading_first l).iff_exists_word.mpr ⟨w, hwb, hshows⟩⟩
  nullable hn := by
    obtain ⟨w, hw, hnull⟩ := nullable_iff_exists_word.mp hn
    obtain ⟨b, hb, hwb⟩ := List.mem_flatMap.mp (h hw)
    exact ⟨b, hb, nullable_iff_exists_word.mpr ⟨w, hwb, hnull⟩⟩

theorem startsAmong_singleton {n m : Node} (h : n.words ⊆ m.words) :
    n.StartsAmong table [m] :=
  startsAmong_of_words (fun _ hw => List.mem_flatMap.mpr ⟨m, List.mem_singleton_self m, h hw⟩)

/-- **Bodies are apart if those are that they start like.** -/
theorem StartsAmong.apart {a b : Node} {as bs : List Node} (ha : a.StartsAmong table as)
    (hb : b.StartsAmong table bs) (h : ∀ x ∈ as, ∀ y ∈ bs, Apart table x y) :
    Apart table a b := by
  refine ⟨fun l hl => ?_, fun hn => ?_⟩
  · obtain ⟨x, hx, hxl⟩ := ha.first hl.1
    obtain ⟨y, hy, hyl⟩ := hb.first hl.2
    exact (h x hx y hy).1 l ⟨hxl, hyl⟩
  · obtain ⟨x, hx, hxn⟩ := ha.nullable hn.1
    obtain ⟨y, hy, hyn⟩ := hb.nullable hn.2
    exact (h x hx y hy).2 ⟨hxn, hyn⟩

/-- Bodies that start like one of two that are apart are apart. -/
theorem Apart.of_startsAmong {a b x y : Node} (h : Apart table x y)
    (ha : a.StartsAmong table [x]) (hb : b.StartsAmong table [y]) : Apart table a b := by
  refine ha.apart hb (fun x' hx' y' hy' => ?_)
  rwa [List.mem_singleton.mp hx', List.mem_singleton.mp hy']

/-! ## Choices and sequences without defects -/

theorem clear_empty : Node.empty.Clear table where
  defined name hm := nomatch List.mem_singleton.mp hm
  apart m hm hc := by
    rw [List.mem_singleton.mp hm] at hc
    cases hc

/-- The branches of a body without defects are apart. -/
theorem Clear.pairwise_apart {n : Node} (h : n.Clear table) :
    n.branches.Pairwise (Apart table) := by
  cases hc : n.isChoice with
  | true => exact h.apart n (mem_parts_self n) hc
  | false => exact pairwise_apart_of_not_choice hc

/-- **The choice between bodies without defects that are apart has
none.** -/
theorem clear_alternative {bs : List Node} (hc : ∀ b ∈ bs, b.Clear table)
    (h : bs.Pairwise (Apart table)) : (alternative bs).Clear table := by
  fun_induction alternative bs with
  | case1 => exact clear_empty
  | case2 n => exact hc n (List.mem_singleton_self n)
  | case3 n m r ih =>
    obtain ⟨hn, hr⟩ := List.pairwise_cons.mp h
    have hclear := ih (fun b hb => hc b (List.mem_cons_of_mem n hb)) hr
    refine (hc n List.mem_cons_self).alt hclear (pairwise_apart_alt.mpr
      ⟨(hc n List.mem_cons_self).pairwise_apart, hclear.pairwise_apart, ?_⟩)
    have hrest : (alternative (m :: r)).StartsAmong table (m :: r) := by
      refine startsAmong_of_words (fun w hw => ?_)
      rwa [words_alternative (List.cons_ne_nil m r)] at hw
    refine (startsAmong_singleton (List.Subset.refl n.words)).apart hrest (fun x hx y hy => ?_)
    rw [List.mem_singleton.mp hx]
    exact hn y hy

theorem clear_chain {es : List Node} (h : ∀ e ∈ es, e.Clear table) : (chain es).Clear table := by
  fun_induction chain es with
  | case1 => exact clear_empty
  | case2 n => exact h n (List.mem_singleton_self n)
  | case3 n m r ih =>
    exact (h n List.mem_cons_self).seq (ih (fun e he => h e (List.mem_cons_of_mem n he)))

/-- **The canonical sequence of bodies without defects has none.** -/
theorem clear_sequence {es : List Node} (h : ∀ e ∈ es, e.Clear table) :
    (sequence es).Clear table := by
  refine clear_chain (fun e he => ?_)
  obtain ⟨n, hn, he⟩ := List.mem_flatMap.mp he
  exact (h n hn).of_part (mem_parts_of_mem_splice he)

end Node

namespace Factor

open Node

variable {table : RuleTable}

/-- Behind a head that can be passed, what is left of a branch starts as
the branch does. -/
theorem startsAmong_remainder {n : Node} (h : n.head.Nullable table) :
    (remainder n).StartsAmong table [n] := by
  cases n with
  | seq h' t =>
    exact ⟨fun hf => ⟨_, List.mem_singleton_self _, .tail h hf⟩,
      fun hn => ⟨_, List.mem_singleton_self _, .seq h hn⟩⟩
  | lone h' =>
    exact ⟨(fun hf => nomatch hf), fun _ => ⟨_, List.mem_singleton_self _, .lone h⟩⟩
  | _ => exact ⟨(fun hf => nomatch hf), fun _ => ⟨_, List.mem_singleton_self _, h⟩⟩

/-- What starts the head of a branch starts the branch. -/
theorem first_of_head {n : Node} {l : Label} (h : n.head.First table l) : n.First table l := by
  cases n with
  | seq h' t => exact .head h
  | lone h' => exact .lone h
  | _ => exact h

/-- **What is left of branches that share their head is apart if the
branches are.** -/
theorem pairwise_apart_remainder {n m : Node} {ms : List Node}
    (hsettles : n.head.Settles table) (hhead : ∀ x ∈ n :: m :: ms, n.head = x.head)
    (h : (n :: m :: ms).Pairwise (Apart table)) :
    ((n :: m :: ms).map remainder).Pairwise (Apart table) := by
  have hpass : n.head.Nullable table := by
    rcases hsettles.nullable_or_first with hn | ⟨l, hl⟩
    · exact hn
    · -- A label of the common head would start both branches.
      have hm : m.First table l := by
        refine first_of_head ?_
        rwa [← hhead m (List.mem_cons_of_mem n List.mem_cons_self)]
      have hapart := (List.pairwise_cons.mp h).1 m List.mem_cons_self
      exact absurd ⟨first_of_head hl, hm⟩ (hapart.1 l)
  rw [List.pairwise_map]
  refine h.imp_of_mem (fun {a b} ha hb hab => ?_)
  have hpassed : ∀ x ∈ n :: m :: ms, x.head.Nullable table := by
    intro x hx
    rwa [← hhead x hx]
  exact hab.of_startsAmong (startsAmong_remainder (hpassed a ha))
    (startsAmong_remainder (hpassed b hb))

section

variable (hrules : ∀ name ∈ table.targets, (Node.rule name).Settles table)
include hrules

/-- **A group without defects joins into a branch without defects**, if
that is true of what is left of its members. -/
theorem ofGroup_clear {self : List Node → Except Defect Node} {g : Group} {b : Node}
    (hself : ∀ {bodies : List Node} {m : Node}, bodies ≠ [] → (∀ n ∈ bodies, n.Spliced) →
      (∀ n ∈ bodies, n.Clear table) → bodies.Pairwise (Apart table) → self bodies = .ok m →
      m.Clear table)
    (hs : ∀ n ∈ members g, n.Spliced) (hg : Shared g) (hc : ∀ n ∈ members g, n.Clear table)
    (hp : (members g).Pairwise (Apart table)) (h : ofGroup self g = .ok b) : b.Clear table := by
  obtain ⟨n, ms⟩ := g
  cases ms with
  | nil =>
    obtain rfl := Except.ok.inj h
    exact hc n List.mem_cons_self
  | cons m ms =>
    obtain ⟨tail, htail, h⟩ := Outcome.bind_eq_ok.mp h
    obtain rfl := Except.ok.inj h
    have hn : n.Spliced := hs n List.mem_cons_self
    have hhead : ∀ x ∈ n :: m :: ms, n.head = x.head := by
      intro x hx
      rcases List.mem_cons.mp hx with rfl | hx'
      · rfl
      · exact hn.head_eq (hs x hx) (hg x hx')
    have hheadClear : n.head.Clear table := by
      refine (hc n List.mem_cons_self).of_part ?_
      cases n with
      | seq h' t => exact head_mem_parts h' t
      | lone h' => exact lone_mem_parts h'
      | _ => exact mem_parts_self _
    have hremainder : ∀ x ∈ n :: m :: ms, (remainder x).Clear table := by
      intro x hx
      have hx := hc x hx
      cases x with
      | seq h' t => exact hx.of_part (tail_mem_parts h' t)
      | _ => exact clear_empty
    have htailClear : tail.Clear table :=
      hself (List.cons_ne_nil _ _) (List.forall_mem_map.mpr fun x hx => spliced_remainder (hs x hx))
        (List.forall_mem_map.mpr hremainder)
        (pairwise_apart_remainder (hheadClear.settles hrules) hhead hp) htail
    refine clear_sequence (fun e he => ?_)
    rcases List.mem_cons.mp he with rfl | he
    · exact hheadClear
    · obtain rfl := List.mem_singleton.mp he
      exact htailClear

omit hrules in
/-- The branches of bodies without defects that are apart are apart. -/
theorem pairwise_apart_flatten {bodies : List Node} (hc : ∀ n ∈ bodies, n.Clear table)
    (hp : bodies.Pairwise (Apart table)) :
    (bodies.flatMap Node.branches).Pairwise (Apart table) := by
  refine List.pairwise_flatMap.mpr ⟨fun n hn => (hc n hn).pairwise_apart, hp.imp ?_⟩
  intro a b hab x hx y hy
  exact hab.of_startsAmong (startsAmong_singleton (words_subset_of_mem_branches hx))
    (startsAmong_singleton (words_subset_of_mem_branches hy))

/-- **Joining bodies without defects that are apart makes no defects.** -/
theorem joinWithin_clear {rule : String} {k : Nat} {bodies : List Node} {m : Node}
    (hne : bodies ≠ []) (hs : ∀ n ∈ bodies, n.Spliced) (hc : ∀ n ∈ bodies, n.Clear table)
    (hp : bodies.Pairwise (Apart table)) (h : joinWithin rule k bodies = .ok m) :
    m.Clear table := by
  induction k generalizing bodies m with
  | zero =>
    obtain ⟨flat, hflat, h⟩ := Outcome.bind_eq_ok.mp h
    obtain ⟨rfl, -⟩ := flatten_eq_ok.mp hflat
    obtain rfl := Except.ok.inj h
    refine clear_alternative (fun b hb => ?_) (pairwise_apart_flatten hc hp)
    obtain ⟨n, hn, hb⟩ := List.mem_flatMap.mp hb
    exact (hc n hn).of_part (mem_parts_of_mem_branches hb)
  | succ k ih =>
    obtain ⟨-, joined, rfl, hrun⟩ := joinWithin_succ_eq_ok h
    have hflatApart := pairwise_apart_flatten hc hp
    set flat := bodies.flatMap Node.branches
    have hmember : ∀ b ∈ flat, b.Spliced ∧ b.Clear table := by
      intro b hb
      obtain ⟨n, hn, hb⟩ := List.mem_flatMap.mp hb
      exact ⟨(hs n hn).of_mem_branches hb, (hc n hn).of_part (mem_parts_of_mem_branches hb)⟩
    -- The members of the groups are the branches in another order, so they
    -- are apart within a group and from group to group.
    obtain ⟨hwithin, hacross⟩ := List.pairwise_flatMap.mp
      ((members_groups_perm flat).symm.pairwise hflatApart (fun h => symm h))
    have hall : List.Forall₂ (fun g b => Joins (members g) b ∧ b.Clear table)
        (groups flat) joined := by
      refine hrun.imp (fun g b hgb => ?_)
      have hspliced := fun n hn => (hmember n (hgb.subset hn)).1
      have hclear := fun n hn => (hmember n (hgb.subset hn)).2
      exact ⟨ofGroup_joins joinWithin_joins hspliced hgb.shared hgb.run,
        ofGroup_clear hrules ih hspliced hgb.shared hclear (hwithin g hgb.mem) hgb.run⟩
    refine clear_alternative (fun b hb => ?_) (Outcome.pairwise_of_forall₂ hall hacross ?_)
    · obtain ⟨g, -, hgb⟩ := Outcome.exists_of_mem_right hall hb
      exact hgb.2
    · intro g g' b b' hgb hgb' happart
      exact (startsAmong_of_words hgb.1.words.subset).apart
        (startsAmong_of_words hgb'.1.words.subset) happart

/-- Branches without defects that are apart make up a body without
defects. -/
theorem close_clear {rule : String} {n m : Node} {bs : List Node} (hs : Splits n bs)
    (hc : ∀ b ∈ bs, b.Clear table) (hp : bs.Pairwise (Apart table))
    (h : close rule n bs = .ok m) : m.Clear table := by
  unfold close at h
  split at h
  · exact joinWithin_clear hrules hs.ne_nil hs.spliced hc hp h
  · obtain rfl := Except.ok.inj h
    exact clear_alternative hc hp

omit hrules in
/-- A branch that a body comes apart into starts as the body does. -/
theorem Splits.startsAmong {n b : Node} {bs : List Node} (hs : Splits n bs) (hb : b ∈ bs) :
    b.StartsAmong table [n] :=
  startsAmong_singleton (fun _ hw => hs.words.subset (List.mem_flatMap.mpr ⟨b, hb, hw⟩))

/-- **A body without defects comes apart into branches without defects
that are apart.** -/
theorem branches_clear {rule : String} {n : Node} {bs : List Node} (hn : n.Clear table)
    (h : branches rule n = .ok bs) :
    (∀ b ∈ bs, b.Clear table) ∧ bs.Pairwise (Apart table) := by
  induction n generalizing bs with
  | alt l r hl hr =>
    obtain ⟨ls, hls, h⟩ := Outcome.bind_eq_ok.mp h
    obtain ⟨rs, hrs, h⟩ := Outcome.bind_eq_ok.mp h
    obtain rfl := Except.ok.inj h
    obtain ⟨hlc, hlp⟩ := hl (hn.of_part (left_mem_parts l r)) hls
    obtain ⟨hrc, hrp⟩ := hr (hn.of_part (right_mem_parts l r)) hrs
    have hapart := (pairwise_apart_alt.mp hn.pairwise_apart).2.2
    refine ⟨fun b hb => (List.mem_append.mp hb).elim (hlc b) (hrc b),
      List.pairwise_append.mpr ⟨hlp, hrp, fun a ha b hb => ?_⟩⟩
    exact hapart.of_startsAmong ((branches_splits hls).startsAmong ha)
      ((branches_splits hrs).startsAmong hb)
  | seq h' t hh ht =>
    obtain ⟨hs, hhs, h⟩ := Outcome.bind_eq_ok.mp h
    obtain ⟨head, hhead, h⟩ := Outcome.bind_eq_ok.mp h
    obtain ⟨ts, hts, h⟩ := Outcome.bind_eq_ok.mp h
    obtain ⟨tail, htail, h⟩ := Outcome.bind_eq_ok.mp h
    obtain rfl := Except.ok.inj h
    obtain ⟨hhc, hhp⟩ := hh (hn.of_part (head_mem_parts h' t)) hhs
    obtain ⟨htc, htp⟩ := ht (hn.of_part (tail_mem_parts h' t)) hts
    have hheadClear := close_clear hrules (branches_splits hhs) hhc hhp hhead
    have htailClear := close_clear hrules (branches_splits hts) htc htp htail
    refine ⟨List.forall_mem_singleton.mpr (clear_sequence ?_), List.pairwise_singleton _ _⟩
    exact List.forall_mem_cons.mpr ⟨hheadClear, List.forall_mem_singleton.mpr htailClear⟩
  | lone h' hh =>
    obtain ⟨hs, hhs, h⟩ := Outcome.bind_eq_ok.mp h
    obtain ⟨head, hhead, h⟩ := Outcome.bind_eq_ok.mp h
    obtain rfl := Except.ok.inj h
    obtain ⟨hhc, hhp⟩ := hh (hn.of_part (lone_mem_parts h')) hhs
    have hheadClear := close_clear hrules (branches_splits hhs) hhc hhp hhead
    refine ⟨List.forall_mem_singleton.mpr (clear_sequence ?_), List.pairwise_singleton _ _⟩
    exact List.forall_mem_cons.mpr ⟨hheadClear, List.forall_mem_singleton.mpr clear_empty⟩
  | _ =>
    obtain rfl := Except.ok.inj h
    exact ⟨List.forall_mem_singleton.mpr hn, List.pairwise_singleton _ _⟩

/-- **Factoring a body without defects makes none.** -/
theorem node_clear {rule : String} {n m : Node} (hn : n.Clear table)
    (h : node rule n = .ok m) : m.Clear table := by
  obtain ⟨bs, hbs, h⟩ := Outcome.bind_eq_ok.mp h
  obtain ⟨hc, hp⟩ := branches_clear hrules hn hbs
  exact close_clear hrules (branches_splits hbs) hc hp h

end

end Factor

/-- **Sets are determined by what they answer**, if they are of the same
names and no name is there twice. -/
theorem FirstSets.ext_get? {a b : FirstSets} (hnames : a.sets.map Prod.fst = b.sets.map Prod.fst)
    (hnodup : (a.sets.map Prod.fst).Nodup)
    (h : ∀ name ∈ a.sets.map Prod.fst, a.get? name = b.get? name) : a = b := by
  obtain ⟨as⟩ := a
  obtain ⟨bs⟩ := b
  refine congrArg FirstSets.mk ?_
  unfold FirstSets.get? at h
  dsimp only at hnames hnodup h
  induction as generalizing bs with
  | nil => exact (List.map_eq_nil_iff.mp hnames.symm).symm
  | cons p as ih =>
    obtain ⟨name, s⟩ := p
    obtain ⟨⟨name', s'⟩, bs, rfl, hname, hrest⟩ := List.map_eq_cons_iff.mp hnames.symm
    obtain rfl : name' = name := hname
    obtain ⟨hnotMem, hnodup⟩ := List.nodup_cons.mp hnodup
    have hs := h name' List.mem_cons_self
    rw [List.lookup_cons_self, List.lookup_cons_self] at hs
    obtain rfl := Option.some.inj hs
    refine congrArg ((name', s) :: ·) (ih hnodup bs hrest.symm (fun other hother => ?_))
    have hother' := h other (List.mem_cons_of_mem name' hother)
    have hne : other ≠ name' := fun heq => hnotMem (heq ▸ hother)
    rwa [List.lookup_cons, List.lookup_cons, beq_false_of_ne hne] at hother'

namespace RuleTable

variable {table result : RuleTable}

/-- **A table and its factored form cover each other.** -/
theorem covers_factored (h : table.factored = .ok result) :
    result.Covers table ∧ table.Covers result := by
  refine ⟨fun hr => ?_, fun hm => ?_⟩
  · obtain ⟨m, hm, hfactored⟩ := RuleTable.exists_get?_factored h hr
    exact ⟨m, hm, fun w hw => (Rule.mem_words_factored hfactored).mpr hw⟩
  · obtain ⟨r, hr, hfactored⟩ := get?_factored h hm
    exact ⟨r, hr, fun w hw => (Rule.mem_words_factored hfactored).mp hw⟩

/-- **A table that FIRST sets can be computed for stays one when it is
factored.** -/
theorem WellFormed.factored (hw : table.WellFormed) (h : table.factored = .ok result) :
    result.WellFormed := by
  obtain ⟨hcover, hcovered⟩ := covers_factored h
  obtain ⟨sets, hsets⟩ := firstSets_ok_iff.mpr hw
  have hclear : ∀ m ∈ result.rules, m.body.Clear table := by
    intro m hm
    obtain ⟨r, hr, hfactored⟩ := Outcome.exists_of_mem_right (forall₂_factored h) hm
    exact Factor.node_clear (settles_rules hsets) (hw.clear hr)
      (Rule.factored_eq_ok.mp hfactored).2
  refine ⟨fun m hm name hname => ?_, fun name hcycle => ?_, fun m hm n hn hchoice => ?_⟩
  · obtain ⟨r, hr⟩ := (hclear m hm).defined name hname
    obtain ⟨target, htarget, -⟩ := hcover hr
    exact ⟨target, htarget⟩
  · exact hw.noLeftRecursion name
      (Relation.TransGen.mono (fun _ _ hl => Leads.cover hcovered hl) name name hcycle)
  · exact ((hclear m hm).apart n hn hchoice).imp (fun hab => hab.of_cover hcovered)

/-- A set that is right about a body by the rules of the factored table is
right about it by the rules as written. -/
theorem describes_factored (h : table.factored = .ok result) {s : FirstSet} {n : Node}
    (hs : s.Describes result n) : s.Describes table n := by
  obtain ⟨hcover, hcovered⟩ := covers_factored h
  exact ⟨fun l => (hs.mem_labels l).trans ⟨.cover hcovered, .cover hcover⟩,
    hs.nullable_iff.trans ⟨.cover hcovered, .cover hcover⟩⟩

/-- **Factoring does not show in FIRST sets.** A table that has FIRST sets
has the very same ones when it is factored; and whenever the factored table
has FIRST sets, they are one for each rule, with exactly the labels that can
start the rule as written, and they say whether the rule as written can be
passed. -/
theorem firstSets_factored (h : table.factored = .ok result) :
    (∀ sets, table.firstSets = .ok sets → result.firstSets = .ok sets)
      ∧ ∀ sets, result.firstSets = .ok sets →
        sets.sets.map Prod.fst = table.targets
          ∧ ∀ name ∈ table.targets, ∃ s, sets.get? name = some s
            ∧ (∀ l, l ∈ s.labels ↔ (Node.rule name).First table l)
            ∧ (s.nullable = true ↔ (Node.rule name).Nullable table) := by
  have hright : ∀ sets, result.firstSets = .ok sets →
      sets.sets.map Prod.fst = table.targets
        ∧ ∀ name ∈ table.targets, ∃ s, sets.get? name = some s
          ∧ s.Describes table (.rule name) := by
    intro sets hsets
    obtain ⟨hnames, hall⟩ := resolved_of_firstSets hsets
    rw [targets_factored h] at hnames hall
    refine ⟨hnames, fun name hname => ?_⟩
    obtain ⟨-, s, hs, hdescribes⟩ := hall name hname
    exact ⟨s, hs, describes_factored h hdescribes⟩
  constructor
  · intro sets hsets
    obtain ⟨sets', hsets'⟩ :=
      firstSets_ok_iff.mpr ((wellFormed_of_firstSets hsets).factored h)
    obtain ⟨hnames, hall⟩ := resolved_of_firstSets hsets
    obtain ⟨hnames', hall'⟩ := hright sets' hsets'
    have heq : sets' = sets := by
      refine FirstSets.ext_get? (hnames'.trans hnames.symm) (hnames' ▸ table.nodup) ?_
      intro name hname
      rw [hnames'] at hname
      obtain ⟨-, s, hs, hdescribes⟩ := hall name hname
      obtain ⟨s', hs', hdescribes'⟩ := hall' name hname
      rw [hs, hs', hdescribes.unique hdescribes']
    rw [hsets', heq]
  · intro sets hsets
    obtain ⟨hnames, hall⟩ := hright sets hsets
    refine ⟨hnames, fun name hname => ?_⟩
    obtain ⟨s, hs, hdescribes⟩ := hall name hname
    exact ⟨s, hs, hdescribes.mem_labels, hdescribes.nullable_iff⟩

/-- Two branches that skip to the same token before they go on. They are
apart although they share a step. -/
def skipped : RuleTable where
  rules :=
    [⟨"line", .alt (.seq (.directive ⟨.recover, [.string ";"]⟩) (.literal ";"))
      (.alt (.seq (.directive ⟨.recover, [.string ";"]⟩) (.rule "end")) .empty)⟩,
      ⟨"end", .literal "."⟩]
  nodup := by decide

/-- Two branches that begin with the same literal. -/
def sharing : RuleTable where
  rules := [⟨"pair", .alt (.seq (.literal "(") (.literal ")"))
    (.seq (.literal "(") (.rule "pair"))⟩]
  nodup := by decide

/-- The step that two branches share is taken out of `skipped`, whose sets
stay the same, and out of `sharing`, which has sets only then. -/
theorem firstSets_factored_shared :
    (∃ sets result, skipped.firstSets = .ok sets ∧ skipped.factored = .ok result
        ∧ result.render
          = "line ::= recover(\";\") (\";\" | end) | <empty> ;\nend ::= \".\" ;\n"
        ∧ result.firstSets = .ok sets)
      ∧ ∃ sets result, sharing.firstSets.toOption = none ∧ sharing.factored = .ok result
        ∧ result.firstSets = .ok sets
        ∧ ∀ l, (Node.rule "pair").First sharing l ↔ l = .literal "(" := by
  constructor
  · have hrun : (do
        let _ ← skipped.firstSets.toOption
        let result ← skipped.factored.toOption
        some result.render)
          = some "line ::= recover(\";\") (\";\" | end) | <empty> ;\nend ::= \".\" ;\n" := by
      decide +kernel
    obtain ⟨sets, hsets, hrun⟩ := Option.bind_eq_some_iff.mp hrun
    obtain ⟨result, hresult, hrun⟩ := Option.bind_eq_some_iff.mp hrun
    rw [Outcome.toOption_eq_some] at hsets hresult
    exact ⟨sets, result, hsets, hresult, Option.some.inj hrun,
      (firstSets_factored hresult).1 sets hsets⟩
  · have hrun : (do
        let result ← sharing.factored.toOption
        let sets ← result.firstSets.toOption
        (sets.get? "pair").map FirstSet.labels) = some [.literal "("] := by
      decide +kernel
    obtain ⟨result, hresult, hrun⟩ := Option.bind_eq_some_iff.mp hrun
    obtain ⟨sets, hsets, hrun⟩ := Option.bind_eq_some_iff.mp hrun
    obtain ⟨s, hs, hlabels⟩ := Option.map_eq_some_iff.mp hrun
    rw [Outcome.toOption_eq_some] at hsets hresult
    obtain ⟨s', hs', hmem, -⟩ := ((firstSets_factored hresult).2 sets hsets).2 "pair" (by decide)
    obtain rfl := Option.some.inj (hs.symm.trans hs')
    refine ⟨sets, result, by decide +kernel, hresult, hsets, fun l => ?_⟩
    rw [← hmem, hlabels, List.mem_singleton]

end RuleTable

end Descent
