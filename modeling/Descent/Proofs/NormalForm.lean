import Descent.Proofs.Factoring
import Descent.Proofs.Parts

/-!
# Left-factored normal form

Factoring promises a form and not only a meaning. Wherever a choice
stands in a factored body, **no two of its branches begin with the same
step**; and trees are as plain as they can be: sequences and choices lean
to the right, a sequence has a tail and does not begin with a sequence,
and the empty body stands only where it says something, as the last
branch of a choice or as the whole (`Node.Normal`).

While branches are grouped, each is compared with the first member of
every group only. That is enough, because a group becomes a branch that
begins as its first member does. First members stand in the order of the
branches, and one that shares its step with an earlier one would have
been placed with it (`Factor.pairwise_fst_groups`).

A body in normal form is left alone: its branches make groups of one, in
their order, and its sequences are spliced already
(`Factor.node_of_normal`). With the first fact this makes factoring
idempotent, for rules and for tables (`RuleTable.factored_factored`).
-/

namespace Descent

namespace Node

/-! ## The form -/

/-- **A branch that may stand before another**: it is not empty, and
neither of the two begins with the first step of the other. -/
def MayPrecede (a b : Node) : Prop :=
  a ≠ .empty ∧ a.sharesHead b = false ∧ b.sharesHead a = false

instance (a b : Node) : Decidable (MayPrecede a b) :=
  inferInstanceAs (Decidable (_ ∧ _))

/-- **What normal form asks of a body where it stands**, not looking into
its parts. A sequence has a tail, its head is no sequence, and neither of
them is empty. A choice has no choice on its left, and each of its
branches may stand before those that come after it; so of these only the
last can be empty. -/
def Tidy : Node → Prop
  | .seq h t => h.isSequence = false ∧ h ≠ .empty ∧ t ≠ .empty
  | .lone _ => False
  | .alt l r => l.isChoice = false ∧ (Node.alt l r).branches.Pairwise MayPrecede
  | _ => True

instance : DecidablePred Tidy
  | .seq _ _ => inferInstanceAs (Decidable (_ ∧ _))
  | .lone _ => inferInstanceAs (Decidable False)
  | .alt _ _ => inferInstanceAs (Decidable (_ ∧ _))
  | .literal _ | .reserved _ | .rule _ | .directive _ | .action _ | .empty =>
    inferInstanceAs (Decidable True)

/-- **Left-factored normal form**: a body that is tidy in all its parts. -/
def Normal (n : Node) : Prop := ∀ m ∈ n.parts, m.Tidy

instance : DecidablePred Normal :=
  fun n => inferInstanceAs (Decidable (∀ m ∈ n.parts, m.Tidy))

theorem Normal.of_part {n m : Node} (h : n.Normal) (hm : m ∈ n.parts) : m.Normal :=
  fun k hk => h k (parts_trans hm hk)

theorem normal_seq {h t : Node} :
    (seq h t).Normal ↔ (seq h t).Tidy ∧ h.Normal ∧ t.Normal := by
  show (∀ m ∈ seq h t :: (h.parts ++ t.parts), m.Tidy) ↔ _
  rw [List.forall_mem_cons, List.forall_mem_append]
  rfl

theorem normal_alt {l r : Node} :
    (alt l r).Normal ↔ (alt l r).Tidy ∧ l.Normal ∧ r.Normal := by
  show (∀ m ∈ alt l r :: (l.parts ++ r.parts), m.Tidy) ↔ _
  rw [List.forall_mem_cons, List.forall_mem_append]
  rfl

theorem not_normal_lone {h : Node} : ¬ (lone h).Normal :=
  fun hn => hn _ (mem_parts_self _)

theorem normal_empty : Node.empty.Normal := by
  intro m hm
  rw [List.mem_singleton.mp hm]
  trivial

/-- A body in normal form begins no sequence with a sequence. -/
theorem Normal.spliced {n : Node} (hn : n.Normal) : n.Spliced := by
  induction n with
  | seq h t hh ht =>
    obtain ⟨htidy, hhn, htn⟩ := normal_seq.mp hn
    exact ⟨htidy.1, hh hhn, ht htn⟩
  | lone h => exact not_normal_lone hn
  | alt l r hl hr =>
    obtain ⟨-, hln, hrn⟩ := normal_alt.mp hn
    exact ⟨hl hln, hr hrn⟩
  | _ => trivial

/-- Each branch of a body in normal form may stand before those after it,
be it a choice or not. -/
theorem Normal.pairwise_branches {n : Node} (hn : n.Normal) :
    n.branches.Pairwise MayPrecede := by
  cases n with
  | alt l r => exact (normal_alt.mp hn).1.2
  | _ => exact List.pairwise_singleton _ _

/-- **A body in normal form is the choice between its branches.** -/
theorem Normal.alternative_branches {n : Node} (hn : n.Normal) :
    alternative n.branches = n := by
  induction n with
  | alt l r _ hr =>
    obtain ⟨htidy, -, hrn⟩ := normal_alt.mp hn
    rw [branches_alt, branches_of_not_choice htidy.1]
    obtain ⟨b, bs, hbs⟩ := List.exists_cons_of_ne_nil (branches_ne_nil r)
    rw [hbs]
    show alt l (alternative (b :: bs)) = alt l r
    rw [← hbs, hr hrn]
  | _ => rfl

/-! ## First steps -/

theorem sharesHead_comm (a b : Node) : a.sharesHead b = b.sharesHead a := by
  have h : ∀ {x y : Node}, sameStep x y = true → sameStep y x = true := by
    intro x y hxy
    have heq := eq_of_sameStep hxy
    rw [heq] at hxy ⊢
    exact hxy
  exact Bool.eq_iff_iff.mpr ⟨h, h⟩

/-- The empty body begins with no step that another one might begin
with. -/
theorem lead_ne_empty_of_sharesHead {a b : Node} (h : a.sharesHead b = true) :
    a.lead ≠ .empty := by
  intro hlead
  unfold sharesHead at h
  rw [hlead] at h
  exact nomatch h

/-- **Whether a branch may stand before another is up to how they
begin.** -/
theorem MayPrecede.of_lead {a b a' b' : Node} (h : MayPrecede a b) (hne : a' ≠ .empty)
    (ha : a'.lead = a.lead) (hb : b'.lead = b.lead) : MayPrecede a' b' := by
  unfold MayPrecede sharesHead at h ⊢
  rw [ha, hb]
  exact ⟨hne, h.2⟩

theorem Spliced.isSequence_head {n : Node} (h : n.Spliced) : n.head.isSequence = false := by
  cases n with
  | seq h' t => exact h.1
  | lone h' => exact h.elim
  | _ => rfl

theorem Normal.head {n : Node} (hn : n.Normal) : n.head.Normal := by
  cases n with
  | seq h t => exact (normal_seq.mp hn).2.1
  | lone h => exact (not_normal_lone hn).elim
  | _ => exact hn

/-! ## Sequences and choices in normal form -/

/-- **The choice between bodies in normal form that may stand in this
order is in normal form.** -/
theorem normal_alternative {bs : List Node} (hn : ∀ b ∈ bs, b.Normal)
    (hc : ∀ b ∈ bs, b.isChoice = false) (hp : bs.Pairwise MayPrecede) :
    (alternative bs).Normal := by
  fun_induction alternative bs with
  | case1 => exact normal_empty
  | case2 b => exact hn b (List.mem_singleton_self b)
  | case3 b c bs ih =>
    have hbranches : (alt b (alternative (c :: bs))).branches = b :: c :: bs :=
      branches_alternative (List.cons_ne_nil b _) hc
    refine normal_alt.mpr ⟨⟨hc b List.mem_cons_self, ?_⟩, hn b List.mem_cons_self, ?_⟩
    · rw [hbranches]
      exact hp
    · exact ih (fun x hx => hn x (List.mem_cons_of_mem b hx))
        (fun x hx => hc x (List.mem_cons_of_mem b hx)) (List.pairwise_cons.mp hp).2

theorem normal_chain {es : List Node}
    (h : ∀ e ∈ es, e.isSequence = false ∧ e ≠ .empty ∧ e.Normal) : (chain es).Normal := by
  fun_induction chain es with
  | case1 => exact normal_empty
  | case2 e => exact (h e (List.mem_singleton_self e)).2.2
  | case3 e f es ih =>
    have hrest : ∀ x ∈ f :: es, x.isSequence = false ∧ x ≠ .empty ∧ x.Normal :=
      fun x hx => h x (List.mem_cons_of_mem e hx)
    obtain ⟨hseq, hne, hn⟩ := h e List.mem_cons_self
    have hchain : chain (f :: es) ≠ .empty :=
      chain_ne_empty (fun x hx => (hrest x hx).2.1) (List.cons_ne_nil f es)
    exact normal_seq.mpr ⟨⟨hseq, hne, hchain⟩, hn, ih hrest⟩

/-- No element of a sequence in normal form is empty. -/
theorem Normal.ne_empty_of_mem_elements {n e : Node} (hn : n.Normal) (hne : n ≠ .empty)
    (he : e ∈ n.elements) : e ≠ .empty := by
  induction n with
  | seq h t _ ht =>
    obtain ⟨⟨-, hh, htail⟩, -, htn⟩ := normal_seq.mp hn
    rcases List.mem_cons.mp he with rfl | he
    · exact hh
    · exact ht htn htail he
  | lone h => exact (not_normal_lone hn).elim
  | _ =>
    rw [List.mem_singleton.mp he]
    exact hne

theorem Normal.ne_empty_of_mem_splice {n e : Node} (hn : n.Normal) (he : e ∈ n.splice) :
    e ≠ .empty := by
  cases n with
  | empty => cases he
  | _ => exact hn.ne_empty_of_mem_elements (fun h => nomatch h) he

/-- **The canonical sequence of bodies in normal form is in normal
form.** -/
theorem normal_sequence {es : List Node} (h : ∀ e ∈ es, e.Normal) : (sequence es).Normal := by
  refine normal_chain (fun e he => ?_)
  obtain ⟨n, hn, he⟩ := List.mem_flatMap.mp he
  exact ⟨((h n hn).spliced.of_mem_splice he).1, (h n hn).ne_empty_of_mem_splice he,
    (h n hn).of_part (mem_parts_of_mem_splice he)⟩

theorem Spliced.chain_elements {n : Node} (h : n.Spliced) : chain n.elements = n := by
  induction n with
  | seq h' t _ ht =>
    rw [elements_seq]
    obtain ⟨e, es, hes⟩ : ∃ e es, t.elements = e :: es := by
      cases t with
      | _ => exact ⟨_, _, rfl⟩
    rw [hes]
    show seq h' (chain (e :: es)) = seq h' t
    rw [← hes, ht h.2.2]
  | lone h' => exact h.elim
  | _ => rfl

/-- **The head and the tail of a sequence in normal form need no
splicing.** -/
theorem Normal.sequence_pair {h t : Node} (hn : (seq h t).Normal) :
    sequence [h, t] = seq h t := by
  obtain ⟨hseq, hh, ht⟩ := (normal_seq.mp hn).1
  have hhead : h.splice = [h] := by
    cases h with
    | seq h' t' => cases hseq
    | lone h' => cases hseq
    | empty => exact absurd rfl hh
    | _ => rfl
  have htail : t.splice = t.elements := by
    cases t with
    | empty => exact absurd rfl ht
    | _ => rfl
  show chain (h.splice ++ (t.splice ++ [])) = _
  rw [hhead, htail, List.append_nil]
  exact hn.spliced.chain_elements

/-! ## Heights -/

theorem height_of_mem_branches {n b : Node} (h : b ∈ n.branches) : b.height ≤ n.height := by
  induction n with
  | alt l r hl hr =>
    show b.height ≤ max l.height r.height
    rcases List.mem_append.mp h with h | h
    · exact Nat.le_trans (hl h) (Nat.le_max_left _ _)
    · exact Nat.le_trans (hr h) (Nat.le_max_right _ _)
  | _ => exact Nat.le_of_eq (congrArg height (List.mem_singleton.mp h))

theorem height_le_alternative {bs : List Node} {b : Node} (h : b ∈ bs) :
    b.height ≤ (alternative bs).height := by
  fun_induction alternative bs with
  | case1 => cases h
  | case2 n => exact Nat.le_of_eq (congrArg height (List.mem_singleton.mp h))
  | case3 n m r ih =>
    show b.height ≤ max n.height (alternative (m :: r)).height
    rcases List.mem_cons.mp h with rfl | h
    · exact Nat.le_max_left _ _
    · exact Nat.le_trans (ih h) (Nat.le_max_right _ _)

/-- What takes no step and is no choice is empty. -/
theorem eq_empty_of_height {n : Node} (hc : n.isChoice = false) (h : n.height ≤ 0) :
    n = .empty := by
  cases n with
  | empty => rfl
  | alt l r => cases hc
  | _ => exact absurd h (Nat.not_succ_le_zero _)

end Node

namespace Factor

open Node

/-! ## First members -/

/-- Placing a branch adds no first member, or the branch itself as the last
one; then it begins as none of the others does. -/
theorem map_fst_place (n : Node) (gs : List Group) :
    (place n gs).map Prod.fst = gs.map Prod.fst
      ∨ (place n gs).map Prod.fst = gs.map Prod.fst ++ [n]
        ∧ ∀ a ∈ gs.map Prod.fst, a.sharesHead n = false := by
  induction gs with
  | nil => exact .inr ⟨rfl, nofun⟩
  | cons g gs ih =>
    unfold place
    by_cases hshare : g.1.sharesHead n = true
    · rw [if_pos hshare]
      exact .inl rfl
    · rw [if_neg hshare, List.map_cons, List.map_cons]
      rcases ih with heq | ⟨heq, hall⟩
      · exact .inl (by rw [heq])
      · refine .inr ⟨by rw [heq, List.cons_append], List.forall_mem_cons.mpr ⟨?_, hall⟩⟩
        exact Bool.not_eq_true _ ▸ hshare

/-- **The first members of the groups may stand in their order**, if none
of the branches but the last is empty. -/
theorem pairwise_fst_groups {flat : List Node} (h : flat.Pairwise fun a _ => a ≠ .empty) :
    ((groups flat).map Prod.fst).Pairwise MayPrecede := by
  -- The first members so far and the branches that are left to place are in
  -- the order of the branches.
  have key : ∀ (flat : List Node) (gs : List Group),
      (gs.map Prod.fst ++ flat).Pairwise (fun a _ => a ≠ .empty) →
      (gs.map Prod.fst).Pairwise MayPrecede →
      ((flat.foldl (fun gs n => place n gs) gs).map Prod.fst).Pairwise MayPrecede := by
    intro flat
    induction flat with
    | nil => exact fun gs _ hp => hp
    | cons n flat ih =>
      intro gs hne hp
      rw [List.foldl_cons]
      rcases map_fst_place n gs with heq | ⟨heq, hall⟩
      · refine ih (place n gs) ?_ (heq ▸ hp)
        rw [heq]
        exact hne.sublist ((List.Sublist.refl _).append (List.sublist_cons_self n flat))
      · refine ih (place n gs) ?_ ?_
        · rw [heq, List.append_assoc]
          exact hne
        · rw [heq]
          refine List.pairwise_append.mpr ⟨hp, List.pairwise_singleton _ _, fun a ha b hb => ?_⟩
          obtain rfl := List.mem_singleton.mp hb
          have hab := hall a ha
          exact ⟨(List.pairwise_append.mp hne).2.2 a ha b List.mem_cons_self, hab,
            (sharesHead_comm b a).trans hab⟩
  exact key flat [] h .nil

/-- A branch that begins as no first member does makes a group of its
own. -/
theorem place_of_forall {n : Node} {gs : List Group}
    (h : ∀ g ∈ gs, g.1.sharesHead n = false) : place n gs = gs ++ [(n, [])] := by
  induction gs with
  | nil => rfl
  | cons g gs ih =>
    obtain ⟨hg, hgs⟩ := List.forall_mem_cons.mp h
    unfold place
    rw [if_neg (Bool.not_eq_true _ ▸ hg), ih hgs, List.cons_append]

/-- **Branches that may stand in their order make groups of one.** -/
theorem groups_of_pairwise {flat : List Node} (h : flat.Pairwise MayPrecede) :
    groups flat = flat.map fun n => (n, []) := by
  have key : ∀ (flat before : List Node), (before ++ flat).Pairwise MayPrecede →
      flat.foldl (fun gs n => place n gs) (before.map fun n => (n, []))
        = (before ++ flat).map fun n => (n, []) := by
    intro flat
    induction flat with
    | nil =>
      intro before _
      rw [List.append_nil]
      rfl
    | cons n flat ih =>
      intro before hp
      have hnew : ∀ g ∈ before.map (fun n => ((n, []) : Group)), g.1.sharesHead n = false := by
        refine List.forall_mem_map.mpr (fun a ha => ?_)
        exact ((List.pairwise_append.mp hp).2.2 a ha n List.mem_cons_self).2.1
      have hsplit : before ++ n :: flat = before ++ [n] ++ flat := by
        rw [List.append_assoc, List.singleton_append]
      rw [hsplit] at hp ⊢
      rw [List.foldl_cons, place_of_forall hnew, ← ih (before ++ [n]) hp, List.map_append]
      rfl
  exact key flat [] h

/-! ## Joining -/

/-- **A branch that a group may become.** -/
structure Becomes (g : Group) (b : Node) : Prop where
  normal : b.Normal
  notChoice : b.isChoice = false
  /-- It begins as the first member does. -/
  lead : b.lead = g.1.lead
  /-- It is not empty unless the first member is. -/
  ne_empty : g.1 ≠ .empty → b ≠ .empty

/-- What stands for two bodies or more is not empty, for it has more than
one word. -/
theorem Joins.ne_empty {a b m : Node} {bodies : List Node} (h : Joins (a :: b :: bodies) m) :
    m ≠ .empty := by
  rintro rfl
  have hlength := h.words.length_eq
  have ha := List.length_pos_iff.mpr a.words_ne_nil
  have hb := List.length_pos_iff.mpr b.words_ne_nil
  rw [List.flatMap_cons, List.flatMap_cons, List.length_append, List.length_append] at hlength
  have hone : Node.empty.words.length = 1 := rfl
  omega

theorem normal_remainder {n : Node} (hn : n.Normal) : (remainder n).Normal := by
  cases n with
  | seq h t => exact (normal_seq.mp hn).2.2
  | _ => exact normal_empty

theorem height_remainder {n : Node} {k : Nat} (h : n.height ≤ k + 1) :
    (remainder n).height ≤ k := by
  cases n with
  | seq h' t => exact Nat.le_of_succ_le_succ h
  | _ => exact Nat.zero_le k

/-- **A group becomes one branch in normal form**, if what is left of its
members joins into a body in normal form. -/
theorem ofGroup_becomes {rule : String} {k : Nat} {g : Group} {b : Node}
    (hself : ∀ {bodies : List Node} {m : Node}, (∀ n ∈ bodies, n.Normal ∧ n.height ≤ k) →
      joinWithin rule k bodies = .ok m → m.Normal)
    (hn : ∀ n ∈ members g, n.Normal ∧ n.height ≤ k + 1)
    (hc : ∀ n ∈ members g, n.isChoice = false) (hg : Shared g)
    (h : ofGroup (joinWithin rule k) g = .ok b) : Becomes g b := by
  obtain ⟨n, ms⟩ := g
  have hnn := (hn n List.mem_cons_self).1
  cases ms with
  | nil =>
    obtain rfl := Except.ok.inj h
    exact ⟨hnn, hc n List.mem_cons_self, rfl, id⟩
  | cons m ms =>
    obtain ⟨tail, htail, h⟩ := Outcome.bind_eq_ok.mp h
    obtain rfl := Except.ok.inj h
    have hrest : ∀ x ∈ (n :: m :: ms).map remainder, x.Normal ∧ x.height ≤ k :=
      List.forall_mem_map.mpr fun x hx =>
        ⟨normal_remainder (hn x hx).1, height_remainder (hn x hx).2⟩
    have hjoins : Joins ((n :: m :: ms).map remainder) tail :=
      joinWithin_joins (List.cons_ne_nil _ _) (fun x hx => (hrest x hx).1.spliced) htail
    -- The step that is taken out is shared, so it is a step and not nothing.
    have hlead : n.head = n.lead := hnn.spliced.lead_eq_head.symm
    have hstep : n.head ≠ .empty := by
      rw [hlead]
      exact lead_ne_empty_of_sharesHead (hg m List.mem_cons_self)
    have hnormal : (seq n.head tail).Normal :=
      normal_seq.mpr ⟨⟨hnn.spliced.isSequence_head, hstep, hjoins.ne_empty⟩, hnn.head,
        hself hrest htail⟩
    rw [hnormal.sequence_pair]
    refine ⟨hnormal, rfl, ?_, fun _ => nofun⟩
    show n.head.lead = n.lead
    rw [lead_of_not_isSequence hnn.spliced.isSequence_head, hlead]

/-- What the bodies have in common their branches have, and these are no
choices. -/
theorem normal_of_mem_flatten {k : Nat} {bodies : List Node}
    (hn : ∀ n ∈ bodies, n.Normal ∧ n.height ≤ k) {b : Node}
    (hb : b ∈ bodies.flatMap Node.branches) :
    (b.Normal ∧ b.height ≤ k) ∧ b.isChoice = false := by
  obtain ⟨n, hmem, hb⟩ := List.mem_flatMap.mp hb
  obtain ⟨hnormal, hheight⟩ := hn n hmem
  exact ⟨⟨hnormal.of_part (mem_parts_of_mem_branches hb),
    Nat.le_trans (height_of_mem_branches hb) hheight⟩, isChoice_of_mem_branches hb⟩

/-- **Bodies in normal form join into a body in normal form**, as long as
the bound is not below their heights. -/
theorem joinWithin_normal {rule : String} {k : Nat} {bodies : List Node} {m : Node}
    (hn : ∀ n ∈ bodies, n.Normal ∧ n.height ≤ k) (h : joinWithin rule k bodies = .ok m) :
    m.Normal := by
  induction k generalizing bodies m with
  | zero =>
    obtain ⟨flat, hflat, h⟩ := Outcome.bind_eq_ok.mp h
    obtain ⟨rfl, hlast⟩ := flatten_eq_ok.mp hflat
    obtain rfl := Except.ok.inj h
    have hmem := fun b hb => normal_of_mem_flatten hn (b := b) hb
    refine normal_alternative (fun b hb => (hmem b hb).1.1) (fun b hb => (hmem b hb).2) ?_
    -- All branches are empty, so there is no second one.
    refine hlast.imp_of_mem (fun {a b} ha _ hne => ?_)
    exact absurd (eq_empty_of_height (hmem a ha).2 (hmem a ha).1.2) hne
  | succ k ih =>
    obtain ⟨hlast, joined, rfl, hrun⟩ := joinWithin_succ_eq_ok h
    have hall : List.Forall₂ Becomes (groups (bodies.flatMap Node.branches)) joined := by
      refine hrun.imp (fun g b hgb => ?_)
      have hmem := fun n hmem => normal_of_mem_flatten hn (b := n) (hgb.subset hmem)
      exact ofGroup_becomes ih (fun n hn => (hmem n hn).1) (fun n hn => (hmem n hn).2)
        hgb.shared hgb.run
    have hbecomes : ∀ b ∈ joined, b.Normal ∧ b.isChoice = false := by
      intro b hb
      obtain ⟨g, -, hgb⟩ := Outcome.exists_of_mem_right hall hb
      exact ⟨hgb.normal, hgb.notChoice⟩
    refine normal_alternative (fun b hb => (hbecomes b hb).1) (fun b hb => (hbecomes b hb).2) ?_
    refine Outcome.pairwise_of_forall₂ hall (List.pairwise_map.mp (pairwise_fst_groups hlast)) ?_
    intro g g' b b' hgb hgb' hprecede
    exact hprecede.of_lead (hgb.ne_empty hprecede.1) hgb.lead hgb'.lead

/-! ## Bodies, rules and tables -/

/-- **Branches that a body may come apart into**: each in normal form, and
only one if the body is no choice. -/
structure Arranged (n : Node) (bs : List Node) : Prop where
  normal : ∀ b ∈ bs, b.Normal
  single : n.isChoice = false → ∃ b, bs = [b]

theorem arranged_singleton {n b : Node} (h : b.Normal) : Arranged n [b] :=
  ⟨List.forall_mem_singleton.mpr h, fun _ => ⟨b, rfl⟩⟩

theorem close_normal {rule : String} {n m : Node} {bs : List Node} (hs : Arranged n bs)
    (h : close rule n bs = .ok m) : m.Normal := by
  unfold close at h
  split at h
  · exact joinWithin_normal (fun b hb => ⟨hs.normal b hb, height_le_alternative hb⟩) h
  · next hc =>
    obtain rfl := Except.ok.inj h
    obtain ⟨b, rfl⟩ := hs.single (Bool.not_eq_true _ ▸ hc)
    exact hs.normal b (List.mem_singleton_self b)

/-- **The factored branches of a body are in normal form.** -/
theorem branches_arranged {rule : String} {n : Node} {bs : List Node}
    (h : branches rule n = .ok bs) : Arranged n bs := by
  induction n generalizing bs with
  | alt l r hl hr =>
    obtain ⟨ls, hls, h⟩ := Outcome.bind_eq_ok.mp h
    obtain ⟨rs, hrs, h⟩ := Outcome.bind_eq_ok.mp h
    obtain rfl := Except.ok.inj h
    exact ⟨List.forall_mem_append.mpr ⟨(hl hls).normal, (hr hrs).normal⟩, nofun⟩
  | seq h' t hh ht =>
    obtain ⟨hs, hhs, h⟩ := Outcome.bind_eq_ok.mp h
    obtain ⟨head, hhead, h⟩ := Outcome.bind_eq_ok.mp h
    obtain ⟨ts, hts, h⟩ := Outcome.bind_eq_ok.mp h
    obtain ⟨tail, htail, h⟩ := Outcome.bind_eq_ok.mp h
    obtain rfl := Except.ok.inj h
    refine arranged_singleton (normal_sequence (List.forall_mem_cons.mpr ⟨?_, ?_⟩))
    · exact close_normal (hh hhs) hhead
    · exact List.forall_mem_singleton.mpr (close_normal (ht hts) htail)
  | lone h' hh =>
    obtain ⟨hs, hhs, h⟩ := Outcome.bind_eq_ok.mp h
    obtain ⟨head, hhead, h⟩ := Outcome.bind_eq_ok.mp h
    obtain rfl := Except.ok.inj h
    refine arranged_singleton (normal_sequence (List.forall_mem_cons.mpr ⟨?_, ?_⟩))
    · exact close_normal (hh hhs) hhead
    · exact List.forall_mem_singleton.mpr normal_empty
  | _ =>
    obtain rfl := Except.ok.inj h
    refine arranged_singleton (fun m hm => ?_)
    rw [List.mem_singleton.mp hm]
    trivial

/-- **A factored body is in normal form.** -/
theorem node_normal {rule : String} {n m : Node} (h : node rule n = .ok m) : m.Normal := by
  obtain ⟨bs, hbs, h⟩ := Outcome.bind_eq_ok.mp h
  exact close_normal (branches_arranged hbs) h

/-- **Branches that may stand in their order are joined as they are**,
whatever the bound. -/
theorem joinWithin_of_pairwise {rule : String} {bs : List Node} (k : Nat)
    (hc : ∀ b ∈ bs, b.isChoice = false) (hp : bs.Pairwise MayPrecede) :
    joinWithin rule k bs = .ok (alternative bs) := by
  have hflat : flatten rule bs = .ok bs := by
    refine flatten_eq_ok.mpr ⟨?_, hp.imp fun h => h.1⟩
    rw [List.flatMap_congr fun b hb => branches_of_not_choice (hc b hb)]
    exact (List.flatMap_singleton' bs).symm
  cases k with
  | zero => exact Outcome.bind_eq_ok.mpr ⟨bs, hflat, rfl⟩
  | succ k =>
    have hgroups : (groups bs).mapM (ofGroup (joinWithin rule k)) = .ok bs := by
      rw [groups_of_pairwise hp, Outcome.mapM_eq_ok, List.forall₂_map_left_iff, List.forall₂_same]
      exact fun _ _ => rfl
    exact Outcome.bind_eq_ok.mpr ⟨bs, hflat, Outcome.bind_eq_ok.mpr ⟨bs, hgroups, rfl⟩⟩

theorem close_of_normal {n : Node} (rule : String) (hn : n.Normal) :
    close rule n n.branches = .ok n := by
  unfold close
  split
  · show joinWithin rule _ n.branches = .ok n
    rw [joinWithin_of_pairwise _ (fun b hb => isChoice_of_mem_branches hb)
      hn.pairwise_branches, hn.alternative_branches]
  · rw [hn.alternative_branches]

theorem branches_of_normal {n : Node} (rule : String) (hn : n.Normal) :
    branches rule n = .ok n.branches := by
  induction n with
  | alt l r hl hr =>
    obtain ⟨-, hln, hrn⟩ := normal_alt.mp hn
    refine Outcome.bind_eq_ok.mpr ⟨_, hl hln, Outcome.bind_eq_ok.mpr ⟨_, hr hrn, rfl⟩⟩
  | seq h t hh ht =>
    obtain ⟨-, hhn, htn⟩ := normal_seq.mp hn
    refine Outcome.bind_eq_ok.mpr ⟨_, hh hhn, ?_⟩
    refine Outcome.bind_eq_ok.mpr ⟨h, close_of_normal rule hhn, ?_⟩
    refine Outcome.bind_eq_ok.mpr ⟨_, ht htn, ?_⟩
    refine Outcome.bind_eq_ok.mpr ⟨t, close_of_normal rule htn, ?_⟩
    rw [hn.sequence_pair]
    rfl
  | lone h => exact (not_normal_lone hn).elim
  | _ => rfl

/-- **A body in normal form is left alone.** -/
theorem node_of_normal {n : Node} (rule : String) (hn : n.Normal) : node rule n = .ok n :=
  Outcome.bind_eq_ok.mpr ⟨_, branches_of_normal rule hn, close_of_normal rule hn⟩

end Factor

/-- **A factored rule is in normal form.** However the rule is written,
nowhere in the factored body do two branches of a choice begin with the
same step, only the last branch of a choice or the body as a whole is
empty, every sequence has a tail and a head that is no sequence, and no
choice has a choice on its left. -/
theorem Rule.normal_factored {r m : Rule} (h : r.factored = .ok m) : m.body.Normal :=
  Factor.node_normal (Rule.factored_eq_ok.mp h).2

/-- The rule that is untidy as written is in normal form when it is
factored. -/
theorem Rule.normal_factored_untidy :
    ¬ Rule.untidy.body.Normal
      ∧ ∃ m : Rule, Rule.untidy.factored = .ok m ∧ m.body.Normal :=
  ⟨by decide +kernel, _, rfl, Rule.normal_factored (r := Rule.untidy) rfl⟩

theorem Rule.factored_of_normal {r : Rule} (h : r.body.Normal) : r.factored = .ok r :=
  Rule.factored_eq_ok.mpr ⟨rfl, Factor.node_of_normal r.target h⟩

namespace RuleTable

/-- **A table of rules in normal form is left alone.** -/
theorem factored_of_normal {table : RuleTable} (h : ∀ r ∈ table.rules, r.body.Normal) :
    table.factored = .ok table := by
  have key : ∀ (rs : List Rule) (acc : RuleTable),
      ((acc.rules ++ rs).map Rule.target).Nodup → (∀ r ∈ rs, r.body.Normal) →
        ∃ result, rs.foldlM (fun t r => do t.push (← r.factored)) acc = .ok result
          ∧ result.rules = acc.rules ++ rs := by
    intro rs
    induction rs with
    | nil => exact fun acc _ _ => ⟨acc, rfl, (List.append_nil _).symm⟩
    | cons r rs ih =>
      intro acc hnodup hnormal
      obtain ⟨hr, hrs⟩ := List.forall_mem_cons.mp hnormal
      obtain ⟨t, hpush, hrules, hrest⟩ := push_of_nodup hnodup
      obtain ⟨result, hresult, heq⟩ := ih t hrest hrs
      refine ⟨result, ?_, ?_⟩
      · rw [List.foldlM_cons, Rule.factored_of_normal hr]
        exact Outcome.bind_eq_ok.mpr ⟨t, hpush, hresult⟩
      · rw [heq, hrules, List.append_assoc, List.singleton_append]
  obtain ⟨result, hresult, hrules⟩ := key table.rules .empty table.nodup h
  exact hresult.trans (congrArg Except.ok (eq_of_rules_eq hrules))

/-- **Factoring is idempotent.** A rule that was factored is not changed by
factoring it again, and neither is a table. -/
theorem factored_factored :
    (∀ r m : Rule, r.factored = .ok m → m.factored = .ok m)
      ∧ ∀ table result : RuleTable, table.factored = .ok result →
        result.factored = .ok result := by
  constructor
  · intro r m h
    exact Rule.factored_of_normal (Factor.node_normal (Rule.factored_eq_ok.mp h).2)
  · intro table result h
    refine factored_of_normal (fun m hm => ?_)
    obtain ⟨r, -, hr⟩ := Outcome.exists_of_mem_right (forall₂_factored h) hm
    exact Factor.node_normal (Rule.factored_eq_ok.mp hr).2

/-- Two rules that share more than they seem to: a branch of the first one
begins with a choice that is to be factored itself, and the second one has
choices as heads, one of which is opened as a branch of its own. -/
def sharingInside : RuleTable where
  rules :=
    [⟨"r", .alt
        (.seq (.alt (.seq (.literal "a") (.literal "b")) (.seq (.literal "a") (.literal "c")))
          (.literal "x"))
        (.alt (.seq (.literal "a") (.literal "d")) (.literal "a"))⟩,
      ⟨"s", .alt
        (.alt (.seq (.alt (.literal "x") (.literal "y")) (.rule "r"))
          (.seq (.alt (.literal "x") (.literal "y")) (.action (.atom .number "1"))))
        (.lone (.alt (.literal "x") .empty))⟩]
  nodup := by decide

/-- Factoring these rules changes them, and factoring them again does
not. -/
theorem factored_factored_inside :
    ∃ result, sharingInside.factored = .ok result
      ∧ result.render = "r ::= \"a\" ((\"b\" | \"c\") \"x\" | \"d\" | <empty>) ;\n"
        ++ "s ::= (\"x\" | \"y\") (r | \x7b 1 \x7d) | \"x\" | <empty> ;\n"
      ∧ result.factored = .ok result := by
  have hrun : sharingInside.factored.toOption.map render
      = some ("r ::= \"a\" ((\"b\" | \"c\") \"x\" | \"d\" | <empty>) ;\n"
        ++ "s ::= (\"x\" | \"y\") (r | \x7b 1 \x7d) | \"x\" | <empty> ;\n") := by
    decide +kernel
  obtain ⟨result, hresult, hrender⟩ := Option.map_eq_some_iff.mp hrun
  rw [Outcome.toOption_eq_some] at hresult
  exact ⟨result, hresult, hrender, factored_factored.2 _ _ hresult⟩

end RuleTable

end Descent
