import Descent.Grammar.Factor
import Descent.Proofs.Outcome
import Descent.Proofs.Words

/-!
# Left factoring keeps the words

Factoring takes the common first step of several branches out in front
of them. On words that is distributivity read backwards, so no word is
lost, none is added and none changes how often it occurs; only the order
changes (`Factor.node_joins`).

The branches of a group are joined behind the head of *one* of them. That
is right only if the heads of all of them are equal, and agreeing on the
first step is not enough for it: a sequence that begins with a sequence
agrees with any body that begins with the same step, however different
their heads are. What saves it is that branches are factored inside
before they are grouped, and **a factored body never begins a sequence
with a sequence** (`Node.Spliced`).
-/

namespace Descent

namespace Node

/-- Whether this is a sequence, be it of a single element. -/
def isSequence : Node → Bool
  | .seq _ _ | .lone _ => true
  | _ => false

/-- **No sequence begins with a sequence, and none is of a single
element**, anywhere in the body. -/
def Spliced : Node → Prop
  | .seq h t => h.isSequence = false ∧ h.Spliced ∧ t.Spliced
  | .lone _ => False
  | .alt l r => l.Spliced ∧ r.Spliced
  | _ => True

/-! ## Heads of spliced bodies -/

/-- Elements that are one and the same step are equal. -/
theorem eq_of_sameStep {a b : Node} (h : sameStep a b = true) : a = b := by
  unfold sameStep at h
  split at h
  · exact congrArg literal (beq_iff_eq.mp h)
  · exact congrArg reserved (beq_iff_eq.mp h)
  · exact congrArg rule (beq_iff_eq.mp h)
  · exact congrArg directive (beq_iff_eq.mp h)
  · rw [Bool.and_eq_true, beq_iff_eq, beq_iff_eq] at h
    rw [h.1, h.2]
  · cases h

theorem lead_of_not_isSequence {n : Node} (h : n.isSequence = false) : n.lead = n := by
  cases n with
  | seq h' t => cases h
  | lone h' => cases h
  | _ => rfl

/-- The first step of a spliced body is its head. -/
theorem Spliced.lead_eq_head {n : Node} (h : n.Spliced) : n.lead = n.head := by
  cases n with
  | seq h' t => exact lead_of_not_isSequence h.1
  | lone h' => exact h.elim
  | _ => rfl

/-- **Spliced bodies that begin with the same step have the same head.** -/
theorem Spliced.head_eq {a b : Node} (ha : a.Spliced) (hb : b.Spliced)
    (h : a.sharesHead b = true) : a.head = b.head := by
  rw [← ha.lead_eq_head, ← hb.lead_eq_head]
  exact eq_of_sameStep h

theorem Spliced.head {n : Node} (h : n.Spliced) : n.head.Spliced := by
  cases n with
  | seq h' t => exact h.2.1
  | lone h' => exact h.elim
  | _ => exact h

theorem Spliced.of_mem_branches {n b : Node} (h : n.Spliced) (hb : b ∈ n.branches) :
    b.Spliced := by
  induction n with
  | alt l r hl hr => exact (List.mem_append.mp hb).elim (hl h.1) (hr h.2)
  | _ =>
    obtain rfl := List.mem_singleton.mp hb
    exact h

/-- The choice between spliced bodies is spliced. -/
theorem spliced_alternative {bs : List Node} (h : ∀ b ∈ bs, b.Spliced) :
    (alternative bs).Spliced := by
  fun_induction alternative bs with
  | case1 => trivial
  | case2 n => exact h n (List.mem_singleton_self n)
  | case3 n m r ih =>
    exact ⟨h n List.mem_cons_self, ih (fun b hb => h b (List.mem_cons_of_mem n hb))⟩

theorem spliced_chain {es : List Node} (h : ∀ e ∈ es, e.isSequence = false ∧ e.Spliced) :
    (chain es).Spliced := by
  fun_induction chain es with
  | case1 => trivial
  | case2 n => exact (h n (List.mem_singleton_self n)).2
  | case3 n m r ih =>
    obtain ⟨hn, hs⟩ := h n List.mem_cons_self
    exact ⟨hn, hs, ih (fun e he => h e (List.mem_cons_of_mem n he))⟩

theorem Spliced.of_mem_elements {n e : Node} (h : n.Spliced) (he : e ∈ n.elements) :
    e.isSequence = false ∧ e.Spliced := by
  induction n with
  | seq h' t _ ht =>
    rcases List.mem_cons.mp he with rfl | he
    · exact ⟨h.1, h.2.1⟩
    · exact ht h.2.2 he
  | lone h' => exact h.elim
  | _ =>
    obtain rfl := List.mem_singleton.mp he
    exact ⟨rfl, h⟩

/-- What a spliced body contributes to a sequence is no sequence. -/
theorem Spliced.of_mem_splice {n e : Node} (h : n.Spliced) (he : e ∈ n.splice) :
    e.isSequence = false ∧ e.Spliced := by
  cases n with
  | seq h' t => exact h.of_mem_elements he
  | lone h' => exact h.elim
  | empty => cases he
  | _ =>
    obtain rfl := List.mem_singleton.mp he
    exact ⟨rfl, h⟩

/-- **The canonical sequence of spliced bodies is spliced.** -/
theorem spliced_sequence {es : List Node} (h : ∀ e ∈ es, e.Spliced) :
    (sequence es).Spliced := by
  refine spliced_chain (fun e he => ?_)
  obtain ⟨n, hn, he⟩ := List.mem_flatMap.mp he
  exact (h n hn).of_mem_splice he

end Node

namespace Factor

open Node

/-! ## Groups -/

/-- The members of a group, in order. -/
def members (g : Group) : List Node := g.1 :: g.2

/-- **All members begin with the first one's first step.** -/
def Shared (g : Group) : Prop := ∀ m ∈ g.2, g.1.sharesHead m = true

/-- Placing a branch adds it and nothing else. -/
theorem members_place_perm (n : Node) (gs : List Group) :
    ((place n gs).flatMap members).Perm (gs.flatMap members ++ [n]) := by
  induction gs with
  | nil => exact List.Perm.refl _
  | cons g gs ih =>
    unfold place
    split
    · rw [List.flatMap_cons, List.flatMap_cons]
      show ((members g ++ [n]) ++ gs.flatMap members).Perm _
      rw [List.append_assoc, List.append_assoc]
      exact List.perm_append_comm.append_left _
    · rw [List.flatMap_cons, List.flatMap_cons, List.append_assoc]
      exact ih.append_left _

theorem shared_place {n : Node} {gs : List Group} (h : ∀ g ∈ gs, Shared g) :
    ∀ g ∈ place n gs, Shared g := by
  induction gs with
  | nil =>
    intro g hg m hm
    obtain rfl := List.mem_singleton.mp hg
    cases hm
  | cons g gs ih =>
    obtain ⟨hg, hgs⟩ := List.forall_mem_cons.mp h
    unfold place
    split
    · next hn =>
      refine List.forall_mem_cons.mpr ⟨fun m hm => ?_, hgs⟩
      rcases List.mem_append.mp hm with hm | hm
      · exact hg m hm
      · obtain rfl := List.mem_singleton.mp hm
        exact hn
    · exact List.forall_mem_cons.mpr ⟨hg, ih hgs⟩

/-- **Grouping only rearranges the branches.** -/
theorem members_groups_perm (flat : List Node) :
    ((groups flat).flatMap members).Perm flat := by
  -- Groups grow while branches are placed, so the induction is on what is
  -- left to place, over any groups there may be already.
  have h : ∀ gs : List Group,
      ((flat.foldl (fun gs n => place n gs) gs).flatMap members).Perm
        (gs.flatMap members ++ flat) := by
    induction flat with
    | nil =>
      intro gs
      rw [List.append_nil]
      exact List.Perm.refl _
    | cons n flat ih =>
      intro gs
      refine (ih (place n gs)).trans ?_
      rw [← List.singleton_append, ← List.append_assoc]
      exact (members_place_perm n gs).append_right flat
  exact h []

theorem shared_groups (flat : List Node) : ∀ g ∈ groups flat, Shared g := by
  have h : ∀ gs : List Group, (∀ g ∈ gs, Shared g) →
      ∀ g ∈ flat.foldl (fun gs n => place n gs) gs, Shared g := by
    induction flat with
    | nil => exact fun gs hgs => hgs
    | cons n flat ih => exact fun gs hgs => ih _ (shared_place hgs)
  exact h [] (fun g hg => by cases hg)

/-- A branch is its head and what is left of it. -/
theorem concat_head_remainder (n : Node) :
    Word.concat n.head.words (remainder n).words = n.words := by
  cases n with
  | seq h t => rfl
  | _ => exact Word.concat_unit _

theorem spliced_remainder {n : Node} (h : n.Spliced) : (remainder n).Spliced := by
  cases n with
  | seq h' t => exact h.2.2
  | _ => trivial

/-! ## Joining -/

/-- **A body that stands for the choice between some bodies**: it has
their words, in whatever order, and it is spliced. -/
structure Joins (bodies : List Node) (n : Node) : Prop where
  /-- The words are those of the bodies, each as often. -/
  words : n.words.Perm (bodies.flatMap Node.words)
  /-- No sequence begins with a sequence. -/
  spliced : n.Spliced

/-- **A group joins into one branch**, if what is left of its members
does. -/
theorem ofGroup_joins {self : List Node → Except Defect Node} {g : Group} {b : Node}
    (hself : ∀ {bodies : List Node} {m : Node}, bodies ≠ [] → (∀ n ∈ bodies, n.Spliced) →
      self bodies = .ok m → Joins bodies m)
    (hs : ∀ n ∈ members g, n.Spliced) (hg : Shared g) (h : ofGroup self g = .ok b) :
    Joins (members g) b := by
  obtain ⟨n, ms⟩ := g
  cases ms with
  | nil =>
    obtain rfl := Except.ok.inj h
    exact ⟨List.Perm.of_eq (List.flatMap_singleton _ _).symm, hs n List.mem_cons_self⟩
  | cons m ms =>
    obtain ⟨tail, htail, h⟩ := Outcome.bind_eq_ok.mp h
    obtain rfl := Except.ok.inj h
    set all : List Node := n :: m :: ms
    have hn : n.Spliced := hs n List.mem_cons_self
    have ht : Joins (all.map remainder) tail := by
      refine hself (List.cons_ne_nil _ _) (fun r hr => ?_) htail
      obtain ⟨x, hx, rfl⟩ := List.mem_map.mp hr
      exact spliced_remainder (hs x hx)
    -- The first step is shared by all, and in spliced bodies it is the head.
    have hhead : ∀ x ∈ all, n.head = x.head := by
      intro x hx
      rcases List.mem_cons.mp hx with rfl | hx'
      · rfl
      · exact hn.head_eq (hs x hx) (hg x hx')
    refine ⟨?_, spliced_sequence (fun e he => ?_)⟩
    · have hwords : (Node.sequence [n.head, tail]).words
          = Word.concat n.head.words tail.words := by
        rw [words_sequence, wordsAll_cons, wordsAll_cons, wordsAll_nil, Word.concat_unit]
      rw [hwords]
      refine (Word.concat_perm (List.Perm.refl _) ht.words).trans ?_
      refine (Word.concat_flatMap_perm _ _ _).trans (List.Perm.of_eq ?_)
      rw [List.flatMap_map]
      refine List.flatMap_congr (fun x hx => ?_)
      rw [hhead x hx]
      exact concat_head_remainder x
    · rcases List.mem_cons.mp he with rfl | he
      · exact hn.head
      · obtain rfl := List.mem_singleton.mp he
        exact ht.spliced

/-- What holds of all members but the last holds of each that has another
one behind it. -/
theorem pairwise_iff_dropLast {p : Node → Prop} {ns : List Node} :
    ns.Pairwise (fun a _ => p a) ↔ ∀ a ∈ ns.dropLast, p a := by
  induction ns with
  | nil => exact iff_of_true .nil nofun
  | cons n ns ih =>
    rw [List.pairwise_cons, ih]
    cases ns with
    | nil => exact iff_of_true ⟨nofun, nofun⟩ nofun
    | cons m ms =>
      rw [List.dropLast_cons_cons]
      refine Iff.trans (and_congr_left fun _ => ?_) List.forall_mem_cons.symm
      exact ⟨fun h => h m List.mem_cons_self, fun h _ _ => h⟩

/-- **Branches are admitted if only the last is empty.** -/
theorem flatten_eq_ok {rule : String} {bodies flat : List Node} :
    flatten rule bodies = .ok flat
      ↔ flat = bodies.flatMap Node.branches ∧ flat.Pairwise fun a _ => a ≠ .empty := by
  have hany : (bodies.flatMap Node.branches).dropLast.any isEmpty = false
      ↔ (bodies.flatMap Node.branches).Pairwise fun a _ => a ≠ .empty := by
    rw [pairwise_iff_dropLast, List.any_eq_false]
    refine forall_congr' fun a => forall_congr' fun _ => ?_
    unfold isEmpty
    rw [beq_iff_eq]
  simp only [flatten]
  constructor
  · intro h
    split at h
    · cases h
    · next hnone =>
      obtain rfl := Except.ok.inj h
      exact ⟨rfl, hany.mp (Bool.not_eq_true _ ▸ hnone)⟩
  · rintro ⟨rfl, hp⟩
    rw [hany.mpr hp]
    rfl

theorem flatMap_words_flatten (bodies : List Node) :
    (bodies.flatMap Node.branches).flatMap Node.words = bodies.flatMap Node.words := by
  rw [List.flatMap_assoc]
  exact List.flatMap_congr (fun n _ => flatMap_words_branches n)

theorem flatten_ne_nil {bodies : List Node} (h : bodies ≠ []) :
    bodies.flatMap Node.branches ≠ [] := by
  obtain ⟨n, hn⟩ := List.exists_mem_of_ne_nil _ h
  obtain ⟨b, hb⟩ := List.exists_mem_of_ne_nil _ (branches_ne_nil n)
  exact List.ne_nil_of_mem (List.mem_flatMap.mpr ⟨n, hn, hb⟩)

/-- **A group of the branches that becomes one branch**, what is left of
its members being joined by `join`. -/
structure Grouped (join : List Node → Except Defect Node) (flat : List Node) (g : Group)
    (b : Node) : Prop where
  mem : g ∈ groups flat
  /-- Its members are among the branches. -/
  subset : members g ⊆ flat
  /-- They begin with the same step. -/
  shared : Shared g
  run : ofGroup join g = .ok b

/-- **What joining does** as long as there is something to group: each group
of the branches becomes one branch, in the order of the groups. -/
theorem joinWithin_succ_eq_ok {rule : String} {k : Nat} {bodies : List Node} {m : Node}
    (h : joinWithin rule (k + 1) bodies = .ok m) :
    (bodies.flatMap Node.branches).Pairwise (fun a _ => a ≠ .empty)
      ∧ ∃ joined, m = alternative joined
        ∧ List.Forall₂ (Grouped (joinWithin rule k) (bodies.flatMap Node.branches))
          (groups (bodies.flatMap Node.branches)) joined := by
  obtain ⟨flat, hflat, h⟩ := Outcome.bind_eq_ok.mp h
  obtain ⟨rfl, hlast⟩ := flatten_eq_ok.mp hflat
  obtain ⟨joined, hjoined, h⟩ := Outcome.bind_eq_ok.mp h
  refine ⟨hlast, joined, (Except.ok.inj h).symm, ?_⟩
  refine ((List.forall₂_and_left _ _).mpr ⟨fun g hg => hg, Outcome.mapM_eq_ok.mp hjoined⟩).imp ?_
  rintro g b ⟨hg, hrun⟩
  refine ⟨hg, fun n hn => ?_, shared_groups _ g hg, hrun⟩
  exact (members_groups_perm _).subset (List.mem_flatMap.mpr ⟨g, hg, hn⟩)

/-- The bodies that a list of groups joins into have the words of all
members. -/
theorem words_of_joined {gs : List Group} {joined : List Node}
    (h : List.Forall₂ (fun g b => Joins (members g) b) gs joined) :
    (joined.flatMap Node.words).Perm ((gs.flatMap members).flatMap Node.words) := by
  induction h with
  | nil => exact List.Perm.refl _
  | cons hb _ ih =>
    rw [List.flatMap_cons, List.flatMap_cons, List.flatMap_append]
    exact hb.words.append ih

/-- **Joining keeps the words**, however deep the grouping is allowed to
go. -/
theorem joinWithin_joins {rule : String} {k : Nat} {bodies : List Node} {m : Node}
    (hne : bodies ≠ []) (hs : ∀ n ∈ bodies, n.Spliced) (h : joinWithin rule k bodies = .ok m) :
    Joins bodies m := by
  induction k generalizing bodies m with
  | zero =>
    obtain ⟨flat, hflat, h⟩ := Outcome.bind_eq_ok.mp h
    obtain ⟨rfl, -⟩ := flatten_eq_ok.mp hflat
    obtain rfl := Except.ok.inj h
    refine ⟨List.Perm.of_eq ?_, spliced_alternative (fun b hb => ?_)⟩
    · rw [words_alternative (flatten_ne_nil hne), flatMap_words_flatten]
    · obtain ⟨n, hn, hb⟩ := List.mem_flatMap.mp hb
      exact (hs n hn).of_mem_branches hb
  | succ k ih =>
    obtain ⟨-, joined, rfl, hrun⟩ := joinWithin_succ_eq_ok h
    set flat := bodies.flatMap Node.branches
    have hperm := members_groups_perm flat
    have hflat : ∀ b ∈ flat, b.Spliced := by
      intro b hb
      obtain ⟨n, hn, hb⟩ := List.mem_flatMap.mp hb
      exact (hs n hn).of_mem_branches hb
    have hall : List.Forall₂ (fun g b => Joins (members g) b) (groups flat) joined :=
      hrun.imp (fun g b hgb =>
        ofGroup_joins ih (fun n hn => hflat n (hgb.subset hn)) hgb.shared hgb.run)
    have hjoined_ne : joined ≠ [] := by
      intro hnil
      rw [hnil, List.forall₂_nil_right_iff] at hall
      rw [hall] at hperm
      exact flatten_ne_nil hne (List.nil_perm.mp hperm)
    refine ⟨?_, spliced_alternative (fun b hb => ?_)⟩
    · rw [words_alternative hjoined_ne]
      refine (words_of_joined hall).trans ((hperm.flatMap_right _).trans ?_)
      exact List.Perm.of_eq (flatMap_words_flatten bodies)
    · obtain ⟨g, -, hgb⟩ := Outcome.exists_of_mem_right hall hb
      exact hgb.spliced

/-- **Branches that a body comes apart into**: at least one, each
spliced, with the words of the body among them. -/
structure Splits (n : Node) (bs : List Node) : Prop where
  /-- There is a branch. -/
  ne_nil : bs ≠ []
  /-- The words are those of the body, each as often. -/
  words : (bs.flatMap Node.words).Perm n.words
  /-- No sequence begins with a sequence. -/
  spliced : ∀ b ∈ bs, b.Spliced

/-- Branches that a body comes apart into make up the body again. -/
theorem close_joins {rule : String} {n m : Node} {bs : List Node} (hs : Splits n bs)
    (h : close rule n bs = .ok m) : m.words.Perm n.words ∧ m.Spliced := by
  unfold close at h
  split at h
  · have hj : Joins bs m := joinWithin_joins hs.ne_nil hs.spliced h
    exact ⟨hj.words.trans hs.words, hj.spliced⟩
  · obtain rfl := Except.ok.inj h
    rw [words_alternative hs.ne_nil]
    exact ⟨hs.words, spliced_alternative hs.spliced⟩

/-- The branch that a sequence of two factored parts is. -/
theorem splits_sequence {n head tail : Node} {us vs : List Word}
    (hn : n.words = Word.concat us vs) (hh : head.words.Perm us ∧ head.Spliced)
    (ht : tail.words.Perm vs ∧ tail.Spliced) : Splits n [Node.sequence [head, tail]] := by
  refine ⟨List.cons_ne_nil _ _, ?_, fun b hb => ?_⟩
  · rw [List.flatMap_singleton, words_sequence, wordsAll_cons, wordsAll_cons, wordsAll_nil,
      Word.concat_unit, hn]
    exact Word.concat_perm hh.1 ht.1
  · obtain rfl := List.mem_singleton.mp hb
    refine spliced_sequence (fun e he => ?_)
    rcases List.mem_cons.mp he with rfl | he
    · exact hh.2
    · obtain rfl := List.mem_singleton.mp he
      exact ht.2

/-- What is neither a sequence nor a choice is its own branch. -/
theorem splits_self {n : Node} (h : n.Spliced) : Splits n [n] :=
  ⟨List.cons_ne_nil _ _, List.Perm.of_eq (List.flatMap_singleton _ _),
    fun _ hb => List.mem_singleton.mp hb ▸ h⟩

/-- **A body comes apart into its factored branches.** -/
theorem branches_splits {rule : String} {n : Node} {bs : List Node}
    (h : branches rule n = .ok bs) : Splits n bs := by
  induction n generalizing bs with
  | alt l r hl hr =>
    obtain ⟨ls, hls, h⟩ := Outcome.bind_eq_ok.mp h
    obtain ⟨rs, hrs, h⟩ := Outcome.bind_eq_ok.mp h
    obtain rfl := Except.ok.inj h
    have sl := hl hls
    have sr := hr hrs
    refine ⟨List.append_ne_nil_of_left_ne_nil sl.ne_nil _, ?_, fun b hb => ?_⟩
    · rw [List.flatMap_append]
      exact sl.words.append sr.words
    · exact (List.mem_append.mp hb).elim (sl.spliced b) (sr.spliced b)
  | seq h' t hh ht =>
    obtain ⟨hs, hhs, h⟩ := Outcome.bind_eq_ok.mp h
    obtain ⟨head, hhead, h⟩ := Outcome.bind_eq_ok.mp h
    obtain ⟨ts, hts, h⟩ := Outcome.bind_eq_ok.mp h
    obtain ⟨tail, htail, h⟩ := Outcome.bind_eq_ok.mp h
    obtain rfl := Except.ok.inj h
    exact splits_sequence (words_seq h' t) (close_joins (hh hhs) hhead)
      (close_joins (ht hts) htail)
  | lone h' hh =>
    obtain ⟨hs, hhs, h⟩ := Outcome.bind_eq_ok.mp h
    obtain ⟨head, hhead, h⟩ := Outcome.bind_eq_ok.mp h
    obtain rfl := Except.ok.inj h
    exact splits_sequence (Word.concat_unit h'.words).symm (close_joins (hh hhs) hhead)
      ⟨List.Perm.refl Node.empty.words, trivial⟩
  | _ =>
    obtain rfl := Except.ok.inj h
    exact splits_self trivial

/-- **Factoring a body keeps its words and leaves it spliced.** -/
theorem node_joins {rule : String} {n m : Node} (h : node rule n = .ok m) :
    m.words.Perm n.words ∧ m.Spliced := by
  obtain ⟨bs, hbs, h⟩ := Outcome.bind_eq_ok.mp h
  exact close_joins (branches_splits hbs) h

end Factor

/-! ## Rules and tables -/

/-- What factoring a rule does, part by part. -/
theorem Rule.factored_eq_ok {r m : Rule} :
    r.factored = .ok m ↔ m.target = r.target ∧ Factor.node r.target r.body = .ok m.body := by
  unfold Rule.factored
  rw [Outcome.bind_eq_ok]
  constructor
  · rintro ⟨body, hbody, h⟩
    obtain rfl := Except.ok.inj h
    exact ⟨rfl, hbody⟩
  · rintro ⟨ht, hb⟩
    refine ⟨m.body, hb, ?_⟩
    rw [← ht]

/-- A word of the factored body is a word of the body as written, and the
other way round. -/
theorem Rule.mem_words_factored {r m : Rule} (h : r.factored = .ok m) {w : Word} :
    w ∈ m.body.words ↔ w ∈ r.body.words :=
  (Factor.node_joins (Rule.factored_eq_ok.mp h).2).1.mem_iff

/-- **Factoring a rule rearranges the words of its body.** Every word
that the rule has as written it has afterwards, just as often, and no
other; and the rule keeps its name. -/
theorem Rule.words_factored_perm {r m : Rule} (h : r.factored = .ok m) :
    m.body.words.Perm r.body.words ∧ m.target = r.target :=
  ⟨(Factor.node_joins (Rule.factored_eq_ok.mp h).2).1, (Rule.factored_eq_ok.mp h).1⟩

/-- A rule whose body leans to the left, begins a sequence with a
sequence, begins another with a choice to be factored itself, and has
sequences of a single element. -/
def Rule.untidy : Rule where
  target := "r"
  body := .alt
    (.alt
      (.seq
        (.alt (.seq (.literal "a") (.literal "b")) (.seq (.literal "a") (.rule "c")))
        (.directive ⟨.recover, [.string ";"]⟩))
      (.seq (.seq (.literal "a") (.reserved "D")) (.action (.atom .number "1"))))
    (.alt (.lone (.seq (.literal "a") (.lone (.rule "e")))) .empty)

/-- All branches but the empty one begin with the same literal, which is
taken out of the three of them. -/
theorem Rule.words_factored_perm_untidy :
    ∃ m : Rule, Rule.untidy.factored = .ok m
      ∧ m.body.render = "\"a\" ((\"b\" | c) recover(\";\") | D \x7b 1 \x7d | e) | <empty>"
      ∧ m.body.words.Perm Rule.untidy.body.words ∧ m.target = Rule.untidy.target :=
  ⟨_, rfl, by decide +kernel, Rule.words_factored_perm rfl⟩

namespace RuleTable

/-- **Factoring a table factors its rules one by one.** -/
theorem forall₂_factored {table result : RuleTable} (h : table.factored = .ok result) :
    List.Forall₂ (fun r m => r.factored = .ok m) table.rules result.rules := by
  have key : ∀ (rs : List Rule) (acc result : RuleTable),
      rs.foldlM (fun t r => do t.push (← r.factored)) acc = .ok result →
        ∃ ms, result.rules = acc.rules ++ ms
          ∧ List.Forall₂ (fun r m => r.factored = .ok m) rs ms := by
    intro rs
    induction rs with
    | nil =>
      intro acc result h
      obtain rfl := Except.ok.inj h
      exact ⟨[], (List.append_nil _).symm, .nil⟩
    | cons r rs ih =>
      intro acc result h
      rw [List.foldlM_cons] at h
      obtain ⟨t, ht, h⟩ := Outcome.bind_eq_ok.mp h
      obtain ⟨m, hm, ht⟩ := Outcome.bind_eq_ok.mp ht
      obtain ⟨ms, hms, hall⟩ := ih t result h
      refine ⟨m :: ms, ?_, .cons hm hall⟩
      rw [hms, rules_push ht, List.append_assoc, List.singleton_append]
  obtain ⟨ms, hms, hall⟩ := key table.rules .empty result h
  rw [hms]
  exact hall

/-- Factoring keeps the names of the rules, and their order. -/
theorem targets_factored {table result : RuleTable} (h : table.factored = .ok result) :
    result.targets = table.targets := by
  have hall := forall₂_factored h
  unfold targets
  generalize table.rules = rs, result.rules = ms at hall
  induction hall with
  | nil => rfl
  | cons hr _ ih => rw [List.map_cons, List.map_cons, ih, (Rule.factored_eq_ok.mp hr).1]

/-- **A rule of the factored table is a rule of the table, factored.** -/
theorem get?_factored {table result : RuleTable} (h : table.factored = .ok result)
    {name : String} {m : Rule} (hm : result.get? name = some m) :
    ∃ r, table.get? name = some r ∧ r.factored = .ok m := by
  have hall := forall₂_factored h
  unfold get? at hm ⊢
  generalize table.rules = rs, result.rules = ms at hall hm
  induction hall with
  | nil => cases hm
  | @cons r m' rs ms hr _ ih =>
    rw [List.find?_cons] at hm ⊢
    rw [(Rule.factored_eq_ok.mp hr).1] at hm
    split at hm
    · obtain rfl := Option.some.inj hm
      exact ⟨r, rfl, hr⟩
    · exact ih hm

end RuleTable

end Descent
