import Descent.Proofs.NormalForm

/-!
# What factoring refuses

A branch that is nothing but the beginning of a later one hides it. Once
the steps that the two share are taken out in front, nothing is left of
the first one, and it would be taken before what is left of the other. So
**a choice between words is refused exactly if one of them begins a later
one** (`Rule.factored_eq_error_iff`). There is no other reason to refuse a
body, whatever it is made of (`Factor.node_eq_error`).

What is tested is not that, but whether nothing is left of some branch
that is not the last; and it is tested at each level of the grouping anew,
on what is left of the members of one group. The two come to the same
because grouping tears no pair apart that it should compare: branches that
share their first step are members of one group, and members stand in the
order of the branches (`Factor.groups_cons`). A branch then begins a later
one exactly if the two are in one group and what is left of the first
begins what is left of the second.
-/

namespace Descent

/-- **Whether a word begins another one**, step by step. The empty word
begins every word; an action is no step, so a word with an action in it
begins none. -/
def Word.begins : Word → Word → Bool
  | [], _ => true
  | _ :: _, [] => false
  | a :: u, b :: v => a.sharesHead b && Word.begins u v

/-- **A rule that offers a choice between words.** -/
def Rule.choosing (target : String) (alternatives : List Word) : Rule where
  target := target
  body := .alternative (alternatives.map .sequence)

namespace Factor

open Node

/-! ## The only reason -/

variable {rule : String} {d : Defect}

theorem flatten_eq_error {bodies : List Node} (h : flatten rule bodies = .error d) :
    d = .malformed rule := by
  simp only [flatten] at h
  split at h
  · exact (Except.error.inj h).symm
  · cases h

/-- **Joining fails only because of an empty branch that is not the last**,
at whatever level that is found. -/
theorem joinWithin_eq_error {k : Nat} {bodies : List Node}
    (h : joinWithin rule k bodies = .error d) : d = .malformed rule := by
  induction k generalizing bodies with
  | zero =>
    rcases Outcome.bind_eq_error.mp h with h | ⟨flat, -, h⟩
    · exact flatten_eq_error h
    · cases h
  | succ k ih =>
    rcases Outcome.bind_eq_error.mp h with h | ⟨flat, -, h⟩
    · exact flatten_eq_error h
    rcases Outcome.bind_eq_error.mp h with h | ⟨joined, -, h⟩
    · obtain ⟨⟨n, ms⟩, -, h⟩ := Outcome.exists_of_mapM_eq_error h
      cases ms with
      | nil => cases h
      | cons m ms =>
        rcases Outcome.bind_eq_error.mp h with h | ⟨tail, -, h⟩
        · exact ih h
        · cases h
    · cases h

theorem close_eq_error {n : Node} {bs : List Node} (h : close rule n bs = .error d) :
    d = .malformed rule := by
  unfold close at h
  split at h
  · exact joinWithin_eq_error h
  · cases h

theorem branches_eq_error {n : Node} (h : branches rule n = .error d) :
    d = .malformed rule := by
  induction n with
  | alt l r hl hr =>
    rcases Outcome.bind_eq_error.mp h with h | ⟨ls, -, h⟩
    · exact hl h
    rcases Outcome.bind_eq_error.mp h with h | ⟨rs, -, h⟩
    · exact hr h
    · cases h
  | seq h' t hh ht =>
    rcases Outcome.bind_eq_error.mp h with h | ⟨hs, -, h⟩
    · exact hh h
    rcases Outcome.bind_eq_error.mp h with h | ⟨head, -, h⟩
    · exact close_eq_error h
    rcases Outcome.bind_eq_error.mp h with h | ⟨ts, -, h⟩
    · exact ht h
    rcases Outcome.bind_eq_error.mp h with h | ⟨tail, -, h⟩
    · exact close_eq_error h
    · cases h
  | lone h' hh =>
    rcases Outcome.bind_eq_error.mp h with h | ⟨hs, -, h⟩
    · exact hh h
    rcases Outcome.bind_eq_error.mp h with h | ⟨head, -, h⟩
    · exact close_eq_error h
    · cases h
  | _ => cases h

/-- **A body that cannot be factored is malformed**, and the rule that is
named is the one it belongs to. -/
theorem node_eq_error {n : Node} (h : node rule n = .error d) : d = .malformed rule := by
  rcases Outcome.bind_eq_error.mp h with h | ⟨bs, -, h⟩
  · exact branches_eq_error h
  · exact close_eq_error h

/-! ## Groups in order -/

/-- **The first branch heads the first group**, which takes all that share
its first step; the others are grouped among themselves. -/
theorem groups_cons (n : Node) (rest : List Node) :
    groups (n :: rest)
      = (n, rest.filter (n.sharesHead ·)) :: groups (rest.filter (!n.sharesHead ·)) := by
  -- The first group is tried first, so what it takes never meets the others.
  have h : ∀ (rest ms : List Node) (gs : List Group),
      rest.foldl (fun gs n => place n gs) ((n, ms) :: gs)
        = (n, ms ++ rest.filter (n.sharesHead ·))
          :: (rest.filter (!n.sharesHead ·)).foldl (fun gs n => place n gs) gs := by
    intro rest
    induction rest with
    | nil =>
      intro ms gs
      rw [List.filter_nil, List.append_nil]
      rfl
    | cons m rest ih =>
      intro ms gs
      rw [List.foldl_cons, place]
      cases hm : n.sharesHead m with
      | true =>
        rw [if_pos rfl, ih, List.filter_cons_of_pos hm, List.append_assoc,
          List.singleton_append, List.filter_cons_of_neg (by rw [hm]; exact Bool.false_ne_true)]
      | false =>
        rw [if_neg Bool.false_ne_true, ih,
          List.filter_cons_of_neg (by rw [hm]; exact Bool.false_ne_true),
          List.filter_cons_of_pos (by rw [hm]; rfl), List.foldl_cons]
  exact h rest [] []

/-- The members of a group stand in the order of the branches. -/
theorem members_sublist {flat : List Node} {g : Group} (hg : g ∈ groups flat) :
    (members g).Sublist flat := by
  induction hlength : flat.length using Nat.strongRecOn generalizing flat with
  | _ k ih =>
    cases flat with
    | nil => cases hg
    | cons n rest =>
      rw [groups_cons] at hg
      rcases List.mem_cons.mp hg with rfl | hg
      · exact List.filter_sublist.cons_cons n
      · have hshorter := List.length_filter_le (!n.sharesHead ·) rest
        rw [List.length_cons] at hlength
        exact ((ih _ (by omega) hg rfl).trans List.filter_sublist).cons n

/-- What shares its first step with a body begins as that does. -/
theorem sharesHead_congr {a b : Node} (h : a.sharesHead b = true) (n : Node) :
    n.sharesHead a = n.sharesHead b := by
  unfold sharesHead
  rw [eq_of_sameStep h]

/-- **Branches that share their first step are in one group**, and in their
order. -/
theorem exists_group_of_sublist {flat : List Node} {a b : Node} (hab : [a, b].Sublist flat)
    (hshare : a.sharesHead b = true) : ∃ g ∈ groups flat, [a, b].Sublist (members g) := by
  induction hlength : flat.length using Nat.strongRecOn generalizing flat with
  | _ k ih =>
    cases flat with
    | nil => cases hab
    | cons n rest =>
      rw [groups_cons]
      -- Either the first of the two is the first branch, or both come later;
      -- and then the first group takes both or neither.
      rcases List.sublist_cons_iff.mp hab with hab | ⟨_, heq, hb⟩
      · cases hn : n.sharesHead a with
        | true =>
          refine ⟨_, List.mem_cons_self, List.Sublist.cons n ?_⟩
          have hfilter : [a, b].filter (n.sharesHead ·) = [a, b] := by
            rw [List.filter_cons_of_pos hn, List.filter_cons_of_pos]
            · rfl
            · rw [← sharesHead_congr hshare, hn]
          exact hfilter ▸ hab.filter _
        | false =>
          have hfilter : [a, b].filter (!n.sharesHead ·) = [a, b] := by
            rw [List.filter_cons_of_pos (by rw [hn]; rfl), List.filter_cons_of_pos]
            · rfl
            · rw [← sharesHead_congr hshare, hn]
              rfl
          have hshorter := List.length_filter_le (!n.sharesHead ·) rest
          rw [List.length_cons] at hlength
          obtain ⟨g, hg, hmembers⟩ := ih _ (by omega) (hfilter ▸ hab.filter _) rfl
          exact ⟨g, List.mem_cons_of_mem _ hg, hmembers⟩
      · obtain ⟨rfl, rfl⟩ := List.cons.inj heq
        refine ⟨_, List.mem_cons_self, List.Sublist.cons_cons a ?_⟩
        refine List.singleton_sublist.mpr (List.mem_filter.mpr ⟨?_, hshare⟩)
        exact List.singleton_sublist.mp hb

/-- Any two members of a group share their first step. -/
theorem pairwise_members {g : Group} (hg : Shared g) :
    (members g).Pairwise fun a b => a.sharesHead b = true := by
  refine List.pairwise_cons.mpr ⟨hg, List.pairwise_of_forall_mem_list fun a ha b hb => ?_⟩
  rw [sharesHead_comm, ← sharesHead_congr (hg a ha), sharesHead_comm]
  exact hg b hb

end Factor

/-! ## Words as bodies -/

namespace Node

open Factor

/-- **An element that stands in words as it is**, seen from all that looks
into bodies: there is nothing in it, and nothing behind it. -/
structure Single (e : Node) : Prop where
  isSequence : e.isSequence = false
  isChoice : e.isChoice = false
  ne_empty : e ≠ .empty
  splice : e.splice = [e]
  words : e.words = [[e]]
  height : e.height = 1
  remainder : remainder e = .empty
  normal : e.Normal

theorem single_of_isLetter {e : Node} (h : e.isLetter = true) : e.Single := by
  cases e with
  | seq h' t => cases h
  | lone h' => cases h
  | alt l r => cases h
  | empty => cases h
  | _ =>
    exact ⟨rfl, rfl, nofun, rfl, rfl, rfl, rfl, fun m hm => List.mem_singleton.mp hm ▸ trivial⟩

variable {w u v : Word}

theorem sequence_of_letters (h : ∀ e ∈ w, e.isLetter = true) : sequence w = chain w := by
  unfold sequence
  rw [List.flatMap_congr fun e he => (single_of_isLetter (h e he)).splice,
    List.flatMap_singleton']

theorem normal_chain_of_letters (h : ∀ e ∈ w, e.isLetter = true) : (chain w).Normal := by
  refine normal_chain fun e he => ?_
  have hsingle := single_of_isLetter (h e he)
  exact ⟨hsingle.isSequence, hsingle.ne_empty, hsingle.normal⟩

theorem isChoice_chain (h : ∀ e ∈ w, e.isLetter = true) : (chain w).isChoice = false := by
  match w with
  | [] => rfl
  | [e] => exact (single_of_isLetter (h e List.mem_cons_self)).isChoice
  | _ :: _ :: _ => rfl

theorem chain_eq_empty_iff (h : ∀ e ∈ w, e.isLetter = true) : chain w = .empty ↔ w = [] := by
  constructor
  · intro hempty
    by_contra hne
    exact chain_ne_empty (fun e he => (single_of_isLetter (h e he)).ne_empty) hne hempty
  · rintro rfl
    rfl

/-- A word takes as many steps as it has letters. -/
theorem height_chain (h : ∀ e ∈ w, e.isLetter = true) : (chain w).height = w.length := by
  fun_induction chain w with
  | case1 => rfl
  | case2 e => exact (single_of_isLetter (h e List.mem_cons_self)).height
  | case3 e f w ih => exact congrArg (· + 1) (ih fun x hx => h x (List.mem_cons_of_mem e hx))

/-- What is left of a word without its first step is the rest of it. -/
theorem remainder_chain (h : ∀ e ∈ w, e.isLetter = true) :
    remainder (chain w) = chain w.tail := by
  match w with
  | [] => rfl
  | [e] => exact (single_of_isLetter (h e List.mem_cons_self)).remainder
  | _ :: _ :: _ => rfl

/-- A word begins with its first letter. -/
theorem lead_chain (e : Node) (w : Word) : (chain (e :: w)).lead = e.lead := by
  cases w with
  | nil => rfl
  | cons f w => rfl

theorem words_chain_of_letters (h : ∀ e ∈ w, e.isLetter = true) : (chain w).words = [w] := by
  rw [words_chain]
  induction w with
  | nil => rfl
  | cons e w ih =>
    obtain ⟨he, hw⟩ := List.forall_mem_cons.mp h
    rw [wordsAll_cons, ih hw, (single_of_isLetter he).words]
    rfl

/-- Words can be told from the bodies that they are. -/
theorem flatMap_words_chain {ws : List Word} (h : ∀ w ∈ ws, ∀ e ∈ w, e.isLetter = true) :
    (ws.map chain).flatMap words = ws := by
  rw [List.flatMap_map, List.flatMap_congr fun w hw => words_chain_of_letters (h w hw),
    List.flatMap_singleton']

/-- **A word begins another one if nothing is there of it**, or if the two
share their first step and the rest of the one begins the rest of the
other. -/
theorem begins_eq (u v : Word) :
    Word.begins u v
      = (u.isEmpty || (chain u).sharesHead (chain v) && Word.begins u.tail v.tail) := by
  cases u with
  | nil => rfl
  | cons a u =>
    cases v with
    | nil =>
      have hnone : (chain (a :: u)).sharesHead .empty = false := by
        unfold sharesHead
        cases (chain (a :: u)).lead with
        | _ => rfl
      show false = (false || (chain (a :: u)).sharesHead .empty && _)
      rw [hnone]
      rfl
    | cons b v =>
      show (sameStep a.lead b.lead && _) = (false || sameStep (chain _).lead (chain _).lead && _)
      rw [lead_chain, lead_chain, Bool.false_or]
      rfl

/-- A word that shares its first step with another one begins it if the
rest of it begins the rest of the other. -/
theorem begins_of_sharesHead {u v : Word} (h : (chain u).sharesHead (chain v) = true) :
    Word.begins u v = Word.begins u.tail v.tail := by
  cases u with
  | nil => exact absurd rfl (lead_ne_empty_of_sharesHead h)
  | cons a u =>
    rw [begins_eq, h]
    rfl

end Node

namespace Factor

open Node

/-! ## Joining words -/

variable {rule : String}

/-- A group becomes a branch if it has one member, or if what is left of its
members can be joined. -/
theorem exists_ofGroup_iff {self : List Node → Except Defect Node} {g : Group} :
    (∃ b, ofGroup self g = .ok b)
      ↔ g.2 = [] ∨ ∃ m, self ((members g).map remainder) = .ok m := by
  obtain ⟨n, ms⟩ := g
  cases ms with
  | nil => exact iff_of_true ⟨n, rfl⟩ (.inl rfl)
  | cons m ms =>
    constructor
    · rintro ⟨b, h⟩
      obtain ⟨tail, htail, -⟩ := Outcome.bind_eq_ok.mp h
      exact .inr ⟨tail, htail⟩
    · rintro (h | ⟨tail, htail⟩)
      · cases h
      · exact ⟨_, Outcome.bind_eq_ok.mpr ⟨tail, htail, rfl⟩⟩

/-- **One round of joining** gives something exactly if the branches are
admitted and every group becomes a branch. -/
theorem exists_joinWithin_succ_iff {k : Nat} {bodies : List Node} :
    (∃ m, joinWithin rule (k + 1) bodies = .ok m)
      ↔ ∃ flat, flatten rule bodies = .ok flat
        ∧ ∀ g ∈ groups flat, ∃ b, ofGroup (joinWithin rule k) g = .ok b := by
  constructor
  · rintro ⟨m, h⟩
    obtain ⟨flat, hflat, h⟩ := Outcome.bind_eq_ok.mp h
    obtain ⟨joined, hjoined, -⟩ := Outcome.bind_eq_ok.mp h
    exact ⟨flat, hflat, Outcome.exists_mapM_eq_ok.mp ⟨joined, hjoined⟩⟩
  · rintro ⟨flat, hflat, h⟩
    obtain ⟨joined, hjoined⟩ := Outcome.exists_mapM_eq_ok.mpr h
    exact ⟨_, Outcome.bind_eq_ok.mpr ⟨flat, hflat,
      Outcome.bind_eq_ok.mpr ⟨joined, hjoined, rfl⟩⟩⟩

section Words

variable {ws : List Word} (hw : ∀ w ∈ ws, ∀ e ∈ w, e.isLetter = true)

include hw

/-- Words are branches as they are, admitted if none but the last is
empty. -/
theorem flatten_words_eq_ok {flat : List Node} :
    flatten rule (ws.map chain) = .ok flat
      ↔ flat = ws.map chain ∧ ws.Pairwise fun u _ => u ≠ [] := by
  have hflat : (ws.map chain).flatMap Node.branches = ws.map chain := by
    have hbranches : ∀ n ∈ ws.map chain, n.branches = [n] :=
      List.forall_mem_map.mpr fun w hmem => branches_of_not_choice (isChoice_chain (hw w hmem))
    rw [List.flatMap_congr hbranches, List.flatMap_singleton']
  rw [flatten_eq_ok, hflat]
  refine and_congr_right ?_
  rintro rfl
  rw [List.pairwise_map]
  exact List.Pairwise.iff_of_mem fun hu _ => not_congr (chain_eq_empty_iff (hw _ hu))

/-- Words that share their first step are in one group, in their order. -/
theorem exists_group_of_sharesHead {u v : Word} (huv : [u, v].Sublist ws)
    (hshare : (chain u).sharesHead (chain v) = true) :
    ∃ g ∈ groups (ws.map chain), ∀ us : List Word, us.Sublist ws → members g = us.map chain →
      [u, v].Sublist us := by
  obtain ⟨g, hg, hmem⟩ := exists_group_of_sublist (huv.map chain) hshare
  refine ⟨g, hg, fun us hus hmembers => ?_⟩
  rw [hmembers] at hmem
  obtain ⟨pair, hpair, heq⟩ := List.sublist_map_iff.mp hmem
  have hwords : ([u, v].map chain).flatMap words = (pair.map chain).flatMap words :=
    congrArg (·.flatMap words) heq
  rw [flatMap_words_chain fun w hmem => hw w (huv.subset hmem),
    flatMap_words_chain fun w hmem => hw w (hus.subset (hpair.subset hmem))] at hwords
  rw [hwords]
  exact hpair

/-- **A group of words becomes a branch exactly if no member begins a later
one**, provided that joining what is left of them fails for that reason
only. -/
theorem exists_ofGroup_words_iff {k : Nat} (hk : ∀ w ∈ ws, w.length ≤ k + 1)
    (hself : ∀ {us : List Word}, (∀ w ∈ us, ∀ e ∈ w, e.isLetter = true) →
      (∀ w ∈ us, w.length ≤ k) →
      ((∃ m, joinWithin rule k (us.map chain) = .ok m)
        ↔ us.Pairwise fun u v => Word.begins u v = false))
    {g : Group} (hg : Shared g) (hmembers : members g = ws.map chain) :
    (∃ b, ofGroup (joinWithin rule k) g = .ok b)
      ↔ ws.Pairwise fun u v => Word.begins u v = false := by
  have hremainders : (members g).map remainder = (ws.map List.tail).map chain := by
    rw [hmembers, List.map_map, List.map_map]
    exact List.map_congr_left fun w hmem => remainder_chain (hw w hmem)
  have hjoin : (∃ m, joinWithin rule k ((ws.map List.tail).map chain) = .ok m)
      ↔ ws.Pairwise fun u v => Word.begins u.tail v.tail = false := by
    refine (hself (List.forall_mem_map.mpr fun w hmem e he => ?_)
      (List.forall_mem_map.mpr fun w hmem => ?_)).trans List.pairwise_map
    · exact hw w hmem e (List.mem_of_mem_tail he)
    · have := hk w hmem
      rw [List.length_tail]
      omega
  have hshare : ws.Pairwise fun u v => (chain u).sharesHead (chain v) = true := by
    have := pairwise_members hg
    rw [hmembers, List.pairwise_map] at this
    exact this
  have htails : (ws.Pairwise fun u v => Word.begins u.tail v.tail = false)
      ↔ ws.Pairwise fun u v => Word.begins u v = false := by
    constructor
    · intro h
      exact (hshare.and h).imp fun ⟨hs, hb⟩ => (begins_of_sharesHead hs).trans hb
    · intro h
      exact (hshare.and h).imp fun ⟨hs, hb⟩ => (begins_of_sharesHead hs).symm.trans hb
  rw [exists_ofGroup_iff, hremainders, hjoin, htails]
  refine or_iff_right_of_imp fun hnone => ?_
  have hone : ws.length = 1 := by
    rw [← List.length_map (f := chain), ← hmembers, members, hnone]
    rfl
  obtain ⟨u, rfl⟩ := List.length_eq_one_iff.mp hone
  exact List.pairwise_singleton _ _

end Words

/-- **Words are joined exactly if none of them begins a later one.** -/
theorem exists_joinWithin_iff {k : Nat} {ws : List Word}
    (hw : ∀ w ∈ ws, ∀ e ∈ w, e.isLetter = true) (hk : ∀ w ∈ ws, w.length ≤ k) :
    (∃ m, joinWithin rule k (ws.map chain) = .ok m)
      ↔ ws.Pairwise fun u v => Word.begins u v = false := by
  -- The empty word begins every word, so words that do not begin later ones
  -- are admitted.
  have hadmitted : ∀ {ws : List Word}, ws.Pairwise (fun u v => Word.begins u v = false) →
      ws.Pairwise fun u _ => u ≠ [] := by
    intro ws h
    refine h.imp fun {u v} hbegins => ?_
    rintro rfl
    cases hbegins
  induction k generalizing ws with
  | zero =>
    constructor
    · rintro ⟨m, h⟩
      obtain ⟨flat, hflat, -⟩ := Outcome.bind_eq_ok.mp h
      -- All words are empty, so there is no second one.
      refine ((flatten_words_eq_ok hw).mp hflat).2.imp_of_mem fun {u v} hu _ hne => ?_
      exact absurd (List.length_eq_zero_iff.mp (Nat.le_zero.mp (hk u hu))) hne
    · intro h
      exact ⟨_, Outcome.bind_eq_ok.mpr
        ⟨_, (flatten_words_eq_ok hw).mpr ⟨rfl, hadmitted h⟩, rfl⟩⟩
  | succ k ih =>
    have hgroup : ∀ g ∈ groups (ws.map chain), ∃ us : List Word, us.Sublist ws
        ∧ members g = us.map chain ∧ ((∃ b, ofGroup (joinWithin rule k) g = .ok b)
          ↔ us.Pairwise fun u v => Word.begins u v = false) := by
      intro g hg
      obtain ⟨us, hus, hmembers⟩ := List.sublist_map_iff.mp (members_sublist hg)
      exact ⟨us, hus, hmembers, exists_ofGroup_words_iff (fun w hmem => hw w (hus.subset hmem))
        (fun w hmem => hk w (hus.subset hmem)) ih (shared_groups _ g hg) hmembers⟩
    rw [exists_joinWithin_succ_iff]
    constructor
    · rintro ⟨flat, hflat, hall⟩
      obtain ⟨rfl, hne⟩ := (flatten_words_eq_ok hw).mp hflat
      rw [List.pairwise_iff_forall_sublist] at hne ⊢
      intro u v huv
      cases hshare : (chain u).sharesHead (chain v) with
      | false =>
        rw [begins_eq, hshare, List.isEmpty_eq_false_iff.mpr (hne huv)]
        rfl
      | true =>
        obtain ⟨g, hg, hpair⟩ := exists_group_of_sharesHead hw huv hshare
        obtain ⟨us, hus, hmembers, hiff⟩ := hgroup g hg
        exact List.pairwise_iff_forall_sublist.mp (hiff.mp (hall g hg)) (hpair us hus hmembers)
    · intro h
      refine ⟨_, (flatten_words_eq_ok hw).mpr ⟨rfl, hadmitted h⟩, fun g hg => ?_⟩
      obtain ⟨us, hus, -, hiff⟩ := hgroup g hg
      exact hiff.mpr (h.sublist hus)

/-- Branches that are in normal form and no choices come out of a choice as
they are. -/
theorem branches_alternative_of_normal {bs : List Node} (hne : bs ≠ [])
    (h : ∀ b ∈ bs, b.Normal ∧ b.isChoice = false) :
    branches rule (alternative bs) = .ok bs := by
  have hself : ∀ {b : Node}, b.Normal ∧ b.isChoice = false → branches rule b = .ok [b] := by
    rintro b ⟨hnormal, hchoice⟩
    rw [branches_of_normal rule hnormal, branches_of_not_choice hchoice]
  fun_induction alternative bs with
  | case1 => exact absurd rfl hne
  | case2 n => exact hself (h n List.mem_cons_self)
  | case3 n m r ih =>
    refine Outcome.bind_eq_ok.mpr ⟨[n], hself (h n List.mem_cons_self), ?_⟩
    refine Outcome.bind_eq_ok.mpr ⟨m :: r, ih (List.cons_ne_nil m r) fun b hb => ?_, rfl⟩
    exact h b (List.mem_cons_of_mem n hb)

/-- Words are branches in normal form, and no choices. -/
theorem normal_of_mem_chains {ws : List Word} (hw : ∀ w ∈ ws, ∀ e ∈ w, e.isLetter = true) :
    ∀ n ∈ ws.map chain, n.Normal ∧ n.isChoice = false :=
  List.forall_mem_map.mpr fun w hmem =>
    ⟨normal_chain_of_letters (hw w hmem), isChoice_chain (hw w hmem)⟩

/-- **A choice between two words or more is factored by joining them**, as
they are. -/
theorem node_chains {u v : Word} {ws : List Word}
    (hw : ∀ w ∈ u :: v :: ws, ∀ e ∈ w, e.isLetter = true) :
    node rule (alternative ((u :: v :: ws).map chain))
      = join rule ((u :: v :: ws).map chain) := by
  have hne : (u :: v :: ws).map chain ≠ [] := List.cons_ne_nil _ _
  unfold node
  rw [branches_alternative_of_normal hne (normal_of_mem_chains hw)]
  rfl

/-- No word is longer than the choice is high. -/
theorem length_le_height {ws : List Word} (hw : ∀ w ∈ ws, ∀ e ∈ w, e.isLetter = true) :
    ∀ w ∈ ws, w.length ≤ (alternative (ws.map chain)).height := by
  intro w hmem
  rw [← height_chain (hw w hmem)]
  exact height_le_alternative (List.mem_map_of_mem hmem)

/-- **A choice between words can be factored exactly if none of them begins a
later one.** -/
theorem exists_node_iff {ws : List Word} (hw : ∀ w ∈ ws, ∀ e ∈ w, e.isLetter = true) :
    (∃ m, node rule (alternative (ws.map chain)) = .ok m)
      ↔ ws.Pairwise fun u v => Word.begins u v = false := by
  match ws, hw with
  | [], _ => exact iff_of_true ⟨_, rfl⟩ .nil
  | [w], hw =>
    exact iff_of_true ⟨_, node_of_normal rule (normal_of_mem_chains hw _ List.mem_cons_self).1⟩
      (List.pairwise_singleton _ _)
  | u :: v :: ws, hw =>
    rw [node_chains hw]
    exact exists_joinWithin_iff hw (length_le_height hw)

end Factor

/-- **A choice between words is refused exactly if one of them begins a later
one.** The words may be of any letters and any length, empty ones and
equal ones among them. The defect is always a malformed choice, in the
rule itself. -/
theorem Rule.factored_eq_error_iff {target : String} {alternatives : List Word} {d : Defect}
    (hletters : ∀ w ∈ alternatives, ∀ e ∈ w, e.isLetter = true) :
    (Rule.choosing target alternatives).factored = .error d
      ↔ d = .malformed target
        ∧ ∃ u v, [u, v].Sublist alternatives ∧ Word.begins u v = true := by
  have hbody : (Rule.choosing target alternatives).body
      = .alternative (alternatives.map .chain) := by
    show Node.alternative _ = _
    rw [List.map_congr_left fun w hw => Node.sequence_of_letters (hletters w hw)]
  have hrefused : (∃ u v, [u, v].Sublist alternatives ∧ Word.begins u v = true)
      ↔ ¬ ∃ m, Factor.node target (.alternative (alternatives.map .chain)) = .ok m := by
    rw [Factor.exists_node_iff hletters, List.pairwise_iff_forall_sublist]
    constructor
    · rintro ⟨u, v, huv, hbegins⟩ hnone
      exact Bool.false_ne_true ((hnone huv).symm.trans hbegins)
    · intro hsome
      by_contra hnone
      exact hsome fun {u v} huv => Bool.eq_false_iff.mpr fun h => hnone ⟨u, v, huv, h⟩
  rw [hrefused]
  constructor
  · intro h
    rcases Outcome.bind_eq_error.mp h with h | ⟨body, -, h⟩
    · refine ⟨Factor.node_eq_error h, ?_⟩
      rintro ⟨m, hm⟩
      rw [hbody] at h
      exact nomatch h.symm.trans hm
    · cases h
  · rintro ⟨rfl, hnone⟩
    refine Outcome.bind_eq_error.mpr (.inl ?_)
    rw [hbody]
    show Factor.node target _ = _
    cases hrun : Factor.node target (.alternative (alternatives.map .chain)) with
    | ok m => exact absurd ⟨m, hrun⟩ hnone
    | error e => rw [Factor.node_eq_error hrun]

/-- A short word. -/
def Word.stem : Word := [.literal "a", .reserved "B"]

/-- The short word and one step more. -/
def Word.branch : Word := Word.stem ++ [.directive ⟨.precedence, [.number "1"]⟩]

/-- Two words far apart: those between them begin as they may do, up to an
action, or do not. The empty word is the last. -/
def Word.around (first last : Word) : List Word :=
  [first, [.rule "c"], [.literal "a", .action (.atom .number "1")],
    [.literal "a", .action (.atom .number "1")], last, []]

/-- The shorter word hides the longer one if it comes before it, and is no
trouble if it comes after it. Words with an action in them hide nothing,
not even what is equal to them. -/
theorem Rule.factored_eq_error_around :
    (∀ w ∈ Word.around .stem .branch, ∀ e ∈ w, e.isLetter = true)
      ∧ (Rule.choosing "r" (Word.around .stem .branch)).factored = .error (.malformed "r")
      ∧ (∀ w ∈ Word.around .branch .stem, ∀ e ∈ w, e.isLetter = true)
      ∧ ∀ d, (Rule.choosing "r" (Word.around .branch .stem)).factored ≠ .error d := by
  refine ⟨by decide, ?_, by decide, fun d h => ?_⟩
  · refine (Rule.factored_eq_error_iff (by decide)).mpr ⟨rfl, .stem, .branch, ?_, by decide⟩
    exact ((List.nil_sublist _).cons_cons _).cons _ |>.cons _ |>.cons _ |>.cons_cons _
  · obtain ⟨-, u, v, huv, hbegins⟩ := (Rule.factored_eq_error_iff (by decide)).mp h
    have hnone : (Word.around .branch .stem).Pairwise fun u v => Word.begins u v = false := by
      decide
    exact Bool.false_ne_true
      ((List.pairwise_iff_forall_sublist.mp hnone huv).symm.trans hbegins)

end Descent
