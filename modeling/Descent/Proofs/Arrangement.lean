import Descent.Proofs.Shadowing
import Mathlib.Data.List.FinRange

/-!
# The order in which factoring leaves words

A parser tries the branches of a choice in their order, so it matters
that factoring keeps the order in which an author wrote them, as far as
it can. Words that share a step are brought together, and what comes
between them has to move. What decides on the order of two words is where
they part: **the word goes first whose next step was taken first**, by
itself or by some word that has the same steps up to there
(`Word.Precedes`). A word that has no next step goes last.

The order is one of occurrences and not of words. An action is a step of
the word that it stands in and of no other, so a choice may well have a
word twice that ends in an action, and the two stay apart. That is why
words are told apart by labels here, and in the main result by their
places (`Rule.words_factored_order`).

Grouping is stable, and one level of it is all there is to look at. A
group takes its place from its first member, and it is joined from what is
left of its members, in their order; so what the order says of the tails
within the group it says of the words among all words
(`Word.Precedes.of_filter`).
-/

namespace Descent

namespace Word

/-! ## Where words part -/

/-- **How many steps two words have in common** before they part. -/
def common : Word → Word → Nat
  | a :: u, b :: v => if a.sharesHead b then common u v + 1 else 0
  | _, _ => 0

section

variable {ι : Type} [DecidableEq ι]

/-- **Whether a word takes the first `k` steps of another one.** Each word
takes its own steps, and no word takes an action of another one. -/
def along (word : ι → Word) (i : ι) (k : Nat) (l : ι) : Bool :=
  l = i || begins ((word i).take k) (word l)

/-- **The place of the first word that takes the first `k` steps of the word
`i`.** -/
def foremost (labels : List ι) (word : ι → Word) (i : ι) (k : Nat) : Nat :=
  labels.findIdx (along word i k)

/-- **The order that factoring leaves words in.** The word `i` has a next
step where the two part, and if the word `j` has one too, then the first
word with the same steps as `i` up to and with its next one stands before
the first word with the same steps as `j`. -/
def Precedes (labels : List ι) (word : ι → Word) (i j : ι) : Prop :=
  common (word i) (word j) < (word i).length
    ∧ (common (word i) (word j) < (word j).length →
      foremost labels word i (common (word i) (word j) + 1)
        < foremost labels word j (common (word i) (word j) + 1))

instance (labels : List ι) (word : ι → Word) (i j : ι) : Decidable (Precedes labels word i j) :=
  inferInstanceAs (Decidable (_ ∧ _))

end

/-- Whether two words begin with the same step. -/
def shares (u v : Word) : Bool := (Node.chain u).sharesHead (Node.chain v)

theorem shares_cons (a b : Node) (u v : Word) : shares (a :: u) (b :: v) = a.sharesHead b := by
  unfold shares Node.sharesHead
  rw [Node.lead_chain, Node.lead_chain]

theorem shares_comm (u v : Word) : shares u v = shares v u :=
  Node.sharesHead_comm _ _

/-- What shares its first step with a word begins as that does. -/
theorem shares_congr {u v : Word} (h : shares u v = true) (w : Word) : shares u w = shares v w := by
  rw [shares_comm u w, shares_comm v w]
  exact Factor.sharesHead_congr h (Node.chain w)

/-- Words that begin with the same step have a first letter. -/
theorem exists_of_shares {u v : Word} (h : shares u v = true) :
    ∃ a u' b v', u = a :: u' ∧ v = b :: v' ∧ a.sharesHead b = true := by
  cases u with
  | nil => exact absurd rfl (Node.lead_ne_empty_of_sharesHead h)
  | cons a u =>
    cases v with
    | nil => exact absurd rfl (Node.lead_ne_empty_of_sharesHead ((shares_comm _ _).symm.trans h))
    | cons b v => exact ⟨a, u, b, v, rfl, rfl, (shares_cons a b u v).symm.trans h⟩

/-- If they are words of letters, it is one and the same letter. -/
theorem eq_cons_of_shares {u v : Word} (hu : ∀ e ∈ u, e.isLetter = true)
    (hv : ∀ e ∈ v, e.isLetter = true) (h : shares u v = true) :
    ∃ a, a.isLetter = true ∧ u = a :: u.tail ∧ v = a :: v.tail := by
  obtain ⟨a, u, b, v, rfl, rfl, hab⟩ := exists_of_shares h
  have hlead : ∀ {e : Node}, e.isLetter = true → e.lead = e := fun he =>
    Node.lead_of_not_isSequence (Node.single_of_isLetter he).isSequence
  have ha := hu a List.mem_cons_self
  have heq := Node.eq_of_sameStep hab
  rw [hlead ha, hlead (hv b List.mem_cons_self)] at heq
  exact ⟨a, ha, rfl, heq ▸ rfl⟩

theorem common_of_shares {u v : Word} (h : shares u v = true) :
    common u v = common u.tail v.tail + 1 := by
  obtain ⟨a, u, b, v, rfl, rfl, hab⟩ := exists_of_shares h
  exact if_pos hab

theorem common_of_not_shares {u v : Word} (h : shares u v = false) : common u v = 0 := by
  cases u with
  | nil => rfl
  | cons a u =>
    cases v with
    | nil => rfl
    | cons b v =>
      rw [shares_cons] at h
      exact if_neg (Bool.eq_false_iff.mp h)

theorem common_comm (u v : Word) : common u v = common v u := by
  induction u generalizing v with
  | nil =>
    cases v with
    | nil => rfl
    | cons b v => rfl
  | cons a u ih =>
    cases v with
    | nil => rfl
    | cons b v =>
      unfold common
      rw [Node.sharesHead_comm a b, ih v]

/-- The first steps of a word begin another one if the two share the first
step, and the other steps begin what is left. -/
theorem begins_take_succ {u : Word} (h : u ≠ []) (v : Word) (k : Nat) :
    begins (u.take (k + 1)) v = (shares u v && begins (u.tail.take k) v.tail) := by
  obtain ⟨a, u, rfl⟩ := List.exists_cons_of_ne_nil h
  cases v with
  | nil =>
    have hnone : shares (a :: u) [] = false := by
      refine Bool.eq_false_iff.mpr fun hshare => ?_
      obtain ⟨_, _, _, _, -, hnil, -⟩ := exists_of_shares hshare
      cases hnil
    rw [hnone]
    rfl
  | cons b v =>
    rw [shares_cons]
    rfl

/-! ## The order in a part of the words -/

/-- **Which of two tests is passed first does not depend on what fails
both.** -/
theorem findIdx_filter_lt_iff {α : Type} {p q p' q' r : α → Bool} {xs : List α}
    (hp : ∀ x ∈ xs, p' x = (r x && p x)) (hq : ∀ x ∈ xs, q' x = (r x && q x)) :
    (xs.filter r).findIdx p < (xs.filter r).findIdx q ↔ xs.findIdx p' < xs.findIdx q' := by
  induction xs with
  | nil => rfl
  | cons x xs ih =>
    obtain ⟨hpx, hp⟩ := List.forall_mem_cons.mp hp
    obtain ⟨hqx, hq⟩ := List.forall_mem_cons.mp hq
    have ih := ih hp hq
    rw [List.findIdx_cons, List.findIdx_cons, hpx, hqx]
    cases hr : r x with
    | false =>
      rw [List.filter_cons_of_neg (by rw [hr]; exact Bool.false_ne_true)]
      simpa using ih
    | true =>
      rw [List.filter_cons_of_pos hr, List.findIdx_cons, List.findIdx_cons]
      cases p x with
      | true => cases q x <;> simp
      | false => cases q x <;> simp [ih]

section

variable {ι : Type} [DecidableEq ι] {labels : List ι} {word word' : ι → Word} {r : ι → Bool}
  {d : Nat} {i j : ι}

/-- **A word seen from within a part of the words**, of which the first `d`
steps are left out: it takes as many steps less, and what takes its steps
is in the part. -/
structure Within (labels : List ι) (r : ι → Bool) (d : Nat) (word word' : ι → Word) (i : ι) :
    Prop where
  length : (word i).length = (word' i).length + d
  along {k : Nat} (hk : k < (word' i).length) {l : ι} (hl : l ∈ labels) :
    along word i (k + d + 1) l = (r l && along word' i (k + 1) l)

/-- **What the order says within the part it says of the words.** -/
theorem Precedes.of_filter (hi : Within labels r d word word' i)
    (hj : Within labels r d word word' j)
    (hcommon : common (word i) (word j) = common (word' i) (word' j) + d)
    (h : Precedes (labels.filter r) word' i j) : Precedes labels word i j := by
  obtain ⟨hlength, hfirst⟩ := h
  unfold Precedes
  rw [hcommon, hi.length, hj.length]
  refine ⟨Nat.add_lt_add_right hlength d, fun hmore => ?_⟩
  have hmore := Nat.lt_of_add_lt_add_right hmore
  exact (findIdx_filter_lt_iff (fun l hl => hi.along hlength hl)
    (fun l hl => hj.along hmore hl)).mp (hfirst hmore)

theorem Precedes.asymm (h : Precedes labels word i j) : ¬ Precedes labels word j i := by
  rintro ⟨hj, hji⟩
  obtain ⟨hi, hij⟩ := h
  rw [common_comm] at hj hji
  exact Nat.lt_asymm (hij hj) (hji hi)

/-- **Whether a word is grouped with the word `i`**: it is that word, or it
shares its first step. -/
def joins (word : ι → Word) (i l : ι) : Bool := l = i || shares (word i) (word l)

theorem joins_eq_true {l : ι} :
    joins word i l = true ↔ l = i ∨ shares (word i) (word l) = true := by
  unfold joins
  rw [Bool.or_eq_true, decide_eq_true_eq]

/-- Words that share their first step are grouped with the same words. -/
theorem joins_congr {l : ι} (h : shares (word j) (word l) = true) :
    joins word i j = joins word i l := by
  have hone : ∀ {j l : ι}, shares (word j) (word l) = true → joins word i j = true →
      joins word i l = true := by
    intro j l h hj
    refine joins_eq_true.mpr (.inr ?_)
    rcases joins_eq_true.mp hj with rfl | hj
    · exact h
    · exact (shares_congr hj (word l)).trans h
  exact Bool.eq_iff_iff.mpr ⟨hone h, hone ((shares_comm _ _).trans h)⟩

/-- **Words in the order that factoring leaves them in.** -/
def InOrder (labels : List ι) (word : ι → Word) (words : List Word) : Prop :=
  ∃ order : List ι, order.Perm labels ∧ words = order.map word
    ∧ order.Pairwise (Precedes labels word)

theorem inOrder_singleton (i : ι) (word : ι → Word) : InOrder [i] word [word i] :=
  ⟨[i], List.Perm.refl _, rfl, List.pairwise_singleton _ _⟩

/-- **Two parts that each are in order are in order**, if all of the one goes
before all of the other, and words that share their first step are in the
same part. -/
theorem InOrder.append {ws₁ ws₂ : List Word}
    (hr : ∀ i ∈ labels, ∀ j ∈ labels, shares (word i) (word j) = true → r i = r j)
    (h₁ : InOrder (labels.filter r) word ws₁) (h₂ : InOrder (labels.filter (!r ·)) word ws₂)
    (hcross : ∀ i ∈ labels, ∀ j ∈ labels, r i = true → r j = false → Precedes labels word i j) :
    InOrder labels word (ws₁ ++ ws₂) := by
  obtain ⟨order₁, hperm₁, rfl, hp₁⟩ := h₁
  obtain ⟨order₂, hperm₂, rfl, hp₂⟩ := h₂
  -- What takes the first step of a word is in the same part as the word.
  have hwithin : ∀ (s : ι → Bool),
      (∀ i ∈ labels, ∀ j ∈ labels, shares (word i) (word j) = true → s i = s j) →
      ∀ i ∈ labels.filter s, Within labels s 0 word word i := by
    intro s hs i hi
    obtain ⟨hmem, hsi⟩ := List.mem_filter.mp hi
    refine ⟨rfl, fun {k} hk {l} hl => ?_⟩
    refine (Bool.eq_iff_iff.mpr ⟨fun h => ?_, fun h => ((Bool.and_eq_true _ _).mp h).2⟩)
    refine (Bool.and_eq_true _ _).mpr ⟨?_, h⟩
    rcases (Bool.or_eq_true _ _).mp h with h | h
    · rw [of_decide_eq_true h]
      exact hsi
    · rw [Nat.add_zero, begins_take_succ (List.ne_nil_of_length_pos (Nat.zero_lt_of_lt hk)),
        Bool.and_eq_true] at h
      exact (hs i hmem l hl h.1).symm.trans hsi
  have hin₁ := hwithin r hr
  have hin₂ := hwithin (!r ·) fun i hi j hj h => congrArg (!·) (hr i hi j hj h)
  refine ⟨order₁ ++ order₂, ?_, (List.map_append ..).symm, List.pairwise_append.mpr ⟨?_, ?_, ?_⟩⟩
  · exact (hperm₁.append hperm₂).trans (List.filter_append_perm r labels)
  · exact hp₁.imp_of_mem fun hi hj h =>
      h.of_filter (hin₁ _ (hperm₁.subset hi)) (hin₁ _ (hperm₁.subset hj)) rfl
  · exact hp₂.imp_of_mem fun hi hj h =>
      h.of_filter (hin₂ _ (hperm₂.subset hi)) (hin₂ _ (hperm₂.subset hj)) rfl
  · intro i hi j hj
    obtain ⟨hi, hri⟩ := List.mem_filter.mp (hperm₁.subset hi)
    obtain ⟨hj, hrj⟩ := List.mem_filter.mp (hperm₂.subset hj)
    exact hcross i hi j hj hri (Bool.not_eq_true' _ ▸ hrj)

end

end Word

namespace Factor

open Node

/-! ## Joining words that have labels -/

section

variable {ι : Type} {rule : String} {word : ι → Word}

/-- The first label and those whose words share its first step make the first
group, and the others are grouped among themselves. -/
theorem groups_map_cons (word : ι → Word) (i : ι) (labels : List ι) :
    groups ((i :: labels).map fun l => chain (word l))
      = (chain (word i),
          (labels.filter fun l => Word.shares (word i) (word l)).map fun l => chain (word l))
        :: groups ((labels.filter fun l => !Word.shares (word i) (word l)).map
          fun l => chain (word l)) := by
  rw [List.map_cons, groups_cons, List.filter_map, List.filter_map]
  rfl

theorem flatten_labels_eq_ok {labels : List ι} {flat : List Node}
    (hletters : ∀ i ∈ labels, ∀ e ∈ word i, e.isLetter = true)
    (h : flatten rule (labels.map fun l => chain (word l)) = .ok flat) :
    flat = labels.map (fun l => chain (word l)) ∧ labels.Pairwise fun l _ => word l ≠ [] := by
  have hmap : (labels.map fun l => chain (word l)) = (labels.map word).map chain :=
    (List.map_map ..).symm
  rw [hmap] at h ⊢
  obtain ⟨heq, hp⟩ := (flatten_words_eq_ok (List.forall_mem_map.mpr hletters)).mp h
  exact ⟨heq, List.pairwise_map.mp hp⟩

variable [DecidableEq ι]

/-- **A group of words is joined in order**, if what is left of its members
is. -/
theorem ofGroup_inOrder {k : Nat} {first : ι} {others : List ι} {b : Node}
    (hletters : ∀ i ∈ first :: others, ∀ e ∈ word i, e.isLetter = true)
    (hshares : ∀ i ∈ others, Word.shares (word first) (word i) = true)
    (hself : ∀ {m : Node},
      joinWithin rule k ((first :: others).map fun l => chain (word l).tail) = .ok m →
        Word.InOrder (first :: others) (fun l => (word l).tail) m.words)
    (h : ofGroup (joinWithin rule k)
      (chain (word first), others.map fun l => chain (word l)) = .ok b) :
    Word.InOrder (first :: others) word b.words := by
  cases others with
  | nil =>
    obtain rfl := Except.ok.inj h
    rw [words_chain_of_letters (hletters first List.mem_cons_self)]
    exact Word.inOrder_singleton first word
  | cons second others =>
    obtain ⟨tail, htail, h⟩ := Outcome.bind_eq_ok.mp h
    obtain rfl := Except.ok.inj h
    set labels := first :: second :: others
    have hfirst : first ∈ labels := List.mem_cons_self
    have hsecond : second ∈ labels := List.mem_cons_of_mem _ List.mem_cons_self
    obtain ⟨a, ha, hcons, hcons'⟩ := Word.eq_cons_of_shares (hletters first hfirst)
      (hletters second hsecond) (hshares second List.mem_cons_self)
    have haa : a.sharesHead a = true := by
      have h := hshares second List.mem_cons_self
      rwa [hcons, hcons', Word.shares_cons] at h
    -- All words begin with the letter of the first one.
    have hword : ∀ i ∈ labels, word i = a :: (word i).tail := by
      intro i hi
      rcases List.mem_cons.mp hi with rfl | hmem
      · exact hcons
      · obtain ⟨c, -, hc, hi⟩ := Word.eq_cons_of_shares (hletters first hfirst) (hletters i hi)
          (hshares i hmem)
        rw [hcons] at hc
        obtain ⟨rfl, -⟩ := List.cons.inj hc
        exact hi
    have hall : ∀ i ∈ labels, ∀ j ∈ labels, Word.shares (word i) (word j) = true := by
      intro i hi j hj
      rw [hword i hi, hword j hj, Word.shares_cons]
      exact haa
    have hin : ∀ i ∈ labels,
        Word.Within labels (fun _ => true) 1 word (fun l => (word l).tail) i := by
      intro i hi
      refine ⟨congrArg List.length (hword i hi), fun {k} _ {l} hl => ?_⟩
      have hne : word i ≠ [] := fun hnil => nomatch (hword i hi).symm.trans hnil
      unfold Word.along
      rw [Word.begins_take_succ hne, hall i hi l hl, Bool.true_and, Bool.true_and]
    have hremainders : (labels.map fun l => chain (word l)).map remainder
        = labels.map fun l => chain (word l).tail := by
      rw [List.map_map]
      exact List.map_congr_left fun i hi => remainder_chain (hletters i hi)
    obtain ⟨order, hperm, hwords, hp⟩ := hself (hremainders ▸ htail)
    refine ⟨order, hperm, ?_, hp.imp_of_mem fun {i j} hi hj h => ?_⟩
    · have hhead : (chain (word first)).head = a := by
        rw [← (normal_chain_of_letters (hletters first hfirst)).spliced.lead_eq_head, hcons,
          lead_chain, lead_of_not_isSequence (single_of_isLetter ha).isSequence]
      rw [words_sequence, wordsAll_cons, wordsAll_cons, wordsAll_nil, Word.concat_unit, hhead,
        (single_of_isLetter ha).words, hwords, Word.cons_concat, Word.nil_concat,
        List.append_nil, List.map_map]
      exact List.map_congr_left fun i hi => (hword i (hperm.subset hi)).symm
    · have hi := hperm.subset hi
      have hj := hperm.subset hj
      refine Word.Precedes.of_filter (hin i hi) (hin j hj)
        (Word.common_of_shares (hall i hi j hj)) ?_
      rw [List.filter_true]
      exact h

/-- The first word and all that are grouped with it go before the others, if
only the last word may be empty. -/
theorem precedes_of_first {i : ι} {labels : List ι}
    (hne : (i :: labels).Pairwise fun l _ => word l ≠ []) {j l : ι} (hl : l ∈ i :: labels)
    (hj : Word.joins word i j = true) (hout : Word.joins word i l = false) :
    Word.Precedes (i :: labels) word j l := by
  obtain ⟨hli, hshares⟩ : l ≠ i ∧ Word.shares (word i) (word l) = false := by
    rwa [Word.joins, Bool.or_eq_false_iff, decide_eq_false_iff_not] at hout
  have hmem : l ∈ labels := (List.mem_cons.mp hl).resolve_left hli
  have hjl : Word.shares (word j) (word l) = false := by
    refine Bool.eq_false_iff.mpr fun h => ?_
    rw [Word.joins_congr h, hout] at hj
    cases hj
  replace hj := Word.joins_eq_true.mp hj
  have hnonempty : word j ≠ [] := by
    rcases hj with rfl | hj
    · exact (List.pairwise_cons.mp hne).1 l hmem
    · obtain ⟨_, _, _, _, -, hcons, -⟩ := Word.exists_of_shares hj
      exact fun hnil => nomatch hcons.symm.trans hnil
  unfold Word.Precedes
  rw [Word.common_of_not_shares hjl]
  refine ⟨List.length_pos_iff.mpr hnonempty, fun hlong => ?_⟩
  have hfirst : Word.along word j 1 i = true := by
    unfold Word.along
    rw [Word.begins_take_succ hnonempty, Bool.or_eq_true]
    rcases hj with rfl | hj
    · exact .inl (decide_eq_true rfl)
    · rw [Word.shares_comm, hj]
      exact .inr rfl
  have hother : Word.along word l 1 i = false := by
    unfold Word.along
    rw [Word.begins_take_succ (List.length_pos_iff.mp hlong), Word.shares_comm, hshares,
      decide_eq_false (Ne.symm hli)]
    rfl
  unfold Word.foremost
  rw [List.findIdx_cons, List.findIdx_cons, hfirst, hother]
  exact Nat.succ_pos _

/-- **Groups of words are joined in order**, if what is left of the members of
each is. -/
theorem inOrder_of_groups {k : Nat} {labels : List ι} {joined : List Node}
    (hnodup : labels.Nodup) (hletters : ∀ i ∈ labels, ∀ e ∈ word i, e.isLetter = true)
    (hne : labels.Pairwise fun l _ => word l ≠ [])
    (hself : ∀ {part : List ι} {m : Node}, part.Sublist labels → part ≠ [] →
      joinWithin rule k (part.map fun l => chain (word l).tail) = .ok m →
        Word.InOrder part (fun l => (word l).tail) m.words)
    (h : List.Forall₂ (fun g b => ofGroup (joinWithin rule k) g = .ok b)
      (groups (labels.map fun l => chain (word l))) joined) :
    Word.InOrder labels word (joined.flatMap words) := by
  induction hlength : labels.length using Nat.strongRecOn generalizing labels joined with
  | _ n ih =>
    cases labels with
    | nil =>
      obtain rfl := List.forall₂_nil_left_iff.mp h
      exact ⟨[], List.Perm.refl _, rfl, .nil⟩
    | cons i rest =>
      rw [groups_map_cons] at h
      obtain ⟨b, joined, hb, hjoined, rfl⟩ := List.forall₂_cons_left_iff.mp h
      obtain ⟨hi, hrest⟩ := List.nodup_cons.mp hnodup
      -- The first group and the others, as two parts of all labels.
      have hjoins : ∀ l ∈ rest, Word.joins word i l = Word.shares (word i) (word l) := by
        intro l hl
        have hli : l ≠ i := by
          rintro rfl
          exact hi hl
        rw [Word.joins, decide_eq_false hli, Bool.false_or]
      have hfirst : Word.joins word i i = true := Word.joins_eq_true.mpr (.inl rfl)
      have hgroup : (i :: rest).filter (Word.joins word i)
          = i :: rest.filter fun l => Word.shares (word i) (word l) := by
        rw [List.filter_cons_of_pos hfirst, List.filter_congr hjoins]
      have hothers : (i :: rest).filter (!Word.joins word i ·)
          = rest.filter fun l => !Word.shares (word i) (word l) := by
        rw [List.filter_cons_of_neg (by rw [hfirst]; exact Bool.false_ne_true)]
        exact List.filter_congr fun l hl => congrArg (!·) (hjoins l hl)
      have hsub : (i :: rest.filter fun l => Word.shares (word i) (word l)).Sublist
          (i :: rest) := List.filter_sublist.cons_cons i
      have hsub' : (rest.filter fun l => !Word.shares (word i) (word l)).Sublist (i :: rest) :=
        List.filter_sublist.cons i
      rw [List.flatMap_cons]
      refine Word.InOrder.append (r := Word.joins word i) (fun j _ l _ => Word.joins_congr)
        ?_ ?_ (fun j _ l hl => precedes_of_first hne hl)
      · rw [hgroup]
        exact ofGroup_inOrder (fun j hj => hletters j (hsub.subset hj))
          (fun j hj => (List.mem_filter.mp hj).2) (hself hsub (List.cons_ne_nil _ _)) hb
      · rw [hothers]
        have hshorter := List.length_filter_le (fun l => !Word.shares (word i) (word l)) rest
        rw [List.length_cons] at hlength
        exact ih _ (by omega) (hnodup.sublist hsub') (fun j hj => hletters j (hsub'.subset hj))
          (hne.sublist hsub') (fun hpart => hself (hpart.trans hsub')) hjoined rfl

/-- **Words are joined in order.** -/
theorem joinWithin_inOrder {k : Nat} {labels : List ι} {m : Node} (hnodup : labels.Nodup)
    (hletters : ∀ i ∈ labels, ∀ e ∈ word i, e.isLetter = true)
    (hk : ∀ i ∈ labels, (word i).length ≤ k) (hne : labels ≠ [])
    (h : joinWithin rule k (labels.map fun l => chain (word l)) = .ok m) :
    Word.InOrder labels word m.words := by
  induction k generalizing labels word m with
  | zero =>
    obtain ⟨flat, hflat, h⟩ := Outcome.bind_eq_ok.mp h
    obtain ⟨rfl, hp⟩ := flatten_labels_eq_ok hletters hflat
    obtain rfl := Except.ok.inj h
    -- All words are empty, so there is no second one.
    match labels, hne with
    | [i], _ =>
      show Word.InOrder [i] word (chain (word i)).words
      rw [words_chain_of_letters (hletters i List.mem_cons_self)]
      exact Word.inOrder_singleton i word
    | i :: j :: rest, _ =>
      have hi := (List.pairwise_cons.mp hp).1 j List.mem_cons_self
      exact absurd (List.length_eq_zero_iff.mp (Nat.le_zero.mp (hk i List.mem_cons_self))) hi
  | succ k ih =>
    obtain ⟨flat, hflat, h⟩ := Outcome.bind_eq_ok.mp h
    obtain ⟨rfl, hp⟩ := flatten_labels_eq_ok hletters hflat
    obtain ⟨joined, hjoined, h⟩ := Outcome.bind_eq_ok.mp h
    obtain rfl := Except.ok.inj h
    have hgroups := Outcome.mapM_eq_ok.mp hjoined
    have hjoined_ne : joined ≠ [] := by
      rintro rfl
      obtain ⟨i, rest, rfl⟩ := List.exists_cons_of_ne_nil hne
      rw [groups_map_cons] at hgroups
      cases hgroups
    rw [words_alternative hjoined_ne]
    refine inOrder_of_groups hnodup hletters hp (fun {part m} hpart hne hm => ?_) hgroups
    refine ih (hnodup.sublist hpart) (fun i hi e he => ?_) (fun i hi => ?_) hne hm
    · exact hletters i (hpart.subset hi) e (List.mem_of_mem_tail he)
    · have := hk i (hpart.subset hi)
      rw [List.length_tail]
      omega

end

/-- **A choice between words is factored in order.** -/
theorem node_inOrder {rule : String} {ws : List Word} {m : Node} (hne : ws ≠ [])
    (hw : ∀ w ∈ ws, ∀ e ∈ w, e.isLetter = true)
    (h : node rule (alternative (ws.map chain)) = .ok m) :
    Word.InOrder (List.finRange ws.length) ws.get m.words := by
  match ws, hne, hw, h with
  | [w], _, hw, h =>
    rw [show alternative ([w].map chain) = chain w from rfl,
      node_of_normal rule (normal_of_mem_chains hw _ List.mem_cons_self).1] at h
    obtain rfl := Except.ok.inj h
    rw [words_chain_of_letters (hw w List.mem_cons_self)]
    exact Word.inOrder_singleton 0 [w].get
  | u :: v :: ws, _, hw, h =>
    rw [node_chains hw] at h
    have hk := length_le_height hw
    unfold join at h
    generalize (alternative ((u :: v :: ws).map chain)).height = k at h hk
    have hlabels : (u :: v :: ws).map chain
        = (List.finRange (u :: v :: ws).length).map fun i => chain ((u :: v :: ws).get i) :=
      (congrArg (List.map chain) (List.map_get_finRange _)).symm.trans (List.map_map ..)
    rw [hlabels] at h
    refine joinWithin_inOrder (List.nodup_finRange _) (fun i _ => hw _ (List.get_mem _ i))
      (fun i _ => hk _ (List.get_mem _ i)) ?_ h
    exact List.ne_nil_of_mem (List.mem_finRange ⟨0, Nat.succ_pos _⟩)

end Factor

/-- A rule that offers words offers them as they are. -/
theorem Rule.body_choosing {target : String} {alternatives : List Word}
    (h : ∀ w ∈ alternatives, ∀ e ∈ w, e.isLetter = true) :
    (Rule.choosing target alternatives).body = .alternative (alternatives.map .chain) := by
  show Node.alternative _ = _
  rw [List.map_congr_left fun w hw => Node.sequence_of_letters (h w hw)]

/-- **Factoring keeps the order of words as far as grouping allows.** The words
of the factored body, as the tree meets them, are the alternatives in some
order of their places, each once. One of two alternatives comes before the
other exactly if it goes on where the two part, and the other one does not
or goes on with a step that was taken later. -/
theorem Rule.words_factored_order {target : String} {alternatives : List Word} {m : Rule}
    (hletters : ∀ w ∈ alternatives, ∀ e ∈ w, e.isLetter = true) (hne : alternatives ≠ [])
    (h : (Rule.choosing target alternatives).factored = .ok m) :
    ∃ order : List (Fin alternatives.length),
      order.Perm (List.finRange alternatives.length)
        ∧ m.body.words = order.map alternatives.get
        ∧ ∀ i j, [i, j].Sublist order
          ↔ Word.Precedes (List.finRange alternatives.length) alternatives.get i j := by
  have hnode := (Rule.factored_eq_ok.mp h).2
  rw [Rule.body_choosing hletters] at hnode
  obtain ⟨order, hperm, hwords, hp⟩ := Factor.node_inOrder hne hletters hnode
  refine ⟨order, hperm, hwords, fun i j => ⟨List.pairwise_iff_forall_sublist.mp hp, fun hij => ?_⟩⟩
  -- Both are in the list, so they are in one order or the other.
  have hmem : ∀ l, l ∈ order := fun l => hperm.mem_iff.mpr (List.mem_finRange l)
  have hne : j ≠ i := by
    rintro rfl
    exact hij.asymm hij
  obtain ⟨before, behind, heq⟩ := List.append_of_mem (hmem i)
  have hj := hmem j
  rw [heq, List.mem_append, List.mem_cons] at hj
  rcases hj with hj | rfl | hj
  · have hji : [j, i].Sublist order := by
      rw [heq]
      exact (List.singleton_sublist.mpr hj).append
        ((List.nil_sublist behind).cons_cons i)
    exact absurd (List.pairwise_iff_forall_sublist.mp hp hji) hij.asymm
  · exact absurd rfl hne
  · rw [heq]
    exact (((List.singleton_sublist.mpr hj).cons_cons i).trans (List.sublist_append_right _ _))

/-- Words that share their steps with words far from them, one of them twice
because of its action, and the empty word. -/
def Word.scattered : List Word :=
  [[.literal "a", .reserved "X", .rule "z"],
    [.literal "b"],
    [.literal "a", .rule "y", .action (.atom .number "1")],
    [.rule "c"],
    [.literal "a", .reserved "X"],
    [.literal "a", .rule "y", .action (.atom .number "1")],
    [.literal "a"],
    []]

/-- The words with the first one's step come to the front, those with its
second step first, and words that are exhausted come last among those that
begin as they do. -/
theorem Rule.words_factored_order_scattered :
    ∃ m : Rule, (Rule.choosing "r" Word.scattered).factored = .ok m
      ∧ m.body.words = [0, 4, 2, 5, 6, 1, 3, 7].filterMap (Word.scattered[·]?)
      ∧ ∃ order : List (Fin Word.scattered.length),
        order.Perm (List.finRange Word.scattered.length)
          ∧ m.body.words = order.map Word.scattered.get
          ∧ ∀ i j, [i, j].Sublist order
            ↔ Word.Precedes (List.finRange Word.scattered.length) Word.scattered.get i j :=
  ⟨_, rfl, by decide, Rule.words_factored_order (by decide) (List.cons_ne_nil _ _) rfl⟩

end Descent
