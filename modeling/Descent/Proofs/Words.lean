import Descent.Grammar.Node
import Mathlib.Data.List.Perm.Basic

/-!
# The words of a body

A body without its choices and its nesting is a list of **words**: each
word is one way through the body, the elements met on that way in order.
A choice offers the words of both sides, a sequence every word of its
head followed by every word of its tail, the empty body the empty word,
and everything else is the one letter that it is. References, calls and
actions are letters; nothing is looked up.

Words are listed with repetitions, in the order in which the tree meets
them. The constructors of canonical trees do not touch the list at all
(`words_sequence`, `words_alternative`), so whatever changes it – left
factoring does – changes it by what it does to the branches.
-/

namespace Descent

/-- **A way through a body**: the elements met, in order. -/
abbrev Word := List Node

/-- **One of these words and then one of those**, in every combination. -/
def Word.concat (us vs : List Word) : List Word :=
  us.flatMap (fun u => vs.map (fun v => u ++ v))

/-- **The words of a body**, with repetitions. -/
def Node.words : Node → List Word
  | .seq h t => Word.concat h.words t.words
  | .lone h => h.words
  | .alt l r => l.words ++ r.words
  | .empty => [[]]
  | n => [[n]]

/-! ## Words one after the other -/

namespace Word

@[simp] theorem nil_concat (vs : List Word) : concat [] vs = [] := rfl

@[simp] theorem cons_concat (u : Word) (us vs : List Word) :
    concat (u :: us) vs = vs.map (fun v => u ++ v) ++ concat us vs := rfl

theorem mem_concat {us vs : List Word} {w : Word} :
    w ∈ concat us vs ↔ ∃ u ∈ us, ∃ v ∈ vs, u ++ v = w := by
  unfold concat
  rw [List.mem_flatMap]
  simp only [List.mem_map]

/-- The empty word in front adds nothing. -/
@[simp] theorem unit_concat (vs : List Word) : concat [[]] vs = vs := by
  rw [cons_concat, nil_concat, List.append_nil]
  exact List.map_id vs

/-- The empty word behind adds nothing. -/
@[simp] theorem concat_unit (us : List Word) : concat us [[]] = us := by
  induction us with
  | nil => rfl
  | cons u us ih =>
    rw [cons_concat, ih, List.map_singleton, List.append_nil]
    rfl

theorem append_concat (us us' vs : List Word) :
    concat (us ++ us') vs = concat us vs ++ concat us' vs :=
  List.flatMap_append

theorem concat_assoc (us vs ws : List Word) :
    concat (concat us vs) ws = concat us (concat vs ws) := by
  induction us with
  | nil => rfl
  | cons u us ih =>
    rw [cons_concat, append_concat, ih, cons_concat]
    refine congrArg (· ++ concat us (concat vs ws)) ?_
    unfold concat
    rw [List.flatMap_map, List.map_flatMap]
    refine List.flatMap_congr (fun v _ => ?_)
    rw [List.map_map]
    refine List.map_congr_left (fun w _ => ?_)
    exact List.append_assoc u v w

/-- **Concatenation does not see the order of words.** -/
theorem concat_perm {us us' vs vs' : List Word} (hu : us.Perm us') (hv : vs.Perm vs') :
    (concat us vs).Perm (concat us' vs') :=
  hu.flatMap (fun _ _ => hv.map _)

/-- **Concatenation distributes over a choice behind**, up to order: with
several words in front, the two choices come interleaved. -/
theorem concat_append_perm (us vs ws : List Word) :
    (concat us (vs ++ ws)).Perm (concat us vs ++ concat us ws) := by
  unfold concat
  simp only [List.map_append]
  exact (List.flatMap_append_perm us _ _).symm

/-- **A common front is taken out of many bodies at once.** -/
theorem concat_flatMap_perm {ι : Type} (us : List Word) (f : ι → List Word) (is : List ι) :
    (concat us (is.flatMap f)).Perm (is.flatMap (fun i => concat us (f i))) := by
  induction is with
  | nil =>
    refine List.Perm.of_eq ?_
    unfold concat
    exact List.flatMap_eq_nil_iff.mpr (fun _ _ => rfl)
  | cons i is ih =>
    rw [List.flatMap_cons, List.flatMap_cons]
    exact (concat_append_perm us _ _).trans (ih.append_left _)

end Word

/-! ## The words of trees -/

namespace Node

@[simp] theorem words_seq (h t : Node) : (seq h t).words = Word.concat h.words t.words := rfl

@[simp] theorem words_lone (h : Node) : (lone h).words = h.words := rfl

@[simp] theorem words_alt (l r : Node) : (alt l r).words = l.words ++ r.words := rfl

/-- **Every body has a word.** -/
theorem words_ne_nil (n : Node) : n.words ≠ [] := by
  induction n with
  | seq h t hh ht =>
    obtain ⟨u, hu⟩ := List.exists_mem_of_ne_nil _ hh
    obtain ⟨v, hv⟩ := List.exists_mem_of_ne_nil _ ht
    exact List.ne_nil_of_mem (Word.mem_concat.mpr ⟨u, hu, v, hv, rfl⟩)
  | lone h hh => exact hh
  | alt l r hl _ => exact List.append_ne_nil_of_left_ne_nil hl _
  | _ => exact List.cons_ne_nil _ _

/-- **A choice has the words of its branches.** -/
theorem flatMap_words_branches (n : Node) : n.branches.flatMap words = n.words := by
  induction n with
  | alt l r hl hr =>
    rw [branches_alt, List.flatMap_append, hl, hr]
    rfl
  | _ => exact List.flatMap_singleton _ _

/-- The words of a branch are words of the choice. -/
theorem words_subset_of_mem_branches {n b : Node} (h : b ∈ n.branches) :
    b.words ⊆ n.words := by
  intro w hw
  rw [← flatMap_words_branches n]
  exact List.mem_flatMap.mpr ⟨b, h, hw⟩

/-- **The choice between some bodies has the words of each**, in order. -/
theorem words_alternative {bs : List Node} (hne : bs ≠ []) :
    (alternative bs).words = bs.flatMap words := by
  fun_induction alternative bs with
  | case1 => exact absurd rfl hne
  | case2 n => exact (List.flatMap_singleton _ _).symm
  | case3 n m r ih =>
    rw [words_alt, ih (List.cons_ne_nil _ _)]
    rfl

/-- The words of some elements one after the other. -/
def wordsAll (es : List Node) : List Word :=
  es.foldr (fun e ws => Word.concat e.words ws) [[]]

@[simp] theorem wordsAll_nil : wordsAll [] = [[]] := rfl

@[simp] theorem wordsAll_cons (e : Node) (es : List Node) :
    wordsAll (e :: es) = Word.concat e.words (wordsAll es) := rfl

theorem wordsAll_append (es es' : List Node) :
    wordsAll (es ++ es') = Word.concat (wordsAll es) (wordsAll es') := by
  induction es with
  | nil => exact (Word.unit_concat _).symm
  | cons e es ih =>
    rw [List.cons_append, wordsAll_cons, wordsAll_cons, ih, Word.concat_assoc]

theorem words_chain (es : List Node) : (chain es).words = wordsAll es := by
  fun_induction chain es with
  | case1 => rfl
  | case2 n => exact (Word.concat_unit _).symm
  | case3 n m r ih => rw [words_seq, ih, wordsAll_cons n]

theorem wordsAll_elements (n : Node) : wordsAll n.elements = n.words := by
  induction n with
  | seq h t _ ht => rw [elements_seq, wordsAll_cons, ht, words_seq]
  | _ => exact Word.concat_unit _

/-- What an element contributes to a sequence has the element's words. -/
theorem wordsAll_splice (n : Node) : wordsAll n.splice = n.words := by
  cases n with
  | seq h t => exact wordsAll_elements (seq h t)
  | empty => rfl
  | _ => exact Word.concat_unit _

/-- **Splicing sequences and dropping empty elements changes no word.** -/
theorem words_sequence (es : List Node) : (sequence es).words = wordsAll es := by
  unfold sequence
  rw [words_chain]
  induction es with
  | nil => rfl
  | cons e es ih => rw [List.flatMap_cons, wordsAll_append, wordsAll_splice, ih, wordsAll_cons]

end Node

end Descent
