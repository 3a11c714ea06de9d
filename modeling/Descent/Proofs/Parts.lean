import Descent.Proofs.Words

/-!
# The parts of a body

A statement about all of a grammar is one about every body that stands
anywhere in its rules: every sequence, every side of a choice, every
element. These are the **parts** of a body (`Node.parts`), and the parts
of a part are parts again.

Elements that take a place of their own in a word are letters. **The
letters among the parts are the letters of the words**
(`Node.mem_parts_iff_mem_word`), so whatever keeps the words of a body
keeps the letters that occur in it.
-/

namespace Descent.Node

/-- **All bodies within a body**, itself among them. -/
def parts : Node → List Node
  | .seq h t => .seq h t :: (h.parts ++ t.parts)
  | .lone h => .lone h :: h.parts
  | .alt l r => .alt l r :: (l.parts ++ r.parts)
  | n => [n]

/-- Whether a body is an element that stands in words as it is. -/
def isLetter : Node → Bool
  | .seq _ _ | .lone _ | .alt _ _ | .empty => false
  | _ => true

theorem mem_parts_self (n : Node) : n ∈ n.parts := by
  cases n with
  | _ => exact List.mem_cons_self

theorem parts_head_subset (h t : Node) : h.parts ⊆ (seq h t).parts :=
  fun _ hm => List.mem_cons_of_mem _ (List.mem_append_left _ hm)

theorem parts_tail_subset (h t : Node) : t.parts ⊆ (seq h t).parts :=
  fun _ hm => List.mem_cons_of_mem _ (List.mem_append_right _ hm)

theorem parts_lone_subset (h : Node) : h.parts ⊆ (lone h).parts :=
  fun _ hm => List.mem_cons_of_mem _ hm

theorem parts_left_subset (l r : Node) : l.parts ⊆ (alt l r).parts :=
  fun _ hm => List.mem_cons_of_mem _ (List.mem_append_left _ hm)

theorem parts_right_subset (l r : Node) : r.parts ⊆ (alt l r).parts :=
  fun _ hm => List.mem_cons_of_mem _ (List.mem_append_right _ hm)

theorem head_mem_parts (h t : Node) : h ∈ (seq h t).parts :=
  parts_head_subset h t (mem_parts_self h)

theorem tail_mem_parts (h t : Node) : t ∈ (seq h t).parts :=
  parts_tail_subset h t (mem_parts_self t)

theorem lone_mem_parts (h : Node) : h ∈ (lone h).parts :=
  parts_lone_subset h (mem_parts_self h)

theorem left_mem_parts (l r : Node) : l ∈ (alt l r).parts :=
  parts_left_subset l r (mem_parts_self l)

theorem right_mem_parts (l r : Node) : r ∈ (alt l r).parts :=
  parts_right_subset l r (mem_parts_self r)

/-- The parts of a part are parts. -/
theorem parts_trans {n m k : Node} (hm : m ∈ n.parts) (hk : k ∈ m.parts) : k ∈ n.parts := by
  induction n with
  | seq h t hh ht =>
    rcases List.mem_cons.mp hm with rfl | hm
    · exact hk
    rcases List.mem_append.mp hm with hm | hm
    · exact parts_head_subset h t (hh hm)
    · exact parts_tail_subset h t (ht hm)
  | lone h hh =>
    rcases List.mem_cons.mp hm with rfl | hm
    · exact hk
    · exact parts_lone_subset h (hh hm)
  | alt l r hl hr =>
    rcases List.mem_cons.mp hm with rfl | hm
    · exact hk
    rcases List.mem_append.mp hm with hm | hm
    · exact parts_left_subset l r (hl hm)
    · exact parts_right_subset l r (hr hm)
  | _ =>
    obtain rfl := List.mem_singleton.mp hm
    exact hk

/-- The branches of a body are parts of it. -/
theorem mem_parts_of_mem_branches {n b : Node} (h : b ∈ n.branches) : b ∈ n.parts := by
  induction n with
  | alt l r hl hr =>
    rcases List.mem_append.mp h with h | h
    · exact parts_left_subset l r (hl h)
    · exact parts_right_subset l r (hr h)
  | _ =>
    obtain rfl := List.mem_singleton.mp h
    exact mem_parts_self _

/-- The elements of a sequence are parts of it. -/
theorem mem_parts_of_mem_elements {n e : Node} (h : e ∈ n.elements) : e ∈ n.parts := by
  induction n with
  | seq h' t _ ht =>
    rcases List.mem_cons.mp h with rfl | h
    · exact head_mem_parts e t
    · exact parts_tail_subset h' t (ht h)
  | lone h' _ =>
    obtain rfl := List.mem_singleton.mp h
    exact lone_mem_parts e
  | _ =>
    obtain rfl := List.mem_singleton.mp h
    exact mem_parts_self _

theorem mem_parts_of_mem_splice {n e : Node} (h : e ∈ n.splice) : e ∈ n.parts := by
  cases n with
  | empty => cases h
  | _ => exact mem_parts_of_mem_elements h

theorem ne_of_isLetter {m k : Node} (hm : m.isLetter = true) (hk : k.isLetter = false) :
    m ≠ k := by
  rintro rfl
  exact Bool.false_ne_true (hk.symm.trans hm)

/-- **A letter that occurs in a body occurs in one of its words**, and the
other way round. -/
theorem mem_parts_iff_mem_word {n m : Node} (hm : m.isLetter = true) :
    m ∈ n.parts ↔ ∃ w ∈ n.words, m ∈ w := by
  induction n with
  | seq h t hh ht =>
    rw [parts, List.mem_cons, or_iff_right (ne_of_isLetter hm rfl), List.mem_append, hh, ht,
      words_seq]
    constructor
    · rintro (⟨w, hw, hmw⟩ | ⟨w, hw, hmw⟩)
      · obtain ⟨v, hv⟩ := List.exists_mem_of_ne_nil _ t.words_ne_nil
        exact ⟨w ++ v, Word.mem_concat.mpr ⟨w, hw, v, hv, rfl⟩, List.mem_append_left v hmw⟩
      · obtain ⟨v, hv⟩ := List.exists_mem_of_ne_nil _ h.words_ne_nil
        exact ⟨v ++ w, Word.mem_concat.mpr ⟨v, hv, w, hw, rfl⟩, List.mem_append_right v hmw⟩
    · rintro ⟨w, hw, hmw⟩
      obtain ⟨u, hu, v, hv, rfl⟩ := Word.mem_concat.mp hw
      exact (List.mem_append.mp hmw).imp (fun h => ⟨u, hu, h⟩) (fun h => ⟨v, hv, h⟩)
  | lone h hh => rw [parts, List.mem_cons, or_iff_right (ne_of_isLetter hm rfl), hh, words_lone]
  | alt l r hl hr =>
    rw [parts, List.mem_cons, or_iff_right (ne_of_isLetter hm rfl), List.mem_append, hl, hr,
      words_alt]
    simp only [List.mem_append, or_and_right, exists_or]
  | empty =>
    constructor
    · intro h
      exact absurd (List.mem_singleton.mp h) (ne_of_isLetter hm rfl)
    · rintro ⟨w, hw, hmw⟩
      rw [List.mem_singleton.mp hw] at hmw
      cases hmw
  | _ =>
    constructor
    · intro h
      exact ⟨_, List.mem_singleton_self _, h⟩
    · rintro ⟨w, hw, hmw⟩
      rw [List.mem_singleton.mp hw] at hmw
      exact hmw

end Descent.Node
