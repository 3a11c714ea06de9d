import Descent.Position
import Mathlib.Data.List.DropRight

/-!
# Where an offset is

Looking up an offset finds the place behind the text up to it
(`Lines.position?_append`): as many lines as there are line feeds in that
text, as many columns as there are characters behind the last of them.
The starts of lines are in increasing order, and those that the text up to
the offset makes are exactly those at the offset or before it. The search
therefore ends on the last of them, whether the offset is a start itself
or not (`Lines.search_parted`).

Places are in order (`Position.Before`): the further a text goes, the later
is the place behind it, by its offset as well as by line and column.
-/

namespace Descent

/-! ## Bytes -/

theorem Text.bytes_pos {cs : List Char} (h : cs ≠ []) : 0 < Text.bytes cs := by
  obtain ⟨c, r, rfl⟩ := List.exists_cons_of_ne_nil h
  rw [Text.bytes_cons]
  exact Nat.add_pos_left c.utf8Size_pos _

/-- Bytes are those of the encoded text. -/
theorem Text.bytes_toList (s : String) : Text.bytes s.toList = s.utf8ByteSize := by
  have h (cs : List Char) : Text.bytes cs = (String.ofList cs).utf8ByteSize := by
    induction cs with
    | nil => rfl
    | cons c cs ih =>
      rw [Text.bytes_cons, ih, String.ofList_cons, String.utf8ByteSize_append,
        String.utf8ByteSize_singleton]
  rw [h, String.ofList_toList]

/-! ## Places behind texts -/

namespace Position

/-- **The place behind a text**: its line feeds, and the characters behind
the last of them. -/
def behind (front : List Char) : Position :=
  ⟨Text.bytes front, 1 + front.count '\n', 1 + (front.rtakeWhile (· ≠ '\n')).length⟩

/-- **One place comes before another**, by offset as well as by line and
column. -/
def Before (p q : Position) : Prop :=
  p.offset < q.offset ∧ (p.line < q.line ∨ p.line = q.line ∧ p.column < q.column)

instance (p q : Position) : Decidable (p.Before q) :=
  inferInstanceAs (Decidable (_ ∧ _))

theorem Before.trans {p q r : Position} (h : p.Before q) (h' : q.Before r) : p.Before r := by
  unfold Before at h h' ⊢
  omega

/-- One more character is one more line or one more column. -/
theorem before_behind_concat (front : List Char) (c : Char) :
    (behind front).Before (behind (front ++ [c])) := by
  refine ⟨?_, ?_⟩
  · show Text.bytes front < Text.bytes (front ++ [c])
    rw [Text.bytes_append]
    exact Nat.lt_add_of_pos_right (Text.bytes_pos (List.cons_ne_nil c []))
  · by_cases hc : c = '\n'
    · refine .inl (Nat.add_lt_add_left ?_ 1)
      rw [List.count_append, hc]
      exact Nat.lt_succ_self _
    · refine .inr ⟨congrArg (1 + ·) ?_, Nat.add_lt_add_left ?_ 1⟩
      · rw [List.count_append, List.count_singleton, if_neg (by simpa using hc), Nat.add_zero]
      · rw [List.rtakeWhile_concat_pos _ _ c (decide_eq_true hc), List.length_append]
        exact Nat.lt_succ_self _

/-- **The further a text goes, the later is the place behind it.** -/
theorem before_behind_append (front : List Char) {text : List Char} (h : text ≠ []) :
    (behind front).Before (behind (front ++ text)) := by
  induction text generalizing front with
  | nil => exact absurd rfl h
  | cons c text ih =>
    rw [List.append_cons]
    by_cases htext : text = []
    · rw [htext, List.append_nil]
      exact before_behind_concat front c
    · exact (before_behind_concat front c).trans (ih (front ++ [c]) htext)

end Position

namespace Lines

/-! ## Starts of lines -/

variable {offset : Nat} {cs : List Char}

theorem breaks_append (offset : Nat) (cs ds : List Char) :
    breaks offset (cs ++ ds) = breaks offset cs ++ breaks (offset + Text.bytes cs) ds := by
  induction cs generalizing offset with
  | nil => rfl
  | cons c cs ih =>
    simp only [List.cons_append, breaks, Text.bytes_cons, ih, ← Nat.add_assoc]
    split
    · rfl
    · rfl

/-- The starts of lines in a text are those in a front of it, and then those
behind it. -/
theorem starts_append (front rest : List Char) :
    (ofText (front ++ rest)).starts
      = ((0 :: breaks 0 front) ++ breaks (Text.bytes front) rest).toArray := by
  rw [ofText, breaks_append, Nat.zero_add, List.cons_append]

/-- Each line feed starts a line. -/
theorem length_breaks (offset : Nat) (cs : List Char) :
    (breaks offset cs).length = cs.count '\n' := by
  fun_induction breaks offset cs with
  | case1 => rfl
  | case2 offset cs ih => rw [List.length_cons, ih, List.count_cons_self]
  | case3 offset c cs hc ih => rw [ih, List.count_cons_of_ne hc]

theorem lt_of_mem_breaks {start : Nat} (h : start ∈ breaks offset cs) : offset < start := by
  fun_induction breaks offset cs with
  | case1 => cases h
  | case2 offset cs ih =>
    rcases List.mem_cons.mp h with rfl | h
    · exact Nat.lt_add_of_pos_right (Char.utf8Size_pos _)
    · exact Nat.lt_of_le_of_lt (Nat.le_add_right _ _) (ih h)
  | case3 offset c cs hc ih => exact Nat.lt_of_le_of_lt (Nat.le_add_right _ _) (ih h)

theorem le_of_mem_breaks {start : Nat} (h : start ∈ breaks offset cs) :
    start ≤ offset + Text.bytes cs := by
  fun_induction breaks offset cs with
  | case1 => cases h
  | case2 offset cs ih =>
    rw [Text.bytes_cons, ← Nat.add_assoc]
    rcases List.mem_cons.mp h with rfl | h
    · exact Nat.le_add_right _ _
    · exact ih h
  | case3 offset c cs hc ih =>
    rw [Text.bytes_cons, ← Nat.add_assoc]
    exact ih h

theorem pairwise_breaks (offset : Nat) (cs : List Char) :
    (breaks offset cs).Pairwise (· < ·) := by
  fun_induction breaks offset cs with
  | case1 => exact .nil
  | case2 offset cs ih => exact .cons (fun start h => lt_of_mem_breaks h) ih
  | case3 offset c cs hc ih => exact ih

/-- **The last line that a text starts begins behind its last line feed.** -/
theorem getLast?_breaks (front : List Char) :
    (0 :: breaks 0 front).getLast? = some (Text.bytes (front.rdropWhile (· ≠ '\n'))) := by
  induction front using List.reverseRecOn with
  | nil => rfl
  | append_singleton front c ih =>
    rw [breaks_append, ← List.cons_append, breaks, breaks, Nat.zero_add]
    split
    next hc =>
      rw [List.getLast?_concat, List.rdropWhile_concat_neg _ _ _ (by simpa using hc),
        Text.bytes_append, Text.bytes_cons, Text.bytes_nil, Nat.add_zero]
    next hc => rw [List.append_nil, ih, List.rdropWhile_concat_pos _ _ c (decide_eq_true hc)]

/-! ## The search -/

section

variable {before behind : List Nat}

/-- Numbers that are not larger than the offset are those of the first part. -/
theorem le_iff_of_parted {i start : Nat} (hbefore : ∀ start ∈ before, start ≤ offset)
    (hbehind : ∀ start ∈ behind, offset < start)
    (h : (before ++ behind)[i]? = some start) : start ≤ offset ↔ i < before.length := by
  by_cases hi : i < before.length
  · rw [List.getElem?_append_left hi] at h
    exact iff_of_true (hbefore start (List.mem_of_getElem? h)) hi
  · rw [List.getElem?_append_right (Nat.le_of_not_lt hi)] at h
    exact iff_of_false (Nat.not_le_of_lt (hbehind start (List.mem_of_getElem? h))) hi

/-- **A search ends behind all numbers that are not larger**, on the last of
them or on the place for another one. -/
theorem search_parted {low high : Nat} (hlt : (before ++ behind).Pairwise (· < ·))
    (hbefore : ∀ start ∈ before, start ≤ offset) (hbehind : ∀ start ∈ behind, offset < start)
    (hlow : low ≤ before.length) (hhigh : before.length ≤ high)
    (hsize : high ≤ (before ++ behind).length) :
    (∃ line, line + 1 = before.length
        ∧ search (before ++ behind).toArray offset low high = .ok line)
      ∨ search (before ++ behind).toArray offset low high = .error before.length := by
  -- The first part always ends between the two bounds.
  fun_induction search (before ++ behind).toArray offset low high with
  | case1 low high hgap middle hnone =>
    rw [List.getElem?_toArray, List.getElem?_eq_none_iff] at hnone
    omega
  | case2 low high hgap middle hmiddle =>
    rw [List.getElem?_toArray] at hmiddle
    have hin := (le_iff_of_parted hbefore hbehind hmiddle).mp (Nat.le_refl _)
    have hlast : ¬ middle + 1 < before.length := by
      intro hnext
      have hle := hbefore _ (List.getElem_mem hnext)
      have hgt := List.pairwise_iff_getElem.mp (List.pairwise_append.mp hlt).1
        middle (middle + 1) hin hnext (Nat.lt_succ_self _)
      rw [List.getElem?_append_left hin] at hmiddle
      rw [(List.getElem?_eq_some_iff.mp hmiddle).2] at hgt
      exact Nat.not_le_of_lt hgt hle
    exact .inl ⟨middle, Nat.le_antisymm hin (Nat.le_of_not_lt hlast), rfl⟩
  | case3 low high hgap middle start hmiddle hne hless ih =>
    rw [List.getElem?_toArray] at hmiddle
    exact ih ((le_iff_of_parted hbefore hbehind hmiddle).mp (Nat.le_of_lt hless)) hhigh hsize
  | case4 low high hgap middle start hmiddle hne hless ih =>
    rw [List.getElem?_toArray] at hmiddle
    have hout := mt (le_iff_of_parted hbefore hbehind hmiddle).mpr
      (fun hle => hless (Nat.lt_of_le_of_ne hle hne))
    refine ih hlow (Nat.le_of_not_lt hout) ?_
    omega
  | case5 low high hgap =>
    refine .inr (congrArg Except.error ?_)
    omega

end

/-- **An offset is on the last line that the text up to it starts.** -/
theorem line?_append (front rest : List Char) :
    (ofText (front ++ rest)).line? (Text.bytes front) = some (front.count '\n') := by
  have hlength : (0 :: breaks 0 front).length = front.count '\n' + 1 := by
    rw [List.length_cons, length_breaks]
  have hlt : ((0 :: breaks 0 front) ++ breaks (Text.bytes front) rest).Pairwise (· < ·) := by
    have h : (0 :: breaks 0 (front ++ rest)).Pairwise (· < ·) :=
      .cons (fun start hstart => lt_of_mem_breaks hstart) (pairwise_breaks 0 _)
    rwa [breaks_append, Nat.zero_add] at h
  have hfront : ∀ start ∈ 0 :: breaks 0 front, start ≤ Text.bytes front := by
    intro start hstart
    rcases List.mem_cons.mp hstart with rfl | hstart
    · exact Nat.zero_le _
    · simpa using le_of_mem_breaks hstart
  unfold line?
  rw [starts_append]
  rcases search_parted hlt hfront (fun start h => lt_of_mem_breaks h) (Nat.zero_le _)
      (List.length_append ▸ Nat.le_add_right _ _) (Nat.le_refl _) with ⟨line, hline, h⟩ | h
  · rw [hlength, Nat.add_right_cancel_iff] at hline
    rw [List.size_toArray, h, hline]
  · rw [List.size_toArray, h, hlength]

/-! ## Slices -/

theorem drop?_cons (c : Char) (cs : List Char) (n : Nat) :
    drop? (c :: cs) (c.utf8Size + n) = drop? cs n := by
  obtain ⟨m, hm⟩ := Nat.exists_eq_add_one_of_ne_zero
    (Nat.ne_of_gt (Nat.add_pos_left c.utf8Size_pos n))
  rw [hm, drop?, ← hm, if_pos (Nat.le_add_right _ _), Nat.add_sub_cancel_left]

theorem take?_cons (c : Char) (cs : List Char) (n : Nat) :
    take? (c :: cs) (c.utf8Size + n) = (take? cs n).map (c :: ·) := by
  obtain ⟨m, hm⟩ := Nat.exists_eq_add_one_of_ne_zero
    (Nat.ne_of_gt (Nat.add_pos_left c.utf8Size_pos n))
  rw [hm, take?, ← hm, if_pos (Nat.le_add_right _ _), Nat.add_sub_cancel_left]

theorem drop?_append (cs ds : List Char) : drop? (cs ++ ds) (Text.bytes cs) = some ds := by
  induction cs with
  | nil => simp [drop?]
  | cons c cs ih => rw [List.cons_append, Text.bytes_cons, drop?_cons, ih]

theorem take?_append (cs ds : List Char) : take? (cs ++ ds) (Text.bytes cs) = some cs := by
  induction cs with
  | nil => simp [take?]
  | cons c cs ih => rw [List.cons_append, Text.bytes_cons, take?_cons, ih, Option.map_some]

theorem slice?_append (cs ds es : List Char) :
    slice? (cs ++ ds ++ es) (Text.bytes cs) (Text.bytes (cs ++ ds)) = some ds := by
  rw [slice?, Text.bytes_append, if_pos (Nat.le_add_right _ _), List.append_assoc, drop?_append,
    Nat.add_sub_cancel_left]
  exact take?_append ds es

/-! ## Places -/

/-- The line that an offset is on starts behind the last line feed before
it. -/
theorem getElem?_starts (front rest : List Char) :
    (ofText (front ++ rest)).starts[front.count '\n']?
      = some (Text.bytes (front.rdropWhile (· ≠ '\n'))) := by
  have hlast := getLast?_breaks front
  rw [List.getLast?_eq_getElem?, List.length_cons, length_breaks, Nat.add_sub_cancel] at hlast
  rw [starts_append, List.getElem?_toArray, List.getElem?_append_left, hlast]
  rw [List.length_cons, length_breaks]
  exact Nat.lt_succ_self _

/-- **Looking up an offset gives the place behind the text up to it**, with
line and column in 32 bits. -/
theorem position?_append (front rest : List Char) :
    (ofText (front ++ rest)).position? (Text.bytes front)
      = some ⟨Text.bytes front, (UInt32.ofNat (front.count '\n') + 1).toNat,
          (UInt32.ofNat ((front.rtakeWhile (· ≠ '\n')).length + 1)).toNat⟩ := by
  have hslice : slice? (front ++ rest) (Text.bytes (front.rdropWhile (· ≠ '\n')))
      (Text.bytes front) = some (front.rtakeWhile (· ≠ '\n')) := by
    have h := slice?_append (front.rdropWhile (· ≠ '\n')) (front.rtakeWhile (· ≠ '\n')) rest
    rwa [List.rdropWhile_append_rtakeWhile] at h
  have htext : (ofText (front ++ rest)).text = front ++ rest := rfl
  unfold position?
  rw [line?_append, Option.bind_eq_bind, Option.bind_some, getElem?_starts,
    Option.bind_eq_bind, Option.bind_some, htext, hslice]
  rfl

/-- A text begins at the start. -/
theorem place_zero (text : List Char) : (ofText text).place 0 = .start := by
  rw [place, show (ofText text).position? 0 = _ from position?_append [] text]
  rfl

/-- The place at an offset has that offset. -/
theorem offset_place (front rest : List Char) :
    ((ofText (front ++ rest)).place (Text.bytes front)).offset = Text.bytes front := by
  rw [place, position?_append]
  rfl

/-- **The numbers of lines and columns fit** where there are not too many
characters. -/
theorem position?_append_of_length (front rest : List Char)
    (h : front.length + 1 < UInt32.size) :
    (ofText (front ++ rest)).position? (Text.bytes front) = some (.behind front) := by
  have hline : front.count '\n' ≤ front.length := List.count_le_length
  have hcolumn : (front.rtakeWhile (· ≠ '\n')).length ≤ front.length :=
    (List.rtakeWhile_suffix _ _).length_le
  rw [position?_append, Position.behind]
  congr 2
  · rw [UInt32.toNat_add, UInt32.toNat_ofNat', UInt32.toNat_one, Nat.mod_add_mod,
      Nat.mod_eq_of_lt (Nat.lt_of_le_of_lt (Nat.succ_le_succ hline) h), Nat.add_comm]
  · rw [UInt32.toNat_ofNat',
      Nat.mod_eq_of_lt (Nat.lt_of_le_of_lt (Nat.succ_le_succ hcolumn) h), Nat.add_comm]

end Lines

end Descent
