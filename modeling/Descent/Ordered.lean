/-!
# Increasing lists

Sets that are shown – labels, keywords, what was expected – are shown in
order, each member once. They are kept as increasing lists. Such a list
is determined by its members (`eq_of_mem_iff`), so it is as good as the
set.
-/

namespace Descent.Ordered

variable {α : Type} [Ord α]

/-- **A list in increasing order**, which has no repetitions either. -/
abbrev Increasing (xs : List α) : Prop :=
  xs.Pairwise fun a b => compare a b = .lt

/-- Puts a member in its place, unless it is there already. -/
def insert (a : α) : List α → List α
  | [] => [a]
  | x :: xs =>
    match compare a x with
    | .lt => a :: x :: xs
    | .eq => x :: xs
    | .gt => x :: insert a xs

/-- **The members of a list in increasing order**, each once. -/
def ofList (xs : List α) : List α :=
  xs.foldl (fun ys x => insert x ys) []

/-- **Putting a member in its place adds it and nothing else.** -/
@[simp] theorem mem_insert [Std.LawfulEqOrd α] {a y : α} {xs : List α} :
    y ∈ insert a xs ↔ y = a ∨ y ∈ xs := by
  induction xs with
  | nil => simp [insert]
  | cons x xs ih =>
    unfold insert
    split
    · simp
    · next h =>
      obtain rfl := Std.LawfulEqOrd.eq_of_compare h
      simp
    · simp only [List.mem_cons, ih]
      grind

/-- The order survives. -/
theorem increasing_insert [Std.TransOrd α] [Std.LawfulEqOrd α] {a : α} {xs : List α}
    (h : Increasing xs) : Increasing (insert a xs) := by
  induction xs with
  | nil => simp [insert, Increasing]
  | cons x xs ih =>
    obtain ⟨hx, hxs⟩ := List.pairwise_cons.1 h
    unfold insert
    split
    · next hlt =>
      refine List.pairwise_cons.2 ⟨fun y hy => ?_, h⟩
      rcases List.mem_cons.1 hy with rfl | hy
      · exact hlt
      · exact Std.TransCmp.lt_trans hlt (hx y hy)
    · exact h
    · next hgt =>
      refine List.pairwise_cons.2 ⟨fun y hy => ?_, ih hxs⟩
      rcases mem_insert.1 hy with rfl | hy
      · exact Std.OrientedCmp.gt_iff_lt.1 hgt
      · exact hx y hy

/-- **Increasing lists with the same members are equal.** -/
theorem Increasing.eq_of_mem_iff [Std.TransOrd α] {xs ys : List α} (hx : Increasing xs)
    (hy : Increasing ys) (h : ∀ a, a ∈ xs ↔ a ∈ ys) : xs = ys := by
  have asymm : ∀ {a b : α}, compare a b = .lt → compare b a = .lt → False :=
    fun h₁ h₂ => by rw [Std.OrientedCmp.gt_of_lt h₁] at h₂; cases h₂
  induction xs generalizing ys with
  | nil =>
    cases ys with
    | nil => rfl
    | cons y ys => exact absurd ((h y).2 (by simp)) (by simp)
  | cons x xs ih =>
    cases ys with
    | nil => exact absurd ((h x).1 (by simp)) (by simp)
    | cons y ys =>
      obtain ⟨hx₁, hx₂⟩ := List.pairwise_cons.1 hx
      obtain ⟨hy₁, hy₂⟩ := List.pairwise_cons.1 hy
      have hxy : x = y := by
        rcases List.mem_cons.1 ((h x).1 (by simp)) with e | hm
        · exact e
        rcases List.mem_cons.1 ((h y).2 (by simp)) with e | hm'
        · exact e.symm
        exact (asymm (hy₁ x hm) (hx₁ y hm')).elim
      subst hxy
      congr 1
      refine ih hx₂ hy₂ fun a => ⟨fun ha => ?_, fun ha => ?_⟩
      · rcases List.mem_cons.1 ((h a).1 (by simp [ha])) with rfl | hm
        · exact (asymm (hx₁ a ha) (hx₁ a ha)).elim
        · exact hm
      · rcases List.mem_cons.1 ((h a).2 (by simp [ha])) with rfl | hm
        · exact (asymm (hy₁ a ha) (hy₁ a ha)).elim
        · exact hm

/-- What inserting one after the other amounts to. -/
theorem mem_foldl_insert [Std.LawfulEqOrd α] {xs ys : List α} {y : α} :
    y ∈ xs.foldl (fun ys x => insert x ys) ys ↔ y ∈ xs ∨ y ∈ ys := by
  induction xs generalizing ys with
  | nil => simp
  | cons x xs ih =>
    rw [List.foldl_cons, ih, mem_insert, List.mem_cons]
    grind

/-- Inserting one after the other keeps the order. -/
theorem increasing_foldl_insert [Std.TransOrd α] [Std.LawfulEqOrd α] {xs ys : List α}
    (h : Increasing ys) : Increasing (xs.foldl (fun ys x => insert x ys) ys) := by
  induction xs generalizing ys with
  | nil => exact h
  | cons x xs ih => exact ih (increasing_insert h)

@[simp] theorem mem_ofList [Std.LawfulEqOrd α] {xs : List α} {y : α} :
    y ∈ ofList xs ↔ y ∈ xs := by
  simp [ofList, mem_foldl_insert]

theorem increasing_ofList [Std.TransOrd α] [Std.LawfulEqOrd α] (xs : List α) :
    Increasing (ofList xs) :=
  increasing_foldl_insert .nil

end Descent.Ordered
