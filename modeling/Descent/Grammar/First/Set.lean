import Descent.Grammar.First.Label
import Descent.Ordered

/-!
# FIRST sets

The FIRST set of a body holds the labels that can start it, and says
whether it can be passed without taking a token. Labels are kept in
increasing order without repetition. That is part of the type, so **two
sets with the same labels that agree on passing are equal**
(`FirstSet.ext_mem`).
-/

namespace Descent

/-- **The labels that can start a body**, and whether it can be passed
without taking a token. -/
structure FirstSet where
  /-- The labels, in increasing order. -/
  labels : List Label
  /-- Whether the body can be passed without taking a token. -/
  nullable : Bool
  /-- The labels are in order, each once. -/
  increasing : Ordered.Increasing labels
deriving DecidableEq

namespace FirstSet

/-- No labels, and no passing either. -/
def empty : FirstSet := ⟨[], false, .nil⟩

instance : Inhabited FirstSet := ⟨empty⟩

/-- A single label. -/
def singleton (l : Label) : FirstSet := ⟨[l], false, by simp⟩

/-- No labels, only passing. -/
def passing : FirstSet := ⟨[], true, .nil⟩

/-- Adds a label. -/
def insert (s : FirstSet) (l : Label) : FirstSet :=
  ⟨Ordered.insert l s.labels, s.nullable, Ordered.increasing_insert s.increasing⟩

/-- Allows passing. -/
def addEmpty (s : FirstSet) : FirstSet := { s with nullable := true }

/-- Adds several labels. -/
def insertAll (s : FirstSet) (ls : List Label) : FirstSet := ls.foldl insert s

/-- Whether the label is in the set. -/
def contains (s : FirstSet) (l : Label) : Bool := s.labels.contains l

/-- How many labels there are. -/
def size (s : FirstSet) : Nat := s.labels.length

/-- Whether the set has no labels and does not allow passing. -/
def isEmpty (s : FirstSet) : Bool := s.labels.isEmpty && !s.nullable

/-- **The FIRST set of one body after another**, when the first can be
passed: its labels and those of the second, which decides on passing. -/
def followedBy (s t : FirstSet) : FirstSet :=
  { s.insertAll t.labels with nullable := t.nullable }

/-- The FIRST set of a choice: whatever starts either side. -/
def union (s t : FirstSet) : FirstSet :=
  { s.insertAll t.labels with nullable := s.nullable || t.nullable }

/-- **How a set is shown**: its labels, and `EMPTY` after them if it
allows passing. -/
def render (s : FirstSet) : String :=
  "\x7b" ++ ", ".intercalate
    (s.labels.map Label.render ++ if s.nullable then ["EMPTY"] else []) ++ "\x7d"

/-! ## What is in a set -/

/-- **Sets with the same labels that agree on passing are equal.** -/
theorem ext_mem {s t : FirstSet} (h : ∀ l, l ∈ s.labels ↔ l ∈ t.labels)
    (hn : s.nullable = t.nullable) : s = t := by
  have := s.increasing.eq_of_mem_iff t.increasing h
  cases s; cases t; simp_all

@[simp] theorem mem_insert {s : FirstSet} {l y : Label} :
    y ∈ (s.insert l).labels ↔ y = l ∨ y ∈ s.labels := by
  simp [insert]

@[simp] theorem mem_insertAll {s : FirstSet} {ls : List Label} {y : Label} :
    y ∈ (s.insertAll ls).labels ↔ y ∈ ls ∨ y ∈ s.labels := by
  induction ls generalizing s with
  | nil => simp [insertAll]
  | cons l ls ih =>
    have := ih (s := s.insert l)
    simp only [insertAll, List.foldl_cons] at this ⊢
    rw [this, mem_insert, List.mem_cons]
    grind

@[simp] theorem mem_followedBy {s t : FirstSet} {y : Label} :
    y ∈ (s.followedBy t).labels ↔ y ∈ t.labels ∨ y ∈ s.labels :=
  mem_insertAll

@[simp] theorem mem_union {s t : FirstSet} {y : Label} :
    y ∈ (s.union t).labels ↔ y ∈ t.labels ∨ y ∈ s.labels :=
  mem_insertAll

end FirstSet

end Descent
