import Descent.Cursor
import Descent.Proofs.Outcome

/-!
# Readers that do not look at places

Tokens know where they stand, and failures tell it. Nothing that is read
may hang on it, or a text would mean something else when it is laid out
anew. To say so, all places are taken away: tokens, cursors and failures
without places have every place set to the start of the text
(`Token.unplaced`, `Cursor.unplaced`, `ParseError.unplaced`).

**A reader does not look at places if it does not matter when they are
taken away**, before it runs or after (`Parse.Unplaces`). So two readings
of tokens that differ in their places only end the same way, up to the
places that they tell.

What a reader gives may have places in it too, as when it gives a token,
and what is read next may depend on that. So `Unplaces` is about two
readers: one for what is left when the places are taken away, and one for
what there was before.
-/

namespace Descent

/-! ## Without places -/

/-- A token without its place. -/
def Token.unplaced (t : Token) : Token := { t with position := .start }

/-- A cursor without the places of its tokens and of the end. -/
def Cursor.unplaced (c : Cursor) : Cursor := ⟨c.rest.map Token.unplaced, .start⟩

/-- A failure without its place. -/
def ParseError.unplaced : ParseError → ParseError
  | .unimplemented spelling _ => .unimplemented spelling .start
  | .expected what found _ => .expected what found .start
  | .custom message _ => .custom message .start

namespace Cursor

variable (c : Cursor)

@[simp] theorem rest_unplaced : c.unplaced.rest = c.rest.map Token.unplaced := rfl

@[simp] theorem current?_unplaced : c.unplaced.current? = c.current?.map Token.unplaced := by
  unfold current?
  rw [rest_unplaced, List.head?_map]

@[simp] theorem get?_unplaced (n : Nat) : c.unplaced.get? n = (c.get? n).map Token.unplaced := by
  unfold get?
  rw [rest_unplaced, List.getElem?_map]

@[simp] theorem atPunct_unplaced (s : String) : c.unplaced.atPunct s = c.atPunct s := by
  unfold atPunct
  rw [current?_unplaced, Option.any_map]
  rfl

theorem advance_unplaced : c.unplaced.advance = c.advance.unplaced := by
  unfold advance unplaced
  rw [List.map_tail]

theorem position_unplaced : c.unplaced.position = .start := by
  unfold position
  obtain ⟨rest, finish⟩ := c
  cases rest with
  | nil => rfl
  | cons t rest => rfl

theorem expected_unplaced (what : String) :
    c.unplaced.expected what = (c.expected what).unplaced := by
  unfold expected
  rw [position_unplaced, current?_unplaced, Option.map_map]
  rfl

theorem unimplemented_unplaced (spelling : String) :
    c.unplaced.unimplemented spelling = (c.unimplemented spelling).unplaced := by
  unfold unimplemented
  rw [position_unplaced]
  rfl

theorem fail_unplaced (message : String) :
    c.unplaced.fail message = (c.fail message).unplaced := by
  unfold fail
  rw [position_unplaced]
  rfl

end Cursor

/-! ## Steps whose outcome is passed through functions -/

namespace Outcome

variable {ε σ α β : Type}

/-- How a step ends, with state, failure and value passed through
functions. -/
def relabel (f : σ → σ) (g : ε → ε) (h : α → α) : EStateM.Result ε σ α → EStateM.Result ε σ α
  | .ok a s => .ok (h a) (f s)
  | .error e s => .error (g e) (f s)

/-- **Steps that come to the same whether the functions are used before or
after**: `x` from the new state does what `y` does from the old one. -/
def Relabels (f : σ → σ) (g : ε → ε) (h : α → α) (x y : EStateM ε σ α) : Prop :=
  ∀ s, x (f s) = relabel f g h (y s)

variable {f : σ → σ} {g : ε → ε} {h : α → α} {h' : β → β}

theorem relabels_pure (a : α) : Relabels f g h (pure (h a)) (pure a) := fun _ => rfl

/-- **Two steps come to the same if each of them does.** -/
theorem Relabels.bind {x y : EStateM ε σ α} {k l : α → EStateM ε σ β} (hx : Relabels f g h x y)
    (hk : ∀ a, Relabels f g h' (k (h a)) (l a)) : Relabels f g h' (x >>= k) (y >>= l) := by
  intro s
  cases hy : y s with
  | ok a t =>
    have hxs : x (f s) = .ok (h a) (f t) := by rw [hx s, hy]; rfl
    rw [run_bind_of_ok hxs, run_bind_of_ok hy]
    exact hk a t
  | error e t =>
    have hxs : x (f s) = .error (g e) (f t) := by rw [hx s, hy]; rfl
    rw [run_bind_of_error hxs, run_bind_of_error hy]
    rfl

/-- A function of the value that it does not matter to. -/
theorem Relabels.map {x y : EStateM ε σ α} {k : α → β} (hx : Relabels f g h x y)
    (hk : ∀ a, k (h a) = h' (k a)) : Relabels f g h' (k <$> x) (k <$> y) := by
  refine hx.bind fun a => ?_
  show Relabels f g h' (pure (k (h a))) (pure (k a))
  rw [hk a]
  exact relabels_pure (k a)

end Outcome

/-! ## Readers -/

namespace Parse

/-- **Readers that read the same without places**: `p` from the tokens
without their places does what `q` does from the tokens, the places taken
away afterwards, and those in the value by `h`. -/
abbrev Unplaces {α : Type} (h : α → α) (p q : Parse α) : Prop :=
  Outcome.Relabels Cursor.unplaced ParseError.unplaced h p q

/-- A test of tokens that their places do not matter to. -/
theorem unplaces_accept {test : Token → Bool} (htest : ∀ t, test t.unplaced = test t)
    (what : String) : Unplaces Token.unplaced (accept test what) (accept test what) := by
  rintro ⟨rest, finish⟩
  cases rest with
  | nil => rfl
  | cons t rest =>
    show (if test t.unplaced = true then _ else _)
      = Outcome.relabel _ _ _ (if test t = true then _ else _)
    rw [htest t]
    by_cases ht : test t = true
    · rw [if_pos ht, if_pos ht]
      rfl
    · rw [if_neg ht, if_neg ht]
      rfl

theorem unplaces_punct (spelling : String) :
    Unplaces Token.unplaced (punct spelling) (punct spelling) :=
  unplaces_accept (fun _ => rfl) _

end Parse

end Descent
