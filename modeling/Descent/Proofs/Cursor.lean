import Descent.Cursor
import Descent.Proofs.Outcome

/-!
# What a reader takes

A reader moves a cursor over the tokens in front of it. `Cursor.Takes`
says of two cursors **which tokens lie between them**. Readers that run
one after the other take what the first takes and then what the second
takes (`Takes.trans`), so the tokens taken by a whole reading come apart
into those taken by its steps.

The token that a cursor shows is the first one taken from there or, if
none is, the one shown afterwards (`Takes.current?_eq`). That is all that
a reader ever learns about what it does not take.
-/

namespace Descent.Cursor

/-- **From one cursor to the other these tokens are taken.** -/
structure Takes (c : Cursor) (taken : List Token) (d : Cursor) : Prop where
  /-- They stand in front of what is left. -/
  rest : c.rest = taken ++ d.rest
  /-- The text ends where it did. -/
  finish : d.finish = c.finish

namespace Takes

variable {c d e : Cursor} {u v : List Token}

theorem refl (c : Cursor) : c.Takes [] c := ⟨rfl, rfl⟩

theorem trans (h : c.Takes u d) (h' : d.Takes v e) : c.Takes (u ++ v) e :=
  ⟨by rw [h.rest, h'.rest, List.append_assoc], h'.finish.trans h.finish⟩

/-- What is left is determined by what is taken. -/
theorem unique {e : Cursor} (h : c.Takes u d) (h' : c.Takes u e) : d = e := by
  cases d with
  | mk dr df =>
    cases e with
    | mk er ef =>
      have hr : u ++ dr = u ++ er := h.rest.symm.trans h'.rest
      have hf : df = ef := h.finish.trans h'.finish.symm
      rw [List.append_cancel_left hr, hf]

/-- **The token shown is the first one taken or the one shown
afterwards.** -/
theorem current?_eq (h : c.Takes u d) : c.current? = u.head?.or d.current? := by
  unfold current?
  rw [h.rest, List.head?_append]

/-- Whether a sign is next is up to the first token taken. -/
theorem atPunct_eq (h : c.Takes u d) (hu : u ≠ []) (spelling : String) :
    c.atPunct spelling = u.head?.any (·.isPunct spelling) := by
  unfold atPunct
  rw [h.current?_eq]
  cases u with
  | nil => exact absurd rfl hu
  | cons t u => rfl

theorem length_eq (h : c.Takes u d) : c.rest.length = u.length + d.rest.length := by
  rw [h.rest, List.length_append]

/-- Taking nothing leaves the cursor where it is. -/
theorem eq_of_nil (h : c.Takes [] d) : c = d := (refl c).unique h

/-- Either nothing is taken or fewer tokens are left. -/
theorem eq_or_shorter (h : c.Takes u d) :
    (u = [] ∧ d = c) ∨ d.rest.length < c.rest.length := by
  have hlength := h.length_eq
  cases u with
  | nil => exact .inl ⟨rfl, h.eq_of_nil.symm⟩
  | cons t u =>
    rw [List.length_cons] at hlength
    exact .inr (by omega)

/-- What is taken in one go can be taken in two. -/
theorem split (h : c.Takes (u ++ v) d) : ∃ m, c.Takes u m ∧ m.Takes v d :=
  ⟨⟨v ++ d.rest, c.finish⟩, ⟨by rw [h.rest, List.append_assoc], rfl⟩, ⟨rfl, h.finish⟩⟩

/-- The first token taken is the one shown, and the rest is taken behind
it. -/
theorem uncons {t : Token} (h : c.Takes (t :: u) d) :
    c.current? = some t ∧ c.advance.Takes u d :=
  ⟨h.current?_eq, by rw [advance, h.rest]; rfl, h.finish⟩

end Takes

/-- Passing a token takes it. -/
theorem takes_advance {c : Cursor} {t : Token} (h : c.current? = some t) :
    c.Takes [t] c.advance := by
  obtain ⟨rest, finish⟩ := c
  cases rest with
  | nil => cases h
  | cons t' rest =>
    obtain rfl := Option.some.inj h
    exact ⟨rfl, rfl⟩

end Descent.Cursor

namespace Descent.Token

/-- A token is a sign of one spelling only. -/
theorem eq_of_isPunct {t : Token} {s s' : String} (h : t.isPunct s = true)
    (h' : t.isPunct s' = true) : s = s' := by
  have hs := beq_iff_eq.mp ((Bool.and_eq_true _ _).mp h).2
  have hs' := beq_iff_eq.mp ((Bool.and_eq_true _ _).mp h').2
  exact hs.symm.trans hs'

end Descent.Token

namespace Descent.Parse

/-- **Taking one token of a certain sort succeeds exactly where such a
token is next.** -/
theorem accept_eq_ok {test : Token → Bool} {what : String} {c d : Cursor} {t : Token} :
    accept test what c = .ok t d ↔ c.Takes [t] d ∧ test t = true := by
  unfold accept
  constructor
  · intro h
    split at h
    · cases h
    · next t' rest hrest =>
      split at h
      · next ht =>
        cases h
        exact ⟨Cursor.takes_advance (by rw [Cursor.current?, hrest]; rfl), ht⟩
      · cases h
  · rintro ⟨ht, htest⟩
    rw [ht.rest]
    have hd : c.advance = d :=
      (Cursor.takes_advance (by rw [ht.current?_eq]; rfl)).unique ht
    show (if test t = true then _ else _) = _
    rw [if_pos htest, hd]

/-- Where no such token is next, it fails and takes nothing. -/
theorem accept_of_not {test : Token → Bool} {what : String} {c : Cursor}
    (h : c.current?.any test = false) : accept test what c = .error (c.expected what) c := by
  obtain ⟨rest, finish⟩ := c
  cases rest with
  | nil => rfl
  | cons t rest =>
    have ht : test t = false := h
    show (if test t = true then _ else _) = _
    rw [ht]
    rfl

end Descent.Parse
