import Mathlib.Data.List.Forall2

/-!
# Computations that may fail

The definitions of the library are written step after step, and a step
that fails ends the whole. To reason about a result one goes the other
way: **a result of the whole is a result of every step**. This file says
so for the two shapes in use, a value or an error (`Except`), and a value
or an error with a state that is kept either way (`EStateM`).
-/

namespace Descent.Outcome

variable {ε σ α β : Type}

/-- **Two steps give a value exactly if the first does and the second
does on it.** -/
theorem bind_eq_ok {x : Except ε α} {f : α → Except ε β} {b : β} :
    (x >>= f) = .ok b ↔ ∃ a, x = .ok a ∧ f a = .ok b := by
  cases x with
  | error e =>
    constructor
    · intro h
      cases h
    · rintro ⟨a, ha, -⟩
      cases ha
  | ok a =>
    constructor
    · intro h
      exact ⟨a, rfl, h⟩
    · rintro ⟨a', ha, h⟩
      cases ha
      exact h

/-- **Two steps fail exactly if the first does, or the second does on what
the first gives.** -/
theorem bind_eq_error {x : Except ε α} {f : α → Except ε β} {e : ε} :
    (x >>= f) = .error e ↔ x = .error e ∨ ∃ a, x = .ok a ∧ f a = .error e := by
  cases x with
  | error e' =>
    constructor
    · intro h
      exact .inl (congrArg Except.error (Except.error.inj h))
    · rintro (h | ⟨a, ha, -⟩)
      · exact congrArg Except.error (Except.error.inj h)
      · cases ha
  | ok a =>
    constructor
    · intro h
      exact .inr ⟨a, rfl, h⟩
    · rintro (h | ⟨a', ha, h⟩)
      · cases h
      · cases ha
        exact h

/-- A value that is there when errors are forgotten was there before. -/
theorem toOption_eq_some {x : Except ε α} {a : α} : x.toOption = some a ↔ x = .ok a := by
  cases x with
  | error e =>
    constructor
    · intro h
      cases h
    · intro h
      cases h
  | ok b =>
    constructor
    · intro h
      exact congrArg Except.ok (Option.some.inj h)
    · intro h
      exact congrArg some (Except.ok.inj h)

/-- **A step for each member gives a list exactly if each step gives the
member in its place.** -/
theorem mapM_eq_ok {f : α → Except ε β} {xs : List α} {ys : List β} :
    xs.mapM f = .ok ys ↔ List.Forall₂ (fun x y => f x = .ok y) xs ys := by
  induction xs generalizing ys with
  | nil =>
    rw [List.mapM_nil, List.forall₂_nil_left_iff]
    exact ⟨fun h => (Except.ok.inj h).symm, fun h => congrArg Except.ok h.symm⟩
  | cons x xs ih =>
    rw [List.mapM_cons, bind_eq_ok, List.forall₂_cons_left_iff]
    constructor
    · rintro ⟨y, hy, h⟩
      obtain ⟨zs, hzs, h⟩ := bind_eq_ok.mp h
      exact ⟨y, zs, hy, ih.mp hzs, (Except.ok.inj h).symm⟩
    · rintro ⟨y, zs, hy, hzs, rfl⟩
      exact ⟨y, hy, bind_eq_ok.mpr ⟨zs, ih.mpr hzs, rfl⟩⟩

/-- A step for each member fails only if the step for some member does. -/
theorem exists_of_mapM_eq_error {f : α → Except ε β} {xs : List α} {e : ε}
    (h : xs.mapM f = .error e) : ∃ x ∈ xs, f x = .error e := by
  induction xs with
  | nil => cases h
  | cons x xs ih =>
    rw [List.mapM_cons] at h
    rcases bind_eq_error.mp h with hx | ⟨y, -, h⟩
    · exact ⟨x, List.mem_cons_self, hx⟩
    · rcases bind_eq_error.mp h with hxs | ⟨ys, -, h⟩
      · obtain ⟨x', hx', he⟩ := ih hxs
        exact ⟨x', List.mem_cons_of_mem x hx', he⟩
      · cases h

/-- In lists that correspond, a member on the left has one on the
right. -/
theorem exists_of_mem_left {R : α → β → Prop} {xs : List α} {ys : List β} {x : α}
    (h : List.Forall₂ R xs ys) (hx : x ∈ xs) : ∃ y ∈ ys, R x y := by
  induction h with
  | nil => cases hx
  | @cons x' y' xs ys hxy _ ih =>
    rcases List.mem_cons.mp hx with rfl | hx
    · exact ⟨y', List.mem_cons_self, hxy⟩
    · obtain ⟨y, hy, hR⟩ := ih hx
      exact ⟨y, List.mem_cons_of_mem y' hy, hR⟩

/-- In lists that correspond, a member on the right has one on the
left. -/
theorem exists_of_mem_right {R : α → β → Prop} {xs : List α} {ys : List β} {y : β}
    (h : List.Forall₂ R xs ys) (hy : y ∈ ys) : ∃ x ∈ xs, R x y :=
  exists_of_mem_left h.flip hy

/-- Members that each have a counterpart have a list of counterparts. -/
theorem exists_forall₂ {R : α → β → Prop} {xs : List α} (h : ∀ x ∈ xs, ∃ y, R x y) :
    ∃ ys, List.Forall₂ R xs ys := by
  induction xs with
  | nil => exact ⟨[], .nil⟩
  | cons x xs ih =>
    obtain ⟨y, hy⟩ := h x List.mem_cons_self
    obtain ⟨ys, hys⟩ := ih (fun x' hx' => h x' (List.mem_cons_of_mem x hx'))
    exact ⟨y :: ys, .cons hy hys⟩

/-- **A step for each member gives a list exactly if every step gives
something.** -/
theorem exists_mapM_eq_ok {f : α → Except ε β} {xs : List α} :
    (∃ ys, xs.mapM f = .ok ys) ↔ ∀ x ∈ xs, ∃ y, f x = .ok y := by
  constructor
  · rintro ⟨ys, hys⟩ x hx
    obtain ⟨y, -, hy⟩ := exists_of_mem_left (mapM_eq_ok.mp hys) hx
    exact ⟨y, hy⟩
  · intro h
    obtain ⟨ys, hys⟩ := exists_forall₂ h
    exact ⟨ys, mapM_eq_ok.mpr hys⟩

/-- What corresponds to two lists in a row comes apart into two. -/
theorem forall₂_append_left {R : α → β → Prop} {xs xs' : List α} {ys : List β} :
    List.Forall₂ R (xs ++ xs') ys
      ↔ ∃ us vs, List.Forall₂ R xs us ∧ List.Forall₂ R xs' vs ∧ ys = us ++ vs := by
  constructor
  · intro h
    induction xs generalizing ys with
    | nil => exact ⟨[], ys, .nil, h, rfl⟩
    | cons x xs ih =>
      obtain ⟨y, ys, hxy, hys, rfl⟩ := List.forall₂_cons_left_iff.mp h
      obtain ⟨us, vs, hus, hvs, rfl⟩ := ih hys
      exact ⟨y :: us, vs, .cons hxy hus, hvs, rfl⟩
  · rintro ⟨us, vs, hus, hvs, rfl⟩
    exact List.rel_append hus hvs

/-- Lists correspond through something in between exactly if there is a
list in between. -/
theorem forall₂_comp {γ : Type} {R : α → β → Prop} {S : β → γ → Prop} {xs : List α}
    {zs : List γ} :
    List.Forall₂ (fun x z => ∃ y, R x y ∧ S y z) xs zs
      ↔ ∃ ys, List.Forall₂ R xs ys ∧ List.Forall₂ S ys zs := by
  constructor
  · intro h
    induction h with
    | nil => exact ⟨[], .nil, .nil⟩
    | cons hxz _ ih =>
      obtain ⟨y, hxy, hyz⟩ := hxz
      obtain ⟨ys, hxs, hys⟩ := ih
      exact ⟨y :: ys, .cons hxy hxs, .cons hyz hys⟩
  · rintro ⟨ys, hxs, hys⟩
    induction hxs generalizing zs with
    | nil =>
      rw [List.forall₂_nil_left_iff.mp hys]
      exact .nil
    | cons hxy _ ih =>
      obtain ⟨z, zs, hyz, hzs, rfl⟩ := List.forall₂_cons_left_iff.mp hys
      exact .cons ⟨_, hxy, hyz⟩ (ih hzs)

/-- **Members that correspond to members that are related are related.** -/
theorem pairwise_of_forall₂ {R : α → β → Prop} {P : α → α → Prop}
    {Q : β → β → Prop} {xs : List α} {ys : List β} (h : List.Forall₂ R xs ys)
    (hp : xs.Pairwise P) (hPQ : ∀ {x x' y y'}, R x y → R x' y' → P x x' → Q y y') :
    ys.Pairwise Q := by
  induction h with
  | nil => exact .nil
  | cons hxy hrest ih =>
    obtain ⟨hx, hxs⟩ := List.pairwise_cons.mp hp
    refine List.pairwise_cons.mpr ⟨fun y' hy' => ?_, ih hxs⟩
    obtain ⟨x', hx', hxy'⟩ := exists_of_mem_right hrest hy'
    exact hPQ hxy hxy' (hx x' hx')

/-- After a step that gives a value, the next one goes on from there. -/
theorem run_bind_of_ok {x : EStateM ε σ α} {f : α → EStateM ε σ β} {s s' : σ} {a : α}
    (h : x s = .ok a s') : (x >>= f) s = f a s' := by
  show EStateM.bind x f s = f a s'
  unfold EStateM.bind
  rw [h]

/-- A step that fails is the last one. -/
theorem run_bind_of_error {x : EStateM ε σ α} {f : α → EStateM ε σ β} {s s' : σ} {e : ε}
    (h : x s = .error e s') : (x >>= f) s = .error e s' := by
  show EStateM.bind x f s = .error e s'
  unfold EStateM.bind
  rw [h]

/-- **Two steps on a state give a value exactly if the first does and the
second does from where the first left off.** -/
theorem run_bind_eq_ok {x : EStateM ε σ α} {f : α → EStateM ε σ β} {s t : σ} {b : β} :
    (x >>= f) s = .ok b t ↔ ∃ a s', x s = .ok a s' ∧ f a s' = .ok b t := by
  show EStateM.bind x f s = _ ↔ _
  unfold EStateM.bind
  cases hx : x s with
  | error e s' =>
    constructor
    · intro h
      cases h
    · rintro ⟨a, s'', ha, -⟩
      cases ha
  | ok a s' =>
    constructor
    · intro h
      exact ⟨a, s', rfl, h⟩
    · rintro ⟨a', s'', ha, h⟩
      cases ha
      exact h

/-- **A step whose value is passed through a function gives a value exactly
if the step does.** -/
theorem run_map_eq_ok {x : EStateM ε σ α} {f : α → β} {s t : σ} {b : β} :
    (f <$> x) s = .ok b t ↔ ∃ a, x s = .ok a t ∧ f a = b := by
  show EStateM.map f x s = _ ↔ _
  unfold EStateM.map
  cases hx : x s with
  | error e s' =>
    constructor
    · intro h
      cases h
    · rintro ⟨a, ha, -⟩
      cases ha
  | ok a s' =>
    constructor
    · intro h
      obtain ⟨rfl, rfl⟩ := EStateM.Result.ok.inj h
      exact ⟨a, rfl, rfl⟩
    · rintro ⟨a', ha, rfl⟩
      cases ha
      rfl

/-- What comes after a step sees of it only how it ended. -/
theorem run_bind_congr {x y : EStateM ε σ α} {f : α → EStateM ε σ β} {s : σ} (h : x s = y s) :
    (x >>= f) s = (y >>= f) s := by
  show EStateM.bind x f s = EStateM.bind y f s
  unfold EStateM.bind
  rw [h]

/-- A value that is there when the state is forgotten was there before. -/
theorem run'_eq_some {x : EStateM ε σ α} {s : σ} {a : α} :
    x.run' s = some a ↔ ∃ t, x s = .ok a t := by
  unfold EStateM.run' EStateM.run
  cases x s with
  | error e t =>
    constructor
    · intro h
      cases h
    · rintro ⟨t', h⟩
      cases h
  | ok b t =>
    constructor
    · intro h
      obtain rfl := Option.some.inj h
      exact ⟨t, rfl⟩
    · rintro ⟨t', h⟩
      cases h
      rfl

/-- How a step fails, if it does. -/
def failure? : EStateM.Result ε σ α → Option (ε × σ)
  | .ok _ _ => none
  | .error e s => some (e, s)

theorem failure?_eq_some {r : EStateM.Result ε σ α} {e : ε} {s : σ} :
    failure? r = some (e, s) ↔ r = .error e s := by
  cases r with
  | ok a t =>
    constructor
    · intro h
      cases h
    · intro h
      cases h
  | error e' t =>
    constructor
    · intro h
      cases h
      rfl
    · intro h
      cases h
      rfl

/-! ## How a step ends -/

/-- **A step that ends well or badly**, on a state: with a value and a
state that `given` holds of, or with an error and a state that `failed`
holds of. -/
def Ends (x : EStateM ε σ α) (s : σ) (given : α → σ → Prop) (failed : ε → σ → Prop) : Prop :=
  match x s with
  | .ok a t => given a t
  | .error e t => failed e t

section Ends

variable {x : EStateM ε σ α} {s : σ} {P : α → σ → Prop} {Q : ε → σ → Prop}

theorem Ends.of_ok {a : α} {t : σ} (h : Ends x s P Q) (hx : x s = .ok a t) : P a t := by
  unfold Ends at h
  rw [hx] at h
  exact h

theorem Ends.of_error {e : ε} {t : σ} (h : Ends x s P Q) (hx : x s = .error e t) : Q e t := by
  unfold Ends at h
  rw [hx] at h
  exact h

/-- A step whose every end is known ends that way. -/
theorem ends_iff :
    Ends x s P Q ↔ (∀ a t, x s = .ok a t → P a t) ∧ ∀ e t, x s = .error e t → Q e t := by
  constructor
  · intro h
    exact ⟨fun _ _ => h.of_ok, fun _ _ => h.of_error⟩
  · rintro ⟨hok, herror⟩
    unfold Ends
    cases hx : x s with
    | ok a t => exact hok a t hx
    | error e t => exact herror e t hx

theorem Ends.mono {P' : α → σ → Prop} {Q' : ε → σ → Prop} (h : Ends x s P Q)
    (hP : ∀ a t, P a t → P' a t) (hQ : ∀ e t, Q e t → Q' e t) : Ends x s P' Q' := by
  rw [ends_iff] at h ⊢
  exact ⟨fun a t hx => hP a t (h.1 a t hx), fun e t hx => hQ e t (h.2 e t hx)⟩

/-- **Two steps end as the second does where the first ends well**, and as
the first does where it ends badly. -/
theorem Ends.bind {f : α → EStateM ε σ β} {P' : β → σ → Prop} {Q' : ε → σ → Prop}
    (h : Ends x s P Q) (hf : ∀ a t, P a t → Ends (f a) t P' Q')
    (hQ : ∀ e t, Q e t → Q' e t) : Ends (x >>= f) s P' Q' := by
  unfold Ends
  show match EStateM.bind x f s with
    | .ok b t => P' b t
    | .error e t => Q' e t
  unfold EStateM.bind
  cases hx : x s with
  | ok a t => exact hf a t (h.of_ok hx)
  | error e t => exact hQ e t (h.of_error hx)

theorem ends_bind_of_ok {f : α → EStateM ε σ β} {P' : β → σ → Prop} {a : α} {t : σ}
    (h : x s = .ok a t) : Ends (x >>= f) s P' Q ↔ Ends (f a) t P' Q := by
  unfold Ends
  rw [run_bind_of_ok h]

/-- **What each step makes true and no later one undoes is true of all in
the end.** `I` holds between the steps. -/
theorem ends_forM {f : α → EStateM ε σ PUnit} {I : σ → Prop} {xs : List α}
    (hstep : ∀ x ∈ xs, ∀ s, I s → Ends (f x) s
      (fun _ t => I t ∧ P x t ∧ ∀ y, P y s → P y t) Q) (hs : I s) :
    Ends (xs.forM f) s (fun _ t => I t ∧ (∀ x ∈ xs, P x t) ∧ ∀ y, P y s → P y t) Q := by
  induction xs generalizing s with
  | nil => exact ⟨hs, nofun, fun _ => id⟩
  | cons x xs ih =>
    refine (hstep x List.mem_cons_self s hs).bind ?_ (fun _ _ => id)
    rintro ⟨⟩ t ⟨ht, hx, hkeep⟩
    refine (ih (fun y hy => hstep y (List.mem_cons_of_mem x hy)) ht).mono ?_ (fun _ _ => id)
    rintro ⟨⟩ u ⟨hu, hxs, hkeep'⟩
    refine ⟨hu, fun y hy => ?_, fun y hy => hkeep' y (hkeep y hy)⟩
    rcases List.mem_cons.mp hy with rfl | hy
    · exact hkeep' y hx
    · exact hxs y hy

end Ends

end Descent.Outcome
