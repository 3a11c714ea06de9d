import Descent.Proofs.Expr.Bound
import Mathlib.Data.List.Induction
import Mathlib.Data.List.Nodup

/-!
# Traces tell all that a reading does

The reader of expressions hands operands and applications to its actions
and never looks at what they give back. So a trace, which only writes the
actions down, should leave nothing out. It does not: **replaying a trace
through any actions is reading with these actions** (`reflects_expression`).
The same tokens are taken, the same failure is met, and what the actions
give and keep is the same. With the actions that build trees, the trace of a
reading is a fold that ends in its tree (`trace_folds`).

A value may be used once only, as the tree it stands for has one place. The
reader holds a value from the action that gives it to the action that uses
it, and what it holds is a stack: the left operand waits below while the
right one is read. `Mirrors` says what is true of a trace and of the values
held, wherever a reading stands. Every event but those of the values held is
used by then, and used once.
-/

namespace Descent.Expr

variable {ε σ τ α β γ δ ζ : Type} {actions : Actions σ α}

/-! ## Replaying -/

/-- The events whose values an event uses. -/
def Event.operands : Event → List Nat
  | .atom _ => []
  | .unary _ x => [x]
  | .binary _ x y => x :: y.toList

/-- **What an event did**, done again by some actions, with the values that
earlier events had. -/
def Event.perform (actions : Actions σ α) (values : List α) : Event → Option (StateM σ α)
  | .atom t => some (actions.atom t)
  | .unary op x => values[x]?.map (actions.unary op)
  | .binary op x none => values[x]?.map (actions.binary op · none)
  | .binary op x (some y) => do
    let a ← values[x]?
    let b ← values[y]?
    some (actions.binary op a (some b))

/-- **Replays a trace** from a state of the actions: the values of all
events, in order, and the state in the end. -/
def replay (actions : Actions σ α) (events : List Event) (s : σ) : Option (List α × σ) :=
  events.foldlM (fun r e => (e.perform actions r.1).map fun m =>
    (r.1 ++ [(m r.2).1], (m r.2).2)) ([], s)

theorem replay_concat_eq_some {events : List Event} {e : Event} {s₀ s' : σ} {values' : List α} :
    replay actions (events ++ [e]) s₀ = some (values', s')
      ↔ ∃ values s m, replay actions events s₀ = some (values, s)
        ∧ e.perform actions values = some m
        ∧ values' = values ++ [(m s).1] ∧ s' = (m s).2 := by
  unfold replay
  rw [List.foldlM_append]
  simp only [List.foldlM_cons, List.foldlM_nil, Option.bind_eq_bind, Option.bind_eq_some_iff,
    Option.map_eq_some_iff, Option.pure_def, Option.some.injEq, Prod.exists, Prod.mk.injEq]
  constructor
  · rintro ⟨values, s, hreplay, _, _, ⟨m, hm, rfl, rfl⟩, rfl, rfl⟩
    exact ⟨values, s, m, hreplay, hm, rfl, rfl⟩
  · rintro ⟨values, s, m, hreplay, hm, rfl, rfl⟩
    exact ⟨values, s, hreplay, _, _, ⟨m, hm, rfl, rfl⟩, rfl, rfl⟩

/-- There is one value for each event. -/
theorem length_of_replay {events : List Event} {s₀ s : σ} {values : List α}
    (h : replay actions events s₀ = some (values, s)) : values.length = events.length := by
  induction events using List.reverseRecOn generalizing values s with
  | nil =>
    obtain ⟨rfl, rfl⟩ := Prod.mk.inj (Option.some.inj h)
    rfl
  | append_singleton events e ih =>
    obtain ⟨values, s, m, hreplay, -, rfl, -⟩ := replay_concat_eq_some.mp h
    rw [List.length_append, List.length_append, ih hreplay]
    rfl

/-- An event can be done again only with all its operands there. -/
theorem Event.lt_of_perform {e : Event} {values : List α} {m : StateM σ α}
    (h : e.perform actions values = some m) : ∀ x ∈ e.operands, x < values.length := by
  have hlt : ∀ {x a}, values[x]? = some a → x < values.length := fun hx =>
    (List.getElem?_eq_some_iff.mp hx).1
  cases e with
  | atom t => exact fun _ hx => absurd hx List.not_mem_nil
  | unary op x =>
    obtain ⟨a, ha, -⟩ := Option.map_eq_some_iff.mp h
    exact List.forall_mem_singleton.mpr (hlt ha)
  | binary op x y =>
    cases y with
    | none =>
      obtain ⟨a, ha, -⟩ := Option.map_eq_some_iff.mp h
      exact List.forall_mem_singleton.mpr (hlt ha)
    | some y =>
      obtain ⟨a, ha, h⟩ := Option.bind_eq_some_iff.mp h
      obtain ⟨b, hb, -⟩ := Option.bind_eq_some_iff.mp h
      exact List.forall_mem_cons.mpr ⟨hlt ha, List.forall_mem_singleton.mpr (hlt hb)⟩

/-- **In a trace that can be replayed operands come first.** -/
theorem lt_of_replay {events : List Event} {s₀ s : σ} {values : List α}
    (h : replay actions events s₀ = some (values, s)) {k : Nat} {e : Event}
    (hk : events[k]? = some e) : ∀ x ∈ e.operands, x < k := by
  induction events using List.reverseRecOn generalizing values s with
  | nil => cases hk
  | append_singleton events e' ih =>
    obtain ⟨values, s, m, hreplay, hperform, -, -⟩ := replay_concat_eq_some.mp h
    by_cases hlast : k < events.length
    · rw [List.getElem?_append_left hlast] at hk
      exact ih hreplay hk
    · have hlt := (List.getElem?_eq_some_iff.mp hk).1
      rw [List.length_append, List.length_singleton] at hlt
      obtain rfl : k = events.length := by omega
      rw [List.getElem?_concat_length] at hk
      obtain rfl := Option.some.inj hk
      rw [← length_of_replay hreplay]
      exact Event.lt_of_perform hperform

/-! ## What is true of a trace and of the values held -/

/-- **A trace mirrors what some actions did**, while the values `held`, each
with the number of its event, wait to be used. -/
structure Mirrors (actions : Actions σ α) (s₀ : σ) (held : List (Nat × α))
    (events : List Event) (s : σ) : Prop where
  /-- Replayed, the trace leads to the state of the actions, and its events
  have the values held. -/
  replayed : ∃ values, replay actions events s₀ = some (values, s)
    ∧ ∀ p ∈ held, values[p.1]? = some p.2
  /-- Each event is an operand of one event, or its value is held. -/
  used : (events.flatMap Event.operands ++ held.map Prod.fst).Perm (List.range events.length)

namespace Mirrors

variable {s₀ s : σ} {held : List (Nat × α)} {events : List Event} {i j : Nat} {a b : α}

theorem start (actions : Actions σ α) (s₀ : σ) : Mirrors actions s₀ [] [] s₀ where
  replayed := ⟨[], rfl, fun _ hp => absurd hp List.not_mem_nil⟩
  used := .refl _

/-- In which order values are held does not matter. -/
theorem perm {held' : List (Nat × α)} (h : Mirrors actions s₀ held events s)
    (hperm : held.Perm held') : Mirrors actions s₀ held' events s where
  replayed := by
    obtain ⟨values, hreplay, hheld⟩ := h.replayed
    exact ⟨values, hreplay, fun p hp => hheld p (hperm.mem_iff.mpr hp)⟩
  used := ((hperm.map Prod.fst).symm.append_left _).trans h.used

/-- **An action uses values that are held and gives one.** -/
theorem log (taken : List (Nat × α)) (h : Mirrors actions s₀ (taken ++ held) events s)
    {e : Event} {m : StateM σ α} (hoperands : e.operands = taken.map Prod.fst)
    (hperform : ∀ values : List α, (∀ p ∈ taken, values[p.1]? = some p.2) →
      e.perform actions values = some m) :
    Mirrors actions s₀ ((events.length, (m s).1) :: held) (events ++ [e]) (m s).2 where
  replayed := by
    obtain ⟨values, hreplay, hheld⟩ := h.replayed
    have hm := hperform values fun p hp => hheld p (List.mem_append_left _ hp)
    have hlength := length_of_replay hreplay
    refine ⟨values ++ [(m s).1],
      replay_concat_eq_some.mpr ⟨values, s, m, hreplay, hm, rfl, rfl⟩, fun p hp => ?_⟩
    rcases List.mem_cons.mp hp with rfl | hp
    · rw [← hlength, List.getElem?_concat_length]
    · have hvalue := hheld p (List.mem_append_right _ hp)
      rw [List.getElem?_append_left (List.getElem?_eq_some_iff.mp hvalue).1]
      exact hvalue
  used := by
    have hbefore := h.used
    rw [List.map_append, ← hoperands, ← List.append_assoc] at hbefore
    rw [List.flatMap_append, List.flatMap_singleton, List.map_cons, List.length_append,
      List.length_singleton, List.range_succ]
    exact List.perm_middle.trans ((List.perm_append_singleton _ _).symm.trans
      (hbefore.append_right _))

theorem atom (h : Mirrors actions s₀ held events s) (t : Token) :
    Mirrors actions s₀ ((events.length, (actions.atom t s).1) :: held)
      (events ++ [.atom t]) (actions.atom t s).2 :=
  h.log [] rfl fun _ _ => rfl

theorem unary (h : Mirrors actions s₀ ((i, a) :: held) events s) (op : Operator) :
    Mirrors actions s₀ ((events.length, (actions.unary op a s).1) :: held)
      (events ++ [.unary op i]) (actions.unary op a s).2 := by
  refine h.log [(i, a)] rfl fun values hvalues => ?_
  have hi : values[i]? = some a := hvalues (i, a) List.mem_cons_self
  show values[i]?.map (actions.unary op) = _
  rw [hi]
  rfl

theorem vacant (h : Mirrors actions s₀ ((i, a) :: held) events s) (op : Operator) :
    Mirrors actions s₀ ((events.length, (actions.binary op a none s).1) :: held)
      (events ++ [.binary op i none]) (actions.binary op a none s).2 := by
  refine h.log [(i, a)] rfl fun values hvalues => ?_
  have hi : values[i]? = some a := hvalues (i, a) List.mem_cons_self
  show values[i]?.map (actions.binary op · none) = _
  rw [hi]
  rfl

/-- The right operand is held above the left one, since it is read later. -/
theorem binary (h : Mirrors actions s₀ ((j, b) :: (i, a) :: held) events s) (op : Operator) :
    Mirrors actions s₀ ((events.length, (actions.binary op a (some b) s).1) :: held)
      (events ++ [.binary op i (some j)]) (actions.binary op a (some b) s).2 := by
  refine (h.perm (.swap _ _ _)).log [(i, a), (j, b)] rfl fun values hvalues => ?_
  have hi : values[i]? = some a := hvalues (i, a) List.mem_cons_self
  have hj : values[j]? = some b := hvalues (j, b) (List.mem_cons_of_mem _ List.mem_cons_self)
  show (values[i]?.bind fun a => values[j]?.bind fun b => some (actions.binary op a (some b))) = _
  rw [hi, hj]
  rfl

end Mirrors

/-! ## Two readings side by side -/

/-- **Outcomes that agree**: both are values, or both are the same failure,
and the same tokens are left. -/
inductive Agrees (given : β → γ → σ → τ → Prop) (failed : σ → τ → Prop) :
    EStateM.Result ε (Cursor × σ) β → EStateM.Result ε (Cursor × τ) γ → Prop
  | ok {b : β} {d : γ} {c : Cursor} {s : σ} {t : τ} :
    given b d s t → Agrees given failed (.ok b (c, s)) (.ok d (c, t))
  | error {e : ε} {c : Cursor} {s : σ} {t : τ} :
    failed s t → Agrees given failed (.error e (c, s)) (.error e (c, t))

/-- **Readings agree step by step.** -/
theorem Agrees.bind {P : β → γ → σ → τ → Prop} {P' : δ → ζ → σ → τ → Prop} {Q : σ → τ → Prop}
    {x : Reader σ β} {y : Reader τ γ} {f : β → Reader σ δ} {g : γ → Reader τ ζ}
    {s : Cursor × σ} {t : Cursor × τ} (h : Agrees P Q (x s) (y t))
    (hf : ∀ b d c s' t', P b d s' t' → Agrees P' Q (f b (c, s')) (g d (c, t'))) :
    Agrees P' Q ((x >>= f) s) ((y >>= g) t) := by
  generalize hx : x s = outcome at h
  generalize hy : y t = outcome' at h
  cases h with
  | ok h =>
    rw [Outcome.run_bind_of_ok hx, Outcome.run_bind_of_ok hy]
    exact hf _ _ _ _ _ h
  | error h =>
    rw [Outcome.run_bind_of_error hx, Outcome.run_bind_of_error hy]
    exact .error h

/-- What comes of readings that agree agrees. -/
theorem Agrees.settled {P : β → γ → σ → τ → Prop} {Q : σ → τ → Prop}
    {r : EStateM.Result Stop (Cursor × σ) β} {r' : EStateM.Result Stop (Cursor × τ) γ}
    (h : Agrees P Q r r') (hr : ∀ t, r ≠ .error .unfinished t)
    (hr' : ∀ t, r' ≠ .error .unfinished t) :
    Agrees P Q (Expr.settled r hr) (Expr.settled r' hr') := by
  cases h with
  | ok h => exact .ok h
  | @error e c s t h =>
    cases e with
    | failed e => exact .error h
    | unfinished => exact absurd rfl (hr (c, s))

/-- **Reading with a trace reflects reading with some actions**, where the
values `taken` are used up: the value that is read takes their place. -/
def Reflects (actions : Actions σ α) (s₀ : σ) (taken : List (Nat × α))
    (x : Reader (List Event) Nat) (y : Reader σ α) : Prop :=
  ∀ (c : Cursor) {held : List (Nat × α)} {events : List Event} {s : σ},
    Mirrors actions s₀ (taken ++ held) events s →
      Agrees (fun i a events s => Mirrors actions s₀ ((i, a) :: held) events s)
        (fun events s => ∃ held, Mirrors actions s₀ held events s) (x (c, events)) (y (c, s))

/-- Looking where the readers stand, which is the same place. -/
theorem agrees_cursor {P : β → γ → σ → τ → Prop} {Q : σ → τ → Prop} {f : Cursor → Reader σ β}
    {g : Cursor → Reader τ γ} {c : Cursor} {s : σ} {t : τ}
    (h : Agrees P Q (f c (c, s)) (g c (c, t))) :
    Agrees P Q ((Reader.cursor >>= f) (c, s)) ((Reader.cursor >>= g) (c, t)) := h

section Readers

variable {table : OperatorTable} {s₀ : σ}

theorem agrees_punct (spelling : String) (c : Cursor) {held : List (Nat × α)}
    {events : List Event} {s : σ} (h : Mirrors actions s₀ held events s) :
    Agrees (fun _ _ events s => Mirrors actions s₀ held events s)
      (fun events s => ∃ held, Mirrors actions s₀ held events s)
      ((Reader.lift (Parse.punct spelling) : Reader (List Event) Token) (c, events))
      ((Reader.lift (Parse.punct spelling) : Reader σ Token) (c, s)) := by
  unfold Reader.lift
  cases Parse.punct spelling c with
  | ok t d => exact .ok h
  | error e d => exact .error ⟨held, h⟩

variable {self : UInt32 → Reader (List Event) Nat} {self' : UInt32 → Reader σ α}
  (hself : ∀ min, Reflects actions s₀ [] (self min) (self' min))

include hself

theorem reflects_group :
    Reflects actions s₀ [] (group table trace self) (group table actions self') := by
  intro c held events s h
  unfold group
  refine (agrees_punct "(" c h).bind fun _ _ c₁ events₁ s₁ h₁ => agrees_cursor ?_
  refine (hself 0 c₁ h₁).bind fun i a c₂ events₂ s₂ h₂ => ?_
  refine (agrees_punct ")" c₂ h₂).bind fun _ _ c₃ events₃ s₃ h₃ => ?_
  cases table.cast? with
  | none => exact .ok h₃
  | some cast =>
    refine agrees_cursor ?_
    split
    · exact (hself cast.power c₃ h₃).bind fun j b c₄ events₄ s₄ h₄ => .ok (h₄.binary cast)
    · exact .ok h₃

theorem reflects_operand :
    Reflects actions s₀ [] (operand table trace self) (operand table actions self') := by
  intro c held events s h
  unfold operand
  refine agrees_cursor ?_
  cases hc : c.current? with
  | none => exact .error ⟨held, h⟩
  | some t =>
    dsimp only
    split
    · exact reflects_group hself c h
    · cases (operatorSpelling? t).bind table.nud? with
      | some op =>
        exact (hself op.power c.advance h).bind fun i a c₁ events₁ s₁ h₁ => .ok (h₁.unary op)
      | none =>
        dsimp only
        split
        · exact .ok (h.atom t)
        · split
          · exact .error ⟨held, h⟩
          · exact .error ⟨held, h⟩

/-- The value between delimiters is held while they are closed. -/
theorem reflects_enclosure (close : String) :
    Reflects actions s₀ [] (enclosure self close) (enclosure self' close) := by
  intro c held events s h
  unfold enclosure
  refine (hself 0 c h).bind fun i a c₁ events₁ s₁ h₁ => ?_
  exact (agrees_punct close c₁ h₁).bind fun _ _ c₂ events₂ s₂ h₂ => .ok h₂

/-- **The left operand is held while the right one is read**, and then both
are used. -/
theorem reflects_application (op : Operator) (i : Nat) (a : α) :
    Reflects actions s₀ [(i, a)] (application trace self op i)
      (application actions self' op a) := by
  have hright : ∀ power, Reflects actions s₀ [(i, a)]
      (do
        let right ← self power
        Reader.act (trace.binary op i (some right)))
      (do
        let right ← self' power
        Reader.act (actions.binary op a (some right))) := fun power c _ _ _ h =>
    (hself power c h).bind fun j b c₁ events₁ s₁ h₁ => .ok (h₁.binary op)
  have hinner : ∀ close, Reflects actions s₀ [(i, a)]
      (do
        let inner ← enclosure self close
        Reader.act (trace.binary op i (some inner)))
      (do
        let inner ← enclosure self' close
        Reader.act (actions.binary op a (some inner))) := fun close c _ _ _ h =>
    (reflects_enclosure hself close c h).bind fun j b c₁ events₁ s₁ h₁ => .ok (h₁.binary op)
  unfold application
  cases op.fixity with
  | infixLeft => exact hright _
  | infixRight => exact hright _
  | cast => exact hright _
  | postfixed => exact fun c _ _ _ h => .ok (h.unary op)
  | prefixed => exact fun c _ _ _ h => .ok (h.unary op)
  | bracket close => exact hinner close
  | paramList close =>
    intro c held events s h
    refine agrees_cursor ?_
    by_cases hclose : c.atPunct close = true
    · rw [if_pos hclose, if_pos hclose]
      exact .ok (h.vacant op)
    · rw [if_neg hclose, if_neg hclose]
      exact hinner close c h

theorem reflects_climb (min : UInt32) (n : Nat) (i : Nat) (a : α) :
    Reflects actions s₀ [(i, a)] (climb table trace self min n i)
      (climb table actions self' min n a) := by
  induction n generalizing i a with
  | zero => exact fun c _ _ _ h => .error ⟨_, h⟩
  | succ n ih =>
    intro c held events s h
    unfold climb
    refine agrees_cursor ?_
    cases continuation table min c.current? with
    | stop => exact .ok h
    | unimplemented spelling => exact .error ⟨_, h⟩
    | apply op =>
      exact (reflects_application hself op i a c.advance h).bind fun j b c₁ events₁ s₁ h₁ =>
        ih j b c₁ h₁

end Readers

theorem reflects_expressionWithin {table : OperatorTable} {s₀ : σ} (n : Nat) (min : UInt32) :
    Reflects actions s₀ [] (expressionWithin table trace n min)
      (expressionWithin table actions n min) := by
  induction n generalizing min with
  | zero => exact fun c held _ _ h => .error ⟨held, h⟩
  | succ n ih =>
    intro c held events s h
    exact (reflects_operand ih c h).bind fun i a c₁ events₁ s₁ h₁ =>
      reflects_climb ih min n i a c₁ h₁

/-- **Reading with any actions is replaying the trace**, whether the reading
gives a value or fails. -/
theorem reflects_expression {table : OperatorTable} {s₀ : σ} (min : UInt32) :
    Reflects actions s₀ [] (expression table trace min) (expression table actions min) :=
  fun c _ _ _ h => reflects_expressionWithin (c.rest.length + 1) min c h

/-! ## The trace of a tree -/

/-- **A trace that folds to a tree**, the value of its last event. -/
structure Folds (events : List Event) (i : Nat) (e : Expr) : Prop where
  /-- The value is that of the last event. -/
  last : i + 1 = events.length
  /-- Operands are events that come before. -/
  earlier : ∀ (k : Nat) (event : Event), events[k]? = some event → ∀ x ∈ event.operands, x < k
  /-- All other events are operands once. -/
  once : ∀ k < events.length, k ≠ i → (events.flatMap Event.operands).count k = 1
  /-- Replayed, the value is the tree. -/
  tree : ∃ trees, replay Expr.tree events () = some (trees, ()) ∧ trees[i]? = some e

/-- **Where a single value is held, the trace folds to it.** -/
theorem Mirrors.folds {events : List Event} {i : Nat} {e : Expr} {s : Unit}
    (h : Mirrors tree () [(i, e)] events s) : Folds events i e := by
  obtain ⟨trees, hreplay, hheld⟩ := h.replayed
  have hused : (events.flatMap Event.operands ++ [i]).Perm (List.range events.length) := h.used
  have hearlier : ∀ (k : Nat) (event : Event), events[k]? = some event →
      ∀ x ∈ event.operands, x < k :=
    fun _ _ => lt_of_replay hreplay
  refine ⟨?_, hearlier, fun k hk hne => ?_, trees, hreplay, hheld _ List.mem_cons_self⟩
  · have hi : i < events.length :=
      List.mem_range.mp (hused.mem_iff.mp (List.mem_append_right _ List.mem_cons_self))
    -- The last event is no operand of any event, for it would come later.
    have hlast : events.length - 1 ∈ events.flatMap Event.operands ++ [i] :=
      hused.mem_iff.mpr (List.mem_range.mpr (by omega))
    rcases List.mem_append.mp hlast with hoperand | hvalue
    · obtain ⟨event, hevent, hx⟩ := List.mem_flatMap.mp hoperand
      obtain ⟨k, hk⟩ := List.mem_iff_getElem?.mp hevent
      have hlt := hearlier k event hk _ hx
      have hbound := (List.getElem?_eq_some_iff.mp hk).1
      omega
    · have heq := List.mem_singleton.mp hvalue
      omega
  · have hcount := hused.count_eq k
    rw [List.count_append, List.count_cons_of_ne hne.symm, List.count_nil,
      List.count_eq_one_of_mem List.nodup_range (List.mem_range.mpr hk)] at hcount
    exact hcount

/-- **The trace of a reading folds to its tree.** Reading with a trace and
reading a tree take the same tokens and fail alike. Where they succeed, the
trace can be replayed event by event, each operand being an earlier event
and each event but the last an operand once, and the last value is the
tree. -/
theorem trace_folds (table : OperatorTable) (min : UInt32) (c : Cursor) :
    Outcome.Ends (parse table min) c
      (fun e d => ∃ i events,
        read table trace min (c, []) = .ok i (d, events) ∧ Folds events i e)
      (fun error d => ∃ events, read table trace min (c, []) = .error error (d, events)) := by
  have hreflects : Reflects tree () [] (expression table trace min) (expression table tree min) :=
    reflects_expression min
  have hagrees : Agrees _ _ (read table trace min (c, [])) (read table tree min (c, ())) :=
    (hreflects c (.start tree ())).settled _ _
  unfold Outcome.Ends parse
  generalize read table trace min (c, []) = outcome at hagrees ⊢
  generalize read table tree min (c, ()) = outcome' at hagrees ⊢
  cases hagrees with
  | ok h => exact ⟨_, _, rfl, h.folds⟩
  | error h => exact ⟨_, rfl⟩

-- The left operand of `a + f()` waits while the call is read.
example :
    read .standard trace 0 (⟨[⟨.identifier, "a", .start⟩, ⟨.operator, "+", .start⟩,
        ⟨.identifier, "f", .start⟩, ⟨.delimiter, "(", .start⟩, ⟨.delimiter, ")", .start⟩],
        .start⟩, [])
      = .ok 3 (⟨[], .start⟩, [.atom ⟨.identifier, "a", .start⟩, .atom ⟨.identifier, "f", .start⟩,
        .binary ⟨"(", 34, 16, .paramList ")"⟩ 1 none,
        .binary ⟨"+", 21, 11, .infixLeft⟩ 0 (some 2)]) := rfl

end Descent.Expr
