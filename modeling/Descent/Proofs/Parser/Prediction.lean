import Descent.Proofs.Cursor
import Descent.Proofs.Factoring
import Descent.Proofs.First.Fragments
import Descent.Proofs.Parser.Depth

/-!
# FIRST sets foresee runs

A FIRST set is computed from the rules, and code is run on tokens. For
bodies without directives the one foretells the other (`Foreseen`): **if
a label of the body is next, its code takes that token**, whatever comes
of it; and if none is, its code takes nothing, and gets through exactly
if the body can be passed.

Being foreseen is kept by everything that code is made of. After a head
that took a token, the tail starts with fewer tokens; after a head that
took none, which then can be passed, the tail starts at the same place,
and what starts it starts the sequence (`Foreseen.seq`). A choice commits
to a branch that a label starts, and its fallback is the only branch that
can be passed, since two would not be apart (`Foreseen.choice`).

So a call is foreseen if the calls within it are, and these have fewer
tokens left or are calls that the rule leads to. By the induction over
calls all are foreseen, and **none is nested deeper than a parser
allows** (`Parser.runRule_foreseen`).
-/

namespace Descent

variable {table : RuleTable}

/-! ## Labels and tokens -/

/-- **Whether a label is next**: a token that stands for the literal, or
one of the class. -/
def Label.isNext (c : Cursor) : Label → Bool
  | .literal s => c.atLiteral s
  | .reserved name => c.atReserved name
  | .guard _ => false

/-- No label is next at the end. -/
theorem Label.isNext_of_nil {c : Cursor} (h : c.rest = []) (l : Label) : l.isNext c = false := by
  cases l with
  | literal s =>
    show c.rest.head?.any _ = false
    rw [h]
    rfl
  | reserved name =>
    show c.rest.head?.any _ = false
    rw [h]
    rfl
  | guard d => rfl

/-- **A body without directives.** -/
def Node.Plain (n : Node) : Prop := ∀ d, .directive d ∉ n.parts

theorem Node.Plain.of_part {n m : Node} (h : n.Plain) (hm : m ∈ n.parts) : m.Plain :=
  fun d hd => h d (Node.parts_trans hm hd)

/-- **Factoring brings in no letters**, since it keeps the words. -/
theorem Rule.mem_parts_of_factored {r m : Rule} (h : r.factored = .ok m) {n : Node}
    (hn : n.isLetter = true) (hm : n ∈ m.body.parts) : n ∈ r.body.parts := by
  obtain ⟨w, hw, hnw⟩ := (Node.mem_parts_iff_mem_word hn).mp hm
  exact (Node.mem_parts_iff_mem_word hn).mpr ⟨w, (Rule.mem_words_factored h).mp hw, hnw⟩

/-- So it brings in no directives. -/
theorem Rule.plain_factored {r m : Rule} (h : r.factored = .ok m) (hr : r.body.Plain) :
    m.body.Plain :=
  fun d hd => hr d (Rule.mem_parts_of_factored h rfl hd)

/-- The label of an element that can have one. -/
def Node.label? : Node → Option Label
  | .literal s => some (.literal s)
  | .reserved s => some (.reserved s)
  | .directive d => some (.guard d)
  | _ => none

/-- **A label that can start a body is that of an element** in the body or
in a rule. -/
theorem Node.First.exists_element {n : Node} {l : Label} (h : n.First table l) :
    ∃ m, (m ∈ n.parts ∨ ∃ r ∈ table.rules, m ∈ r.body.parts) ∧ m.label? = some l := by
  induction h with
  | @head h t l _ ih =>
    obtain ⟨m, hm, hl⟩ := ih
    exact ⟨m, hm.imp_left fun hm => Node.parts_head_subset h t hm, hl⟩
  | @tail h t l _ _ ih =>
    obtain ⟨m, hm, hl⟩ := ih
    exact ⟨m, hm.imp_left fun hm => Node.parts_tail_subset h t hm, hl⟩
  | @lone h l _ ih =>
    obtain ⟨m, hm, hl⟩ := ih
    exact ⟨m, hm.imp_left fun hm => Node.parts_lone_subset h hm, hl⟩
  | @left a b l _ ih =>
    obtain ⟨m, hm, hl⟩ := ih
    exact ⟨m, hm.imp_left fun hm => Node.parts_left_subset a b hm, hl⟩
  | @right a b l _ ih =>
    obtain ⟨m, hm, hl⟩ := ih
    exact ⟨m, hm.imp_left fun hm => Node.parts_right_subset a b hm, hl⟩
  | rule hr _ ih =>
    obtain ⟨m, hm, hl⟩ := ih
    exact ⟨m, .inr (hm.elim (fun hm => ⟨_, RuleTable.mem_of_get? hr, hm⟩) id), hl⟩
  | literal => exact ⟨_, .inl (Node.mem_parts_self _), rfl⟩
  | reserved => exact ⟨_, .inl (Node.mem_parts_self _), rfl⟩
  | guard => exact ⟨_, .inl (Node.mem_parts_self _), rfl⟩

/-- **Without directives every label asks for a token.** -/
theorem Node.First.ne_guard (hrules : ∀ r ∈ table.rules, r.body.Plain) {n : Node} {l : Label}
    (h : n.First table l) (hn : n.Plain) (d : Directive) : l ≠ .guard d := by
  rintro rfl
  obtain ⟨m, hm, hl⟩ := h.exists_element
  cases m with
  | directive d' =>
    rcases hm with hm | ⟨r, hr, hm⟩
    · exact hn d' hm
    · exact hrules r hr d' hm
  | _ => cases hl

/-! ## Runs that are foreseen -/

/-- **A run that ends with a value or a failure of parsing**, having taken
tokens of which `P` holds. -/
def Run.EndsAfter {α : Type} (P : List Token → Prop) (x : Run α) (c : Cursor) : Prop :=
  Outcome.Ends x c (fun _ d => ∃ u, P u ∧ c.Takes u d)
    (fun e d => (∃ error, e = .failed error) ∧ ∃ u, P u ∧ c.Takes u d)

theorem Run.EndsAfter.of_run_eq {α : Type} {P : List Token → Prop} {x y : Run α} {c : Cursor}
    (h : Run.EndsAfter P x c) (hy : y c = x c) : Run.EndsAfter P y c := by
  unfold Run.EndsAfter Outcome.Ends
  rw [hy]
  exact h

/-- A run that takes some token takes the next one. -/
theorem Run.EndsAfter.exists_cons {α : Type} {x : Run α} {c : Cursor}
    (h : Run.EndsAfter (· ≠ []) x c) :
    ∃ t u d, c.Takes (t :: u) d
      ∧ ((∃ a, x c = .ok a d) ∨ ∃ error, x c = .error (.failed error) d) := by
  cases hx : x c with
  | ok a d =>
    obtain ⟨u, hu, htake⟩ := h.of_ok hx
    obtain ⟨t, u, rfl⟩ := List.exists_cons_of_ne_nil hu
    exact ⟨t, u, d, htake, .inl ⟨a, rfl⟩⟩
  | error e d =>
    obtain ⟨⟨error, rfl⟩, u, hu, htake⟩ := h.of_error hx
    obtain ⟨t, u, rfl⟩ := List.exists_cons_of_ne_nil hu
    exact ⟨t, u, d, htake, .inr ⟨error, rfl⟩⟩

/-- **A run that does what the FIRST set of a body says.** -/
structure Foreseen {α : Type} (table : RuleTable) (n : Node) (x : Run α) (c : Cursor) :
    Prop where
  /-- If a label is next, its token is taken. -/
  takes : ∀ l, n.First table l → l.isNext c = true → Run.EndsAfter (· ≠ []) x c
  /-- If none is and the body can be passed, the run gets through. -/
  passes : (∀ l, n.First table l → l.isNext c = false) → n.Nullable table → ∃ a, x c = .ok a c
  /-- If none is and the body cannot be passed, the run fails. -/
  refuses : (∀ l, n.First table l → l.isNext c = false) → ¬ n.Nullable table →
    ∃ error, x c = .error (.failed error) c

namespace Foreseen

variable {α β : Type} {n n' : Node} {x : Run α} {c : Cursor}

/-- Either a label is next or none is. -/
theorem next_or_none (table : RuleTable) (n : Node) (c : Cursor) :
    (∃ l, n.First table l ∧ l.isNext c = true)
      ∨ ∀ l, n.First table l → l.isNext c = false := by
  by_cases h : ∃ l, n.First table l ∧ l.isNext c = true
  · exact .inl h
  · refine .inr fun l hl => Bool.eq_false_iff.mpr fun hnext => h ⟨l, hl, hnext⟩

/-- Whatever is next, a run that is foreseen ends and does not go back. -/
theorem endsAfter (h : Foreseen table n x c) : Run.EndsAfter (fun _ => True) x c := by
  rcases next_or_none table n c with ⟨l, hl, hnext⟩ | hnone
  · refine (h.takes l hl hnext).mono ?_ ?_
    · rintro a d ⟨u, -, htake⟩
      exact ⟨u, trivial, htake⟩
    · rintro e d ⟨hfailed, u, -, htake⟩
      exact ⟨hfailed, u, trivial, htake⟩
  · rw [Run.EndsAfter, Outcome.ends_iff]
    by_cases hn : n.Nullable table
    · obtain ⟨a, ha⟩ := h.passes hnone hn
      rw [ha]
      refine ⟨fun b d hb => ?_, nofun⟩
      cases hb
      exact ⟨[], trivial, .refl c⟩
    · obtain ⟨error, he⟩ := h.refuses hnone hn
      rw [he]
      refine ⟨nofun, fun e d hb => ?_⟩
      cases hb
      exact ⟨⟨error, rfl⟩, [], trivial, .refl c⟩

/-- Bodies that start alike foresee the same runs. -/
theorem congr (h : Foreseen table n x c) (hf : ∀ l, n'.First table l ↔ n.First table l)
    (hn : n'.Nullable table ↔ n.Nullable table) : Foreseen table n' x c where
  takes l hl := h.takes l ((hf l).mp hl)
  passes hnone hnull := h.passes (fun l hl => hnone l ((hf l).mpr hl)) (hn.mp hnull)
  refuses hnone hnull := h.refuses (fun l hl => hnone l ((hf l).mpr hl)) (mt hn.mpr hnull)

/-- Only what the run does at the cursor matters. -/
theorem of_run_eq {y : Run α} (h : Foreseen table n x c) (hy : y c = x c) :
    Foreseen table n y c where
  takes l hl hnext := (h.takes l hl hnext).of_run_eq hy
  passes hnone hn := by
    rw [hy]
    exact h.passes hnone hn
  refuses hnone hn := by
    rw [hy]
    exact h.refuses hnone hn

/-- What is made of the value in the end does not matter. -/
theorem map (h : Foreseen table n x c) (f : α → β) :
    Foreseen table n (x >>= fun a => pure (f a)) c where
  takes l hl hnext := (h.takes l hl hnext).bind (fun _ _ => id) (fun _ _ => id)
  passes hnone hn := by
    obtain ⟨a, ha⟩ := h.passes hnone hn
    exact ⟨f a, Outcome.run_bind_of_ok ha⟩
  refuses hnone hn := by
    obtain ⟨error, he⟩ := h.refuses hnone hn
    exact ⟨error, Outcome.run_bind_of_error he⟩

/-- **A sequence is foreseen** if its head is, and its tail wherever the
head may leave off. -/
theorem seq {h t : Node} {x y : Run (List Tree)} (hx : Foreseen table h x c)
    (hsame : h.Nullable table → Foreseen table t y c)
    (hlater : ∀ d u, u ≠ [] → c.Takes u d → Foreseen table t y d) :
    Foreseen table (.seq h t) (do
      let xs ← x
      let ys ← y
      pure (xs ++ ys)) c where
  takes l hl hnext := by
    rcases next_or_none table h c with ⟨l', hl', hnext'⟩ | hnone
    · -- The head takes a token, so the tail is later, wherever it ends.
      refine (hx.takes l' hl' hnext').bind ?_ (fun _ _ => id)
      rintro xs d ⟨u, hu, htake⟩
      refine ((hlater d u hu htake).map (xs ++ ·)).endsAfter.mono ?_ ?_
      · rintro ys e ⟨v, -, htake'⟩
        exact ⟨u ++ v, List.append_ne_nil_of_left_ne_nil hu v, htake.trans htake'⟩
      · rintro e d' ⟨hfailed, v, -, htake'⟩
        exact ⟨hfailed, u ++ v, List.append_ne_nil_of_left_ne_nil hu v, htake.trans htake'⟩
    · -- The head takes nothing, so the label is one of the tail.
      rcases Node.first_seq.mp hl with hl | ⟨hnull, hl⟩
      · rw [hnone l hl] at hnext
        cases hnext
      · obtain ⟨xs, hxs⟩ := hx.passes hnone hnull
        rw [Run.EndsAfter, Outcome.ends_bind_of_ok hxs]
        exact ((hsame hnull).map (xs ++ ·)).takes l hl hnext
  passes hnone hn := by
    obtain ⟨hnull, hnull'⟩ := Node.nullable_seq.mp hn
    obtain ⟨xs, hxs⟩ := hx.passes (fun l hl => hnone l (.head hl)) hnull
    obtain ⟨ys, hys⟩ := ((hsame hnull).map (xs ++ ·)).passes
      (fun l hl => hnone l (.tail hnull hl)) hnull'
    exact ⟨ys, (Outcome.run_bind_of_ok hxs).trans hys⟩
  refuses hnone hn := by
    by_cases hnull : h.Nullable table
    · obtain ⟨xs, hxs⟩ := hx.passes (fun l hl => hnone l (.head hl)) hnull
      obtain ⟨error, he⟩ := ((hsame hnull).map (xs ++ ·)).refuses
        (fun l hl => hnone l (.tail hnull hl)) (fun hnull' => hn (.seq hnull hnull'))
      exact ⟨error, (Outcome.run_bind_of_ok hxs).trans he⟩
    · obtain ⟨error, he⟩ := hx.refuses (fun l hl => hnone l (.head hl)) hnull
      exact ⟨error, Outcome.run_bind_of_error he⟩

/-- **Taking one token is foreseen** by a body that one label starts, if
the test and the label agree. -/
theorem accept {l : Label} (hf : ∀ l', n.First table l' ↔ l' = l) (hn : ¬ n.Nullable table)
    {test : Token → Bool} (htest : ∀ c : Cursor, l.isNext c = c.current?.any test)
    (what : String) (c : Cursor) :
    Foreseen table n (Run.lift (Parse.accept test what)) c where
  takes l' hl' hnext := by
    rw [(hf l').mp hl', htest, Option.any_eq_true] at hnext
    obtain ⟨t, ht, htt⟩ := hnext
    have htake := Cursor.takes_advance ht
    have hrun : Run.lift (Parse.accept test what) c = .ok t c.advance :=
      Run.lift_eq_ok.mpr (Parse.accept_eq_ok.mpr ⟨htake, htt⟩)
    unfold Run.EndsAfter Outcome.Ends
    rw [hrun]
    exact ⟨[t], List.cons_ne_nil t [], htake⟩
  passes _ hnull := absurd hnull hn
  refuses hnone _ := by
    have hnot := hnone l ((hf l).mpr rfl)
    rw [htest] at hnot
    exact ⟨_, Run.lift_of_error (Parse.accept_of_not hnot)⟩

section Choice

open Code

variable {operators : OperatorTable} {call : String → Run Tree} {bs : List Branch}

/-- A branch is ready exactly if one of its labels is next, all of them
asking for tokens. -/
theorem ready_iff {b : Node} {br : Branch} (hd : br.first.Describes table b)
    (hguard : ∀ l, b.First table l → ∀ d, l ≠ .guard d) :
    br.ready operators c = true ↔ ∃ l, b.First table l ∧ l.isNext c = true := by
  unfold Branch.ready
  rw [List.any_map, List.any_eq_true]
  refine exists_congr fun l => ?_
  rw [hd.mem_labels]
  refine and_congr_right fun hl => ?_
  cases l with
  | literal s => exact Iff.rfl
  | reserved name => exact Iff.rfl
  | guard d => exact absurd rfl (hguard _ hl d)

/-- **A branch that a label starts which is next is the fallback**, if no
branch is committed to: it can be passed, and no other branch can. -/
theorem fallback_of_next {P : Node → Branch → Prop} {b : Node} {l : Label}
    (hbs : List.Forall₂ (fun b br => br.first.Describes table b ∧ P b br) n.branches bs)
    (hguard : ∀ b ∈ n.branches, ∀ l, b.First table l → ∀ d, l ≠ .guard d)
    (hapart : n.branches.Pairwise (Node.Apart table)) (hcom : committed? operators c bs = none)
    (hb : b ∈ n.branches) (hl : b.First table l) (hnext : l.isNext c = true) :
    ∃ br, P b br ∧ fallback bs = br.body := by
  obtain ⟨br, hbr, hd, -⟩ := Outcome.exists_of_mem_left hbs hb
  have hnull : br.first.nullable = true := by
    rw [← Bool.not_eq_false]
    intro hfalse
    have hnot := of_committed?_none hcom hbr hfalse
    rw [(ready_iff hd (hguard b hb)).mpr ⟨l, hl, hnext⟩] at hnot
    cases hnot
  obtain ⟨br', hmem, hnull', hfallback⟩ := fallback_of_nullable hbr hnull
  obtain ⟨b', hb', hd', hP⟩ := Outcome.exists_of_mem_right hbs hmem
  obtain rfl : b = b' := Node.eq_of_nullable hapart hb hb' (hd.nullable_iff.mp hnull)
    (hd'.nullable_iff.mp hnull')
  exact ⟨br', hP, hfallback⟩

variable (hbs : List.Forall₂ (fun b br => br.first.Describes table b
    ∧ Foreseen table b (br.body.run operators call) c) n.branches bs)
  (hguard : ∀ b ∈ n.branches, ∀ l, b.First table l → ∀ d, l ≠ .guard d)

include hbs hguard

/-- Where no label is next, no branch is committed to. -/
theorem committed?_eq_none (hnone : ∀ l, n.First table l → l.isNext c = false) :
    committed? operators c bs = none := by
  rw [Option.eq_none_iff_forall_ne_some]
  intro br hcom
  obtain ⟨hmem, -, hready⟩ := of_committed? hcom
  obtain ⟨b, hb, hd, -⟩ := Outcome.exists_of_mem_right hbs hmem
  obtain ⟨l, hl, hnext⟩ := (ready_iff hd (hguard b hb)).mp hready
  rw [hnone l (Node.first_iff_branch.mpr ⟨b, hb, hl⟩)] at hnext
  cases hnext

/-- **A choice takes the token of a label that is next.** Some branch has
the label. If no branch is committed to, that branch can be passed, and
so it is the fallback. -/
theorem choice_takes (hapart : n.branches.Pairwise (Node.Apart table)) {l : Label}
    (hl : n.First table l) (hnext : l.isNext c = true) :
    Run.EndsAfter (· ≠ []) ((Code.choice bs).run operators call) c := by
  have hrun := run_choice operators call bs c
  cases hcom : committed? operators c bs with
  | some br =>
    obtain ⟨hmem, -, hready⟩ := of_committed? hcom
    obtain ⟨b, hb, hd, hforeseen⟩ := Outcome.exists_of_mem_right hbs hmem
    obtain ⟨l', hl', hnext'⟩ := (ready_iff hd (hguard b hb)).mp hready
    rw [hcom] at hrun
    exact (hforeseen.takes l' hl' hnext').of_run_eq hrun
  | none =>
    obtain ⟨b, hb, hbl⟩ := Node.first_iff_branch.mp hl
    obtain ⟨br, hforeseen, hfallback⟩ := fallback_of_next hbs hguard hapart hcom hb hbl hnext
    rw [hcom, hfallback] at hrun
    exact (hforeseen.takes l hbl hnext).of_run_eq hrun

/-- A choice that can be passed is, where no label is next. -/
theorem choice_passes (hnone : ∀ l, n.First table l → l.isNext c = false)
    (hn : n.Nullable table) : ∃ xs, (Code.choice bs).run operators call c = .ok xs c := by
  obtain ⟨b, hb, hbn⟩ := Node.nullable_iff_branch.mp hn
  obtain ⟨br, hbr, hd, -⟩ := Outcome.exists_of_mem_left hbs hb
  obtain ⟨br', hmem, hnull, hfallback⟩ := fallback_of_nullable hbr (hd.nullable_iff.mpr hbn)
  obtain ⟨b', hb', hd', hforeseen⟩ := Outcome.exists_of_mem_right hbs hmem
  obtain ⟨xs, hxs⟩ := hforeseen.passes
    (fun l hl => hnone l (Node.first_iff_branch.mpr ⟨b', hb', hl⟩)) (hd'.nullable_iff.mp hnull)
  refine ⟨xs, ?_⟩
  rw [run_choice, committed?_eq_none hbs hguard hnone, hfallback]
  exact hxs

/-- A choice that cannot be passed fails, where no label is next. -/
theorem choice_refuses (hnone : ∀ l, n.First table l → l.isNext c = false)
    (hn : ¬ n.Nullable table) :
    ∃ error, (Code.choice bs).run operators call c = .error (.failed error) c := by
  have hnull : ∀ br ∈ bs, br.first.nullable = false := by
    intro br hbr
    obtain ⟨b, hb, hd, -⟩ := Outcome.exists_of_mem_right hbs hbr
    rw [← Bool.not_eq_true, hd.nullable_iff]
    exact fun hbn => hn (Node.nullable_iff_branch.mpr ⟨b, hb, hbn⟩)
  refine ⟨c.expectedOneOf (labels bs), ?_⟩
  rw [run_choice, committed?_eq_none hbs hguard hnone, fallback_of_not_nullable hnull]
  rfl

/-- **A choice is foreseen** if its branches are, and are apart. -/
theorem choice (hapart : n.branches.Pairwise (Node.Apart table)) :
    Foreseen table n ((Code.choice bs).run operators call) c where
  takes _ := choice_takes hbs hguard hapart
  passes := choice_passes hbs hguard
  refuses := choice_refuses hbs hguard

end Choice

end Foreseen

/-! ## Code and parsers -/

section Code

variable {sets : FirstSets} {operators : OperatorTable} {call : String → Run Tree}

/-- **There is code for every body that is clear of defects**, if there is
for its directives. -/
theorem Code.exists_ofNode_of_directives (hsets : table.firstSets = .ok sets) (n : Node) :
    n.Clear table → (∀ d, .directive d ∈ n.parts → ∃ code, Code.ofDirective d = .ok code) →
      ∃ code, Code.ofNode sets n = .ok code := by
  induction n using Node.branchInduction with
  | seq h t hh ht =>
    intro hclear hcalls
    have hmh := Node.head_mem_parts h t
    have hmt := Node.tail_mem_parts h t
    obtain ⟨ch, hch⟩ := hh (hclear.of_part hmh) fun d hd => hcalls d (Node.parts_trans hmh hd)
    obtain ⟨ct, hct⟩ := ht (hclear.of_part hmt) fun d hd => hcalls d (Node.parts_trans hmt hd)
    exact ⟨.seq ch ct, Code.ofNode_seq.mpr ⟨ch, ct, hch, hct, rfl⟩⟩
  | lone h hh =>
    intro hclear hcalls
    have hmh := Node.lone_mem_parts h
    obtain ⟨ch, hch⟩ := hh (hclear.of_part hmh) fun d hd => hcalls d (Node.parts_trans hmh hd)
    exact ⟨ch, Code.ofNode_lone.mpr hch⟩
  | choice n hn hb =>
    intro hclear hcalls
    have hbranch : ∀ b ∈ n.branches, ∃ br : Code.Branch,
        sets.firstOf b = .ok br.first ∧ Code.ofNode sets b = .ok br.body := by
      intro b hmem
      have hpart := Node.mem_parts_of_mem_branches hmem
      obtain ⟨s, hs⟩ := (FirstSets.firstOf_ok_iff hsets).mpr
        ((hclear.of_part hpart).settles (RuleTable.settles_rules hsets))
      obtain ⟨code, hcode⟩ :=
        hb b hmem (hclear.of_part hpart) fun d hd => hcalls d (Node.parts_trans hpart hd)
      exact ⟨⟨s, code⟩, hs, hcode⟩
    obtain ⟨bs, hbs⟩ := Outcome.exists_forall₂ hbranch
    exact ⟨_, (Code.ofNode_choice hn).mpr ⟨bs, rfl, hbs⟩⟩
  | directive d =>
    intro _ hcalls
    obtain ⟨code, hcode⟩ := hcalls d (Node.mem_parts_self _)
    exact ⟨code, Code.ofNode_directive.mpr hcode⟩
  | _ => exact fun _ _ => ⟨_, rfl⟩

/-- So there is for every such body without directives. -/
theorem Code.exists_ofNode (hsets : table.firstSets = .ok sets) (n : Node) (hclear : n.Clear table)
    (hplain : n.Plain) : ∃ code, Code.ofNode sets n = .ok code :=
  Code.exists_ofNode_of_directives hsets n hclear fun d hd => absurd hd (hplain d)

/-- **The code of a body is foreseen** if the calls are that it can make:
those after a token was taken, and those of the references that the body
exposes. -/
theorem Code.ofNode_foreseen (hsets : table.firstSets = .ok sets)
    (hrules : ∀ r ∈ table.rules, r.body.Plain) (n : Node) :
    n.Clear table → n.Plain → ∀ {code : Code}, Code.ofNode sets n = .ok code → ∀ c : Cursor,
      (∀ name ∈ table.targets, ∀ d : Cursor, d.rest.length < c.rest.length →
        Foreseen table (.rule name) (call name) d) →
      (∀ name, n.Exposes table name → Foreseen table (.rule name) (call name) c) →
      Foreseen table n (code.run operators call) c := by
  induction n using Node.branchInduction with
  | seq h t hh ht =>
    intro hclear hplain code hcode c hless hsame
    obtain ⟨ch, ct, hch, hct, rfl⟩ := Code.ofNode_seq.mp hcode
    have hmh := Node.head_mem_parts h t
    have hmt := Node.tail_mem_parts h t
    have htail := ht (hclear.of_part hmt) (hplain.of_part hmt) hct
    refine (hh (hclear.of_part hmh) (hplain.of_part hmh) hch c hless
      fun name he => hsame name (.head he)).seq
      (fun hnull => htail c hless fun name he => hsame name (.tail hnull he))
      (fun d u hu htake => ?_)
    -- Behind a token that was taken, every call is of the first kind.
    have hshorter : d.rest.length < c.rest.length := by
      have hpos := List.length_pos_of_ne_nil hu
      have hlength := htake.length_eq
      omega
    refine htail d (fun name hname e he => hless name hname e (he.trans hshorter))
      (fun name he => hless name ?_ d hshorter)
    exact RuleTable.mem_targets.mpr ((hclear.of_part hmt).defined name he.mem_parts)
  | lone h hh =>
    intro hclear hplain code hcode c hless hsame
    have hmh := Node.lone_mem_parts h
    exact (hh (hclear.of_part hmh) (hplain.of_part hmh) (Code.ofNode_lone.mp hcode) c hless
      fun name he => hsame name (.lone he)).congr (fun _ => Node.first_lone) Node.nullable_lone
  | choice n hn hb =>
    intro hclear hplain code hcode c hless hsame
    obtain ⟨bs, rfl, hbs⟩ := (Code.ofNode_choice hn).mp hcode
    have hbranch : ∀ b ∈ n.branches, ∀ code, Code.ofNode sets b = .ok code →
        Foreseen table b (code.run operators call) c := by
      intro b hmem code hcode
      have hpart := Node.mem_parts_of_mem_branches hmem
      exact hb b hmem (hclear.of_part hpart) (hplain.of_part hpart) hcode c hless
        fun name he => hsame name (he.of_branch hmem)
    refine Foreseen.choice ?_ (fun b hmem l hl => ?_) (hclear.apart n (Node.mem_parts_self n) hn)
    · refine ((List.forall₂_and_left _ _).mpr ⟨hbranch, hbs⟩).imp ?_
      rintro b br ⟨hforeseen, hfirst, hbody⟩
      exact ⟨FirstSets.describes_firstOf hsets hfirst, hforeseen br.body hbody⟩
    · exact hl.ne_guard hrules (hplain.of_part (Node.mem_parts_of_mem_branches hmem))
  | literal s =>
    intro _ _ code hcode c _ _
    obtain rfl := Except.ok.inj hcode
    refine (Foreseen.accept (l := .literal s) (fun _ => Node.first_literal) (fun h => ?_)
      (fun _ => rfl) _ c).map _
    cases h
  | reserved s =>
    intro _ _ code hcode c _ _
    obtain rfl := Except.ok.inj hcode
    refine (Foreseen.accept (l := .reserved s) (fun l => ?_) (fun h => ?_)
      (fun _ => rfl) _ c).map _
    · exact ⟨fun | .reserved => rfl, fun h => h ▸ .reserved⟩
    · cases h
  | rule s =>
    intro _ _ code hcode c _ hsame
    obtain rfl := Except.ok.inj hcode
    exact (hsame s .rule).map _
  | directive d =>
    intro _ hplain
    exact absurd (Node.mem_parts_self _) (hplain d)
  | action e =>
    intro _ _ code hcode c _ _
    obtain rfl := Except.ok.inj hcode
    exact ⟨nofun, fun _ _ => ⟨_, rfl⟩, fun _ hn => absurd .action hn⟩
  | empty =>
    intro _ _ code hcode c _ _
    obtain rfl := Except.ok.inj hcode
    exact ⟨nofun, fun _ _ => ⟨_, rfl⟩, fun _ hn => absurd .empty hn⟩

end Code

namespace Parser

variable {g : Grammar.Compiled} {p : Parser}

/-- **Every call of a rule is foreseen**, and so are the calls within it:
the bound of a parser is never reached. -/
theorem runRule_foreseen (hsets : g.rules.firstSets = .ok g.first) (hp : g.parser = .ok p)
    (hrules : ∀ r ∈ g.rules.rules, r.body.Plain) (operators : OperatorTable) {name : String}
    (hname : name ∈ g.rules.targets) (c : Cursor) :
    Foreseen g.rules (.rule name) (p.runRule operators name) c := by
  have hw := RuleTable.wellFormed_of_firstSets hsets
  have hstep : ∀ k name (c : Cursor),
      (∀ target d, d.rest.length < c.rest.length → target ∈ g.rules.targets →
        Foreseen g.rules (.rule target) (p.runWithin operators k target) d) →
      (∀ target, g.rules.Leads name target → target ∈ g.rules.targets →
        Foreseen g.rules (.rule target) (p.runWithin operators k target) c) →
      name ∈ g.rules.targets →
        Foreseen g.rules (.rule name) (p.runWithin operators (k + 1) name) c := by
    intro k name c hless hsame hname
    obtain ⟨r, hr⟩ := RuleTable.mem_targets.mp hname
    have hmem := RuleTable.mem_of_get? hr
    obtain ⟨code, hcode⟩ := Code.exists_ofNode hsets r.body (hw.clear hmem) (hrules r hmem)
    have hbody : Foreseen g.rules r.body (code.run operators (p.runWithin operators k)) c :=
      Code.ofNode_foreseen hsets hrules r.body (hw.clear hmem) (hrules r hmem) hcode c
        (fun target ht d hd => hless target d hd ht)
        (fun target he => hsame target ⟨r, hr, he⟩ (hw.mem_targets_of_leads ⟨r, hr, he⟩))
    unfold runWithin
    rw [(code?_eq_some hp).mpr ⟨r, hr, hcode⟩]
    exact (hbody.map (Tree.node name)).congr (fun _ => Node.first_rule hr)
      (Node.nullable_rule hr)
  have hrun := hw.descend hstep name c hname
  rw [← depth_eq hp] at hrun
  exact hrun.of_run_eq rfl

/-- **There is a parser for rules whose directives all have code.** -/
theorem parser_ok_of_directives (hsets : g.rules.firstSets = .ok g.first)
    (hcalls : ∀ r ∈ g.rules.rules, ∀ d, .directive d ∈ r.body.parts →
      ∃ code, Code.ofDirective d = .ok code) : ∃ p, g.parser = .ok p := by
  have hw := RuleTable.wellFormed_of_firstSets hsets
  have hmethod : ∀ r ∈ g.rules.rules, ∃ m : String × Code,
      m.1 = r.target ∧ Code.ofNode g.first r.body = .ok m.2 := by
    intro r hr
    obtain ⟨code, hcode⟩ :=
      Code.exists_ofNode_of_directives hsets r.body (hw.clear hr) (hcalls r hr)
    exact ⟨(r.target, code), rfl, hcode⟩
  obtain ⟨methods, hmethods⟩ := Outcome.exists_forall₂ hmethod
  exact ⟨⟨g.rules.keywords, g.goal, methods⟩,
    Grammar.Compiled.parser_eq_ok.mpr ⟨rfl, rfl, hmethods⟩⟩

/-- There is a parser for rules without directives. -/
theorem parser_ok_of_plain (hsets : g.rules.firstSets = .ok g.first)
    (hrules : ∀ r ∈ g.rules.rules, r.body.Plain) : ∃ p, g.parser = .ok p :=
  parser_ok_of_directives hsets fun r hr d hd => absurd hd (hrules r hr d)

/-- **FIRST sets agree with what parsers do.** For a grammar without
directives there is a parser, and for every part of its factored rules a
FIRST set and code. Wherever a label of the set is next, running the code
takes at least that token, and ends with children or a failure. Wherever
none is, in particular at the end, it takes nothing, and gives children
if the set allows passing and a failure if not. -/
theorem first_agrees {source : Grammar} (hc : source.compile = .ok g)
    (hplain : ∀ r ∈ source.rules.rules, r.body.Plain) :
    ∃ p, g.parser = .ok p ∧ ∀ r ∈ g.rules.rules, ∀ n ∈ r.body.parts, ∃ s code,
      g.first.firstOf n = .ok s ∧ Code.ofNode g.first n = .ok code
        ∧ ∀ (operators : OperatorTable) (c : Cursor),
          ((∃ l ∈ s.labels, l.isNext c = true) → ∃ t u d, c.Takes (t :: u) d
            ∧ ((∃ xs, code.run operators (p.runRule operators) c = .ok xs d)
              ∨ ∃ e, code.run operators (p.runRule operators) c = .error (.failed e) d))
          ∧ ((∀ l ∈ s.labels, l.isNext c = false) ∨ c.rest = [] →
            (s.nullable = true → ∃ xs, code.run operators (p.runRule operators) c = .ok xs c)
              ∧ (s.nullable = false →
                ∃ e, code.run operators (p.runRule operators) c = .error (.failed e) c)) := by
  obtain ⟨-, hfactored, hsets, -⟩ := Grammar.compile_eq_ok.mp hc
  have hrules : ∀ r ∈ g.rules.rules, r.body.Plain := by
    intro r hr
    obtain ⟨written, hwritten, hr'⟩ :=
      RuleTable.get?_factored hfactored (RuleTable.get?_target hr)
    exact Rule.plain_factored hr' (hplain written (RuleTable.mem_of_get? hwritten))
  obtain ⟨p, hp⟩ := parser_ok_of_plain hsets hrules
  refine ⟨p, hp, fun r hr n hn => ?_⟩
  have hclear := ((RuleTable.wellFormed_of_firstSets hsets).clear hr).of_part hn
  have hn' := (hrules r hr).of_part hn
  obtain ⟨s, hs⟩ := (FirstSets.firstOf_ok_iff hsets).mpr
    (RuleTable.settles_of_mem_parts hsets hr hn)
  obtain ⟨code, hcode⟩ := Code.exists_ofNode hsets n hclear hn'
  refine ⟨s, code, hs, hcode, fun operators c => ?_⟩
  have hdescribes := FirstSets.describes_firstOf hsets hs
  have hcall : ∀ name ∈ g.rules.targets, ∀ d,
      Foreseen g.rules (.rule name) (p.runRule operators name) d :=
    fun name hname d => runRule_foreseen hsets hp hrules operators hname d
  have hforeseen : Foreseen g.rules n (code.run operators (p.runRule operators)) c :=
    Code.ofNode_foreseen hsets hrules n hclear hn' hcode c
      (fun name hname d _ => hcall name hname d)
      (fun name he => hcall name (RuleTable.mem_targets.mpr
        (hclear.defined name he.mem_parts)) c)
  constructor
  · rintro ⟨l, hl, hnext⟩
    exact (hforeseen.takes l ((hdescribes.mem_labels l).mp hl) hnext).exists_cons
  · intro h
    have hnone : ∀ l, n.First g.rules l → l.isNext c = false := by
      intro l hl
      rcases h with hnone | hend
      · exact hnone l ((hdescribes.mem_labels l).mpr hl)
      · exact Label.isNext_of_nil hend l
    exact ⟨fun hnull => hforeseen.passes hnone (hdescribes.nullable_iff.mp hnull),
      fun hnull => hforeseen.refuses hnone (hdescribes.not_nullable hnull)⟩

/-- The tokens of `x ]`. -/
def beforeName : Cursor where
  rest := [⟨.identifier, "x", .start⟩, ⟨.delimiter, "]", .start⟩]
  finish := .start

/-- The token of `]`. -/
def beforeBracket : Cursor where
  rest := [⟨.delimiter, "]", .start⟩]
  finish := .start

/-- In the parser of lists in brackets, the choice of whether there is one
more item takes a name that is next, and takes nothing before the closing
bracket. -/
theorem first_agrees_lists :
    ∃ g p code, (Grammar.mk RuleTable.lists none).compile = .ok g ∧ g.parser = .ok p
      ∧ Code.ofNode g.first (.alt (.seq (.rule "item") (.rule "items")) .empty) = .ok code
      ∧ (∃ t u d, beforeName.Takes (t :: u) d
        ∧ ((∃ xs, code.run .empty (p.runRule .empty) beforeName = .ok xs d)
          ∨ ∃ e, code.run .empty (p.runRule .empty) beforeName = .error (.failed e) d))
      ∧ ∃ xs, code.run .empty (p.runRule .empty) beforeBracket = .ok xs beforeBracket := by
  have hrun : (do
      let g ← (Grammar.mk RuleTable.lists none).compile.toOption
      let r ← g.rules.get? "items"
      let s ← (g.first.firstOf r.body).toOption
      some (r.body, s.labels, s.nullable))
      = some (.alt (.seq (.rule "item") (.rule "items")) .empty,
          [.literal "[", .reserved "IDENT"], true) := by
    decide +kernel
  obtain ⟨g, hg, hrun⟩ := Option.bind_eq_some_iff.mp hrun
  obtain ⟨r, hr, hrun⟩ := Option.bind_eq_some_iff.mp hrun
  obtain ⟨s, hs, hrun⟩ := Option.bind_eq_some_iff.mp hrun
  rw [Outcome.toOption_eq_some] at hg hs
  obtain ⟨hbody, hset⟩ := Prod.mk.inj (Option.some.inj hrun)
  obtain ⟨hlabels, hnullable⟩ := Prod.mk.inj hset
  have hplain : ∀ r ∈ RuleTable.lists.rules, r.body.Plain := by
    intro r hr d hd
    simp only [RuleTable.lists, List.mem_cons, List.not_mem_nil, or_false] at hr
    rcases hr with rfl | rfl | rfl <;> simp [Node.parts] at hd
  obtain ⟨p, hp, hparts⟩ := first_agrees hg hplain
  obtain ⟨s', code, hs', hcode, hagrees⟩ :=
    hparts r (RuleTable.mem_of_get? hr) r.body (Node.mem_parts_self _)
  obtain rfl : s = s' := Except.ok.inj (hs.symm.trans hs')
  rw [hbody] at hcode
  refine ⟨g, p, code, hg, hp, hcode, ?_, ?_⟩
  · refine (hagrees .empty beforeName).1 ⟨.reserved "IDENT", ?_, by decide⟩
    rw [hlabels]
    decide
  · refine ((hagrees .empty beforeBracket).2 (.inl ?_)).1 hnullable
    rw [hlabels]
    decide

end Parser

end Descent
