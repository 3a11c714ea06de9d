import Descent.Proofs.Expr.Bound
import Descent.Proofs.Parser.Prediction
import Descent.Proofs.Parser.Soundness
import Mathlib.Data.Set.Finite.Lattice
import Mathlib.Data.Set.Finite.List
import Mathlib.Order.WellFounded

/-!
# Generated parsers end

Rules call each other, and nothing in the code of a rule counts down. That
every run ends all the same is up to the rules: **a body that takes no
token and gets through can be passed** (`Progresses`), unless it looks
ahead, for a look ahead takes nothing and still does not count as passed.
Without such directives, a call that is made before a token is taken is a
call of a rule that the caller leads to, and rules do not lead to
themselves.

What a run calls, and where, is the list `Code.calls`. A run depends on
nothing else of the rules (`Code.run_congr`). So each call in the list is
one with fewer tokens left or one of a lower rank, which is enough for the
induction over calls. From there it follows that a bound on the depth is
never reached (`Parser.runWithin_eq_runRule`), that runs are what the code
says, with no bound anywhere (`Parser.runRule_eq`), and that a rule is not
called again inside its own call before a token is taken
(`Parser.takes_of_nested`).

Expressions call no rules, but they are nested in each other, and end
because each one takes a token (`Expr.expressionWithin_settles`).
-/

namespace Descent

open Relation (TransGen)

variable {table : RuleTable}

/-! ## Bodies that do not look ahead -/

/-- **A body without directives that look ahead.** -/
def Node.NoLookahead (n : Node) : Prop :=
  ∀ d, .directive d ∈ n.parts → d.kind ≠ .lookahead

theorem Node.NoLookahead.of_part {n m : Node} (h : n.NoLookahead) (hm : m ∈ n.parts) :
    m.NoLookahead :=
  fun d hd => h d (Node.parts_trans hm hd)

/-- What holds of the letters of the rules as written holds of those of
the factored ones. -/
theorem RuleTable.letters_of_factored {result : RuleTable} (h : table.factored = .ok result)
    {P : Node → Prop} (hP : ∀ r ∈ table.rules, ∀ n ∈ r.body.parts, n.isLetter = true → P n) :
    ∀ m ∈ result.rules, ∀ n ∈ m.body.parts, n.isLetter = true → P n := by
  intro m hm n hn hletter
  obtain ⟨r, hr, hfactored⟩ := RuleTable.get?_factored h (RuleTable.get?_target hm)
  exact hP r (RuleTable.mem_of_get? hr) n (Rule.mem_parts_of_factored hfactored hletter hn) hletter

/-! ## Runs that progress -/

/-- **A run that ends with a value or a failure of parsing**, and takes a
token unless the body can be passed. -/
def Progresses {α : Type} (table : RuleTable) (n : Node) (x : Run α) (c : Cursor) : Prop :=
  Outcome.Ends x c (fun _ d => ∃ u, c.Takes u d ∧ (u = [] → n.Nullable table))
    (fun e _ => ∃ error, e = .failed error)

namespace Progresses

variable {α β : Type} {n n' : Node} {x : Run α} {c : Cursor}

theorem of_run_eq {y : Run α} (h : Progresses table n x c) (hy : y c = x c) :
    Progresses table n y c := by
  unfold Progresses Outcome.Ends
  rw [hy]
  exact h

/-- Bodies that are passed more easily progress as well. -/
theorem imp (h : Progresses table n x c) (hn : n.Nullable table → n'.Nullable table) :
    Progresses table n' x c := by
  refine h.mono ?_ (fun _ _ => id)
  rintro a d ⟨u, htake, hnull⟩
  exact ⟨u, htake, fun hu => hn (hnull hu)⟩

/-- What is made of the value in the end does not matter. -/
theorem map (h : Progresses table n x c) (f : α → β) :
    Progresses table n (x >>= fun a => pure (f a)) c :=
  h.bind (fun _ _ => id) (fun _ _ => id)

/-- A failure of parsing is an end. -/
theorem fail (n : Node) (error : Cursor → ParseError) (c : Cursor) :
    Progresses table n (Run.fail error : Run α) c :=
  ⟨error c, rfl⟩

/-- Giving a value at once is for bodies that can be passed. -/
theorem pure (hn : n.Nullable table) (a : α) (c : Cursor) :
    Progresses table n (Pure.pure a) c :=
  ⟨[], .refl c, fun _ => hn⟩

/-- A reader of tokens progresses if it takes one or the body can be
passed. -/
theorem lift {q : Parse α} (h : ∀ a d, q c = .ok a d →
      ∃ u, c.Takes u d ∧ (u = [] → n.Nullable table)) :
    Progresses table n (Run.lift q) c := by
  unfold Progresses
  rw [Outcome.ends_iff]
  refine ⟨fun a d ha => h a d (Run.lift_eq_ok.mp ha), fun e d he => ?_⟩
  cases hq : q c with
  | ok a d' =>
    rw [Run.lift_eq_ok.mpr hq] at he
    cases he
  | error error d' =>
    rw [Run.lift_of_error hq] at he
    cases he
    exact ⟨error, rfl⟩

/-- Taking one token progresses. -/
theorem accept (n : Node) (test : Token → Bool) (what : String) (c : Cursor) :
    Progresses table n (Run.lift (Parse.accept test what)) c :=
  lift fun t _ ht => ⟨[t], (Parse.accept_eq_ok.mp ht).1, nofun⟩

/-- **A sequence progresses** if its head does, and its tail wherever the
head may leave off. -/
theorem seq {h t : Node} {x y : Run (List Tree)} (hx : Progresses table h x c)
    (hy : ∀ u d, c.Takes u d → (u = [] → h.Nullable table) → Progresses table t y d) :
    Progresses table (.seq h t) (do
      let xs ← x
      let ys ← y
      Pure.pure (xs ++ ys)) c := by
  refine hx.bind ?_ (fun _ _ => id)
  rintro xs d ⟨u, htake, hnull⟩
  refine ((hy u d htake hnull).map (xs ++ ·)).mono ?_ (fun _ _ => id)
  rintro ys e ⟨v, htake', hnull'⟩
  refine ⟨u ++ v, htake.trans htake', fun huv => ?_⟩
  obtain ⟨hu, hv⟩ := List.append_eq_nil_iff.mp huv
  exact .seq (hnull hu) (hnull' hv)

/-- **A choice progresses** if its branches do. -/
theorem choice {operators : OperatorTable} {call : String → Run Tree} {bs : List Code.Branch}
    (hbs : ∀ br ∈ bs, ∃ b ∈ n.branches, Progresses table b (br.body.run operators call) c) :
    Progresses table n ((Code.choice bs).run operators call) c := by
  have hbranch : ∀ br ∈ bs, Progresses table n (br.body.run operators call) c := by
    intro br hbr
    obtain ⟨b, hb, hprogress⟩ := hbs br hbr
    exact hprogress.imp fun hnull => Node.nullable_iff_branch.mpr ⟨b, hb, hnull⟩
  obtain ⟨br, hbr, hrun⟩ | hrun := Code.run_choice_cases operators call bs c
  · exact (hbranch br hbr).of_run_eq hrun
  · exact (fail n (·.expectedOneOf (Code.labels bs)) c).of_run_eq hrun

end Progresses

/-- **Directives progress**, apart from those that look ahead. -/
theorem Code.directive_progresses {operators : OperatorTable} {call : String → Run Tree}
    {d : Directive} {code : Code} (hcode : Code.ofDirective d = .ok code)
    (hd : d.kind ≠ .lookahead) (c : Cursor) :
    Progresses table (.directive d) (code.run operators call) c := by
  unfold Code.ofDirective at hcode
  split at hcode
  · next hkind => exact absurd hkind hd
  · next hkind =>
    obtain rfl := Except.ok.inj hcode
    refine (Progresses.lift fun ts e hts => ?_).map _
    exact ⟨ts, (Parse.recover_eq_ok hts).1, fun _ => .directive (.inr hkind)⟩
  · obtain rfl := Except.ok.inj hcode
    exact .fail _ _ c
  · split at hcode
    · next power _ =>
      obtain rfl := Except.ok.inj hcode
      refine (Progresses.lift fun e m he => ?_).map _
      obtain ⟨u, htake, hreads⟩ := Expr.parse_sound he
      exact ⟨u, htake, fun hu => absurd hu hreads.ne_nil⟩
    · cases hcode

/-! ## The calls that a run makes -/

/-- **The calls that code makes**, in order: which rule, and where. -/
def Code.calls (operators : OperatorTable) (call : String → Run Tree) :
    Code → Cursor → List (String × Cursor)
  | .seq first next, c =>
    first.calls operators call c ++
      match first.run operators call c with
      | .ok _ d => next.calls operators call d
      | .error _ _ => []
  | .call rule, c => [(rule, c)]
  | .branch guards body otherwise, c =>
    if guards.any (·.holds operators c) then body.calls operators call c
    else otherwise.calls operators call c
  | .block body, c => body.calls operators call c
  | _, _ => []

section Calls

variable {operators : OperatorTable} {call call' : String → Run Tree}

/-- **A run depends on the calls that it makes and on no others.** -/
theorem Code.run_congr {code : Code} {c : Cursor}
    (h : ∀ a ∈ code.calls operators call c, call' a.1 a.2 = call a.1 a.2) :
    code.run operators call' c = code.run operators call c := by
  induction code generalizing c with
  | seq first next hfirst hnext =>
    have hrun := hfirst fun a ha => h a (List.mem_append_left _ ha)
    cases hx : first.run operators call c with
    | error e d =>
      show (first.run operators call' >>= _) c = (first.run operators call >>= _) c
      rw [Outcome.run_bind_of_error hx, Outcome.run_bind_of_error (hrun.trans hx)]
    | ok xs d =>
      have hrun' := hnext (c := d) fun a ha => h a (List.mem_append_right _ (by rw [hx]; exact ha))
      show (first.run operators call' >>= _) c = (first.run operators call >>= _) c
      rw [Outcome.run_bind_of_ok hx, Outcome.run_bind_of_ok (hrun.trans hx)]
      cases hy : next.run operators call d with
      | error e d' =>
        rw [Outcome.run_bind_of_error hy, Outcome.run_bind_of_error (hrun'.trans hy)]
      | ok ys d' => rw [Outcome.run_bind_of_ok hy, Outcome.run_bind_of_ok (hrun'.trans hy)]
  | call rule =>
    have hcall : call' rule c = call rule c := h (rule, c) (List.mem_singleton_self _)
    show (call' rule >>= _) c = (call rule >>= _) c
    cases hx : call rule c with
    | error e d => rw [Outcome.run_bind_of_error hx, Outcome.run_bind_of_error (hcall.trans hx)]
    | ok t d => rw [Outcome.run_bind_of_ok hx, Outcome.run_bind_of_ok (hcall.trans hx)]
  | branch guards body otherwise hbody hotherwise =>
    unfold Code.calls at h
    show (if guards.any (·.holds operators c) then _ else _ : Run _) c
      = (if guards.any (·.holds operators c) then _ else _ : Run _) c
    split
    · next hg =>
      rw [if_pos hg] at h
      exact hbody h
    · next hg =>
      rw [if_neg hg] at h
      exact hotherwise h
  | block body hbody => exact hbody h
  | _ => rfl

/-- **What a choice calls** is what the branch calls that it commits to,
or the fallback. -/
theorem Code.calls_choice (bs : List Code.Branch) (c : Cursor) :
    (Code.choice bs).calls operators call c
      = match Code.committed? operators c bs with
        | some b => b.body.calls operators call c
        | none => (Code.fallback bs).calls operators call c := by
  unfold Code.choice Code.committed?
  generalize bs.filter (!·.first.nullable) = guarded
  induction guarded with
  | nil => rfl
  | cons b guarded ih =>
    rw [List.foldr_cons, List.find?_cons]
    show (if b.ready operators c then _ else _) = _
    cases b.ready operators c with
    | true => rfl
    | false => exact ih

/-- **Calls that progress**, of those that a body can make from some
place: the ones with fewer tokens left, and those of the references that
the body exposes. -/
structure CallsProgress (table : RuleTable) (call : String → Run Tree) (n : Node) (c : Cursor) :
    Prop where
  later : ∀ name ∈ table.targets, ∀ d : Cursor, d.rest.length < c.rest.length →
    Progresses table (.rule name) (call name) d
  same : ∀ name, n.Exposes table name → Progresses table (.rule name) (call name) c

namespace CallsProgress

variable {n m : Node} {c : Cursor}

theorem mono (h : CallsProgress table call n c)
    (hm : ∀ name, m.Exposes table name → n.Exposes table name) :
    CallsProgress table call m c :=
  ⟨h.later, fun name hname => h.same name (hm name hname)⟩

/-- **Behind the head of a sequence** the calls are those of the tail from
the same place, if the head can be passed, and else later ones. -/
theorem tail {h t : Node} (hs : CallsProgress table call (.seq h t) c) (ht : t.Clear table)
    {u : List Token} {d : Cursor} (htake : c.Takes u d) (hnull : u = [] → h.Nullable table) :
    CallsProgress table call t d := by
  rcases htake.eq_or_shorter with ⟨hu, rfl⟩ | hshorter
  · exact hs.mono fun name he => .tail (hnull hu) he
  · refine ⟨fun name hname e he => hs.later name hname e (he.trans hshorter),
      fun name he => hs.later name ?_ d hshorter⟩
    exact RuleTable.mem_targets.mpr (ht.defined name he.mem_parts)

end CallsProgress

variable {sets : FirstSets}

/-- **The code of a body progresses** if its calls do. -/
theorem Code.ofNode_progresses (n : Node) :
    n.Clear table → n.NoLookahead → ∀ {code : Code}, Code.ofNode sets n = .ok code →
      ∀ {c : Cursor}, CallsProgress table call n c →
        Progresses table n (code.run operators call) c := by
  induction n using Node.branchInduction with
  | seq h t hh ht =>
    intro hclear hlook code hcode c hcalls
    obtain ⟨ch, ct, hch, hct, rfl⟩ := Code.ofNode_seq.mp hcode
    have hmh := Node.head_mem_parts h t
    have hmt := Node.tail_mem_parts h t
    refine (hh (hclear.of_part hmh) (hlook.of_part hmh) hch
      (hcalls.mono fun _ => .head)).seq fun u d htake hnull => ?_
    exact ht (hclear.of_part hmt) (hlook.of_part hmt) hct
      (hcalls.tail (hclear.of_part hmt) htake hnull)
  | lone h hh =>
    intro hclear hlook code hcode c hcalls
    have hmh := Node.lone_mem_parts h
    exact (hh (hclear.of_part hmh) (hlook.of_part hmh) (Code.ofNode_lone.mp hcode)
      (hcalls.mono fun _ => .lone)).imp Node.nullable_lone.mpr
  | choice n hn hb =>
    intro hclear hlook code hcode c hcalls
    obtain ⟨bs, rfl, hbs⟩ := (Code.ofNode_choice hn).mp hcode
    refine .choice fun br hbr => ?_
    obtain ⟨b, hmem, -, hbody⟩ := Outcome.exists_of_mem_right hbs hbr
    have hpart := Node.mem_parts_of_mem_branches hmem
    exact ⟨b, hmem, hb b hmem (hclear.of_part hpart) (hlook.of_part hpart) hbody
      (hcalls.mono fun _ he => he.of_branch hmem)⟩
  | literal s =>
    intro _ _ code hcode c _
    obtain rfl := Except.ok.inj hcode
    exact (Progresses.accept _ _ _ c).map _
  | reserved s =>
    intro _ _ code hcode c _
    obtain rfl := Except.ok.inj hcode
    exact (Progresses.accept _ _ _ c).map _
  | rule s =>
    intro _ _ code hcode c hcalls
    obtain rfl := Except.ok.inj hcode
    exact (hcalls.same s .rule).map _
  | directive d =>
    intro _ hlook code hcode c _
    exact Code.directive_progresses (Code.ofNode_directive.mp hcode)
      (hlook d (Node.mem_parts_self _)) c
  | action e =>
    intro _ _ code hcode c _
    obtain rfl := Except.ok.inj hcode
    exact .pure .action _ c
  | empty =>
    intro _ _ code hcode c _
    obtain rfl := Except.ok.inj hcode
    exact .pure .empty _ c

/-- **A call that is made before a token is taken is of a rule that the
body exposes.** -/
theorem Code.ofNode_calls (n : Node) :
    n.Clear table → n.NoLookahead → ∀ {code : Code}, Code.ofNode sets n = .ok code →
      ∀ {c : Cursor}, CallsProgress table call n c →
        ∀ {name : String} {d : Cursor}, (name, d) ∈ code.calls operators call c →
          name ∈ table.targets ∧ ∃ u, c.Takes u d ∧ (u = [] → n.Exposes table name) := by
  induction n using Node.branchInduction with
  | seq h t hh ht =>
    intro hclear hlook code hcode c hcalls name d hmem
    obtain ⟨ch, ct, hch, hct, rfl⟩ := Code.ofNode_seq.mp hcode
    have hmh := Node.head_mem_parts h t
    have hmt := Node.tail_mem_parts h t
    have hhead := hcalls.mono fun _ => Node.Exposes.head
    rcases List.mem_append.mp hmem with hmem | hmem
    · obtain ⟨hname, u, htake, he⟩ :=
        hh (hclear.of_part hmh) (hlook.of_part hmh) hch hhead hmem
      exact ⟨hname, u, htake, fun hu => .head (he hu)⟩
    · have hprogress : Progresses table h (ch.run operators call) c :=
        Code.ofNode_progresses h (hclear.of_part hmh) (hlook.of_part hmh) hch hhead
      cases hrun : ch.run operators call c with
      | error e m =>
        rw [hrun] at hmem
        cases hmem
      | ok xs m =>
        rw [hrun] at hmem
        obtain ⟨u, htake, hnull⟩ := hprogress.of_ok hrun
        obtain ⟨hname, v, htake', he⟩ := ht (hclear.of_part hmt) (hlook.of_part hmt) hct
          (hcalls.tail (hclear.of_part hmt) htake hnull) hmem
        refine ⟨hname, u ++ v, htake.trans htake', fun huv => ?_⟩
        obtain ⟨hu, hv⟩ := List.append_eq_nil_iff.mp huv
        exact .tail (hnull hu) (he hv)
  | lone h hh =>
    intro hclear hlook code hcode c hcalls name d hmem
    have hmh := Node.lone_mem_parts h
    obtain ⟨hname, u, htake, he⟩ := hh (hclear.of_part hmh) (hlook.of_part hmh)
      (Code.ofNode_lone.mp hcode) (hcalls.mono fun _ => .lone) hmem
    exact ⟨hname, u, htake, fun hu => .lone (he hu)⟩
  | choice n hn hb =>
    intro hclear hlook code hcode c hcalls name d hmem
    obtain ⟨bs, rfl, hbs⟩ := (Code.ofNode_choice hn).mp hcode
    have hbranch : ∀ br ∈ bs, (name, d) ∈ br.body.calls operators call c →
        name ∈ table.targets ∧ ∃ u, c.Takes u d ∧ (u = [] → n.Exposes table name) := by
      intro br hbr hmem
      obtain ⟨b, hmemb, -, hbody⟩ := Outcome.exists_of_mem_right hbs hbr
      have hpart := Node.mem_parts_of_mem_branches hmemb
      obtain ⟨hname, u, htake, he⟩ := hb b hmemb (hclear.of_part hpart) (hlook.of_part hpart)
        hbody (hcalls.mono fun _ he => he.of_branch hmemb) hmem
      exact ⟨hname, u, htake, fun hu => (he hu).of_branch hmemb⟩
    rw [Code.calls_choice] at hmem
    split at hmem
    · next br hcom => exact hbranch br (Code.of_committed? hcom).1 hmem
    · unfold Code.fallback at hmem
      split at hmem
      · next br hlast =>
        exact hbranch br (List.mem_filter.mp (List.mem_of_getLast? hlast)).1 hmem
      · cases hmem
  | rule s =>
    intro hclear _ code hcode c _ name d hmem
    obtain rfl := Except.ok.inj hcode
    cases List.mem_singleton.mp hmem
    exact ⟨RuleTable.mem_targets.mpr (hclear.defined s (Node.mem_parts_self _)), [],
      .refl c, fun _ => .rule⟩
  | directive dir =>
    intro _ _ code hcode c _ name d hmem
    have hcode := Code.ofNode_directive.mp hcode
    unfold Code.ofDirective at hcode
    split at hcode
    · obtain rfl := Except.ok.inj hcode
      cases hmem
    · obtain rfl := Except.ok.inj hcode
      cases hmem
    · obtain rfl := Except.ok.inj hcode
      cases hmem
    · split at hcode
      · obtain rfl := Except.ok.inj hcode
        cases hmem
      · cases hcode
  | _ =>
    intro _ _ code hcode c _ name d hmem
    obtain rfl := Except.ok.inj hcode
    cases hmem

end Calls

/-! ## Parsers -/

namespace Parser

variable {g : Grammar.Compiled} {p : Parser}

/-- There is code for every rule. -/
theorem exists_code (hp : g.parser = .ok p) {name : String} (h : name ∈ g.rules.targets) :
    ∃ r code, g.rules.get? name = some r ∧ Code.ofNode g.first r.body = .ok code
      ∧ p.code? name = some code := by
  obtain ⟨r, hr⟩ := RuleTable.mem_targets.mp h
  obtain ⟨-, -, hall⟩ := Grammar.Compiled.parser_eq_ok.mp hp
  obtain ⟨m, -, -, hcode⟩ := Outcome.exists_of_mem_left hall (RuleTable.mem_of_get? hr)
  exact ⟨r, m.2, hr, hcode, (code?_eq_some hp).mpr ⟨r, hr, hcode⟩⟩

/-- What running a rule one call deeper comes to. -/
theorem runWithin_succ {name : String} {code : Code} (h : p.code? name = some code)
    (operators : OperatorTable) (k : Nat) :
    p.runWithin operators (k + 1) name = (do
      let children ← code.run operators (p.runWithin operators k)
      pure (.node name children)) := by
  rw [runWithin, h]

/-- **A bound that is enough for a call**: the call progresses, and no
higher bound makes a difference to it. -/
structure Suffices (p : Parser) (operators : OperatorTable) (table : RuleTable) (k : Nat)
    (name : String) (c : Cursor) : Prop where
  progresses : Progresses table (.rule name) (p.runWithin operators k name) c
  stable : ∀ j, k ≤ j → p.runWithin operators j name c = p.runWithin operators k name c

/-- **A call within a call.** The second is one of those that the code of
the first makes. -/
def Calls (p : Parser) (operators : OperatorTable) (a b : String × Cursor) : Prop :=
  ∃ code, p.code? a.1 = some code ∧ b ∈ code.calls operators (p.runRule operators) a.2

section

variable (hsets : g.rules.firstSets = .ok g.first) (hp : g.parser = .ok p)
  (hrules : ∀ r ∈ g.rules.rules, r.body.NoLookahead) {operators : OperatorTable}

include hsets hp hrules

/-- **One more than a bound that is enough for the calls within a call is
enough for the call.** -/
theorem suffices_succ {k : Nat} {name : String} (hname : name ∈ g.rules.targets) {c : Cursor}
    (hless : ∀ target d, d.rest.length < c.rest.length → target ∈ g.rules.targets →
      p.Suffices operators g.rules k target d)
    (hsame : ∀ target, g.rules.Leads name target → target ∈ g.rules.targets →
      p.Suffices operators g.rules k target c) :
    p.Suffices operators g.rules (k + 1) name c := by
  have hw := RuleTable.wellFormed_of_firstSets hsets
  obtain ⟨r, code, hr, hcode, hlookup⟩ := exists_code hp hname
  have hmem := RuleTable.mem_of_get? hr
  have hexposed : ∀ target, r.body.Exposes g.rules target →
      p.Suffices operators g.rules k target c := fun target he =>
    hsame target ⟨r, hr, he⟩ (hw.mem_targets_of_leads ⟨r, hr, he⟩)
  have hcalls : CallsProgress g.rules (p.runWithin operators k) r.body c :=
    ⟨fun target ht d hd => (hless target d hd ht).progresses,
      fun target he => (hexposed target he).progresses⟩
  constructor
  · rw [runWithin_succ hlookup]
    exact ((Code.ofNode_progresses r.body (hw.clear hmem) (hrules r hmem) hcode hcalls).map
      _).imp (Node.nullable_rule hr).mpr
  · intro j hj
    cases j with
    | zero => exact absurd hj (Nat.not_succ_le_zero k)
    | succ j =>
      have hkj := Nat.le_of_succ_le_succ hj
      rw [runWithin_succ hlookup, runWithin_succ hlookup]
      refine Outcome.run_bind_congr (Code.run_congr fun ⟨target, d⟩ ha => ?_)
      obtain ⟨ht, u, htake, he⟩ :=
        Code.ofNode_calls r.body (hw.clear hmem) (hrules r hmem) hcode hcalls ha
      rcases htake.eq_or_shorter with ⟨hu, rfl⟩ | hshorter
      · exact (hexposed target (he hu)).stable j hkj
      · exact (hless target d hshorter ht).stable j hkj

/-- **The bound of a parser is enough for every call.** -/
theorem suffices_depth {name : String} (hname : name ∈ g.rules.targets) (c : Cursor) :
    p.Suffices operators g.rules (p.depth c.rest.length) name c := by
  have hw := RuleTable.wellFormed_of_firstSets hsets
  rw [depth_eq hp]
  exact hw.descend (motive := fun k name c => name ∈ g.rules.targets →
      p.Suffices operators g.rules k name c)
    (fun k name c hless hsame hname => suffices_succ hsets hp hrules hname hless hsame)
    name c hname

/-- **Runs of rules progress.** -/
theorem runRule_progresses {name : String} (hname : name ∈ g.rules.targets) (c : Cursor) :
    Progresses g.rules (.rule name) (p.runRule operators name) c :=
  (suffices_depth hsets hp hrules hname c).progresses.of_run_eq rfl

/-- **No bound that is at least that of the parser makes a difference.** -/
theorem runWithin_eq_runRule {name : String} (hname : name ∈ g.rules.targets) {c : Cursor}
    {j : Nat} (hj : p.depth c.rest.length ≤ j) :
    p.runWithin operators j name c = p.runRule operators name c :=
  (suffices_depth hsets hp hrules hname c).stable j hj

/-- All calls that a rule makes progress. -/
theorem callsProgress_runRule {r : Rule} (hr : r ∈ g.rules.rules) (c : Cursor) :
    CallsProgress g.rules (p.runRule operators) r.body c := by
  have hw := RuleTable.wellFormed_of_firstSets hsets
  refine ⟨fun name hname d _ => runRule_progresses hsets hp hrules hname d, fun name he => ?_⟩
  exact runRule_progresses hsets hp hrules
    (RuleTable.mem_targets.mpr ((hw.clear hr).defined name he.mem_parts)) c

/-- **A call is of a rule, and it comes after a token or is one that the
caller leads to.** -/
theorem takes_of_calls {a b : String × Cursor} (h : p.Calls operators a b) :
    b.1 ∈ g.rules.targets ∧ ∃ u, a.2.Takes u b.2 ∧ (u = [] → g.rules.Leads a.1 b.1) := by
  have hw := RuleTable.wellFormed_of_firstSets hsets
  obtain ⟨code, hlookup, hb⟩ := h
  obtain ⟨r, hr, hcode⟩ := (code?_eq_some hp).mp hlookup
  have hmem := RuleTable.mem_of_get? hr
  obtain ⟨hname, u, htake, he⟩ := Code.ofNode_calls r.body (hw.clear hmem) (hrules r hmem) hcode
    (callsProgress_runRule hsets hp hrules hmem a.2) hb
  exact ⟨hname, u, htake, fun hu => ⟨r, hr, he hu⟩⟩

/-- **The run of a rule is what its code says**, calls being runs of rules
again. There is no bound in this. -/
theorem runRule_eq {name : String} {code : Code} (h : p.code? name = some code) (c : Cursor) :
    p.runRule operators name c = (do
      let children ← code.run operators (p.runRule operators)
      pure (.node name children) : Run Tree) c := by
  obtain ⟨r, hr, -⟩ := (code?_eq_some hp).mp h
  have hname : name ∈ g.rules.targets := RuleTable.mem_targets.mpr ⟨r, hr⟩
  rw [← runWithin_eq_runRule hsets hp hrules hname (Nat.le_succ _), runWithin_succ h]
  refine Outcome.run_bind_congr (Code.run_congr fun b hb => ?_)
  obtain ⟨hb, u, htake, -⟩ := takes_of_calls hsets hp hrules (a := (name, c)) ⟨code, h, hb⟩
  refine runWithin_eq_runRule hsets hp hrules hb ?_
  -- A call has no more tokens left than its caller, so no higher bound.
  have hlength : c.rest.length = _ := htake.length_eq
  exact Nat.mul_le_mul_left _ (by omega)

/-- **Of the other rules a run depends on its calls alone**: it is the same
with anything in their place that does the same where it is called. -/
theorem runRule_of_calls {name : String} {code : Code} (h : p.code? name = some code) {c : Cursor}
    {call : String → Run Tree}
    (hcall : ∀ b, p.Calls operators (name, c) b → call b.1 b.2 = p.runRule operators b.1 b.2) :
    (do
      let children ← code.run operators call
      pure (.node name children) : Run Tree) c = p.runRule operators name c := by
  rw [runRule_eq hsets hp hrules h]
  exact Outcome.run_bind_congr (Code.run_congr fun b hb => hcall b ⟨code, h, hb⟩)

/-- **Calls nested in each other** take tokens on the way, unless the outer
one leads to the inner one. -/
theorem takes_of_transGen_calls {a b : String × Cursor} (h : TransGen (p.Calls operators) a b) :
    ∃ u, a.2.Takes u b.2 ∧ (u = [] → TransGen g.rules.Leads a.1 b.1) := by
  induction h with
  | single h =>
    obtain ⟨-, u, htake, hl⟩ := takes_of_calls hsets hp hrules h
    exact ⟨u, htake, fun hu => .single (hl hu)⟩
  | tail _ h ih =>
    obtain ⟨u, htake, hl⟩ := ih
    obtain ⟨-, v, htake', hl'⟩ := takes_of_calls hsets hp hrules h
    refine ⟨u ++ v, htake.trans htake', fun huv => ?_⟩
    obtain ⟨hu, hv⟩ := List.append_eq_nil_iff.mp huv
    exact (hl hu).tail (hl' hv)

/-- **Between a call of a rule and a call of the same rule within it a
token is taken.** -/
theorem takes_of_nested {name : String} {c d : Cursor}
    (h : TransGen (p.Calls operators) (name, c) (name, d)) : ∃ t u, c.Takes (t :: u) d := by
  obtain ⟨u, htake, hl⟩ := takes_of_transGen_calls hsets hp hrules h
  cases u with
  | nil => exact absurd (hl rfl) ((RuleTable.wellFormed_of_firstSets hsets).noLeftRecursion name)
  | cons t u => exact ⟨t, u, htake⟩

/-- **Calls are not nested in each other without end.** -/
theorem wellFounded_calls : WellFounded fun a b => p.Calls operators b a := by
  obtain ⟨rank, hsize, hdrop⟩ :=
    (RuleTable.wellFormed_of_firstSets hsets).exists_rank
  refine Subrelation.wf (fun {b a} h => ?_)
    (measure fun a : String × Cursor =>
      (g.rules.size + 1) * a.2.rest.length + rank a.1).wf
  obtain ⟨-, u, htake, hl⟩ := takes_of_calls hsets hp hrules h
  show (g.rules.size + 1) * b.2.rest.length + rank b.1
    < (g.rules.size + 1) * a.2.rest.length + rank a.1
  rcases htake.eq_or_shorter with ⟨hu, hab⟩ | hshorter
  · rw [hab]
    exact Nat.add_lt_add_left (hdrop _ _ (hl hu)) _
  · have hmul := Nat.mul_le_mul_left (g.rules.size + 1) hshorter
    have hrank := hsize b.1
    rw [Nat.mul_succ] at hmul
    omega

/-- **A call has finitely many calls nested in it**: each makes the calls of
a list, and they are not nested without end. -/
theorem finite_calls (a : String × Cursor) : {b | TransGen (p.Calls operators) a b}.Finite := by
  have hwf : WellFounded fun a b => p.Calls operators b a := wellFounded_calls hsets hp hrules
  induction a using hwf.induction with
  | _ a ih =>
    have hdirect : {b | p.Calls operators a b}.Finite := by
      cases hlookup : p.code? a.1 with
      | none =>
        refine Set.finite_empty.subset fun b ⟨code, hcode, _⟩ => ?_
        rw [hlookup] at hcode
        cases hcode
      | some code =>
        refine (code.calls operators (p.runRule operators) a.2).finite_toSet.subset ?_
        rintro b ⟨code', hcode, hb⟩
        rw [hlookup] at hcode
        cases hcode
        exact hb
    refine (hdirect.union (hdirect.biUnion fun b hb => ih b hb)).subset fun b hb => ?_
    rcases TransGen.head'_iff.mp hb with ⟨m, hm, hrest⟩
    rcases hrest.cases_head with rfl | ⟨k, hk, hrest⟩
    · exact .inl hm
    · exact .inr (Set.mem_biUnion hm (TransGen.head' hk hrest))

end

/-- **Generated parsers end.** In a grammar without directives that look
ahead, the run of a rule ends with a tree or a failure of parsing from
every place, and so it does with any higher bound on the depth, always in
the same way. The expressions in it are read to a tree or to a failure as
well: a bound on how deep they are nested and on how far they go is not used
up if it is above the number of tokens left, and what is read does not depend
on it. Of the other rules a run depends on its calls alone. A call has
finitely many calls nested in it and no endless chain of them, and a call of
the same rule among them comes after a token was taken. -/
theorem runs_end {source : Grammar} (hc : source.compile = .ok g) (hp : g.parser = .ok p)
    (hlook : ∀ r ∈ source.rules.rules, r.body.NoLookahead) (operators : OperatorTable) :
    (∀ name ∈ source.rules.targets, ∀ c : Cursor,
      ((∃ tree d, p.runRule operators name c = .ok tree d)
        ∨ ∃ e d, p.runRule operators name c = .error (.failed e) d)
      ∧ ∀ depth, p.depth c.rest.length ≤ depth →
        p.runWithin operators depth name c = p.runRule operators name c)
    ∧ (∀ (min : UInt32) (c : Cursor) (n : Nat), c.rest.length < n →
      (∃ e d, Expr.expressionWithin operators Expr.tree n min (c, ()) = .ok e (d, ())
        ∧ Expr.parse operators min c = .ok e d)
      ∨ ∃ e d, Expr.expressionWithin operators Expr.tree n min (c, ()) = .error (.failed e) (d, ())
        ∧ Expr.parse operators min c = .error e d)
    ∧ (∀ name code (c : Cursor) (call : String → Run Tree), p.code? name = some code →
      (∀ b, p.Calls operators (name, c) b → call b.1 b.2 = p.runRule operators b.1 b.2) →
      (do
        let children ← code.run operators call
        pure (.node name children) : Run Tree) c = p.runRule operators name c)
    ∧ (WellFounded fun a b => p.Calls operators b a)
    ∧ (∀ a, {b | TransGen (p.Calls operators) a b}.Finite)
    ∧ ∀ name c d, TransGen (p.Calls operators) (name, c) (name, d) →
      ∃ t u, c.Takes (t :: u) d := by
  obtain ⟨-, hfactored, hsets, -⟩ := Grammar.compile_eq_ok.mp hc
  have hrules : ∀ r ∈ g.rules.rules, r.body.NoLookahead := fun r hr d hd =>
    RuleTable.letters_of_factored hfactored
      (P := fun n => ∀ d, n = .directive d → d.kind ≠ .lookahead)
      (fun r hr n hn _ d hnd => hlook r hr d (hnd ▸ hn)) r hr _ hd rfl d rfl
  refine ⟨fun name hname c => ⟨?_, fun depth hdepth => ?_⟩,
    fun min c n hn => Expr.expressionWithin_settles min c hn,
    fun name code c call hcode hcall => runRule_of_calls hsets hp hrules hcode hcall,
    wellFounded_calls hsets hp hrules, finite_calls hsets hp hrules,
    fun name c d h => takes_of_nested hsets hp hrules h⟩
  · rw [← RuleTable.targets_factored hfactored] at hname
    have hprogress : Progresses g.rules (.rule name) (p.runRule operators name) c :=
      runRule_progresses hsets hp hrules hname c
    cases hrun : p.runRule operators name c with
    | ok tree d => exact .inl ⟨tree, d, rfl⟩
    | error e d =>
      obtain ⟨error, rfl⟩ := hprogress.of_error hrun
      exact .inr ⟨error, d, rfl⟩
  · rw [← RuleTable.targets_factored hfactored] at hname
    exact runWithin_eq_runRule hsets hp hrules hname hdepth

/-- The place behind the first statement of `Cursor.blocks`. -/
def behindStatement : Cursor := { Cursor.blocks with rest := Cursor.blocks.rest.drop 7 }

/-- The tokens of `( ( 1 ) )`. -/
def nestedGroups : Cursor where
  rest := [⟨.delimiter, "(", .start⟩, ⟨.delimiter, "(", .start⟩, ⟨.number, "1", .start⟩,
    ⟨.delimiter, ")", .start⟩, ⟨.delimiter, ")", .start⟩]
  finish := .start

/-- In the parser of blocks a block calls a block behind its first
statement, so the tokens of the statement are taken in between. Groups in
groups are read to a tree. -/
theorem runs_end_blocks :
    ∃ g p, Grammar.blocks.compile = .ok g ∧ g.parser = .ok p
      ∧ (∀ r ∈ Grammar.blocks.rules.rules, r.body.NoLookahead)
      ∧ TransGen (p.Calls (OperatorTable.empty.insert (.infixLeft "+" 21 11)))
        ("block", Cursor.blocks) ("block", behindStatement)
      ∧ (∃ t u, Cursor.blocks.Takes (t :: u) behindStatement)
      ∧ (∃ e d, Expr.expressionWithin .standard Expr.tree 6 0 (nestedGroups, ()) = .ok e (d, ())
        ∧ Expr.parse .standard 0 nestedGroups = .ok e d)
      ∧ ∀ operators c, (∃ tree d, p.runRule operators "stmt" c = .ok tree d)
        ∨ ∃ e d, p.runRule operators "stmt" c = .error (.failed e) d := by
  have hrun : (do
      let g ← Grammar.blocks.compile.toOption
      let p ← g.parser.toOption
      let code ← p.code? "block"
      let operators := OperatorTable.empty.insert (.infixLeft "+" 21 11)
      some (code.calls operators (p.runRule operators) Cursor.blocks))
      = some [("stmt", Cursor.blocks), ("block", behindStatement)] := by
    decide +kernel
  obtain ⟨g, hg, hrun⟩ := Option.bind_eq_some_iff.mp hrun
  obtain ⟨p, hp, hrun⟩ := Option.bind_eq_some_iff.mp hrun
  obtain ⟨code, hcode, hcalls⟩ := Option.bind_eq_some_iff.mp hrun
  rw [Outcome.toOption_eq_some] at hg hp
  have hlook : ∀ r ∈ Grammar.blocks.rules.rules, r.body.NoLookahead := by
    intro r hr d hd
    simp only [Grammar.blocks, List.mem_cons, List.not_mem_nil, or_false] at hr
    rcases hr with rfl | rfl <;> simp [Node.parts] at hd
    rcases hd with rfl | rfl <;> exact Directive.Kind.noConfusion
  have hnested : p.Calls (OperatorTable.empty.insert (.infixLeft "+" 21 11))
      ("block", Cursor.blocks) ("block", behindStatement) := by
    refine ⟨code, hcode, ?_⟩
    rw [Option.some.inj hcalls]
    exact List.mem_cons_of_mem _ (List.mem_singleton_self _)
  refine ⟨g, p, hg, hp, hlook, .single hnested, ?_, ?_, fun operators c => ?_⟩
  · exact (runs_end hg hp hlook _).2.2.2.2.2 _ _ _ (.single hnested)
  · obtain htree | ⟨e, d, -, hfails⟩ :=
      (runs_end hg hp hlook .standard).2.1 0 nestedGroups 6 (by decide)
    · exact htree
    · have hparse : Outcome.failure? (Expr.parse .standard 0 nestedGroups) = none := by
        decide +kernel
      rw [hfails] at hparse
      cases hparse
  · exact ((runs_end hg hp hlook operators).1 "stmt" (by decide) c).1

end Parser

end Descent
