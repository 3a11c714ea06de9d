import Descent.Proofs.Source.Steps

/-!
# Readings of grammar source

**The reader accepts exactly what the rules of the notation derive, and
gives what they say** (`RuleTable.ofTokens_ok_iff`).

The reader takes elements and branches as long as it can. That loses no
derivation, because a sequence is always followed by a bar, a semicolon or
a closing bracket, and none of these begins an element (`Closes`).
-/

namespace Descent.Source

variable {operators : OperatorTable}

/-! ## The reader gives what is derived -/

/-- **A reader of choices that gives what is derived.** -/
def ReadsChoice (operators : OperatorTable) (choice : Parse Node) : Prop :=
  ∀ {c d : Cursor} {n : Node}, choice c = .ok n d →
    ∃ u bs, c.Takes u d ∧ Branches operators u bs d.current? ∧ n = .alternative bs

section

variable {choice : Parse Node}

/-- What a choice between delimiters is. -/
theorem enclosed_sound (hchoice : ReadsChoice operators choice) {close : String}
    {c d : Cursor} {t : Token} {n : Node} (hc : c.current? = some t)
    (h : enclosed choice close c = .ok n d) :
    ∃ u bs closing, c.Takes (t :: (u ++ [closing])) d ∧ Branches operators u bs (some closing)
      ∧ closing.isPunct close = true ∧ n = .alternative bs := by
  obtain ⟨m, closing, hread, take', hclosing⟩ := enclosed_eq_ok.mp h
  obtain ⟨u, bs, take, hbs, rfl⟩ := hchoice hread
  rw [take'.current?_eq] at hbs
  exact ⟨u, bs, closing, (Cursor.takes_advance hc).trans (take.trans take'), hbs, hclosing, rfl⟩

/-- A name by itself, which calls nothing. -/
theorem element_named {t : Token} {next : Option Token} (hk : t.kind = .identifier)
    (hcall : ¬ IsCall t next) : Element operators [t] (named t.spelling) next := by
  unfold named
  split
  · next hclass => exact .reserved hk hcall hclass
  · next hclass => exact .rule hk hcall (Bool.eq_false_iff.mpr hclass)

/-- **An element that is read is derived**, and where there is none
nothing is taken. -/
theorem element_sound (hchoice : ReadsChoice operators choice) {c d : Cursor}
    {found : Option Node} (h : element choice c = .ok found d) :
    (found = none ∧ d = c)
      ∨ ∃ n u, found = some n ∧ c.Takes u d ∧ Element operators u n d.current? := by
  cases hc : c.current? with
  | none =>
    rw [element_of_end hc] at h
    cases h
    exact .inl ⟨rfl, rfl⟩
  | some t =>
    have take := Cursor.takes_advance hc
    by_cases hbegins : Begins t
    · rcases hbegins with hk | hk | ⟨hk, hs | hs⟩ | ⟨hk, hs⟩
      · rw [element_of_string hc hk] at h
        cases h
        exact .inr ⟨_, [t], rfl, take, .literal hk⟩
      · by_cases hcall : IsCall t c.advance.current?
        · obtain ⟨⟨kind, hname⟩, hnext⟩ := hcall
          rw [element_of_call hc hk hname hnext] at h
          obtain ⟨n, hn, rfl⟩ := Outcome.run_map_eq_ok.mp h
          obtain ⟨opening, closing, u, args, take, hopening, hu, hclosing, hpower, rfl⟩ :=
            (directive_eq_ok hc).mp hn
          exact .inr ⟨_, _, rfl, take, .directive hk hname hopening hu hclosing hpower⟩
        · rw [element_of_name hc hk hcall] at h
          cases h
          exact .inr ⟨_, [t], rfl, take, element_named hk hcall⟩
      · rw [element_of_parenthesis hc hk hs] at h
        obtain ⟨n, hn, rfl⟩ := Outcome.run_map_eq_ok.mp h
        obtain ⟨u, bs, closing, take, hbs, hclosing, rfl⟩ := enclosed_sound hchoice hc hn
        exact .inr ⟨_, _, rfl, take, .group hk hs hbs hclosing⟩
      · rw [element_of_bracket hc hk hs] at h
        obtain ⟨n, m, hn, h⟩ := Outcome.run_bind_eq_ok.mp h
        cases h
        obtain ⟨u, bs, closing, take, hbs, hclosing, rfl⟩ := enclosed_sound hchoice hc hn
        exact .inr ⟨_, _, rfl, take, .optional hk hs hbs hclosing⟩
      · rw [element_of_angle hc hk hs] at h
        obtain ⟨n, hn, rfl⟩ := Outcome.run_map_eq_ok.mp h
        obtain ⟨word, closing, take, hword, hempty, hclosing, rfl⟩ := (emptyMark_eq_ok hc).mp hn
        exact .inr ⟨_, _, rfl, take, .empty hk hs hword hempty hclosing⟩
    · rw [element_of_not_begins hc hbegins] at h
      cases h
      exact .inl ⟨rfl, rfl⟩

/-- **Elements that are read are derived.** -/
theorem elements_sound (hchoice : ReadsChoice operators choice) {n : Nat} {c d : Cursor}
    {es : List Node} (h : elements operators choice n c = .ok es d) :
    ∃ u, c.Takes u d ∧ Elements operators u es d.current? := by
  induction n generalizing c es with
  | zero =>
    cases h
    exact ⟨[], .refl _, .nil⟩
  | succ n ih =>
    unfold elements at h
    rw [run_cursor_bind] at h
    split at h
    · obtain ⟨a, m, ha, h⟩ := Outcome.run_bind_eq_ok.mp h
      cases h
      obtain ⟨opening, closing, u, e, take, hopening, he, hclosing, rfl⟩ := action_eq_ok.mp ha
      exact ⟨_, take, .action hopening he hclosing⟩
    · obtain ⟨found, m, hfound, hrest⟩ := Outcome.run_bind_eq_ok.mp h
      rcases element_sound hchoice hfound with ⟨rfl, rfl⟩ | ⟨e, u, rfl, take, hu⟩
      · cases hrest
        exact ⟨[], .refl _, .nil⟩
      · obtain ⟨rest, m', hrest, hd⟩ := Outcome.run_bind_eq_ok.mp hrest
        cases hd
        obtain ⟨v, take', hv⟩ := ih hrest
        rw [take'.current?_eq] at hu
        exact ⟨_, take.trans take', .cons hu hv⟩

theorem sequence_sound (hchoice : ReadsChoice operators choice) {c d : Cursor} {n : Node}
    (h : sequence operators choice c = .ok n d) :
    ∃ u es, c.Takes u d ∧ Elements operators u es d.current? ∧ n = .sequence es := by
  unfold sequence at h
  rw [run_cursor_bind] at h
  obtain ⟨es, m, hes, h⟩ := Outcome.run_bind_eq_ok.mp h
  cases h
  obtain ⟨u, take, hu⟩ := elements_sound hchoice hes
  exact ⟨u, es, take, hu, rfl⟩

theorem branches_of_one {u : List Token} {es : List Node} {next : Option Token}
    (hu : Elements operators u es next) :
    Branches operators (u ++ []) [.sequence es] next := by
  rw [List.append_nil]
  exact .one hu

/-- **Branches that are read are derived**, whatever sequence stands before
them. -/
theorem branches_sound (hchoice : ReadsChoice operators choice) {n : Nat} {c d : Cursor}
    {bs : List Node} (h : branches operators choice n c = .ok bs d) :
    ∃ v, c.Takes v d ∧ ∀ {u : List Token} {es : List Node},
      Elements operators u es (v.head?.or d.current?) →
        Branches operators (u ++ v) (.sequence es :: bs) d.current? := by
  induction n generalizing c bs with
  | zero =>
    cases h
    exact ⟨[], .refl _, branches_of_one⟩
  | succ n ih =>
    unfold branches at h
    rw [run_cursor_bind] at h
    split at h
    · next hbar =>
      obtain ⟨bar, hc, hbar⟩ := (Option.any_eq_true _ _).mp hbar
      rw [run_advance_bind] at h
      obtain ⟨b, m, hb, h⟩ := Outcome.run_bind_eq_ok.mp h
      obtain ⟨rest, m', hrest, h⟩ := Outcome.run_bind_eq_ok.mp h
      cases h
      obtain ⟨v, es', take, hv, rfl⟩ := sequence_sound hchoice hb
      obtain ⟨w, take', hw⟩ := ih hrest
      rw [take'.current?_eq] at hv
      refine ⟨bar :: (v ++ w), (Cursor.takes_advance hc).trans (take.trans take'), ?_⟩
      intro u es hu
      exact .cons hu hbar (hw hv)
    · cases h
      exact ⟨[], .refl _, branches_of_one⟩

end

theorem choiceWithin_sound (n : Nat) : ReadsChoice operators (choiceWithin operators n) := by
  induction n with
  | zero =>
    intro c d m h
    cases h
    exact ⟨[], [.sequence []], .refl c, .one .nil, rfl⟩
  | succ n ih =>
    intro c d m h
    unfold choiceWithin at h
    obtain ⟨first, m₁, hfirst, h⟩ := Outcome.run_bind_eq_ok.mp h
    obtain ⟨rest, m₂, hrest, h⟩ := Outcome.run_bind_eq_ok.mp h
    cases h
    obtain ⟨u, es, take, hu, rfl⟩ := sequence_sound ih hfirst
    obtain ⟨v, take', hv⟩ := branches_sound ih hrest
    rw [take'.current?_eq] at hu
    exact ⟨_, _, take.trans take', hv hu, rfl⟩

/-- **A rule that is read is derived.** -/
theorem rule_sound {c d : Cursor} {r : Rule} (h : rule operators c = .ok r d) :
    ∃ u, u ≠ [] ∧ c.Takes u d ∧ RuleText operators u r := by
  unfold rule at h
  obtain ⟨name, m₁, hname, h⟩ := Outcome.run_bind_eq_ok.mp h
  obtain ⟨take₁, hkind⟩ := Parse.accept_eq_ok.mp hname
  obtain ⟨sign, m₂, take₂, hsign, h⟩ := run_punct_bind_eq_ok.mp h
  obtain ⟨body, m₃, hbody, h⟩ := Outcome.run_bind_eq_ok.mp h
  obtain ⟨closing, m₄, take₄, hclosing, h⟩ := run_punct_bind_eq_ok.mp h
  cases h
  obtain ⟨u, bs, take₃, hbs, rfl⟩ := choiceWithin_sound _ hbody
  rw [take₄.current?_eq] at hbs
  exact ⟨_, List.cons_ne_nil _ _, take₁.trans (take₂.trans (take₃.trans take₄)),
    .intro (beq_iff_eq.mp hkind) hsign hbs hclosing⟩

/-! ## What is derived is read -/

/-- **A token that ends a sequence**: a bar, or what closes a choice. -/
def Closes (t : Token) : Prop :=
  t.isPunct "|" = true ∨ t.isPunct ")" = true ∨ t.isPunct "]" = true ∨ t.isPunct ";" = true

/-- Few signs begin an element. -/
theorem not_begins_of_isPunct {t : Token} {s : String} (h : t.isPunct s = true)
    (hs : s ≠ "(" ∧ s ≠ "[" ∧ s ≠ "<") : ¬ Begins t := by
  obtain ⟨hsign, hspelling⟩ := (Bool.and_eq_true _ _).mp h
  rw [← beq_iff_eq.mp hspelling] at hs
  rintro (hk | hk | ⟨-, hs' | hs'⟩ | ⟨-, hs'⟩)
  · rw [hk] at hsign
    cases hsign
  · rw [hk] at hsign
    cases hsign
  · exact hs.1 hs'
  · exact hs.2.1 hs'
  · exact hs.2.2 hs'

/-- What ends a sequence begins no element. -/
theorem Closes.not_begins {t : Token} (h : Closes t) : ¬ Begins t := by
  rcases h with h | h | h | h
  · exact not_begins_of_isPunct h (by decide)
  · exact not_begins_of_isPunct h (by decide)
  · exact not_begins_of_isPunct h (by decide)
  · exact not_begins_of_isPunct h (by decide)

/-- What ends a sequence begins no action. -/
theorem Closes.not_brace {t : Token} (h : Closes t) : t.isPunct "\x7b" = false := by
  refine Bool.eq_false_iff.mpr (fun hbrace => ?_)
  rcases h with h | h | h | h
  · exact absurd (Token.eq_of_isPunct h hbrace) (by decide)
  · exact absurd (Token.eq_of_isPunct h hbrace) (by decide)
  · exact absurd (Token.eq_of_isPunct h hbrace) (by decide)
  · exact absurd (Token.eq_of_isPunct h hbrace) (by decide)

/-- What begins an element begins no action. -/
theorem Begins.not_brace {t : Token} (h : Begins t) : t.isPunct "\x7b" = false := by
  refine Bool.eq_false_iff.mpr (fun hbrace => ?_)
  exact not_begins_of_isPunct hbrace (by decide) h

/-- An element takes a token that begins it. -/
theorem Element.begins {u : List Token} {n : Node} {next : Option Token}
    (h : Element operators u n next) : ∃ t v, u = t :: v ∧ Begins t := by
  cases h with
  | literal hk => exact ⟨_, _, rfl, .inl hk⟩
  | reserved hk _ _ => exact ⟨_, _, rfl, .inr (.inl hk)⟩
  | rule hk _ _ => exact ⟨_, _, rfl, .inr (.inl hk)⟩
  | directive hk _ _ _ _ _ => exact ⟨_, _, rfl, .inr (.inl hk)⟩
  | empty hk hs _ _ _ => exact ⟨_, _, rfl, .inr (.inr (.inr ⟨hk, hs⟩))⟩
  | group hk hs _ _ => exact ⟨_, _, rfl, .inr (.inr (.inl ⟨hk, .inl hs⟩))⟩
  | optional hk hs _ _ => exact ⟨_, _, rfl, .inr (.inr (.inl ⟨hk, .inr hs⟩))⟩

/-- An element and then the others, where no action comes next. -/
theorem elements_of_element {choice : Parse Node} {n : Nat} {c m d : Cursor} {t : Token}
    {e : Node} {es : List Node} (hc : c.current? = some t) (ht : Begins t)
    (he : element choice c = .ok (some e) m)
    (hes : elements operators choice n m = .ok es d) :
    elements operators choice (n + 1) c = .ok (e :: es) d := by
  have hbrace : c.atPunct "\x7b" = false := by
    unfold Cursor.atPunct
    rw [hc]
    exact ht.not_brace
  unfold elements
  rw [run_cursor_bind, if_neg (Bool.eq_false_iff.mp hbrace)]
  exact Outcome.run_bind_eq_ok.mpr
    ⟨some e, m, he, Outcome.run_bind_eq_ok.mpr ⟨es, d, hes, rfl⟩⟩

/-- Where a sequence ends, no element is read. -/
theorem elements_of_closes {choice : Parse Node} {n : Nat} {c : Cursor} {t : Token}
    (hc : c.current? = some t) (ht : Closes t) :
    elements operators choice n c = .ok [] c := by
  cases n with
  | zero => rfl
  | succ n =>
    have hbrace : c.atPunct "\x7b" = false := by
      unfold Cursor.atPunct
      rw [hc]
      exact ht.not_brace
    unfold elements
    rw [run_cursor_bind, if_neg (Bool.eq_false_iff.mp hbrace)]
    exact Outcome.run_bind_eq_ok.mpr
      ⟨none, c, element_of_not_begins hc ht.not_begins, rfl⟩

theorem sequence_of_elements {choice : Parse Node} {c d : Cursor} {es : List Node}
    (h : elements operators choice c.rest.length c = .ok es d) :
    sequence operators choice c = .ok (.sequence es) d := by
  unfold sequence
  rw [run_cursor_bind]
  exact Outcome.run_bind_eq_ok.mpr ⟨es, d, h, rfl⟩

/-- **What a reader of choices does on some branches**: it reads the first
one, and then those behind bars. -/
def ReadsBranches (operators : OperatorTable) (k m : Nat) (c : Cursor) (bs : List Node)
    (d : Cursor) : Prop :=
  ∃ first rest mid, bs = first :: rest
    ∧ sequence operators (choiceWithin operators k) c = .ok first mid
    ∧ branches operators (choiceWithin operators k) m mid = .ok rest d

theorem ReadsBranches.choiceWithin_eq {k : Nat} {c d : Cursor} {bs : List Node}
    (h : ReadsBranches operators k (k + 1) c bs d) :
    choiceWithin operators (k + 1) c = .ok (.alternative bs) d := by
  obtain ⟨first, rest, mid, rfl, hfirst, hrest⟩ := h
  unfold choiceWithin
  exact Outcome.run_bind_eq_ok.mpr
    ⟨first, mid, hfirst, Outcome.run_bind_eq_ok.mpr ⟨rest, d, hrest, rfl⟩⟩

/-- Where a choice ends, no branch is read. -/
theorem branches_of_not_bar {choice : Parse Node} {m : Nat} {c : Cursor}
    (h : c.atPunct "|" = false) : branches operators choice m c = .ok [] c := by
  cases m with
  | zero => rfl
  | succ m =>
    unfold branches
    rw [run_cursor_bind, if_neg (Bool.eq_false_iff.mp h)]
    rfl

theorem branches_of_bar {k m : Nat} {c d : Cursor} {bs : List Node}
    (h : c.atPunct "|" = true) (hbs : ReadsBranches operators k m c.advance bs d) :
    branches operators (choiceWithin operators k) (m + 1) c = .ok bs d := by
  obtain ⟨first, rest, mid, rfl, hfirst, hrest⟩ := hbs
  unfold branches
  rw [run_cursor_bind, if_pos h, run_advance_bind]
  exact Outcome.run_bind_eq_ok.mpr
    ⟨first, mid, hfirst, Outcome.run_bind_eq_ok.mpr ⟨rest, d, hrest, rfl⟩⟩

/-- A choice between delimiters is read if the choice is. -/
theorem enclosed_of_branches {k : Nat} {close : String} {c m d : Cursor} {closing : Token}
    {bs : List Node} (hbs : ReadsBranches operators k (k + 1) c.advance bs m)
    (take : m.Takes [closing] d) (hclosing : closing.isPunct close = true) :
    enclosed (choiceWithin operators (k + 1)) close c = .ok (.alternative bs) d :=
  enclosed_eq_ok.mpr ⟨m, closing, hbs.choiceWithin_eq, take, hclosing⟩

/-- What lies between an opening token and a closing one, and how long it
can be. -/
theorem takes_enclosed {opening closing : Token} {u : List Token} {c d : Cursor} {k : Nat}
    (take : c.Takes (opening :: (u ++ [closing])) d) (hk : c.rest.length ≤ k + 1) :
    ∃ m k', k = k' + 1 ∧ c.current? = some opening ∧ c.advance.Takes u m
      ∧ m.Takes [closing] d ∧ c.advance.rest.length ≤ k' + 1 := by
  have hlength := take.length_eq
  simp only [List.length_cons, List.length_append, List.length_nil] at hlength
  obtain ⟨hc, take'⟩ := take.uncons
  have hadvance := Cursor.length_advance hc
  obtain ⟨m, take₁, take₂⟩ := take'.split
  obtain ⟨k', rfl⟩ := Nat.exists_eq_succ_of_ne_zero (show k ≠ 0 by omega)
  exact ⟨m, k', rfl, hc, take₁, take₂, by omega⟩

mutual

/-- **An element that is derived is read.** -/
theorem Element.run : ∀ {u : List Token} {n : Node} {next : Option Token},
    Element operators u n next → ∀ {k : Nat} {c d : Cursor}, c.Takes u d →
      d.current? = next → c.rest.length ≤ k + 1 →
      element (choiceWithin operators k) c = .ok (some n) d
  | _, _, _, .literal hk, k, c, d, take, _, _ => by
    obtain ⟨hc, take'⟩ := take.uncons
    obtain rfl := take'.eq_of_nil
    exact element_of_string hc hk
  | _, _, _, .reserved hk hcall hclass, k, c, d, take, hnext, _ => by
    obtain ⟨hc, take'⟩ := take.uncons
    obtain rfl := take'.eq_of_nil
    rw [← hnext] at hcall
    rw [element_of_name hc hk hcall, named, if_pos hclass]
  | _, _, _, .rule hk hcall hclass, k, c, d, take, hnext, _ => by
    obtain ⟨hc, take'⟩ := take.uncons
    obtain rfl := take'.eq_of_nil
    rw [← hnext] at hcall
    rw [element_of_name hc hk hcall, named, if_neg (Bool.eq_false_iff.mp hclass)]
  | _, _, _, .directive hk hname hopening hu hclosing hpower, k, c, d, take, _, _ => by
    obtain ⟨hc, take'⟩ := take.uncons
    have hcall : c.advance.current?.any (·.isPunct "(") = true := by
      rw [take'.current?_eq]
      exact hopening
    rw [element_of_call hc hk hname hcall]
    exact Outcome.run_map_eq_ok.mpr ⟨_, (directive_eq_ok hc).mpr
      ⟨_, _, _, _, take, hopening, hu, hclosing, hpower, rfl⟩, rfl⟩
  | _, _, _, .empty hk hs hword hempty hclosing, k, c, d, take, _, _ => by
    obtain ⟨hc, -⟩ := take.uncons
    rw [element_of_angle hc hk hs]
    exact Outcome.run_map_eq_ok.mpr ⟨_, (emptyMark_eq_ok hc).mpr
      ⟨_, _, take, hword, hempty, hclosing, rfl⟩, rfl⟩
  | _, _, _, .group hk hs hbs hclosing, k, c, d, take, _, hlength => by
    obtain ⟨m, k, rfl, hc, take₁, take₂, hlength'⟩ := takes_enclosed take hlength
    have hread := hbs.run take₁ take₂.current?_eq (.inl hclosing) hlength' hlength' rfl
    rw [element_of_parenthesis hc hk hs]
    exact Outcome.run_map_eq_ok.mpr ⟨_, enclosed_of_branches hread take₂ hclosing, rfl⟩
  | _, _, _, .optional hk hs hbs hclosing, k, c, d, take, _, hlength => by
    obtain ⟨m, k, rfl, hc, take₁, take₂, hlength'⟩ := takes_enclosed take hlength
    have hread := hbs.run take₁ take₂.current?_eq (.inr (.inl hclosing))
      hlength' hlength' rfl
    rw [element_of_bracket hc hk hs]
    exact Outcome.run_bind_eq_ok.mpr
      ⟨_, d, enclosed_of_branches hread take₂ hclosing, rfl⟩

/-- **Elements that are derived are read**, up to a token that ends the
sequence. -/
theorem Elements.run : ∀ {u : List Token} {es : List Node} {next : Option Token},
    Elements operators u es next → ∀ {k n : Nat} {c d : Cursor} {t : Token}, c.Takes u d →
      d.current? = next → next = some t → Closes t → c.rest.length ≤ k + 1 → u.length ≤ n →
      elements operators (choiceWithin operators k) n c = .ok es d
  | _, _, _, .nil, k, n, c, d, t, take, hnext, hsome, ht, _, _ => by
    obtain rfl := take.eq_of_nil
    exact elements_of_closes (hnext.trans hsome) ht
  | _, _, _, .action hopening he hclosing, k, n, c, d, t, take, _, _, _, _, hn => by
    obtain ⟨n, rfl⟩ := Nat.exists_eq_succ_of_ne_zero (Nat.ne_zero_of_lt hn)
    have hbrace := atPunct_of_current? take.uncons.1 hopening
    unfold elements
    rw [run_cursor_bind, if_pos hbrace]
    exact Outcome.run_bind_eq_ok.mpr
      ⟨_, d, action_eq_ok.mpr ⟨_, _, _, _, take, hopening, he, hclosing, rfl⟩, rfl⟩
  | _, _, _, .cons (u := u) (v := v) he hes, k, n, c, d, t, take, hnext, hsome, ht,
      hlength, hn => by
    obtain ⟨t', u', hu', hbegins⟩ := he.begins
    obtain ⟨m, take₁, take₂⟩ := take.split
    have hlength₁ := take₁.length_eq
    rw [List.length_append] at hn
    have hpos : 0 < u.length := by
      rw [hu']
      exact Nat.succ_pos _
    obtain ⟨n, rfl⟩ := Nat.exists_eq_succ_of_ne_zero (show n ≠ 0 by omega)
    have hc : c.current? = some t' := by
      rw [take₁.current?_eq, hu']
      rfl
    have hm : m.current? = v.head?.or _ := hnext ▸ take₂.current?_eq
    exact elements_of_element hc hbegins (he.run take₁ hm hlength)
      (hes.run take₂ hnext hsome ht (by omega) (by omega))

/-- **Branches that are derived are read**, up to a token that closes the
choice. -/
theorem Branches.run : ∀ {u : List Token} {bs : List Node} {next : Option Token},
    Branches operators u bs next → ∀ {k m : Nat} {c d : Cursor} {t : Token}, c.Takes u d →
      d.current? = some t →
      t.isPunct ")" = true ∨ t.isPunct "]" = true ∨ t.isPunct ";" = true →
      c.rest.length ≤ k + 1 → c.rest.length ≤ m → next = some t →
      ReadsBranches operators k m c bs d
  | _, _, _, .one hes, k, m, c, d, t, take, hnext, ht, hlength, _, hsome => by
    have hbar : d.atPunct "|" = false := by
      rcases ht with ht | ht | ht
      · exact atPunct_eq_false hnext ht (by decide)
      · exact atPunct_eq_false hnext ht (by decide)
      · exact atPunct_eq_false hnext ht (by decide)
    have hu := take.length_eq
    refine ⟨_, [], d, rfl, sequence_of_elements ?_, branches_of_not_bar hbar⟩
    exact hes.run take (hnext.trans hsome.symm) hsome (.inr ht) hlength (by omega)
  | _, _, _, .cons (u := u) hes hbar hbs, k, m, c, d, t, take, hnext, ht,
      hlength, hm, hsome => by
    obtain ⟨mid, take₁, take₂⟩ := take.split
    obtain ⟨hmid, take₃⟩ := take₂.uncons
    have hlength₁ := take₁.length_eq
    have hlength₂ := Cursor.length_advance hmid
    obtain ⟨m, rfl⟩ := Nat.exists_eq_succ_of_ne_zero (show m ≠ 0 by omega)
    refine ⟨_, _, mid, rfl, sequence_of_elements ?_,
      branches_of_bar (atPunct_of_current? hmid hbar)
        (hbs.run take₃ hnext ht (by omega) (by omega) hsome)⟩
    exact hes.run take₁ hmid rfl (.inl hbar) hlength (by omega)

end

/-- **A rule that is derived is read.** -/
theorem RuleText.run {u : List Token} {r : Rule} (h : RuleText operators u r) {c d : Cursor}
    (take : c.Takes u d) : rule operators c = .ok r d := by
  cases h with
  | @intro name sign closing u bs hname hsign hbs hclosing =>
    obtain ⟨m₁, take₁, take'⟩ := Cursor.Takes.split (u := [name]) take
    obtain ⟨m₂, take₂, take''⟩ := Cursor.Takes.split (u := [sign]) take'
    obtain ⟨m₃, take₃, take₄⟩ := take''.split
    have hlength := (take₃.trans take₄).length_eq
    rw [List.length_append, List.length_singleton] at hlength
    obtain ⟨k, hk⟩ := Nat.exists_eq_succ_of_ne_zero (show m₂.rest.length ≠ 0 by omega)
    have hchoice : choice operators m₂ = .ok (.alternative bs) m₃ := by
      unfold choice
      rw [hk]
      exact (hbs.run take₃ take₄.current?_eq (.inr (.inr hclosing)) (Nat.le_of_eq hk)
        (Nat.le_of_eq hk) rfl).choiceWithin_eq
    unfold rule
    refine Outcome.run_bind_eq_ok.mpr
      ⟨name, m₁, Parse.accept_eq_ok.mpr ⟨take₁, beq_iff_eq.mpr hname⟩, ?_⟩
    refine run_punct_bind_eq_ok.mpr ⟨sign, m₂, take₂, hsign, ?_⟩
    refine Outcome.run_bind_eq_ok.mpr ⟨_, m₃, hchoice, ?_⟩
    exact run_punct_bind_eq_ok.mpr ⟨closing, d, take₄, hclosing, rfl⟩

/-! ## Tables -/

/-- **Rules that are read are derived**, and they are added to the table in
order. -/
theorem rulesWithin_sound {n : Nat} {table result : RuleTable} {c : Cursor}
    (hn : c.rest.length ≤ n) (h : rulesWithin operators n table c = .ok result) :
    ∃ rs, RuleTexts operators c.rest rs ∧ result.rules = table.rules ++ rs := by
  induction n generalizing table c with
  | zero =>
    obtain rfl := Except.ok.inj h
    rw [List.length_eq_zero_iff.mp (Nat.le_zero.mp hn)]
    exact ⟨[], .nil, (List.append_nil _).symm⟩
  | succ n ih =>
    unfold rulesWithin at h
    split at h
    · next hempty =>
      obtain rfl := Except.ok.inj h
      rw [List.isEmpty_iff.mp hempty]
      exact ⟨[], .nil, (List.append_nil _).symm⟩
    · split at h
      · cases h
      · next r d hr =>
        split at h
        · cases h
        · next table' hpush =>
          obtain ⟨u, hne, take, hu⟩ := rule_sound hr
          have hlength := take.length_eq
          have hpos := List.length_pos_iff.mpr hne
          obtain ⟨rs, hrs, hresult⟩ := ih (by omega) h
          refine ⟨r :: rs, take.rest ▸ .cons hu hrs, ?_⟩
          rw [hresult, RuleTable.rules_push hpush, List.append_assoc, List.singleton_append]

/-- **Rules that are derived are read**, if no two have one name. -/
theorem RuleTexts.run {u : List Token} {rs : List Rule} (h : RuleTexts operators u rs)
    {n : Nat} {table : RuleTable} {c : Cursor} (hc : c.rest = u) (hn : u.length ≤ n)
    (hnodup : ((table.rules ++ rs).map Rule.target).Nodup) :
    ∃ result, rulesWithin operators n table c = .ok result
      ∧ result.rules = table.rules ++ rs := by
  induction h generalizing n table c with
  | nil =>
    refine ⟨table, ?_, (List.append_nil _).symm⟩
    cases n with
    | zero => rfl
    | succ n =>
      unfold rulesWithin
      rw [hc]
      rfl
  | @cons u v r rs hu _ ih =>
    have take : c.Takes u ⟨v, c.finish⟩ := ⟨hc, rfl⟩
    have hne : u ≠ [] := by
      cases hu with
      | intro => exact List.cons_ne_nil _ _
    have hpos := List.length_pos_iff.mpr hne
    rw [List.length_append] at hn
    obtain ⟨n, rfl⟩ := Nat.exists_eq_succ_of_ne_zero (show n ≠ 0 by omega)
    obtain ⟨table', hpush, hrules, hnodup'⟩ := RuleTable.push_of_nodup hnodup
    obtain ⟨result, hresult, heq⟩ := ih (n := n) (c := ⟨v, c.finish⟩) rfl (by omega) hnodup'
    refine ⟨result, ?_, ?_⟩
    · have hmore : c.rest.isEmpty = false := by
        rw [hc]
        exact List.isEmpty_eq_false_iff.mpr (List.append_ne_nil_of_left_ne_nil hne v)
      unfold rulesWithin
      rw [hmore, hu.run take]
      dsimp only
      rw [if_neg Bool.false_ne_true, hpush]
      exact hresult
    · rw [heq, hrules, List.append_assoc, List.singleton_append]

end Descent.Source

namespace Descent.RuleTable

/-- **The reader of grammars accepts exactly the notation.** A run of
tokens is read as a table of some rules if and only if the rules of the
notation derive these rules from it, in this order, and no two of them have
one name. -/
theorem ofTokens_ok_iff (operators : OperatorTable) (c : Cursor) (rules : List Rule) :
    (∃ table, ofTokens operators c = .ok table ∧ table.rules = rules)
      ↔ Source.RuleTexts operators c.rest rules ∧ (rules.map Rule.target).Nodup := by
  constructor
  · rintro ⟨table, h, rfl⟩
    obtain ⟨rs, hrs, hrules⟩ := Source.rulesWithin_sound (Nat.le_refl _) h
    obtain rfl : rs = table.rules := hrules.symm
    exact ⟨hrs, table.nodup⟩
  · rintro ⟨hrs, hnodup⟩
    exact hrs.run rfl (Nat.le_refl _) hnodup

end Descent.RuleTable
