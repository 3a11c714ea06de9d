import Descent.Proofs.Expr.Written
import Descent.Proofs.Parts
import Descent.Proofs.Source.Reading
import Descent.Proofs.Token.Writing

/-!
# Bodies that come from source

Not every body is written somewhere. What is read from source text is put
together by `Node.sequence` and `Node.alternative` from elements that
tokens spell, and this shows: no sequence begins with a sequence or with
nothing, none ends in nothing, names are words, and actions are written in
tokens that were scanned. `Node.Sourced` collects these facts, and
`RuleTexts.sourced` says that all rules that are derived from scanned
tokens have them; so all rules of a table that is read from a text do
(`RuleTable.sourced_of_ofSource`).
-/

namespace Descent

/-- What is known of an argument that source gives. -/
def Directive.Argument.Sourced : Directive.Argument → Prop
  | .name s => Lexeme.Shape .word s.toList
  | .number s => Lexeme.Shape .number s.toList
  | .string _ => True

namespace Node

/-- Whether a body is a single element of a sequence. -/
def isElement : Node → Bool
  | .seq _ _ | .lone _ | .empty => false
  | _ => true

/-- **A body as source text gives it.** -/
def Sourced : Node → Prop
  | .seq h t => h.isElement = true ∧ t ≠ .empty ∧ h.Sourced ∧ t.Sourced
  | .lone _ => False
  | .alt l r => l.Sourced ∧ r.Sourced
  | .literal _ | .empty => True
  | .reserved s => Lexeme.Shape .word s.toList ∧ Source.isClassName s = true
  | .rule s => Lexeme.Shape .word s.toList ∧ Source.isClassName s = false
  | .directive d =>
    (∀ a ∈ d.args, a.Sourced)
      ∧ (d.kind = .precedence → ∃ n, d.args = [.number n] ∧ (Text.word? n).isSome = true)
  | .action e => ∃ u, Expr.Written .standard e u ∧ ∀ t ∈ u, t.Spelled []

/-! ## Sequences and choices of such bodies -/

theorem sourced_alternative {bs : List Node} (h : ∀ b ∈ bs, b.Sourced) :
    (alternative bs).Sourced := by
  fun_induction alternative bs with
  | case1 => trivial
  | case2 n => exact h n (List.mem_singleton_self n)
  | case3 n m r ih =>
    exact ⟨h n List.mem_cons_self, ih (fun b hb => h b (List.mem_cons_of_mem n hb))⟩

theorem sourced_chain {es : List Node} (h : ∀ e ∈ es, e.isElement = true ∧ e.Sourced) :
    (chain es).Sourced := by
  fun_induction chain es with
  | case1 => trivial
  | case2 n => exact (h n (List.mem_singleton_self n)).2
  | case3 n m r ih =>
    obtain ⟨hn, hs⟩ := h n List.mem_cons_self
    have hrest : ∀ e ∈ m :: r, e.isElement = true ∧ e.Sourced :=
      fun e he => h e (List.mem_cons_of_mem n he)
    refine ⟨hn, chain_ne_empty (fun e he => ?_) (List.cons_ne_nil m r), hs, ih hrest⟩
    rintro rfl
    cases (hrest _ he).1

/-- The elements of a body that is not empty are elements. -/
theorem Sourced.of_mem_elements {n e : Node} (h : n.Sourced) (hne : n ≠ .empty)
    (he : e ∈ n.elements) : e.isElement = true ∧ e.Sourced := by
  induction n with
  | seq h' t _ iht =>
    obtain ⟨hh, ht, hs, hst⟩ := h
    rcases List.mem_cons.mp he with rfl | he
    · exact ⟨hh, hs⟩
    · exact iht hst ht he
  | lone h' => exact h.elim
  | empty => exact absurd rfl hne
  | _ =>
    obtain rfl := List.mem_singleton.mp he
    exact ⟨rfl, h⟩

/-- The parts of a body that source gives are such bodies. -/
theorem Sourced.of_part {n m : Node} (h : n.Sourced) (hm : m ∈ n.parts) : m.Sourced := by
  induction n with
  | seq h' t hh ht =>
    rcases List.mem_cons.mp hm with rfl | hm
    · exact h
    rcases List.mem_append.mp hm with hm | hm
    · exact hh h.2.2.1 hm
    · exact ht h.2.2.2 hm
  | lone h' => exact h.elim
  | alt l r hl hr =>
    rcases List.mem_cons.mp hm with rfl | hm
    · exact h
    rcases List.mem_append.mp hm with hm | hm
    · exact hl h.1 hm
    · exact hr h.2 hm
  | _ =>
    obtain rfl := List.mem_singleton.mp hm
    exact h

theorem Sourced.of_mem_splice {n e : Node} (h : n.Sourced) (he : e ∈ n.splice) :
    e.isElement = true ∧ e.Sourced := by
  cases n with
  | seq h' t => exact h.of_mem_elements (fun h => nomatch h) he
  | lone h' => exact h.elim
  | empty => cases he
  | _ =>
    obtain rfl := List.mem_singleton.mp he
    exact ⟨rfl, h⟩

/-- **The canonical sequence of bodies that source gives is one of them.** -/
theorem sourced_sequence {es : List Node} (h : ∀ e ∈ es, e.Sourced) :
    (sequence es).Sourced := by
  refine sourced_chain (fun e he => ?_)
  obtain ⟨n, hn, he⟩ := List.mem_flatMap.mp he
  exact (h n hn).of_mem_splice he

end Node

namespace Source

/-! ## What is derived from scanned tokens -/

/-- Tokens that a scan without keywords gives. -/
def Scanned (u : List Token) : Prop := ∀ t ∈ u, t.Spelled []

namespace Scanned

variable {u v : List Token} {t : Token}

theorem left (h : Scanned (u ++ v)) : Scanned u := fun t ht => h t (List.mem_append_left v ht)

theorem right (h : Scanned (u ++ v)) : Scanned v := fun t ht => h t (List.mem_append_right u ht)

theorem tail (h : Scanned (t :: u)) : Scanned u := fun t' ht => h t' (List.mem_cons_of_mem t ht)

theorem head (h : Scanned (t :: u)) : t.Spelled [] := h t List.mem_cons_self

/-- What stands between an opening token and a closing one. -/
theorem inner {closing : Token} (h : Scanned (t :: (u ++ [closing]))) : Scanned u := h.tail.left

end Scanned

/-- The word, the number or the string that a token is. -/
theorem shape_of_spelled {t : Token} (h : t.Spelled []) :
    (t.kind = .identifier → Lexeme.Shape .word t.spelling.toList)
      ∧ (t.kind = .number → Lexeme.Shape .number t.spelling.toList) := by
  obtain ⟨k, hshape, hkind⟩ := h
  constructor
  · intro hk
    rw [hk] at hkind
    cases k with
    | word => exact hshape
    | _ => cases hkind
  · intro hk
    rw [hk] at hkind
    cases k with
    | number => exact hshape
    | _ => cases hkind

theorem IsArgument.sourced {t : Token} {a : Directive.Argument} (h : IsArgument t a)
    (ht : t.Spelled []) : a.Sourced := by
  cases h with
  | name hk => exact (shape_of_spelled ht).1 hk
  | string hk => trivial
  | number hk => exact (shape_of_spelled ht).2 hk

theorem MoreArguments.sourced {u : List Token} {args : List Directive.Argument}
    (h : MoreArguments u args) (hu : Scanned u) : ∀ a ∈ args, a.Sourced := by
  induction h with
  | nil => exact fun a ha => nomatch ha
  | cons _ ht _ ih =>
    exact List.forall_mem_cons.mpr ⟨ht.sourced hu.tail.head, ih hu.tail.tail⟩

theorem Arguments.sourced {u : List Token} {args : List Directive.Argument}
    (h : Arguments u args) (hu : Scanned u) : ∀ a ∈ args, a.Sourced := by
  cases h with
  | none => exact fun a ha => nomatch ha
  | some ht hmore =>
    exact List.forall_mem_cons.mpr ⟨ht.sourced hu.head, hmore.sourced hu.tail⟩

mutual

/-- **What is derived from scanned tokens is as source gives it.** -/
theorem Element.sourced : ∀ {u : List Token} {n : Node} {next : Option Token},
    Element .standard u n next → Scanned u → n.Sourced
  | _, _, _, .literal _, _ => trivial
  | _, _, _, .reserved hk _ hclass, hu => ⟨(shape_of_spelled hu.head).1 hk, hclass⟩
  | _, _, _, .rule hk _ hclass, hu => ⟨(shape_of_spelled hu.head).1 hk, hclass⟩
  | _, _, _, .directive _ _ _ hargs _ hpower, hu => ⟨hargs.sourced hu.tail.inner, hpower⟩
  | _, _, _, .empty _ _ _ _ _, _ => trivial
  | _, _, _, .group _ _ hbs _, hu => Node.sourced_alternative (hbs.sourced hu.inner)
  | _, _, _, .optional _ _ hbs _, hu => ⟨Node.sourced_alternative (hbs.sourced hu.inner), trivial⟩

theorem Elements.sourced : ∀ {u : List Token} {es : List Node} {next : Option Token},
    Elements .standard u es next → Scanned u → ∀ e ∈ es, e.Sourced
  | _, _, _, .nil, _ => fun _ he => nomatch he
  | _, _, _, .action (u := u) _ he _, hu => by
    refine List.forall_mem_cons.mpr ⟨⟨u, (isBody_iff.mp he).written, hu.inner⟩, ?_⟩
    exact fun e he => nomatch he
  | _, _, _, .cons he hes, hu =>
    List.forall_mem_cons.mpr ⟨he.sourced hu.left, hes.sourced hu.right⟩

theorem Branches.sourced : ∀ {u : List Token} {bs : List Node} {next : Option Token},
    Branches .standard u bs next → Scanned u → ∀ b ∈ bs, b.Sourced
  | _, _, _, .one hes, hu => by
    refine List.forall_mem_cons.mpr ⟨Node.sourced_sequence (hes.sourced hu), ?_⟩
    exact fun b hb => nomatch hb
  | _, _, _, .cons hes _ hbs, hu =>
    List.forall_mem_cons.mpr
      ⟨Node.sourced_sequence (hes.sourced hu.left), hbs.sourced hu.right.tail⟩

end

/-- **Rules that are derived from scanned tokens are rules as source gives
them.** -/
theorem RuleTexts.sourced {u : List Token} {rs : List Rule} (h : RuleTexts .standard u rs)
    (hu : Scanned u) :
    ∀ r ∈ rs, Lexeme.Shape .word r.target.toList ∧ r.body.Sourced := by
  induction h with
  | nil => exact fun r hr => nomatch hr
  | cons hr _ ih =>
    refine List.forall_mem_cons.mpr ⟨?_, ih hu.right⟩
    cases hr with
    | intro hk _ hbs _ =>
      exact ⟨(shape_of_spelled hu.left.head).1 hk,
        Node.sourced_alternative (hbs.sourced hu.left.tail.inner)⟩

end Source

/-- **Rules that are read from a text are rules as source gives them.** -/
theorem RuleTable.sourced_of_ofSource {source : String} {table : RuleTable}
    (h : RuleTable.ofSource source = .ok table) :
    ∀ r ∈ table.rules, Lexeme.Shape .word r.target.toList ∧ r.body.Sourced := by
  unfold ofSource ofSourceWith at h
  split at h
  · cases h
  · next hscan =>
    obtain ⟨rs, hrs, hrules⟩ := Source.rulesWithin_sound (Nat.le_refl _) h
    obtain rfl : table.rules = rs := hrules
    exact hrs.sourced (Token.spelled_of_scanFrom hscan)

end Descent
