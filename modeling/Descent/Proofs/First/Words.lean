import Descent.Proofs.First.Meaning

/-!
# What the words of a body say about its start

Whether a body can be passed, which labels can start it and which
references it exposes can all be **read off its words**: a body can be
passed if all letters of some word can (`Node.nullable_iff_exists_word`),
and what shows at its start shows in some word, behind letters that can be
passed (`Node.Leading.iff_exists_word`). How the words are nested in the
body makes no difference.

The relations look rules up, so they belong to a table. A table whose
rules have all the words that those of another one have **covers** it
(`RuleTable.Covers`). All three relations are least ones, and what they
hold of in a table they hold of in every table that covers it.
-/

namespace Descent

namespace Node

variable {table : RuleTable}

/-- **A body can be passed if some way through it can.** -/
theorem nullable_iff_exists_word {n : Node} :
    n.Nullable table ↔ ∃ w ∈ n.words, ∀ x ∈ w, x.Nullable table := by
  induction n with
  | seq h t hh ht =>
    rw [nullable_seq, hh, ht, words_seq]
    constructor
    · rintro ⟨⟨u, hu, hun⟩, ⟨v, hv, hvn⟩⟩
      refine ⟨u ++ v, Word.mem_concat.mpr ⟨u, hu, v, hv, rfl⟩, fun x hx => ?_⟩
      exact (List.mem_append.mp hx).elim (hun x) (hvn x)
    · rintro ⟨w, hw, hwn⟩
      obtain ⟨u, hu, v, hv, rfl⟩ := Word.mem_concat.mp hw
      exact ⟨⟨u, hu, fun x hx => hwn x (List.mem_append_left v hx)⟩,
        ⟨v, hv, fun x hx => hwn x (List.mem_append_right u hx)⟩⟩
  | lone h hh => rw [nullable_lone, hh, words_lone]
  | alt l r hl hr =>
    rw [nullable_alt, hl, hr, words_alt]
    simp only [List.mem_append, or_and_right, exists_or]
  | empty =>
    refine iff_of_true .empty ⟨[], List.mem_singleton_self _, fun x hx => ?_⟩
    cases hx
  | _ =>
    constructor
    · intro hn
      exact ⟨_, List.mem_singleton_self _, fun x hx => List.mem_singleton.mp hx ▸ hn⟩
    · rintro ⟨w, hw, hwn⟩
      obtain rfl := List.mem_singleton.mp hw
      exact hwn _ (List.mem_singleton_self _)

/-- **A property that shows at the start of a body**: in its head, or
behind a head that can be passed. -/
structure Leading (table : RuleTable) (S : Node → Prop) : Prop where
  seq : ∀ h t, S (.seq h t) ↔ S h ∨ (h.Nullable table ∧ S t)
  lone : ∀ h, S (.lone h) ↔ S h
  alt : ∀ l r, S (.alt l r) ↔ S l ∨ S r
  empty : ¬ S .empty

/-- Which label starts a body shows at its start. -/
theorem leading_first (l : Label) : Leading table (fun n => n.First table l) where
  seq _ _ := first_seq
  lone _ := first_lone
  alt _ _ := first_alt
  empty hf := nomatch hf

/-- Which reference a body exposes shows at its start. -/
theorem leading_exposes (name : String) : Leading table (fun n => n.Exposes table name) where
  seq _ _ := by
    constructor
    · intro he
      cases he with
      | head hh => exact .inl hh
      | tail hn ht => exact .inr ⟨hn, ht⟩
    · rintro (hh | ⟨hn, ht⟩)
      · exact .head hh
      · exact .tail hn ht
  lone _ := by
    constructor
    · intro he
      cases he with
      | lone hh => exact hh
    · exact .lone
  alt _ _ := by
    constructor
    · intro he
      cases he with
      | left hl => exact .inl hl
      | right hr => exact .inr hr
    · rintro (hl | hr)
      · exact .left hl
      · exact .right hr
  empty he := nomatch he

end Node

/-- **A word in which a property shows**: some letter has it, and those
before it can be passed. -/
def Word.Shows (table : RuleTable) (S : Node → Prop) : Word → Prop
  | [] => False
  | x :: w => S x ∨ (x.Nullable table ∧ Word.Shows table S w)

theorem Word.shows_append {table : RuleTable} {S : Node → Prop} {u v : Word} :
    Word.Shows table S (u ++ v)
      ↔ Word.Shows table S u ∨ ((∀ x ∈ u, x.Nullable table) ∧ Word.Shows table S v) := by
  induction u with
  | nil => exact ⟨fun h => .inr ⟨nofun, h⟩, fun h => h.elim False.elim And.right⟩
  | cons x u ih =>
    rw [List.cons_append, Shows, Shows, ih, List.forall_mem_cons, and_or_left, or_assoc,
      and_assoc]

namespace Node

variable {table : RuleTable}

/-- **What shows at the start of a body shows in one of its words.** -/
theorem Leading.iff_exists_word {S : Node → Prop} (hS : Leading table S) {n : Node} :
    S n ↔ ∃ w ∈ n.words, Word.Shows table S w := by
  induction n with
  | seq h t hh ht =>
    rw [hS.seq, hh, ht, nullable_iff_exists_word, words_seq]
    constructor
    · rintro (⟨u, hu, hus⟩ | ⟨⟨u, hu, hun⟩, ⟨v, hv, hvs⟩⟩)
      · obtain ⟨v, hv⟩ := List.exists_mem_of_ne_nil _ t.words_ne_nil
        exact ⟨u ++ v, Word.mem_concat.mpr ⟨u, hu, v, hv, rfl⟩, Word.shows_append.mpr (.inl hus)⟩
      · exact ⟨u ++ v, Word.mem_concat.mpr ⟨u, hu, v, hv, rfl⟩,
          Word.shows_append.mpr (.inr ⟨hun, hvs⟩)⟩
    · rintro ⟨w, hw, hws⟩
      obtain ⟨u, hu, v, hv, rfl⟩ := Word.mem_concat.mp hw
      rcases Word.shows_append.mp hws with hus | ⟨hun, hvs⟩
      · exact .inl ⟨u, hu, hus⟩
      · exact .inr ⟨⟨u, hu, hun⟩, ⟨v, hv, hvs⟩⟩
  | lone h hh => rw [hS.lone, hh, words_lone]
  | alt l r hl hr =>
    rw [hS.alt, hl, hr, words_alt]
    simp only [List.mem_append, or_and_right, exists_or]
  | empty =>
    refine iff_of_false hS.empty ?_
    rintro ⟨w, hw, hws⟩
    rw [List.mem_singleton.mp hw] at hws
    exact hws
  | _ =>
    constructor
    · intro hn
      exact ⟨_, List.mem_singleton_self _, .inl hn⟩
    · rintro ⟨w, hw, hws⟩
      rw [List.mem_singleton.mp hw] at hws
      exact hws.elim id (fun h => h.2.elim)

/-- A body with all the words of another one can be passed if that can. -/
theorem Nullable.of_words {n m : Node} (h : n.Nullable table) (hw : n.words ⊆ m.words) :
    m.Nullable table := by
  obtain ⟨w, hwn, hnull⟩ := nullable_iff_exists_word.mp h
  exact nullable_iff_exists_word.mpr ⟨w, hw hwn, hnull⟩

/-- What shows at the start of a body shows at that of a body with all of
its words. -/
theorem Leading.of_words {S : Node → Prop} (hS : Leading table S) {n m : Node} (h : S n)
    (hw : n.words ⊆ m.words) : S m := by
  obtain ⟨w, hwn, hshows⟩ := hS.iff_exists_word.mp h
  exact hS.iff_exists_word.mpr ⟨w, hw hwn, hshows⟩

end Node

/-! ## Tables that cover tables -/

/-- **A table that has the rules of another one**, with all their words. -/
def RuleTable.Covers (wider table : RuleTable) : Prop :=
  ∀ {name : String} {r : Rule}, table.get? name = some r →
    ∃ m, wider.get? name = some m ∧ r.body.words ⊆ m.body.words

section Covers

variable {wider table : RuleTable}

theorem Node.Nullable.cover (hc : wider.Covers table) {n : Node} (h : n.Nullable table) :
    n.Nullable wider := by
  induction h with
  | seq _ _ hh ht => exact .seq hh ht
  | lone _ hh => exact .lone hh
  | left _ hl => exact .left hl
  | right _ hr => exact .right hr
  | rule hr _ ih =>
    obtain ⟨m, hm, hw⟩ := hc hr
    exact .rule hm (ih.of_words hw)
  | directive hd => exact .directive hd
  | action => exact .action
  | empty => exact .empty

theorem Node.First.cover (hc : wider.Covers table) {n : Node} {l : Label}
    (h : n.First table l) : n.First wider l := by
  induction h with
  | head _ hh => exact .head hh
  | tail hn _ ht => exact .tail (hn.cover hc) ht
  | lone _ hh => exact .lone hh
  | left _ ha => exact .left ha
  | right _ hb => exact .right hb
  | rule hr _ ih =>
    obtain ⟨m, hm, hw⟩ := hc hr
    exact .rule hm ((Node.leading_first _).of_words ih hw)
  | literal => exact .literal
  | reserved => exact .reserved
  | guard hd => exact .guard hd

theorem Node.Exposes.cover (hc : wider.Covers table) {n : Node} {name : String}
    (h : n.Exposes table name) : n.Exposes wider name := by
  induction h with
  | head _ hh => exact .head hh
  | tail hn _ ht => exact .tail (hn.cover hc) ht
  | lone _ hh => exact .lone hh
  | left _ ha => exact .left ha
  | right _ hb => exact .right hb
  | rule => exact .rule

/-- **A rule leads to at least the same rules in a table that covers
its own.** -/
theorem RuleTable.Leads.cover (hc : wider.Covers table) {name target : String}
    (h : table.Leads name target) : wider.Leads name target := by
  obtain ⟨r, hr, he⟩ := h
  obtain ⟨m, hm, hw⟩ := hc hr
  exact ⟨m, hm, (Node.leading_exposes target).of_words (he.cover hc) hw⟩

/-- Bodies that are apart by the rules of a table are apart by those of a
table that it covers. -/
theorem Node.Apart.of_cover (hc : wider.Covers table) {a b : Node} (h : Node.Apart wider a b) :
    Node.Apart table a b :=
  ⟨fun l hl => h.1 l ⟨hl.1.cover hc, hl.2.cover hc⟩,
    fun hn => h.2 ⟨hn.1.cover hc, hn.2.cover hc⟩⟩

end Covers

end Descent
