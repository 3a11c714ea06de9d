import Descent.Proofs.Token.Shape
import Descent.Token.Scan

/-!
# Texts that write tokens

A text that is put together from pieces scans to the tokens of its pieces,
if no lexeme runs across a seam. Which tokens a piece gives depends on
where it stands, because a token knows its place; so `Writes text P ok`
says of a text that **wherever it stands, its tokens satisfy `P`**,
provided that what comes next begins with a character that is `ok`. The
last lexeme of the text decides which characters are: those that it stops
at (`Lexeme.stops`).

Pieces are joined by `Writes.append`. What has to be seen at a seam is that
the piece behind it begins with a character that the piece before it
allows (`StartsWith`).
-/

namespace Descent

namespace Token

/-! ## Scanning, one lexeme at a time -/

section

variable {keywords : List String} {place : Nat → Position} {offset : Nat}
  {cs text rest : List Char} {k : Lexeme.Class} {c : Cursor}

/-- The end of the text. -/
theorem scanFrom_nil : scanFrom keywords place offset [] = .ok ⟨[], place offset⟩ := by
  rw [scanFrom]
  rfl

/-- **One lexeme and then the others.** -/
theorem scanFrom_of_munch (h : Lexeme.munch cs = some (k, text, rest)) (hk : k ≠ .openString)
    (hc : scanFrom keywords place (offset + Text.bytes text) rest = .ok c) :
    scanFrom keywords place offset cs
      = .ok ⟨(kind? keywords text k).toList.map (⟨·, String.ofList text, place offset⟩) ++ c.rest,
          c.finish⟩ := by
  rw [scanFrom]
  split
  · next hnone =>
    rw [hnone] at h
    cases h
  · next k' text' rest' hsome =>
    obtain ⟨rfl, rfl, rfl⟩ : k' = k ∧ text' = text ∧ rest' = rest := by
      simpa only [Option.some.injEq, Prod.mk.injEq] using hsome.symm.trans h
    rw [if_neg hk, hc]
    dsimp only
    cases kind? keywords text' k' with
    | none => rfl
    | some kind => rfl

/-- **A token as some text spells it**: its spelling is a lexeme, of a
class that gives this kind. -/
def Spelled (keywords : List String) (t : Token) : Prop :=
  ∃ k, Lexeme.Shape k t.spelling.toList ∧ kind? keywords t.spelling.toList k = some t.kind

/-- **What is scanned is spelled.** -/
theorem spelled_of_scanFrom (h : scanFrom keywords place offset cs = .ok c) :
    ∀ t ∈ c.rest, t.Spelled keywords := by
  fun_induction scanFrom keywords place offset cs generalizing c with
  | case1 offset =>
    cases h
    exact fun t ht => nomatch ht
  | case2 => cases h
  | case3 => cases h
  | case4 => cases h
  | case5 offset cs k text rest _ _ _ cursor hcursor _ ih =>
    cases h
    exact ih hcursor
  | case6 offset cs k text rest hmunch hopen _ cursor hcursor kind hkind ih =>
    cases h
    have hgap : k ≠ .gap := by
      rintro rfl
      cases hkind
    refine List.forall_mem_cons.mpr ⟨⟨k, ?_, ?_⟩, ih hcursor⟩
    · rw [String.toList_ofList]
      exact Lexeme.shape_of_munch hmunch hgap hopen
    · rw [String.toList_ofList]
      exact hkind

/-- What gives no token and is no string without its closing quote is a
gap. -/
theorem eq_gap_of_kind? (h : kind? keywords text k = none) (hopen : k ≠ .openString) :
    k = .gap := by
  cases k with
  | gap => rfl
  | openString => exact absurd rfl hopen
  | word =>
    simp only [kind?] at h
    split at h
    · cases h
    · cases h
  | _ => cases h

/-- **A text shows its first character in the first token**, if that
character begins no gap. -/
theorem head_of_scanFrom {ch : Char} (h : scanFrom keywords place offset cs = .ok c)
    (hhead : cs.head? = some ch) (hblank : Lexeme.isBlank ch = false) (hslash : ch ≠ '/') :
    ∃ t, c.rest.head? = some t ∧ t.spelling.toList.head? = some ch := by
  obtain ⟨r, rfl⟩ := List.head?_eq_some_iff.mp hhead
  rw [scanFrom] at h
  split at h
  · cases h
  next k text rest hmunch =>
  have hgap : k ≠ .gap := by
    rintro rfl
    rcases Lexeme.begins_of_munch_gap hmunch with hc | hc
    · rw [hc] at hblank
      cases hblank
    · exact hslash hc
  split at h
  · cases h
  next hopen =>
  dsimp only at h
  split at h
  · cases h
  next d _ =>
  split at h
  · next hnone => exact absurd (eq_gap_of_kind? hnone hopen) hgap
  · cases h
    refine ⟨_, rfl, ?_⟩
    obtain ⟨hne, happend⟩ := Lexeme.munch_split hmunch
    obtain ⟨ch', text, rfl⟩ := List.exists_cons_of_ne_nil hne
    rw [String.toList_ofList]
    exact congrArg List.head? happend

/-- Whether a lexeme gives a token is not up to the keywords. -/
theorem isSome_kind? (keywords keywords' : List String) (text : List Char) (k : Lexeme.Class) :
    (kind? keywords text k).isSome = (kind? keywords' text k).isSome := by
  cases k with
  | word =>
    show (if _ then some Kind.reserved else some .identifier).isSome
      = (if _ then some Kind.reserved else some .identifier).isSome
    split <;> split <;> rfl
  | _ => rfl

/-- **Keywords make a difference to kinds only.** With other keywords a text
scans as well, to tokens of the same spellings in the same places. -/
theorem scanFrom_keywords (keywords' : List String)
    (h : scanFrom keywords place offset cs = .ok c) :
    ∃ d, scanFrom keywords' place offset cs = .ok d
      ∧ d.rest.map (fun t => (t.spelling, t.position))
        = c.rest.map (fun t => (t.spelling, t.position))
      ∧ d.finish = c.finish := by
  fun_induction scanFrom keywords place offset cs generalizing c with
  | case1 offset =>
    cases h
    exact ⟨⟨[], place offset⟩, scanFrom_nil, rfl, rfl⟩
  | case2 => cases h
  | case3 => cases h
  | case4 => cases h
  | case5 offset cs k text rest hmunch hopen _ cursor hcursor hkind ih =>
    cases h
    obtain ⟨d, hd, hsame, hfinish⟩ := ih hcursor
    have hnone : kind? keywords' text k = none := by
      rw [← Option.not_isSome_iff_eq_none, ← isSome_kind? keywords, hkind]
      exact Bool.false_ne_true
    refine ⟨_, scanFrom_of_munch hmunch hopen hd, ?_, hfinish⟩
    rw [hnone]
    exact hsame
  | case6 offset cs k text rest hmunch hopen _ cursor hcursor kind hkind ih =>
    cases h
    obtain ⟨d, hd, hsame, hfinish⟩ := ih hcursor
    obtain ⟨kind', hkind'⟩ : ∃ kind', kind? keywords' text k = some kind' := by
      rw [← Option.isSome_iff_exists, ← isSome_kind? keywords, hkind]
      rfl
    refine ⟨_, scanFrom_of_munch hmunch hopen hd, ?_, hfinish⟩
    rw [hkind']
    exact congrArg (_ :: ·) hsame

end

end Token

/-! ## Texts by the tokens they give -/

/-- **What a text writes.** Before any text that scans and that begins, if
at all, with a character that is `ok`, it gives some tokens with the
property `P`, and leaves the others as they are. -/
def Writes (text : String) (P : List Token → Prop) (ok : Char → Bool) : Prop :=
  ∀ (place : Nat → Position) (offset : Nat) (rest : List Char) (c : Cursor),
    rest.head?.all ok = true →
    Token.scanFrom [] place (offset + Text.bytes text.toList) rest = .ok c →
    ∃ u, P u
      ∧ Token.scanFrom [] place offset (text.toList ++ rest) = .ok ⟨u ++ c.rest, c.finish⟩

/-- **A text that begins with a character of some sort.** -/
def StartsWith (ok : Char → Bool) (text : String) : Prop := text.toList.head?.any ok = true

instance (ok : Char → Bool) (text : String) : Decidable (StartsWith ok text) :=
  inferInstanceAs (Decidable (_ = true))

theorem StartsWith.append {ok : Char → Bool} {a : String} (h : StartsWith ok a) (b : String) :
    StartsWith ok (a ++ b) := by
  obtain ⟨c, hc, hok⟩ := (Option.any_eq_true _ _).mp h
  unfold StartsWith
  rw [String.toList_append, List.head?_append, hc]
  exact hok

theorem StartsWith.mono {ok ok' : Char → Bool} {a : String} (h : StartsWith ok a)
    (hok : ∀ c, ok c = true → ok' c = true) : StartsWith ok' a := by
  obtain ⟨c, hc, hc'⟩ := (Option.any_eq_true _ _).mp h
  exact (Option.any_eq_true _ _).mpr ⟨c, hc, hok c hc'⟩

namespace Writes

variable {a b : String} {P Q : List Token → Prop} {ok ok' : Char → Bool}

theorem imp (h : Writes a P ok) (hP : ∀ u, P u → Q u) : Writes a Q ok := by
  intro place offset rest c hrest hc
  obtain ⟨u, hu, hscan⟩ := h place offset rest c hrest hc
  exact ⟨u, hP u hu, hscan⟩

/-- Fewer characters may come next. -/
theorem before (h : Writes a P ok) (hok : ∀ c, ok' c = true → ok c = true) :
    Writes a P ok' := by
  intro place offset rest c hrest hc
  refine h place offset rest c ?_ hc
  cases rest with
  | nil => rfl
  | cons d r => exact hok d hrest

/-- One text and then another, if what follows the first one may. -/
theorem append_of_head (ha : Writes a P ok) (hb : Writes b Q ok')
    (h : ∀ rest, rest.head?.all ok' = true → (b.toList ++ rest).head?.all ok = true) :
    Writes (a ++ b) (fun u => ∃ v w, P v ∧ Q w ∧ u = v ++ w) ok' := by
  intro place offset rest c hrest hc
  rw [String.toList_append, Text.bytes_append, ← Nat.add_assoc] at hc
  obtain ⟨w, hw, hscan⟩ := hb _ _ _ _ hrest hc
  obtain ⟨v, hv, hscan⟩ := ha _ _ _ _ (h rest hrest) hscan
  refine ⟨v ++ w, ⟨v, w, hv, hw, rfl⟩, ?_⟩
  rw [String.toList_append, List.append_assoc, List.append_assoc]
  exact hscan

/-- **One text and then another**, if no lexeme runs across the seam. -/
theorem append (ha : Writes a P ok) (hb : Writes b Q ok') (h : StartsWith ok b) :
    Writes (a ++ b) (fun u => ∃ v w, P v ∧ Q w ∧ u = v ++ w) ok' := by
  refine ha.append_of_head hb (fun rest _ => ?_)
  obtain ⟨d, hd, hok⟩ := (Option.any_eq_true _ _).mp h
  rw [List.head?_append, hd]
  exact hok

/-- Behind a text that anything may follow there is no seam to look at. -/
theorem append_any (ha : Writes a P (fun _ => true)) (hb : Writes b Q ok') :
    Writes (a ++ b) (fun u => ∃ v w, P v ∧ Q w ∧ u = v ++ w) ok' := by
  refine ha.append_of_head hb (fun rest _ => ?_)
  cases (b.toList ++ rest).head? with
  | none => rfl
  | some c => rfl

end Writes

/-! ### Single lexemes -/

/-- No lexeme but a gap begins with a blank. -/
theorem begins_of_shape {s : String} {k : Lexeme.Class} (hs : Lexeme.Shape k s.toList)
    (hk : k ≠ .gap) : StartsWith (Lexeme.stops .gap) s := by
  unfold StartsWith
  generalize s.toList = text at hs
  cases hs with
  | blanks => exact absurd rfl hk
  | word hc _ => simp [Lexeme.stops, (Lexeme.not_blank_of_start (.inl hc)).1]
  | integer hc _ => simp [Lexeme.stops, (Lexeme.not_blank_of_start (.inr hc)).1]
  | decimal hc _ _ _ => simp [Lexeme.stops, (Lexeme.not_blank_of_start (.inr hc)).1]
  | string _ => rfl
  | operator hop =>
    have hall : ∀ op ∈ Lexeme.operators, op.head?.any (Lexeme.stops .gap) = true := by
      decide +kernel
    exact hall text hop
  | delimiter hc => simp [Lexeme.stops, (Lexeme.delimiter_begins hc).1]

/-- **A lexeme writes its token.** -/
theorem writes_token {s : String} {k : Lexeme.Class} {kind : Token.Kind}
    (hs : Lexeme.Shape k s.toList) (hkind : Token.kind? [] s.toList k = some kind) :
    Writes s (fun u => ∃ p, u = [⟨kind, s, p⟩]) (Lexeme.stops k) := by
  intro place offset rest c hrest hc
  have hopen : k ≠ .openString := by
    rintro rfl
    cases hkind
  refine ⟨[⟨kind, s, place offset⟩], ⟨place offset, rfl⟩, ?_⟩
  rw [Token.scanFrom_of_munch (hs.munch_eq hrest) hopen hc, hkind, String.ofList_toList]
  rfl

theorem writes_delimiter {s : String} (hs : Lexeme.Shape .delimiter s.toList) :
    Writes s (fun u => ∃ p, u = [⟨.delimiter, s, p⟩]) (fun _ => true) :=
  writes_token hs rfl

theorem writes_operator {s : String} (hs : Lexeme.Shape .operator s.toList) :
    Writes s (fun u => ∃ p, u = [⟨.operator, s, p⟩]) (Lexeme.stops .operator) :=
  writes_token hs rfl

theorem writes_word {s : String} (hs : Lexeme.Shape .word s.toList) :
    Writes s (fun u => ∃ p, u = [⟨.identifier, s, p⟩]) (Lexeme.stops .word) :=
  writes_token hs rfl

/-- **Blanks write nothing.** -/
theorem writes_blanks {s : String} (hs : Lexeme.Shape .gap s.toList) :
    Writes s (fun u => u = []) (Lexeme.stops .gap) := by
  intro place offset rest c hrest hc
  exact ⟨[], rfl, Token.scanFrom_of_munch (hs.munch_eq hrest) (by decide) hc⟩

theorem shape_space : Lexeme.Shape .gap " ".toList :=
  .blanks rfl rfl

namespace Writes

variable {a b s : String} {P Q : List Token → Prop} {ok ok' : Char → Bool}

/-- A blank behind a text changes nothing but what may come next. -/
theorem space (ha : Writes a P ok) (h : ok ' ' = true) :
    Writes (a ++ " ") P (Lexeme.stops .gap) := by
  refine (ha.append (writes_blanks shape_space) h).imp ?_
  rintro _ ⟨u, _, hu, rfl, rfl⟩
  rw [List.append_nil]
  exact hu

theorem delimiter (ha : Writes a P ok) (hs : Lexeme.Shape .delimiter s.toList)
    (h : StartsWith ok s) :
    Writes (a ++ s) (fun u => ∃ v p, P v ∧ u = v ++ [⟨.delimiter, s, p⟩]) (fun _ => true) := by
  refine (ha.append (writes_delimiter hs) h).imp ?_
  rintro _ ⟨v, _, hv, ⟨p, rfl⟩, rfl⟩
  exact ⟨v, p, hv, rfl⟩

theorem operator (ha : Writes a P ok) (hs : Lexeme.Shape .operator s.toList)
    (h : StartsWith ok s) :
    Writes (a ++ s) (fun u => ∃ v p, P v ∧ u = v ++ [⟨.operator, s, p⟩])
      (Lexeme.stops .operator) := by
  refine (ha.append (writes_operator hs) h).imp ?_
  rintro _ ⟨v, _, hv, ⟨p, rfl⟩, rfl⟩
  exact ⟨v, p, hv, rfl⟩

end Writes

end Descent
