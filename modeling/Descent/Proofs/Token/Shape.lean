import Descent.Token.Lexeme
import Mathlib.Data.List.Find

/-!
# The shapes of lexemes

Which lexeme is cut off the front of a text depends on all of the text.
This file says what lexemes look like by themselves: every class has its
**shape** (`Lexeme.Shape`), and what is cut off has the shape of its class
(`shape_of_munch`).

The other way round, a text of some shape is cut off whole from any longer
text that does not go on with it (`Shape.munch_eq`). One character decides
on that, on the safe side (`Lexeme.stops`): a point may begin a fraction
and a slash a comment, and an operator is taken to go on with every
character that some operator has behind its first.
-/

namespace Descent.Lexeme

/-- **The inside of a string**: plain characters, and backslashes with the
character after them. -/
inductive Inside : List Char → Prop
  | nil : Inside []
  | plain {c : Char} {r : List Char} :
    c ≠ '"' → c ≠ '\\' → c ≠ '\n' → Inside r → Inside (c :: r)
  | escaped {d : Char} {r : List Char} : d ≠ '\n' → Inside r → Inside ('\\' :: d :: r)

/-- **The texts of a class.** Of the gaps only the blanks have a shape, and
a string without its closing quote has none. -/
inductive Shape : Class → List Char → Prop
  | blanks {c : Char} {r : List Char} :
    isBlank c = true → r.all isBlank = true → Shape .gap (c :: r)
  | word {c : Char} {r : List Char} :
    isWordStart c = true → r.all isWordPart = true → Shape .word (c :: r)
  | integer {c : Char} {r : List Char} :
    c.isDigit = true → r.all Char.isDigit = true → Shape .number (c :: r)
  | decimal {c d : Char} {r s : List Char} :
    c.isDigit = true → r.all Char.isDigit = true → d.isDigit = true →
      s.all Char.isDigit = true → Shape .number (c :: (r ++ '.' :: d :: s))
  | string {b : List Char} : Inside b → Shape .string ('"' :: (b ++ ['"']))
  | operator {op : List Char} : op ∈ operators → Shape .operator op
  | delimiter {c : Char} : isDelimiter c = true → Shape .delimiter [c]

/-! ## What is cut off has its shape -/

theorem inside_stringBody (cs : List Char) : Inside (stringBody cs).1 := by
  fun_induction stringBody cs with
  | case1 => exact .nil
  | case2 c h => exact .nil
  | case3 c h =>
    simp only [not_or] at h
    exact .plain h.1 h.2.1 h.2.2 .nil
  | case4 r => exact .nil
  | case5 d r hd body ih => exact .escaped hd ih
  | case6 c d r hc h => exact .nil
  | case7 c d r hc h body ih =>
    rw [not_or] at h
    exact .plain h.1 hc h.2 ih

/-- Digits, with the fraction that may follow them. -/
theorem shape_number {c : Char} (hc : c.isDigit = true) (r cs : List Char)
    (hr : r.all Char.isDigit = true) : Shape .number (c :: (r ++ (fraction cs).1)) := by
  fun_cases fraction cs with
  | case1 d s hd => exact .decimal hc hr hd List.all_takeWhile
  | case2 d s hd =>
    rw [List.append_nil]
    exact .integer hc hr
  | case3 =>
    rw [List.append_nil]
    exact .integer hc hr

/-- **What is cut off has the shape of its class.** -/
theorem shape_of_munch {cs text rest : List Char} {k : Class}
    (h : munch cs = some (k, text, rest)) (hgap : k ≠ .gap) (hopen : k ≠ .openString) :
    Shape k text := by
  cases cs with
  | nil => cases h
  | cons c r =>
    simp only [munch] at h
    split at h
    · cases h
      exact absurd rfl hgap
    split at h
    · cases h
      exact absurd rfl hgap
    split at h
    · next hc =>
      cases h
      exact .word hc List.all_takeWhile
    split at h
    · next hc =>
      cases h
      exact shape_number hc _ _ List.all_takeWhile
    split at h
    · next hc =>
      subst hc
      split at h
      · cases h
        exact .string (inside_stringBody r)
      · cases h
        exact absurd rfl hopen
    split at h
    · next hc =>
      cases h
      exact .delimiter hc
    · obtain ⟨op, hop, heq⟩ := Option.map_eq_some_iff.mp h
      cases heq
      exact .operator (List.mem_of_find?_eq_some hop)

/-! ## What has a shape is cut off -/

/-- **Whether a lexeme of the class ends before this character**, whatever
comes after it. -/
def stops : Class → Char → Bool
  | .gap, c => !isBlank c
  | .word, c => !isWordPart c
  | .number, c => !c.isDigit && c != '.'
  | .operator, c => !operators.any (·.tail.contains c) && c != '/'
  | .string, _ | .openString, _ | .delimiter, _ => true

section

variable {p : Char → Bool} {t rest : List Char}

/-- A run goes as far as its characters do. -/
theorem takeWhile_append_of_stop (ht : t.all p = true)
    (hrest : rest.head?.all (fun c => !p c) = true) :
    (t ++ rest).takeWhile p = t ∧ (t ++ rest).dropWhile p = rest := by
  have ht := List.all_eq_true.mp ht
  rw [List.takeWhile_append_of_pos ht, List.dropWhile_append_of_pos ht]
  cases rest with
  | nil => exact ⟨List.append_nil t, rfl⟩
  | cons c r =>
    have hc : ¬ p c = true := by simpa using hrest
    rw [List.takeWhile_cons_of_neg hc, List.dropWhile_cons_of_neg hc]
    exact ⟨List.append_nil t, rfl⟩

end

theorem stringBody_append_quote {b : List Char} (h : Inside b) (rest : List Char) :
    stringBody (b ++ '"' :: rest) = (b, '"' :: rest) := by
  induction h with
  | nil =>
    cases rest with
    | nil => rfl
    | cons d r => rfl
  | @plain c r hq hb hn _ ih =>
    -- What follows `c` is never empty, because the quote is still to come.
    obtain ⟨d, s, hs⟩ : ∃ d s, r ++ '"' :: rest = d :: s := by
      cases r with
      | nil => exact ⟨_, _, rfl⟩
      | cons d r => exact ⟨_, _, rfl⟩
    rw [List.cons_append, hs]
    rw [hs] at ih
    simp only [stringBody, if_neg hb, if_neg (not_or.mpr ⟨hq, hn⟩), ih]
  | @escaped d r hd _ ih =>
    simp only [List.cons_append, stringBody, if_pos, if_neg hd, ih]

theorem not_digit_of_stops {rest : List Char} (h : rest.head?.all (stops .number) = true) :
    rest.head?.all (fun c => !c.isDigit) = true := by
  cases rest with
  | nil => rfl
  | cons c r => exact ((Bool.and_eq_true _ _).mp h).1

/-- What stops a number begins no fraction. -/
theorem fraction_of_stops {rest : List Char} (h : rest.head?.all (stops .number) = true) :
    fraction rest = ([], rest) := by
  fun_cases fraction rest with
  | case1 d r hd => cases h
  | case2 d r hd => rfl
  | case3 => rfl

/-- Every operator has a character. -/
theorem operators_ne_nil : ∀ op ∈ operators, op ≠ [] := by decide +kernel

/-- **No operator grows by a character that stops it**: one that fits a
longer text fits the operator alone. -/
theorem isPrefixOf_append_of_stops {op op' rest : List Char} (hop : op ∈ operators)
    (hop' : op' ∈ operators) (h : rest.head?.all (stops .operator) = true) :
    op'.isPrefixOf (op ++ rest) = op'.isPrefixOf op := by
  rw [Bool.eq_iff_iff, List.isPrefixOf_iff_prefix, List.isPrefixOf_iff_prefix]
  refine ⟨fun hpre => ?_, fun hpre => hpre.trans (List.prefix_append op rest)⟩
  by_cases hlength : op'.length ≤ op.length
  · exact List.prefix_of_prefix_length_le hpre (List.prefix_append op rest) hlength
  -- Otherwise the longer operator goes on with the first character left.
  obtain ⟨s, rfl⟩ := List.prefix_of_prefix_length_le (List.prefix_append op rest) hpre
    (Nat.le_of_not_le hlength)
  rw [List.prefix_append_right_inj] at hpre
  cases s with
  | nil => simp
  | cons c s =>
    obtain ⟨r, rfl⟩ := hpre
    have hc : operators.any (·.tail.contains c) = true := by
      refine List.any_eq_true.mpr ⟨_, hop', ?_⟩
      obtain ⟨a, l, rfl⟩ := List.exists_cons_of_ne_nil (operators_ne_nil op hop)
      simp
    have hstop : (!operators.any (·.tail.contains c) && c != '/') = true := h
    rw [hc] at hstop
    cases hstop

theorem operator?_append_of_stops {op rest : List Char} (hop : op ∈ operators)
    (h : rest.head?.all (stops .operator) = true) : operator? (op ++ rest) = some op := by
  have hself : ∀ op ∈ operators, operators.find? (·.isPrefixOf op) = some op := by
    decide +kernel
  rw [operator?, ← hself op hop]
  refine List.find?_congr (fun op' hop' => ?_)
  exact isPrefixOf_append_of_stops hop hop' h

/-! ### What a lexeme begins with -/

/-- Blanks and the slash begin no word and no number. -/
theorem not_blank_of_start {c : Char} (h : isWordStart c = true ∨ c.isDigit = true) :
    isBlank c = false ∧ c ≠ '/' := by
  constructor
  · refine Bool.eq_false_iff.mpr (fun hc => ?_)
    simp only [isBlank, Bool.or_eq_true, decide_eq_true_eq] at hc
    rcases hc with (((rfl | rfl) | rfl) | rfl) | rfl
    all_goals exact absurd h (by decide)
  · rintro rfl
    exact absurd h (by decide)

/-- Digits begin no word. -/
theorem not_wordStart_of_digit {c : Char} (h : c.isDigit = true) : isWordStart c = false := by
  have hdigit : 48 ≤ c.val ∧ c.val ≤ 57 := by
    obtain ⟨hlo, hhi⟩ := (Bool.and_eq_true _ _).mp h
    exact ⟨of_decide_eq_true hlo, of_decide_eq_true hhi⟩
  simp only [isWordStart, Bool.or_eq_false_iff, decide_eq_false_iff_not]
  constructor
  · refine Bool.eq_false_iff.mpr (fun hc => ?_)
    rcases (Bool.or_eq_true _ _).mp hc with hc | hc
    · have hupper : 65 ≤ c.val ∧ c.val ≤ 90 := of_decide_eq_true hc
      grind
    · have hlower : 97 ≤ c.val := of_decide_eq_true ((Bool.and_eq_true _ _).mp hc).1
      grind
  · rintro rfl
    cases h

/-- Delimiters begin nothing else. -/
theorem delimiter_begins {c : Char} (h : isDelimiter c = true) :
    isBlank c = false ∧ c ≠ '/' ∧ isWordStart c = false ∧ c.isDigit = false ∧ c ≠ '"' := by
  have hall : "()[]\x7b\x7d,;".toList.all (fun c =>
      !isBlank c && c != '/' && !isWordStart c && !c.isDigit && c != '"') = true := by
    decide +kernel
  simpa [and_assoc] using List.all_eq_true.mp hall c (List.contains_iff_mem.mp h)

/-- Operators begin nothing else, a comment apart. -/
theorem operator_begins {c : Char} {r : List Char} (h : c :: r ∈ operators) :
    isBlank c = false ∧ isWordStart c = false ∧ c.isDigit = false ∧ c ≠ '"'
      ∧ isDelimiter c = false ∧ r.head? ≠ some '/' := by
  have hall : operators.all (fun op => op.head?.all fun c =>
      !isBlank c && !isWordStart c && !c.isDigit && c != '"' && !isDelimiter c
        && op.tail.head? != some '/') = true := by
    decide +kernel
  simpa [and_assoc] using List.all_eq_true.mp hall (c :: r) h

/-- Only blanks and the slash begin a gap. -/
theorem begins_of_munch_gap {c : Char} {r text rest : List Char}
    (h : munch (c :: r) = some (.gap, text, rest)) : isBlank c = true ∨ c = '/' := by
  simp only [munch] at h
  split at h
  · next hc => exact .inl hc
  split at h
  · next hc => exact .inr hc.1
  split at h
  · cases h
  split at h
  · cases h
  split at h
  · split at h
    · cases h
    · cases h
  split at h
  · cases h
  · obtain ⟨op, -, heq⟩ := Option.map_eq_some_iff.mp h
    cases heq

/-- **A text of some shape is cut off whole** where it ends. -/
theorem Shape.munch_eq {k : Class} {t rest : List Char} (h : Shape k t)
    (hrest : rest.head?.all (stops k) = true) : munch (t ++ rest) = some (k, t, rest) := by
  cases h with
  | @blanks c r hc hr =>
    obtain ⟨htake, hdrop⟩ := takeWhile_append_of_stop hr hrest
    simp [munch, hc, htake, hdrop]
  | @word c r hc hr =>
    obtain ⟨hblank, hslash⟩ := not_blank_of_start (.inl hc)
    obtain ⟨htake, hdrop⟩ := takeWhile_append_of_stop hr hrest
    simp [munch, hblank, hslash, hc, htake, hdrop]
  | @integer c r hc hr =>
    obtain ⟨hblank, hslash⟩ := not_blank_of_start (.inr hc)
    obtain ⟨htake, hdrop⟩ := takeWhile_append_of_stop hr (not_digit_of_stops hrest)
    simp [munch, hblank, hslash, not_wordStart_of_digit hc, hc, htake, hdrop,
      fraction_of_stops hrest]
  | @decimal c d r s hc hr hd hs =>
    obtain ⟨hblank, hslash⟩ := not_blank_of_start (.inr hc)
    have hpoint : ('.' :: d :: (s ++ rest)).head?.all (fun c => !c.isDigit) = true := rfl
    obtain ⟨htake, hdrop⟩ := takeWhile_append_of_stop hr hpoint
    obtain ⟨htake', hdrop'⟩ := takeWhile_append_of_stop hs (not_digit_of_stops hrest)
    simp [munch, hblank, hslash, not_wordStart_of_digit hc, hc, htake, hdrop, fraction, hd,
      htake', hdrop']
  | @string b hb =>
    simp [munch, stringBody_append_quote hb rest, show isBlank '"' = false by decide,
      show isWordStart '"' = false by decide]
  | @operator op hop =>
    obtain ⟨c, r, rfl⟩ := List.exists_cons_of_ne_nil (operators_ne_nil t hop)
    obtain ⟨hblank, hword, hdigit, hquote, hdelimiter, hcomment⟩ := operator_begins hop
    have hcomment : ¬ (c = '/' ∧ (r ++ rest).head? = some '/') := by
      rintro ⟨-, hhead⟩
      cases r with
      | nil =>
        rw [List.nil_append] at hhead
        rw [hhead] at hrest
        cases hrest
      | cons d s => exact hcomment hhead
    have hfound := operator?_append_of_stops hop hrest
    rw [List.cons_append] at hfound ⊢
    rw [munch, if_neg (Bool.eq_false_iff.mp hblank), if_neg hcomment]
    simp [hword, hdigit, hquote, hdelimiter, hfound]
  | @delimiter c hc =>
    obtain ⟨hblank, hslash, hword, hdigit, hquote⟩ := delimiter_begins hc
    simp [munch, hblank, hslash, hword, hdigit, hquote, hc]

end Descent.Lexeme
