import Descent.Proofs.Token.Language

/-!
# The longest lexeme

What is cut off the front of a text is **the longest lexeme that the text
begins with**, of whatever class, and it is a lexeme of one class only
(`longest_of_munch`). Where nothing is cut off, the text begins with no
lexeme at all (`not_prefix_of_munch`).

Lexemes of two classes compete for a place only where their first
characters do not tell them apart, and that is in two cases: a slash
begins comments and operators, and a quote begins strings with and without
a closing one. Everything else follows from the sort of the first
character (`Form.fits`). Within a class there is one lexeme that goes on
as far as the others; for operators it is the first one in the list that
fits.
-/

namespace Descent.Lexeme

/-! ## First characters -/

/-- **What a character may begin.** -/
inductive Opening where
  | blanks
  | word
  | number
  | string
  | delimiter
  /-- An operator, or a comment if it is a slash. -/
  | sign
deriving DecidableEq

/-- What a character begins, if it begins anything. -/
def opening? (c : Char) : Option Opening :=
  if isBlank c then some .blanks
  else if isWordStart c then some .word
  else if c.isDigit then some .number
  else if c = '"' then some .string
  else if isDelimiter c then some .delimiter
  else if operators.any (·.head? == some c) then some .sign
  else none

/-- **The lexemes with a certain first character.** -/
def Fits (k : Class) (c : Char) (r : List Char) : Opening → Prop
  | .blanks => k = .gap ∧ r.all isBlank = true
  | .word => k = .word ∧ r.all isWordPart = true
  | .number => k = .number ∧ Shape .number (c :: r)
  | .string => (k = .string ∧ ∃ b, Inside b ∧ r = b ++ ['"']) ∨ k = .openString ∧ Inside r
  | .delimiter => k = .delimiter ∧ r = []
  | .sign =>
    (k = .gap ∧ c = '/' ∧ ∃ r', r = '/' :: r' ∧ r'.all (· ≠ '\n') = true)
      ∨ k = .operator ∧ c :: r ∈ operators

section

variable {c : Char}

theorem opening?_of_blank (h : isBlank c = true) : opening? c = some .blanks := if_pos h

theorem opening?_of_wordStart (h : isWordStart c = true) : opening? c = some .word := by
  simp [opening?, (not_blank_of_start (.inl h)).1, h]

theorem opening?_of_digit (h : c.isDigit = true) : opening? c = some .number := by
  simp [opening?, (not_blank_of_start (.inr h)).1, not_wordStart_of_digit h, h]

theorem opening?_quote : opening? '"' = some .string := by decide

theorem opening?_of_delimiter (h : isDelimiter c = true) : opening? c = some .delimiter := by
  obtain ⟨hblank, -, hword, hdigit, hquote⟩ := delimiter_begins h
  simp [opening?, hblank, hword, hdigit, hquote, h]

theorem opening?_of_operator {r : List Char} (h : c :: r ∈ operators) :
    opening? c = some .sign := by
  obtain ⟨hblank, hword, hdigit, hquote, hdelimiter, -⟩ := operator_begins h
  have hany : operators.any (·.head? == some c) = true :=
    List.any_eq_true.mpr ⟨c :: r, h, beq_self_eq_true _⟩
  simp [opening?, hblank, hword, hdigit, hquote, hdelimiter, hany]

end

variable {k k' : Class} {c : Char} {r s : List Char}

/-- **What a lexeme looks like is settled by its first character**, up to
slashes and quotes. -/
theorem Form.fits (h : Form k (c :: r)) : ∃ o, opening? c = some o ∧ Fits k c r o := by
  cases h with
  | comment hr => exact ⟨.sign, by decide, .inl ⟨rfl, rfl, _, rfl, hr⟩⟩
  | opened hb => exact ⟨.string, opening?_quote, .inr ⟨rfl, hb⟩⟩
  | shape h =>
    cases h with
    | blanks hc hr => exact ⟨.blanks, opening?_of_blank hc, rfl, hr⟩
    | word hc hr => exact ⟨.word, opening?_of_wordStart hc, rfl, hr⟩
    | integer hc hr => exact ⟨.number, opening?_of_digit hc, rfl, .integer hc hr⟩
    | decimal hc hr hd hs => exact ⟨.number, opening?_of_digit hc, rfl, .decimal hc hr hd hs⟩
    | string hb => exact ⟨.string, opening?_quote, .inl ⟨rfl, _, hb, rfl⟩⟩
    | operator h => exact ⟨.sign, opening?_of_operator h, .inr ⟨rfl, h⟩⟩
    | delimiter hc => exact ⟨.delimiter, opening?_of_delimiter hc, rfl, rfl⟩

theorem Form.fits_of_opening {o : Opening} (h : Form k (c :: r)) (hc : opening? c = some o) :
    Fits k c r o := by
  obtain ⟨o', ho', hfits⟩ := h.fits
  rw [hc] at ho'
  exact Option.some.inj ho' ▸ hfits

theorem Form.ne_nil (h : Form k s) : s ≠ [] := by
  cases h with
  | comment _ => exact List.cons_ne_nil _ _
  | opened _ => exact List.cons_ne_nil _ _
  | shape h =>
    cases h with
    | operator h => exact operators_ne_nil s h
    | _ => exact List.cons_ne_nil _ _

/-! ## Longest runs -/

/-- No run of characters of a sort is longer than the one that is taken. -/
theorem length_le_takeWhile {p : Char → Bool} {u : List Char} (hu : u.all p = true)
    (h : u <+: r) : u.length ≤ (r.takeWhile p).length := by
  obtain ⟨w, rfl⟩ := h
  rw [List.takeWhile_append_of_pos (List.all_eq_true.mp hu), List.length_append]
  exact Nat.le_add_right _ _

theorem stringBody_plain (hquote : c ≠ '"') (hslash : c ≠ '\\') (hline : c ≠ '\n')
    (r : List Char) : stringBody (c :: r) = (c :: (stringBody r).1, (stringBody r).2) := by
  cases r with
  | nil => simp [stringBody, hquote, hslash, hline]
  | cons d r => simp [stringBody, hquote, hslash, hline]

/-- **No inside of a string goes further than the one that is taken.** -/
theorem length_le_stringBody {b : List Char} (hb : Inside b) (h : b <+: r) :
    b.length ≤ (stringBody r).1.length := by
  obtain ⟨w, rfl⟩ := h
  induction hb with
  | nil => exact Nat.zero_le _
  | @plain c b hquote hslash hline _ ih =>
    rw [List.cons_append, stringBody_plain hquote hslash hline]
    exact Nat.succ_le_succ ih
  | @escaped d b hline _ ih =>
    simp only [List.cons_append, stringBody, if_pos, if_neg hline]
    exact Nat.succ_le_succ (Nat.succ_le_succ ih)

/-- An inside does not go on behind a quote that ends it. -/
theorem not_inside_append_quote {b : List Char} (hb : Inside b) : ¬ Inside (b ++ ['"']) := by
  intro h
  have hle := length_le_stringBody h (List.prefix_refl _)
  rw [stringBody_append_quote hb, List.length_append] at hle
  exact Nat.not_succ_le_self _ hle

/-- No number is longer than the digits that are taken with the fraction
behind them. -/
theorem length_le_number (h : Shape .number (c :: s)) (hs : s <+: r) :
    s.length
      ≤ (r.takeWhile Char.isDigit ++ (fraction (r.dropWhile Char.isDigit)).1).length := by
  rw [List.length_append]
  cases h with
  | integer _ hdigits =>
    exact Nat.le_trans (length_le_takeWhile hdigits hs) (Nat.le_add_right _ _)
  | @decimal _ d whole part _ hwhole hd hpart =>
    obtain ⟨w, rfl⟩ := hs
    rw [List.append_assoc]
    obtain ⟨htake, hdrop⟩ := takeWhile_append_of_stop hwhole
      (show (('.' :: d :: part) ++ w).head?.all (fun c => !c.isDigit) = true from rfl)
    have hle := length_le_takeWhile hpart (List.prefix_append part w)
    rw [htake, hdrop]
    simp only [List.cons_append, fraction, hd, if_true, List.length_append, List.length_cons]
    omega

/-- **No operator is longer than the first one in the list that fits**, for
longer ones come first. -/
theorem length_le_operator {op op' : List Char} (h : operator? r = some op)
    (hop' : op' ∈ operators) (hfits : op' <+: r) : op'.length ≤ op.length := by
  have hsorted : operators.Pairwise fun a b => b.length ≤ a.length := by decide +kernel
  obtain ⟨-, before, behind, heq, hbefore⟩ := List.find?_eq_some_iff_append.mp h
  rw [heq] at hsorted hop'
  rcases List.mem_append.mp hop' with hmem | hmem
  · have hnone := hbefore op' hmem
    rw [List.isPrefixOf_iff_prefix.mpr hfits] at hnone
    cases hnone
  · rcases List.mem_cons.mp hmem with rfl | hmem
    · exact Nat.le_refl _
    · exact (List.pairwise_cons.mp (List.pairwise_append.mp hsorted).2.1).1 op' hmem

/-! ## The longest lexeme -/

/-- **A lexeme that a text begins with, and the longest one**: no class has a
longer one there. It is of no other class. -/
structure Longest (k : Class) (text cs : List Char) : Prop where
  front : text <+: cs
  mem : text ∈ language k
  longest {k' : Class} {s : List Char} : s ∈ language k' → s <+: cs → s.length ≤ text.length
  only {k' : Class} : text ∈ language k' → k' = k

/-- A lexeme is of one class only. -/
theorem Form.unique (h : Form k s) (h' : Form k' s) : k' = k := by
  obtain ⟨c, r, rfl⟩ := List.exists_cons_of_ne_nil h.ne_nil
  obtain ⟨o, hc, hfits⟩ := h.fits
  have hfits' := h'.fits_of_opening hc
  cases o with
  | string =>
    rcases hfits with ⟨rfl, b, hb, rfl⟩ | ⟨rfl, hr⟩
    · rcases hfits' with ⟨rfl, -⟩ | ⟨-, hr'⟩
      · rfl
      · exact absurd hr' (not_inside_append_quote hb)
    · rcases hfits' with ⟨-, b, hb, rfl⟩ | ⟨rfl, -⟩
      · exact absurd hr (not_inside_append_quote hb)
      · rfl
  | sign =>
    rcases hfits with ⟨rfl, -, r', rfl, -⟩ | ⟨rfl, hop⟩
    · rcases hfits' with ⟨rfl, -⟩ | ⟨-, hop⟩
      · rfl
      · exact absurd rfl (operator_begins hop).2.2.2.2.2
    · rcases hfits' with ⟨-, -, r', rfl, -⟩ | ⟨rfl, -⟩
      · exact absurd rfl (operator_begins hop).2.2.2.2.2
      · rfl
  | _ => rw [hfits.1, hfits'.1]

/-- To be the longest lexeme is a matter of those with the same first
character. -/
theorem longest_of_forms {t : List Char} (h : Form k (c :: t)) (ht : t <+: r)
    (hmax : ∀ {k' : Class} {u : List Char}, Form k' (c :: u) → u <+: r → u.length ≤ t.length) :
    Longest k (c :: t) (c :: r) where
  front := (List.prefix_cons_inj c).mpr ht
  mem := mem_language_iff.mpr h
  longest := by
    intro k' s hs hfront
    have hs := mem_language_iff.mp hs
    obtain ⟨u, rfl, hu⟩ := (List.prefix_cons_iff.mp hfront).resolve_left hs.ne_nil
    exact Nat.succ_le_succ (hmax hs hu)
  only := fun h' => h.unique (mem_language_iff.mp h')

theorem longest_blanks (hc : isBlank c = true) (r : List Char) :
    Longest .gap (c :: r.takeWhile isBlank) (c :: r) := by
  refine longest_of_forms (.shape (.blanks hc List.all_takeWhile)) (List.takeWhile_prefix _) ?_
  intro k u h hu
  exact length_le_takeWhile (h.fits_of_opening (opening?_of_blank hc)).2 hu

theorem longest_word (hc : isWordStart c = true) (r : List Char) :
    Longest .word (c :: r.takeWhile isWordPart) (c :: r) := by
  refine longest_of_forms (.shape (.word hc List.all_takeWhile)) (List.takeWhile_prefix _) ?_
  intro k u h hu
  exact length_le_takeWhile (h.fits_of_opening (opening?_of_wordStart hc)).2 hu

theorem longest_number (hc : c.isDigit = true) (r : List Char) :
    Longest .number
      (c :: (r.takeWhile Char.isDigit ++ (fraction (r.dropWhile Char.isDigit)).1)) (c :: r) := by
  refine longest_of_forms (.shape (shape_number hc _ _ List.all_takeWhile)) ?_ ?_
  · refine ⟨(fraction (r.dropWhile Char.isDigit)).2, ?_⟩
    rw [List.append_assoc, fraction_append, List.takeWhile_append_dropWhile]
  · intro k u h hu
    exact length_le_number (h.fits_of_opening (opening?_of_digit hc)).2 hu

theorem longest_delimiter (hc : isDelimiter c = true) (r : List Char) :
    Longest .delimiter [c] (c :: r) := by
  refine longest_of_forms (.shape (.delimiter hc)) List.nil_prefix ?_
  intro k u h hu
  rw [(h.fits_of_opening (opening?_of_delimiter hc)).2]

/-- A comment is longer than the slash that it begins with. -/
theorem longest_comment (hr : r.head? = some '/') :
    Longest .gap ('/' :: r.takeWhile (· ≠ '\n')) ('/' :: r) := by
  obtain ⟨r', rfl⟩ : ∃ r', r = '/' :: r' := List.head?_eq_some_iff.mp hr
  have htake : ('/' :: r').takeWhile (· ≠ '\n') = '/' :: r'.takeWhile (· ≠ '\n') := rfl
  rw [htake]
  refine longest_of_forms (.comment List.all_takeWhile) ?_ ?_
  · exact (List.prefix_cons_inj '/').mpr (List.takeWhile_prefix _)
  · intro k u h hu
    rcases h.fits_of_opening (o := .sign) (by decide) with ⟨-, -, w, rfl, hw⟩ | ⟨-, hop⟩
    · exact Nat.succ_le_succ (length_le_takeWhile hw ((List.prefix_cons_inj '/').mp hu))
    · -- No operator begins with two slashes.
      have hnil : u = [] := by
        rcases List.prefix_cons_iff.mp hu with hnil | ⟨w, rfl, -⟩
        · exact hnil
        · exact absurd rfl (operator_begins hop).2.2.2.2.2
      rw [hnil]
      exact Nat.zero_le _

theorem longest_string {rest : List Char} (hr : (stringBody r).2 = '"' :: rest) :
    Longest .string ('"' :: ((stringBody r).1 ++ ['"'])) ('"' :: r) := by
  have hsplit := stringBody_append r
  rw [hr] at hsplit
  refine longest_of_forms (.shape (.string (inside_stringBody r))) ⟨rest, ?_⟩ ?_
  · rw [List.append_assoc]
    exact hsplit
  · intro k u h hu
    rw [List.length_append]
    rcases h.fits_of_opening opening?_quote with ⟨-, b, hb, rfl⟩ | ⟨-, hb⟩
    · have hle := length_le_stringBody hb ((List.prefix_append b _).trans hu)
      rw [List.length_append]
      exact Nat.succ_le_succ hle
    · exact Nat.le_succ_of_le (length_le_stringBody hb hu)

/-- A string without a closing quote is the longest lexeme only where no quote
closes it. -/
theorem longest_openString (hr : (stringBody r).2.head? ≠ some '"') :
    Longest .openString ('"' :: (stringBody r).1) ('"' :: r) := by
  refine longest_of_forms (.opened (inside_stringBody r)) ⟨_, stringBody_append r⟩ ?_
  intro k u h hu
  rcases h.fits_of_opening opening?_quote with ⟨-, b, hb, rfl⟩ | ⟨-, hb⟩
  · obtain ⟨w, rfl⟩ := hu
    rw [List.append_assoc, List.singleton_append, stringBody_append_quote hb] at hr
    exact absurd rfl hr
  · exact length_le_stringBody hb hu

/-- What begins with a sign and no comment is an operator. -/
theorem Form.operator_of_sign {u : List Char} (h : Form k (c :: u)) (hu : u <+: r)
    (hsign : ∀ o, opening? c = some o → o = .sign)
    (hcomment : ¬ (c = '/' ∧ r.head? = some '/')) : k = .operator ∧ c :: u ∈ operators := by
  obtain ⟨o, ho, hfits⟩ := h.fits
  obtain rfl := hsign o ho
  rcases hfits with ⟨-, hc, w, rfl, -⟩ | hop
  · obtain ⟨v, rfl⟩ := hu
    exact absurd ⟨hc, rfl⟩ hcomment
  · exact hop

theorem longest_operator {op : List Char} (hsign : ∀ o, opening? c = some o → o = .sign)
    (hcomment : ¬ (c = '/' ∧ r.head? = some '/')) (hop : operator? (c :: r) = some op) :
    Longest .operator op (c :: r) := by
  have hmem : op ∈ operators := List.mem_of_find?_eq_some hop
  have hfront : op <+: c :: r := ⟨_, operator?_append hop⟩
  obtain ⟨t, rfl, ht⟩ := (List.prefix_cons_iff.mp hfront).resolve_left (operator?_ne_nil hop)
  refine longest_of_forms (.shape (.operator hmem)) ht ?_
  intro k u h hu
  have hu' := (h.operator_of_sign hu hsign hcomment).2
  exact Nat.le_of_succ_le_succ
    (length_le_operator hop hu' ((List.prefix_cons_inj c).mpr hu))

/-- What no branch before it takes begins with a sign, if with anything. -/
theorem eq_sign_of_opening? (hblank : ¬ isBlank c = true) (hword : ¬ isWordStart c = true)
    (hdigit : ¬ c.isDigit = true) (hquote : ¬ c = '"') (hdelimiter : ¬ isDelimiter c = true) :
    ∀ o, opening? c = some o → o = .sign := by
  intro o ho
  unfold opening? at ho
  rw [if_neg hblank, if_neg hword, if_neg hdigit, if_neg hquote, if_neg hdelimiter] at ho
  split at ho
  · exact (Option.some.inj ho).symm
  · cases ho

/-- **What is cut off is the longest lexeme.** -/
theorem longest_of_munch {cs text rest : List Char} (h : munch cs = some (k, text, rest)) :
    Longest k text cs := by
  cases cs with
  | nil => cases h
  | cons c r =>
    simp only [munch] at h
    split at h
    · next hc =>
      cases h
      exact longest_blanks hc r
    next hblank =>
    split at h
    · next hc =>
      cases h
      rw [hc.1]
      exact longest_comment hc.2
    next hcomment =>
    split at h
    · next hc =>
      cases h
      exact longest_word hc r
    next hword =>
    split at h
    · next hc =>
      cases h
      exact longest_number hc r
    next hdigit =>
    split at h
    · next hc =>
      rw [hc] at h ⊢
      split at h
      · next hrest =>
        cases h
        exact longest_string hrest
      · next hopen =>
        cases h
        refine longest_openString fun hhead => ?_
        obtain ⟨rest, hrest⟩ := List.head?_eq_some_iff.mp hhead
        exact hopen rest hrest
    next hquote =>
    split at h
    · next hc =>
      cases h
      exact longest_delimiter hc rest
    next hdelimiter =>
    obtain ⟨op, hop, heq⟩ := Option.map_eq_some_iff.mp h
    cases heq
    exact longest_operator (eq_sign_of_opening? hblank hword hdigit hquote hdelimiter) hcomment hop

/-- **Where nothing is cut off there is no lexeme.** -/
theorem not_prefix_of_munch {cs : List Char} (h : munch cs = none) (hs : s ∈ language k) :
    ¬ s <+: cs := by
  intro hfront
  have hs := mem_language_iff.mp hs
  cases cs with
  | nil => exact hs.ne_nil (List.prefix_nil.mp hfront)
  | cons c r =>
    obtain ⟨u, rfl, hu⟩ := (List.prefix_cons_iff.mp hfront).resolve_left hs.ne_nil
    simp only [munch] at h
    split at h
    · cases h
    next hblank =>
    split at h
    · cases h
    next hcomment =>
    split at h
    · cases h
    next hword =>
    split at h
    · cases h
    next hdigit =>
    split at h
    · split at h
      · cases h
      · cases h
    next hquote =>
    split at h
    · cases h
    next hdelimiter =>
    have hop := (hs.operator_of_sign hu
      (eq_sign_of_opening? hblank hword hdigit hquote hdelimiter) hcomment).2
    have hnone := List.find?_eq_none.mp (Option.map_eq_none_iff.mp h) _ hop
    exact hnone (List.isPrefixOf_iff_prefix.mpr hfront)

end Descent.Lexeme
