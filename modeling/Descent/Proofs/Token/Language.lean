import Descent.Proofs.Token.Shape
import Mathlib.Computability.Language

/-!
# The languages of lexemes

What a lexeme may look like is laid down by a regular expression for each
class. Here the expressions are written out as languages, with nothing
taken over from the definitions that cut lexemes off a text: characters
are given by ranges or one by one, operators by their spellings.

**A text belongs to the language of a class exactly if it has one of the
forms of the class** (`mem_language_iff`): a shape, or a comment, or a
string without its closing quote. The forms are what the longest lexeme is
found by.
-/

namespace Descent.Lexeme

open Computability

/-! ## Regular expressions -/

/-- Whether a character is in one of some ranges. -/
def within (ranges : List (Char × Char)) (c : Char) : Bool :=
  ranges.any fun range => range.1 ≤ c && c ≤ range.2

/-- The texts of one character that passes a test. -/
def one (test : Char → Bool) : Language Char := {s | ∃ c, test c = true ∧ s = [c]}

/-- Some texts, written out. -/
def texts (ts : List String) : Language Char := {s | ∃ t ∈ ts, t.toList = s}

/-- One character or more of the same sort. -/
def run (test : Char → Bool) : Language Char := one test * (one test)∗

/-- The inside of a string: any character but a quote, a backslash and a line
feed, or a backslash and any character but a line feed. -/
def inside : Language Char :=
  (one (fun c => c ∉ ['"', '\\', '\n']) + texts ["\\"] * one (· ≠ '\n'))∗

/-- The operators of several signs. -/
def marks : List String :=
  ["::=", "::", "<<=", ">>=", "**", "++", "--", "->", "=>", "==", "!=", "<=", ">=", "&&", "||",
    "<<", ">>", "+=", "-=", "*=", "/=", "%=", "&=", "|=", "^="]

/-- The signs that are operators by themselves. -/
def signs : List Char := "-+*/%=<>!&|^~?:.@#$".toList

/-- **The texts that are lexemes of a class.** -/
def language : Class → Language Char
  | .gap => run ([' ', '\t', '\r', '\n', '\x0c'].contains ·) + texts ["//"] * (one (· ≠ '\n'))∗
  | .word =>
    one (within [('A', 'Z'), ('a', 'z'), ('_', '_')])
      * (one (within [('A', 'Z'), ('a', 'z'), ('0', '9'), ('_', '_')]))∗
  | .number =>
    run (within [('0', '9')]) * (1 + texts ["."] * run (within [('0', '9')]))
  | .string => texts ["\""] * inside * texts ["\""]
  | .openString => texts ["\""] * inside
  | .operator => texts marks + one (signs.contains ·)
  | .delimiter => one (['(', ')', '[', ']', '\x7b', '\x7d', ',', ';'].contains ·)

variable {test : Char → Bool} {s : List Char}

theorem mem_one : s ∈ one test ↔ ∃ c, test c = true ∧ s = [c] := Iff.rfl

theorem mem_texts {ts : List String} : s ∈ texts ts ↔ ∃ t ∈ ts, t.toList = s := Iff.rfl

theorem mem_text {t : String} : s ∈ texts [t] ↔ s = t.toList := by
  rw [mem_texts]
  simp [eq_comm]

/-- **A run of characters of the same sort.** -/
theorem mem_many : s ∈ (one test)∗ ↔ s.all test = true := by
  rw [Language.mem_kstar]
  constructor
  · rintro ⟨pieces, rfl, h⟩
    rw [List.all_flatten, List.all_eq_true]
    intro piece hpiece
    obtain ⟨c, hc, rfl⟩ := h piece hpiece
    simpa using hc
  · intro h
    refine ⟨s.map ([·]), (List.flatMap_singleton' s).symm, List.forall_mem_map.mpr fun c hc => ?_⟩
    exact ⟨c, List.all_eq_true.mp h c hc, rfl⟩

theorem mem_one_mul_many {more : Char → Bool} :
    s ∈ one test * (one more)∗ ↔ ∃ c r, s = c :: r ∧ test c = true ∧ r.all more = true := by
  rw [Language.mem_mul]
  constructor
  · rintro ⟨_, ⟨c, hc, rfl⟩, r, hr, rfl⟩
    exact ⟨c, r, rfl, hc, mem_many.mp hr⟩
  · rintro ⟨c, r, rfl, hc, hr⟩
    exact ⟨[c], ⟨c, hc, rfl⟩, r, mem_many.mpr hr, rfl⟩

theorem mem_run : s ∈ run test ↔ ∃ c r, s = c :: r ∧ test c = true ∧ r.all test = true :=
  mem_one_mul_many

theorem mem_text_mul {t : String} {l : Language Char} :
    s ∈ texts [t] * l ↔ ∃ r ∈ l, s = t.toList ++ r := by
  rw [Language.mem_mul]
  constructor
  · rintro ⟨_, ht, r, hr, rfl⟩
    exact ⟨r, hr, congrArg (· ++ r) (mem_text.mp ht)⟩
  · rintro ⟨r, hr, rfl⟩
    exact ⟨_, mem_text.mpr rfl, r, hr, rfl⟩

/-! ## Sorts of characters -/

theorem eq_iff_le_and_le {c d : Char} : c = d ↔ d ≤ c ∧ c ≤ d :=
  ⟨fun h => h ▸ ⟨Char.le_refl c, Char.le_refl c⟩, fun h => Char.le_antisymm h.2 h.1⟩

theorem within_digit : within [('0', '9')] = Char.isDigit := by
  funext c
  simp [within, Char.isDigit, Char.le_def]

theorem isAlpha_eq (c : Char) : c.isAlpha = within [('A', 'Z'), ('a', 'z')] c := by
  show (decide ('A'.val ≤ c.val ∧ c.val ≤ 'Z'.val)
    || (decide ('a'.val ≤ c.val) && decide (c.val ≤ 'z'.val))) = _
  simp [within, Char.le_def]

theorem within_wordStart :
    within [('A', 'Z'), ('a', 'z'), ('_', '_')] = isWordStart := by
  funext c
  simp [within, isWordStart, isAlpha_eq, eq_iff_le_and_le, Bool.or_assoc]

theorem within_wordPart :
    within [('A', 'Z'), ('a', 'z'), ('0', '9'), ('_', '_')] = isWordPart := by
  funext c
  simp [within, isWordPart, Char.isAlphanum, isAlpha_eq, ← within_digit, eq_iff_le_and_le,
    Bool.or_assoc]

theorem contains_blank : ([' ', '\t', '\r', '\n', '\x0c'].contains ·) = isBlank := by
  funext c
  simp [isBlank, Bool.or_assoc]

/-! ## Forms -/

/-- **The forms of the lexemes of a class.** -/
inductive Form : Class → List Char → Prop
  | shape {k : Class} {s : List Char} : Shape k s → Form k s
  | comment {r : List Char} : r.all (· ≠ '\n') = true → Form .gap ('/' :: '/' :: r)
  | opened {b : List Char} : Inside b → Form .openString ('"' :: b)

theorem mem_inside : s ∈ inside ↔ Inside s := by
  unfold inside
  rw [Language.mem_kstar]
  constructor
  · rintro ⟨pieces, rfl, h⟩
    induction pieces with
    | nil => exact .nil
    | cons piece pieces ih =>
      obtain ⟨hpiece, hpieces⟩ := List.forall_mem_cons.mp h
      rw [List.flatten_cons]
      rcases (Language.mem_add _ _ _).mp hpiece with ⟨c, hc, rfl⟩ | hescaped
      · simp only [List.mem_cons, List.not_mem_nil, or_false, not_or, decide_eq_true_eq] at hc
        exact .plain hc.1 hc.2.1 hc.2.2 (ih hpieces)
      · obtain ⟨_, ⟨d, hd, rfl⟩, rfl⟩ := mem_text_mul.mp hescaped
        exact .escaped (of_decide_eq_true hd) (ih hpieces)
  · intro h
    induction h with
    | nil => exact ⟨[], rfl, nofun⟩
    | @plain c r hquote hslash hline _ ih =>
      obtain ⟨pieces, rfl, h⟩ := ih
      refine ⟨[c] :: pieces, rfl, List.forall_mem_cons.mpr ⟨.inl ⟨c, ?_, rfl⟩, h⟩⟩
      simp [hquote, hslash, hline]
    | @escaped d r hline _ ih =>
      obtain ⟨pieces, rfl, h⟩ := ih
      refine ⟨['\\', d] :: pieces, rfl, List.forall_mem_cons.mpr ⟨.inr ?_, h⟩⟩
      exact mem_text_mul.mpr ⟨[d], ⟨d, decide_eq_true hline, rfl⟩, rfl⟩

theorem mem_gap : s ∈ language .gap ↔ Form .gap s := by
  show s ∈ run _ + _ ↔ _
  rw [Language.mem_add, contains_blank, mem_run, mem_text_mul]
  constructor
  · rintro (⟨c, r, rfl, hc, hr⟩ | ⟨r, hr, rfl⟩)
    · exact .shape (.blanks hc hr)
    · exact .comment (mem_many.mp hr)
  · intro h
    cases h with
    | shape h =>
      cases h with
      | blanks hc hr => exact .inl ⟨_, _, rfl, hc, hr⟩
    | comment hr => exact .inr ⟨_, mem_many.mpr hr, rfl⟩

theorem mem_word : s ∈ language .word ↔ Form .word s := by
  show s ∈ one _ * (one _)∗ ↔ _
  rw [within_wordStart, within_wordPart, mem_one_mul_many]
  constructor
  · rintro ⟨c, r, rfl, hc, hr⟩
    exact .shape (.word hc hr)
  · intro h
    cases h with
    | shape h =>
      cases h with
      | word hc hr => exact ⟨_, _, rfl, hc, hr⟩

theorem mem_number : s ∈ language .number ↔ Form .number s := by
  show s ∈ run _ * (1 + texts ["."] * run _) ↔ _
  rw [within_digit, Language.mem_mul]
  constructor
  · rintro ⟨_, hwhole, t, ht, rfl⟩
    obtain ⟨c, r, rfl, hc, hr⟩ := mem_run.mp hwhole
    rcases (Language.mem_add _ _ _).mp ht with hnone | hfraction
    · rw [(Language.mem_one t).mp hnone, List.append_nil]
      exact .shape (.integer hc hr)
    · obtain ⟨_, hpart, rfl⟩ := mem_text_mul.mp hfraction
      obtain ⟨d, q, rfl, hd, hq⟩ := mem_run.mp hpart
      exact .shape (.decimal hc hr hd hq)
  · intro h
    cases h with
    | shape h =>
      cases h with
      | @integer c r hc hr =>
        refine ⟨c :: r, mem_run.mpr ⟨c, r, rfl, hc, hr⟩, [], ?_, List.append_nil _⟩
        exact (Language.mem_add _ _ _).mpr (.inl ((Language.mem_one _).mpr rfl))
      | @decimal c d r q hc hr hd hq =>
        refine ⟨c :: r, mem_run.mpr ⟨c, r, rfl, hc, hr⟩, '.' :: d :: q, ?_, rfl⟩
        refine (Language.mem_add _ _ _).mpr (.inr (mem_text_mul.mpr ⟨d :: q, ?_, rfl⟩))
        exact mem_run.mpr ⟨d, q, rfl, hd, hq⟩

theorem mem_string : s ∈ language .string ↔ Form .string s := by
  show s ∈ texts ["\""] * inside * texts ["\""] ↔ _
  rw [mul_assoc, mem_text_mul]
  constructor
  · rintro ⟨_, h, rfl⟩
    obtain ⟨b, hb, q, hq, rfl⟩ := Language.mem_mul.mp h
    rw [mem_text.mp hq]
    exact .shape (.string (mem_inside.mp hb))
  · intro h
    cases h with
    | shape h =>
      cases h with
      | @string b hb =>
        refine ⟨b ++ ['"'], Language.mem_mul.mpr ⟨b, mem_inside.mpr hb, ['"'], ?_, rfl⟩, rfl⟩
        exact mem_text.mpr rfl

theorem mem_openString : s ∈ language .openString ↔ Form .openString s := by
  show s ∈ texts ["\""] * inside ↔ _
  rw [mem_text_mul]
  constructor
  · rintro ⟨b, hb, rfl⟩
    exact .opened (mem_inside.mp hb)
  · intro h
    cases h with
    | shape h => cases h
    | @opened b hb => exact ⟨b, mem_inside.mpr hb, rfl⟩

theorem mem_operator : s ∈ language .operator ↔ Form .operator s := by
  have hmarks : ∀ t ∈ marks, t.toList ∈ operators := by decide +kernel
  have hsigns : ∀ op ∈ signs.map ([·]), op ∈ operators := by decide +kernel
  have hall : ∀ op ∈ operators, op ∈ marks.map String.toList ∨ op ∈ signs.map ([·]) := by
    decide +kernel
  show s ∈ texts _ + one _ ↔ _
  rw [Language.mem_add, mem_texts, mem_one]
  constructor
  · rintro (⟨t, ht, rfl⟩ | ⟨c, hc, rfl⟩)
    · exact .shape (.operator (hmarks t ht))
    · exact .shape (.operator (hsigns [c] (List.mem_map_of_mem (List.contains_iff_mem.mp hc))))
  · intro h
    cases h with
    | shape h =>
      cases h with
      | operator h =>
        refine (hall s h).imp List.mem_map.mp fun hsign => ?_
        obtain ⟨c, hc, rfl⟩ := List.mem_map.mp hsign
        exact ⟨c, List.contains_iff_mem.mpr hc, rfl⟩

theorem mem_delimiter : s ∈ language .delimiter ↔ Form .delimiter s := by
  show s ∈ one _ ↔ _
  rw [mem_one]
  constructor
  · rintro ⟨c, hc, rfl⟩
    exact .shape (.delimiter hc)
  · intro h
    cases h with
    | shape h =>
      cases h with
      | @delimiter c hc => exact ⟨c, hc, rfl⟩

/-- **The lexemes of a class are the texts of its forms.** -/
theorem mem_language_iff {k : Class} : s ∈ language k ↔ Form k s := by
  cases k with
  | gap => exact mem_gap
  | word => exact mem_word
  | number => exact mem_number
  | string => exact mem_string
  | openString => exact mem_openString
  | operator => exact mem_operator
  | delimiter => exact mem_delimiter

end Descent.Lexeme
