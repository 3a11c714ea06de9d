import Descent.Grammar.Node
import Descent.Proofs.Lines
import Descent.Proofs.Token.Writing

/-!
# Quoted text is read back

Writing escapes every hidden character, and reading knows the escapes of
five characters only. What is written is **one string lexeme in any case**
(`Text.shape_quote`), so nothing that stands behind it is misread. But
only text made of these five characters and of characters that are written
as they are – **legible** text – comes back: reading undoes writing
exactly on it (`Text.unquote_quote_iff`).

Every text is the content of some string, hidden characters and all,
because a string may have them in it as they are. So a grammar can have
literals that are lost when it is shown (`Node.literal_lost`).
-/

namespace Descent.Text

/-! ## What is written is one string -/

/-- The digits of a number are digits. -/
theorem mem_hex {n : Nat} {d : Char} (h : d ∈ hex n) : ∃ k < 16, d = Nat.digitChar k := by
  unfold hex at h
  induction n using Nat.base_induction 16 (by decide) with
  | single m hm =>
    rw [Nat.toDigits_of_lt_base hm] at h
    exact ⟨m, hm, List.mem_singleton.mp h⟩
  | digit m k hk hm ih =>
    rw [← Nat.toDigits_append_toDigits (by decide) hm hk, Nat.toDigits_of_lt_base hk] at h
    rcases List.mem_append.mp h with h | h
    · exact ih h
    · exact ⟨k, hk, List.mem_singleton.mp h⟩

/-- Digits neither end a string nor begin an escape. -/
theorem inside_hex_append (n : Nat) {r : List Char} (hr : Lexeme.Inside r) :
    Lexeme.Inside (hex n ++ r) := by
  have hplain : ∀ k < 16, Nat.digitChar k ≠ '"' ∧ Nat.digitChar k ≠ '\\'
      ∧ Nat.digitChar k ≠ '\n' := by decide
  have hall : ∀ d ∈ hex n, d ≠ '"' ∧ d ≠ '\\' ∧ d ≠ '\n' := by
    intro d hd
    obtain ⟨k, hk, rfl⟩ := mem_hex hd
    exact hplain k hk
  generalize hex n = ds at hall
  induction ds with
  | nil => exact hr
  | cons d ds ih =>
    obtain ⟨⟨hq, hb, hn⟩, hds⟩ := List.forall_mem_cons.mp hall
    exact .plain hq hb hn (ih hds)

/-- **A character is escaped so that the string goes on**, whatever it is. -/
theorem inside_escape_append (c : Char) {r : List Char} (hr : Lexeme.Inside r) :
    Lexeme.Inside (escape c ++ r) := by
  unfold escape
  split
  · exact .escaped (by decide) hr
  next hq =>
  split
  · exact .escaped (by decide) hr
  next hb =>
  split
  · exact .escaped (by decide) hr
  next hn =>
  split
  · exact .escaped (by decide) hr
  split
  · exact .escaped (by decide) hr
  split
  · exact .escaped (by decide) hr
  split
  · -- The number is followed by its closing brace, and only then by the rest.
    refine .escaped (by decide) (.plain (by decide) (by decide) (by decide) ?_)
    show Lexeme.Inside (hex c.toNat ++ ['\x7d'] ++ r)
    rw [List.append_assoc]
    exact inside_hex_append _ (.plain (by decide) (by decide) (by decide) hr)
  · exact .plain hq hb hn hr

theorem inside_flatMap_escape (cs : List Char) : Lexeme.Inside (cs.flatMap escape) := by
  induction cs with
  | nil => exact .nil
  | cons c r ih => exact inside_escape_append c ih

/-- **Quoted text is a string lexeme.** -/
theorem shape_quote (s : String) : Lexeme.Shape .string (quote s).toList := by
  rw [quote, String.toList_ofList]
  exact .string (inside_flatMap_escape s.toList)

/-! ## What is written can be read -/

/-- **Whether reading knows how a character is written**: as it is, or as
one of the five escapes. -/
def isLegible (c : Char) : Bool :=
  escape c == [c] || ['"', '\\', '\n', '\r', '\t'].contains c

/-- A legible character is written as it is, if that can be told apart from
an escape, or by a letter behind a backslash. -/
theorem escape_of_isLegible {c : Char} (h : isLegible c = true) :
    (escape c = [c] ∧ c ≠ '\\') ∨ ∃ d, escape c = ['\\', d] ∧ escaped d = c := by
  rcases (Bool.or_eq_true _ _).mp h with hself | hmem
  · have hself := beq_iff_eq.mp hself
    refine .inl ⟨hself, ?_⟩
    rintro rfl
    cases hself
  · simp only [List.contains_cons, List.contains_nil, Bool.or_eq_true, beq_iff_eq,
      Bool.false_eq_true, or_false] at hmem
    rcases hmem with rfl | rfl | rfl | rfl | rfl
    · exact .inr ⟨'"', rfl, rfl⟩
    · exact .inr ⟨'\\', rfl, rfl⟩
    · exact .inr ⟨'n', rfl, rfl⟩
    · exact .inr ⟨'r', rfl, rfl⟩
    · exact .inr ⟨'t', rfl, rfl⟩

/-- Reading undoes the escape of a legible character. -/
theorem unescape_escape_append {c : Char} (h : isLegible c = true) (r : List Char) :
    unescape (escape c ++ r) = c :: unescape r := by
  rcases escape_of_isLegible h with ⟨hc, hb⟩ | ⟨d, hc, rfl⟩
  · rw [hc]
    exact unescape_plain hb r
  · rw [hc]
    exact unescape_backslash d r

/-- Any other character is written by its number or by the letter of the
null character, and reading takes the letter for itself. -/
theorem escape_of_not_isLegible {c : Char} (h : isLegible c = false) :
    ∃ d r, escape c = '\\' :: d :: r ∧ escaped d ≠ c := by
  obtain ⟨hself, hmem⟩ := Bool.or_eq_false_iff.mp h
  have hself := beq_eq_false_iff_ne.mp hself
  simp only [List.contains_cons, List.contains_nil, Bool.or_eq_false_iff, beq_eq_false_iff_ne,
    ne_eq, and_true] at hmem
  obtain ⟨hq, hb, hn, hr, ht⟩ := hmem
  by_cases hz : c = '\x00'
  · subst hz
    exact ⟨'0', [], rfl, by decide⟩
  by_cases hhidden : isHidden c = true
  · refine ⟨'u', '\x7b' :: (hex c.toNat ++ ['\x7d']), ?_, ?_⟩
    · unfold escape
      rw [if_neg hq, if_neg hb, if_neg hn, if_neg hr, if_neg ht, if_neg hz, if_pos hhidden]
    · rintro rfl
      cases hhidden
  · refine absurd ?_ hself
    unfold escape
    rw [if_neg hq, if_neg hb, if_neg hn, if_neg hr, if_neg ht, if_neg hz, if_neg hhidden]

/-- **The first character that is not legible makes a difference.** -/
theorem unescape_flatMap_escape_iff {cs : List Char} :
    unescape (cs.flatMap escape) = cs ↔ ∀ c ∈ cs, isLegible c = true := by
  induction cs with
  | nil => exact ⟨fun _ => nofun, fun _ => rfl⟩
  | cons c r ih =>
    rw [List.flatMap_cons, List.forall_mem_cons]
    cases hc : isLegible c with
    | true => rw [unescape_escape_append hc, List.cons_inj_right, ih, eq_self, true_and]
    | false =>
      obtain ⟨d, tail, hescape, hne⟩ := escape_of_not_isLegible hc
      rw [hescape, List.cons_append, List.cons_append, unescape_backslash]
      exact ⟨fun h => absurd (List.cons.inj h).1 hne, fun h => nomatch h.1⟩

/-- **Reading undoes writing exactly on legible text.** -/
theorem unquote_quote_iff {s : String} :
    unquote (quote s) = s ↔ ∀ c ∈ s.toList, isLegible c = true := by
  rw [unquote, quote, String.toList_ofList, inner?_quoted, Option.getD_some,
    ← unescape_flatMap_escape_iff, ← String.toList_inj, String.toList_ofList]

theorem unquote_quote {s : String} (h : ∀ c ∈ s.toList, isLegible c = true) :
    unquote (quote s) = s :=
  unquote_quote_iff.mpr h

/-! ## What a string can contain -/

/-- Every run of characters can be read inside a string. Three of them have
to be escaped, all others may stand as they are. -/
theorem exists_inside_unescape (cs : List Char) :
    ∃ b, Lexeme.Inside b ∧ unescape b = cs := by
  induction cs with
  | nil => exact ⟨[], .nil, rfl⟩
  | cons c r ih =>
    obtain ⟨b, hinside, rfl⟩ := ih
    by_cases hn : c = '\n'
    · subst hn
      exact ⟨'\\' :: 'n' :: b, .escaped (by decide) hinside, unescape_backslash 'n' b⟩
    by_cases hq : c = '"'
    · subst hq
      exact ⟨'\\' :: '"' :: b, .escaped (by decide) hinside, unescape_backslash '"' b⟩
    by_cases hb : c = '\\'
    · subst hb
      exact ⟨'\\' :: '\\' :: b, .escaped (by decide) hinside, unescape_backslash '\\' b⟩
    exact ⟨c :: b, .plain hq hb hn hinside, unescape_plain hb b⟩

/-- **Every text is the content of a string.** -/
theorem exists_shape_unquote (s : String) :
    ∃ spelling : String, Lexeme.Shape .string spelling.toList ∧ unquote spelling = s := by
  obtain ⟨b, hinside, hb⟩ := exists_inside_unescape s.toList
  refine ⟨String.ofList ('"' :: (b ++ ['"'])), ?_, ?_⟩
  · rw [String.toList_ofList]
    exact .string hinside
  · rw [unquote, String.toList_ofList, inner?_quoted, Option.getD_some, hb, String.ofList_toList]

end Descent.Text

namespace Descent

/-- A string by itself scans to itself, at the start of the text. -/
theorem Token.scan_string {s : String} (h : Lexeme.Shape .string s.toList)
    (keywords : List String) :
    ∃ finish, scan keywords s = .ok ⟨[⟨.string, s, .start⟩], finish⟩ := by
  have hmunch : Lexeme.munch (s.toList ++ []) = some (.string, s.toList, []) := h.munch_eq rfl
  rw [List.append_nil] at hmunch
  refine ⟨(Lines.ofText s.toList).place (0 + Text.bytes s.toList), ?_⟩
  unfold scan
  rw [scanFrom_of_munch hmunch (by decide) scanFrom_nil, String.ofList_toList,
    Lines.place_zero]
  rfl

/-- **How far a literal survives being shown.** Every text is the content
of some string, and so it can be a literal of a grammar. The literal is
shown as one string and nothing else, with any keywords. What that string
contains is the literal again exactly if all its characters are legible. -/
theorem Node.literal_read_back (keywords : List String) (s : String) :
    (∃ spelling finish, Token.scan keywords spelling = .ok ⟨[⟨.string, spelling, .start⟩], finish⟩
      ∧ Text.unquote spelling = s)
    ∧ (∃ finish, Token.scan keywords (Node.literal s).render
      = .ok ⟨[⟨.string, (Node.literal s).render, .start⟩], finish⟩)
    ∧ (Text.unquote (Node.literal s).render = s ↔ ∀ c ∈ s.toList, Text.isLegible c = true) := by
  refine ⟨?_, Token.scan_string (Text.shape_quote s) keywords, Text.unquote_quote_iff⟩
  obtain ⟨spelling, hshape, hs⟩ := Text.exists_shape_unquote s
  obtain ⟨finish, hscan⟩ := Token.scan_string hshape keywords
  exact ⟨spelling, finish, hscan, hs⟩

/-- **Hidden characters are lost.** A string with an escape character in it,
a null character or an accent of its own scans, but what is shown of its
content is read as digits and letters. -/
theorem Node.literal_lost :
    (Token.scan [] "\"\x1b\"" = .ok ⟨[⟨.string, "\"\x1b\"", .start⟩], ⟨3, 1, 4⟩⟩
      ∧ Text.unquote "\"\x1b\"" = "\x1b"
      ∧ (Node.literal "\x1b").render = "\"\\u\x7b1b\x7d\""
      ∧ Text.unquote (Node.literal "\x1b").render = "u\x7b1b\x7d")
    ∧ (Token.scan [] "\"\x00\"" = .ok ⟨[⟨.string, "\"\x00\"", .start⟩], ⟨3, 1, 4⟩⟩
      ∧ Text.unquote "\"\x00\"" = "\x00"
      ∧ (Node.literal "\x00").render = "\"\\0\""
      ∧ Text.unquote (Node.literal "\x00").render = "0")
    ∧ (Token.scan [] "\"e\u0301\"" = .ok ⟨[⟨.string, "\"e\u0301\"", .start⟩], ⟨5, 1, 5⟩⟩
      ∧ Text.unquote "\"e\u0301\"" = "e\u0301"
      ∧ (Node.literal "e\u0301").render = "\"e\\u\x7b301\x7d\""
      ∧ Text.unquote (Node.literal "e\u0301").render = "eu\x7b301\x7d") := by
  decide +kernel

end Descent
