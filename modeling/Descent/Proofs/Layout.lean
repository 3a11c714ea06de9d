import Descent.Proofs.Source.Placeless
import Descent.Proofs.Token.Writing

/-!
# Layout does not matter

A text is laid out anew by keeping the spellings of its tokens, in their
order, and writing other gaps between them (`Token.Layout`). A gap begins
with a blank, and every comment in it ends with its line.

Scanning such a text finds the tokens again. A blank ends every lexeme that
is not a gap itself, so **each spelling is cut off whole, whatever comes
behind the blank** (`Token.scanFrom_layout`). The gaps are passed one blank
or comment at a time, and what is found behind them is not up to how they
are cut (`Token.scanFrom_blank`, `Token.scanFrom_comment`).

The tokens differ in their places then, and in nothing else. Since grammars
are read without places, the two texts write the same table, or they fail
in the same way (`RuleTable.ofSourceWith_layout`).
-/

namespace Descent

namespace Token

/-- **Texts that spell tokens in their order.** Blanks and comments may stand
anywhere between spellings, but right behind a spelling there is a blank,
or the end of the text. -/
inductive Layout : List String → List Char → Prop
  | stop : Layout [] []
  | blank {c : Char} {spellings : List String} {rest : List Char} :
      Lexeme.isBlank c = true → Layout spellings rest → Layout spellings (c :: rest)
  | comment {body : List Char} {spellings : List String} {rest : List Char} :
      body.all (· ≠ '\n') = true → Layout spellings rest →
      Layout spellings ('/' :: '/' :: (body ++ '\n' :: rest))
  | token {s : String} {spellings : List String} {rest : List Char} :
      rest.head?.all Lexeme.isBlank = true → Layout spellings rest →
      Layout (s :: spellings) (s.toList ++ rest)

/-! ## Gaps -/

section

variable (keywords : List String) (place : Nat → Position) (offset : Nat)

/-- **A gap is passed**, and what is behind it decides, also if it does not
scan. -/
theorem scanFrom_gap {cs text rest : List Char} (h : Lexeme.munch cs = some (.gap, text, rest)) :
    scanFrom keywords place offset cs
      = scanFrom keywords place (offset + Text.bytes text) rest := by
  rw [scanFrom]
  split
  · next hnone =>
    rw [hnone] at h
    cases h
  · next k text' rest' hsome =>
    rw [hsome] at h
    cases h
    rw [if_neg (by decide)]
    cases scanFrom keywords place (offset + Text.bytes text) rest with
    | error e => rfl
    | ok c => rfl

/-- **One blank is passed**, whether it is cut off alone or with the blanks
behind it. -/
theorem scanFrom_blank {c : Char} (hc : Lexeme.isBlank c = true) (rest : List Char) :
    scanFrom keywords place offset (c :: rest)
      = scanFrom keywords place (offset + Text.bytes [c]) rest := by
  have hcut : Lexeme.munch (c :: rest)
      = some (.gap, c :: rest.takeWhile Lexeme.isBlank, rest.dropWhile Lexeme.isBlank) :=
    if_pos hc
  rw [scanFrom_gap _ _ _ hcut]
  cases rest with
  | nil => rfl
  | cons d rest =>
    by_cases hd : Lexeme.isBlank d = true
    · have hcut' : Lexeme.munch (d :: rest)
          = some (.gap, d :: rest.takeWhile Lexeme.isBlank, rest.dropWhile Lexeme.isBlank) :=
        if_pos hd
      rw [scanFrom_gap _ _ _ hcut', List.takeWhile_cons_of_pos hd, List.dropWhile_cons_of_pos hd,
        Nat.add_assoc, ← Text.bytes_append]
      rfl
    · rw [List.takeWhile_cons_of_neg hd, List.dropWhile_cons_of_neg hd]

/-- **A comment is passed**, with the end of its line. -/
theorem scanFrom_comment {body : List Char} (hbody : body.all (· ≠ '\n') = true)
    (rest : List Char) :
    scanFrom keywords place offset ('/' :: '/' :: (body ++ '\n' :: rest))
      = scanFrom keywords place (offset + Text.bytes ('/' :: '/' :: body) + Text.bytes ['\n'])
          rest := by
  have hbody' : ('/' :: body).all (fun c => decide (c ≠ '\n')) = true := hbody
  have hline : ('\n' :: rest).head?.all (fun c => !decide (c ≠ '\n')) = true := rfl
  obtain ⟨htake, hdrop⟩ := Lexeme.takeWhile_append_of_stop hbody' hline
  have hcut : Lexeme.munch ('/' :: '/' :: (body ++ '\n' :: rest))
      = some (.gap, '/' :: '/' :: body, '\n' :: rest) := by
    rw [Lexeme.munch, if_neg (by decide), if_pos ⟨rfl, rfl⟩, ← List.cons_append, htake, hdrop]
  rw [scanFrom_gap _ _ _ hcut, scanFrom_blank _ _ _ (by decide)]

end

/-! ## Tokens -/

/-- A blank ends every lexeme but a gap. -/
theorem stops_of_blank {k : Lexeme.Class} (hk : k ≠ .gap) {c : Char}
    (hc : Lexeme.isBlank c = true) : Lexeme.stops k c = true := by
  simp only [Lexeme.isBlank, Bool.or_eq_true, decide_eq_true_eq] at hc
  cases k with
  | gap => exact absurd rfl hk
  | string | openString | delimiter => rfl
  | word => rcases hc with (((rfl | rfl) | rfl) | rfl) | rfl <;> decide
  | number => rcases hc with (((rfl | rfl) | rfl) | rfl) | rfl <;> decide
  | operator => rcases hc with (((rfl | rfl) | rfl) | rfl) | rfl <;> decide +kernel

/-- **Every layout of spelled tokens scans to these tokens**, with other
places. -/
theorem scanFrom_layout {keywords : List String} (place : Nat → Position) (offset : Nat)
    {ts : List Token} {cs : List Char} (h : Layout (ts.map Token.spelling) cs)
    (hts : ∀ t ∈ ts, t.Spelled keywords) :
    ∃ c, scanFrom keywords place offset cs = .ok c
      ∧ c.rest.map Token.unplaced = ts.map Token.unplaced := by
  generalize hss : ts.map Token.spelling = ss at h
  induction h generalizing ts offset with
  | stop =>
    obtain rfl := List.map_eq_nil_iff.mp hss
    exact ⟨⟨[], place offset⟩, scanFrom_nil, rfl⟩
  | blank hc _ ih =>
    rw [scanFrom_blank _ _ _ hc]
    exact ih _ hts hss
  | comment hbody _ ih =>
    rw [scanFrom_comment _ _ _ hbody]
    exact ih _ hts hss
  | @token s ss rest hrest _ ih =>
    obtain ⟨t, ts, rfl, rfl, hss'⟩ := List.map_eq_cons_iff.mp hss
    obtain ⟨⟨k, hshape, hkind⟩, hts⟩ := List.forall_mem_cons.mp hts
    have hgap : k ≠ .gap := by
      rintro rfl
      cases hkind
    have hopen : k ≠ .openString := by
      rintro rfl
      cases hkind
    have hstops : rest.head?.all (Lexeme.stops k) = true := by
      cases rest with
      | nil => rfl
      | cons c rest => exact stops_of_blank hgap hrest
    obtain ⟨c, hc, hsame⟩ := ih _ hts hss'
    refine ⟨_, scanFrom_of_munch (hshape.munch_eq hstops) hopen hc, ?_⟩
    rw [hkind, String.ofList_toList]
    exact congrArg (t.unplaced :: ·) hsame

/-- **A text laid out anew scans to the same tokens**, with other places. -/
theorem scan_layout {keywords : List String} {source text : String} {c : Cursor}
    (hsource : scan keywords source = .ok c)
    (htext : Layout (c.rest.map Token.spelling) text.toList) :
    ∃ d, scan keywords text = .ok d ∧ d.rest.map Token.unplaced = c.rest.map Token.unplaced :=
  scanFrom_layout _ 0 htext (spelled_of_scanFrom hsource)

end Token

/-! ## Grammars -/

namespace RuleTable

/-- Tokens that are the same without their places write the same table, or
fail in the same way. -/
theorem ofTokens_congr (operators : OperatorTable) {c d : Cursor}
    (h : c.rest.map Token.unplaced = d.rest.map Token.unplaced) :
    (ofTokens operators c).mapError SourceError.unplaced
      = (ofTokens operators d).mapError SourceError.unplaced := by
  have hcursor : c.unplaced = d.unplaced := by
    unfold Cursor.unplaced
    rw [h]
  rw [← ofTokens_unplaced, ← ofTokens_unplaced, hcursor]

/-- **Layout does not matter.** A text that spells the tokens of another in
their order scans as well, with the same keywords, to tokens of the same
kinds and spellings. The two write the same table, whatever the keywords
and the operators – for `ofSource` there are no keywords and the usual
operators – or they fail with errors that differ in their places only. -/
theorem ofSourceWith_layout {keywords : List String} {source text : String} {c : Cursor}
    (hsource : Token.scan keywords source = .ok c)
    (htext : Token.Layout (c.rest.map Token.spelling) text.toList) :
    (∃ d, Token.scan keywords text = .ok d
      ∧ d.rest.map (fun t => (t.kind, t.spelling)) = c.rest.map (fun t => (t.kind, t.spelling)))
    ∧ ∀ (keywords' : List String) (operators : OperatorTable),
      (ofSourceWith keywords' operators text).mapError SourceError.unplaced
        = (ofSourceWith keywords' operators source).mapError SourceError.unplaced := by
  constructor
  · obtain ⟨d, hd, hsame⟩ := Token.scan_layout hsource htext
    refine ⟨d, hd, ?_⟩
    have hpairs := congrArg (List.map fun t : Token => (t.kind, t.spelling)) hsame
    rw [List.map_map, List.map_map] at hpairs
    exact hpairs
  · intro keywords' operators
    -- The spellings do not depend on the keywords, so `text` is a layout with these as well.
    obtain ⟨c', hsource', hsame, -⟩ := Token.scanFrom_keywords keywords' hsource
    have hspellings := congrArg (List.map Prod.fst) hsame
    rw [List.map_map, List.map_map] at hspellings
    have htext' : Token.Layout (c'.rest.map Token.spelling) text.toList := by
      rw [show c'.rest.map Token.spelling = c.rest.map Token.spelling from hspellings]
      exact htext
    obtain ⟨d, hd, hsame⟩ := Token.scan_layout hsource' htext'
    have hsource' : Token.scan keywords' source = .ok c' := hsource'
    unfold ofSourceWith
    rw [hsource', hd]
    exact ofTokens_congr operators hsame

/-- A rule without a blank. -/
def dense : String := "r::=IF|/;"

/-- The same rule with gaps. In its comment there are two slashes more, and
behind it a blank that no token needs. -/
def airy : String := "r\t::= IF // / //\n | / ;\n"

/-- Both texts are refused at the slash, which stands in different places. The
word is a keyword in both. -/
theorem ofSourceWith_layout_airy :
    Token.Layout ["r", "::=", "IF", "|", "/", ";"] airy.toList
      ∧ (∃ d, Token.scan ["if"] airy = .ok d
        ∧ d.rest.map (fun t => (t.kind, t.spelling))
          = [(.identifier, "r"), (.operator, "::="), (.reserved, "IF"), (.operator, "|"),
            (.operator, "/"), (.delimiter, ";")])
      ∧ (ofSource airy).mapError SourceError.unplaced
        = (ofSource dense).mapError SourceError.unplaced := by
  have hscan : Token.scan ["if"] dense
      = .ok ⟨[⟨.identifier, "r", ⟨0, 1, 1⟩⟩, ⟨.operator, "::=", ⟨1, 1, 2⟩⟩,
          ⟨.reserved, "IF", ⟨4, 1, 5⟩⟩, ⟨.operator, "|", ⟨6, 1, 7⟩⟩, ⟨.operator, "/", ⟨7, 1, 8⟩⟩,
          ⟨.delimiter, ";", ⟨8, 1, 9⟩⟩], ⟨9, 1, 10⟩⟩ := by
    decide +kernel
  have htext : airy.toList = "r".toList ++ '\t' :: ("::=".toList ++ ' ' :: ("IF".toList ++ ' ' ::
      ('/' :: '/' :: (" / //".toList ++ '\n' :: ' ' :: ("|".toList ++ ' ' :: ("/".toList
        ++ ' ' :: (";".toList ++ ['\n']))))))) := by
    decide +kernel
  have hlayout : Token.Layout ["r", "::=", "IF", "|", "/", ";"] airy.toList := by
    rw [htext]
    refine .token rfl (.blank rfl (.token rfl (.blank rfl (.token rfl (.blank rfl ?_)))))
    refine .comment rfl (.blank rfl ?_)
    exact .token rfl (.blank rfl (.token rfl (.blank rfl (.token rfl (.blank rfl .stop)))))
  obtain ⟨hkinds, htables⟩ := ofSourceWith_layout hscan hlayout
  exact ⟨hlayout, hkinds, htables [] .standard⟩

end RuleTable

end Descent
