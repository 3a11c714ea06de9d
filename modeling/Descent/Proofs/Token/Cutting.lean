import Descent.Proofs.Lines
import Descent.Proofs.Token.Munch
import Descent.Proofs.Token.Writing

/-!
# Nothing is lost in a scan

The tokens of a text are its lexemes, less the gaps. From the front of the
text to its end each piece is the longest lexeme where it starts, and a
token tells which lexeme it is and at which offset it stands (`Token.Cut`).
A text that does not scan is cut in the same way up to the offset that the
failure names, and there it begins with no lexeme, or with a string whose
closing quote is missing (`Token.Stuck`). Both are said by
`Token.scan_cut`.

The places of tokens are in the order of the tokens, and the end of the
text comes behind them all (`Token.places_exact`).
-/

namespace Descent.Token

open Lexeme (Longest language munch)

/-! ## Lexemes and tokens -/

/-- **A text cut into longest lexemes**, from an offset with what is left
there to an offset with what is left there. Gaps leave nothing behind,
other lexemes a token of their kind. -/
inductive Cut (keywords : List String) :
    Nat → List Char → List Token → Nat → List Char → Prop
  | stop {offset : Nat} {cs : List Char} : Cut keywords offset cs [] offset cs
  | gap {offset finish : Nat} {text cs rest : List Char} {ts : List Token} :
      Longest .gap text (text ++ cs) →
      Cut keywords (offset + Text.bytes text) cs ts finish rest →
      Cut keywords offset (text ++ cs) ts finish rest
  | token {offset finish : Nat} {text cs rest : List Char} {ts : List Token}
      {k : Lexeme.Class} {t : Token} :
      Longest k text (text ++ cs) → kind? keywords text k = some t.kind →
      t.spelling = String.ofList text → t.position.offset = offset →
      Cut keywords (offset + Text.bytes text) cs ts finish rest →
      Cut keywords offset (text ++ cs) (t :: ts) finish rest

/-- **A text whose front cannot be cut off**, and why. -/
inductive Stuck : List Char → ScanError.Cause → Prop
  | unexpected {c : Char} {r : List Char} :
      (∀ (k : Lexeme.Class) (s : List Char), s ∈ language k → ¬ s <+: c :: r) →
      Stuck (c :: r) (.unexpected c)
  | unterminated {text rest : List Char} :
      Longest .openString text rest → Stuck rest .unterminated

/-! ## Where a scan is -/

/-- **A place in a text**: what comes before it, how many bytes that takes,
and what is left. -/
structure Reached (whole front : List Char) (offset : Nat) (rest : List Char) : Prop where
  whole_eq : whole = front ++ rest
  offset_eq : offset = Text.bytes front

section

variable {whole front cs text rest : List Char} {offset : Nat} {k : Lexeme.Class}

theorem Reached.start : Reached whole [] 0 whole := ⟨rfl, rfl⟩

/-- A lexeme leads from one place to another. -/
theorem Reached.of_munch (h : Reached whole front offset cs)
    (hmunch : munch cs = some (k, text, rest)) :
    Reached whole (front ++ text) (offset + Text.bytes text) rest where
  whole_eq := by rw [h.whole_eq, List.append_assoc, Lexeme.munch_append hmunch]
  offset_eq := by rw [h.offset_eq, Text.bytes_append]

theorem Reached.offset_place (h : Reached whole front offset cs) :
    ((Lines.ofText whole).place offset).offset = offset := by
  rw [h.whole_eq, h.offset_eq]
  exact Lines.offset_place front cs

theorem Reached.place_eq (h : Reached whole front offset cs)
    (hlength : whole.length + 1 < UInt32.size) :
    (Lines.ofText whole).place offset = .behind front := by
  rw [h.whole_eq, List.length_append] at hlength
  rw [h.whole_eq, h.offset_eq, Lines.place,
    Lines.position?_append_of_length front cs (by omega)]
  rfl

end

/-! ## The cut of a scan -/

section

variable {keywords : List String} {whole front cs text rest : List Char}
  {offset finish : Nat} {ts : List Token} {k : Lexeme.Class}

/-- **No token is a string without its closing quote.** -/
theorem Cut.not_mem_openString (h : Cut keywords offset cs ts finish rest) :
    ∀ t ∈ ts, t.spelling.toList ∉ language .openString := by
  induction h with
  | stop => exact fun t ht => nomatch ht
  | gap _ _ ih => exact ih
  | token hlongest hkind hspelling _ _ ih =>
    refine List.forall_mem_cons.mpr ⟨fun hmem => ?_, ih⟩
    rw [hspelling, String.toList_ofList] at hmem
    rw [← hlongest.only hmem] at hkind
    cases hkind

/-- One lexeme more, and with it the token that it gives. -/
theorem Cut.of_munch {ds : List Char} {p : Position} (hp : p.offset = offset)
    (hmunch : munch cs = some (k, text, rest)) (hopen : k ≠ .openString)
    (h : Cut keywords (offset + Text.bytes text) rest ts finish ds) :
    Cut keywords offset cs
      ((kind? keywords text k).toList.map (⟨·, String.ofList text, p⟩) ++ ts) finish ds := by
  have hlongest := Lexeme.longest_of_munch hmunch
  obtain rfl := Lexeme.munch_append hmunch
  cases hkind : kind? keywords text k with
  | none =>
    obtain rfl := eq_gap_of_kind? hkind hopen
    exact .gap hlongest h
  | some kind => exact .token hlongest hkind rfl hp h

/-- **The tokens of a text that scans are its lexemes.** -/
theorem cut_of_scanFrom_ok {c : Cursor} (hreached : Reached whole front offset cs)
    (h : scanFrom keywords (Lines.ofText whole).place offset cs = .ok c) :
    Cut keywords offset cs c.rest c.finish.offset [] := by
  fun_induction scanFrom keywords (Lines.ofText whole).place offset cs
    generalizing front c with
  | case1 offset =>
    cases h
    rw [hreached.offset_place]
    exact .stop
  | case2 => cases h
  | case3 => cases h
  | case4 => cases h
  | case5 offset cs k text rest hmunch hopen _ cursor hcursor hkind ih =>
    cases h
    have hcut := Cut.of_munch hreached.offset_place hmunch hopen
      (ih (hreached.of_munch hmunch) hcursor)
    rwa [hkind] at hcut
  | case6 offset cs k text rest hmunch hopen _ cursor hcursor kind hkind ih =>
    cases h
    have hcut := Cut.of_munch hreached.offset_place hmunch hopen
      (ih (hreached.of_munch hmunch) hcursor)
    rwa [hkind] at hcut

/-- **A text that does not scan is cut up to the failure.** -/
theorem cut_of_scanFrom_error {e : ScanError} (hreached : Reached whole front offset cs)
    (h : scanFrom keywords (Lines.ofText whole).place offset cs = .error e) :
    ∃ ts rest, Cut keywords offset cs ts e.position.offset rest ∧ Stuck rest e.cause := by
  fun_induction scanFrom keywords (Lines.ofText whole).place offset cs
    generalizing front e with
  | case1 => cases h
  | case2 offset c r hmunch =>
    cases h
    refine ⟨[], c :: r, ?_, .unexpected fun k s => Lexeme.not_prefix_of_munch hmunch⟩
    rw [hreached.offset_place]
    exact .stop
  | case3 offset cs text rest hmunch =>
    cases h
    refine ⟨[], cs, ?_, .unterminated (Lexeme.longest_of_munch hmunch)⟩
    rw [hreached.offset_place]
    exact .stop
  | case4 offset cs k text rest hmunch hopen _ e' he' ih =>
    cases h
    obtain ⟨ts, ds, hcut, hstuck⟩ := ih (hreached.of_munch hmunch) he'
    exact ⟨_, ds, .of_munch hreached.offset_place hmunch hopen hcut, hstuck⟩
  | case5 => cases h
  | case6 => cases h

end

/-- **A scan is lossless, and each token the longest lexeme at its offset.**
A text that scans is cut up to its end into the tokens and gaps between them.
A text that does not is cut up to the place of the failure, where
it begins with no lexeme, or with a string that lacks its closing quote. -/
theorem scan_cut (keywords : List String) (input : String) :
    (∀ c, scan keywords input = .ok c →
      Cut keywords 0 input.toList c.rest c.finish.offset []
        ∧ ∀ t ∈ c.rest, t.spelling.toList ∉ language .openString)
      ∧ ∀ e, scan keywords input = .error e →
        ∃ ts rest, Cut keywords 0 input.toList ts e.position.offset rest
          ∧ Stuck rest e.cause := by
  refine ⟨fun c h => ?_, fun e h => cut_of_scanFrom_error .start h⟩
  have hcut := cut_of_scanFrom_ok .start h
  exact ⟨hcut, hcut.not_mem_openString⟩

/-- A slash begins an operator or a comment, a point without digits behind it
is an operator of its own, and a quote behind a backslash closes no string. -/
theorem scan_cut_slashes :
    Cut ["let"] 0 "LET/=1.//\n\"\\\"\"".toList
        [⟨.reserved, "LET", ⟨0, 1, 1⟩⟩, ⟨.operator, "/=", ⟨3, 1, 4⟩⟩, ⟨.number, "1", ⟨5, 1, 6⟩⟩,
          ⟨.operator, ".", ⟨6, 1, 7⟩⟩, ⟨.string, "\"\\\"\"", ⟨10, 2, 1⟩⟩] 14 []
      ∧ ∃ ts rest, Cut [] 0 "a \"\\\"".toList ts 2 rest ∧ Stuck rest .unterminated := by
  refine ⟨?_, ?_⟩
  · exact ((scan_cut ["let"] "LET/=1.//\n\"\\\"\"").1 ⟨_, ⟨14, 2, 5⟩⟩ (by decide +kernel)).1
  · exact (scan_cut [] "a \"\\\"").2 ⟨⟨2, 1, 3⟩, .unterminated⟩ (by decide +kernel)

/-! ## The order of places -/

/-- The places of the tokens that are left, and then of the end. -/
def places (c : Cursor) : List Position := c.rest.map Token.position ++ [c.finish]

/-- **Places in order behind the front of a text**: none comes before the
front, and each comes before those that follow it. -/
structure InOrder (front : List Char) (ps : List Position) : Prop where
  from_front : ∀ p ∈ ps, p = .behind front ∨ (Position.behind front).Before p
  pairwise : ps.Pairwise Position.Before

section

variable {keywords : List String} {whole front text cs : List Char} {offset : Nat}
  {ps : List Position} {c : Cursor}

/-- Places in order behind a longer front come behind a shorter one. -/
theorem InOrder.before (h : InOrder (front ++ text) ps) (htext : text ≠ []) :
    ∀ p ∈ ps, (Position.behind front).Before p := by
  intro p hp
  have hfront := Position.before_behind_append front htext
  rcases h.from_front p hp with rfl | hp
  · exact hfront
  · exact hfront.trans hp

theorem InOrder.of_append (h : InOrder (front ++ text) ps) (htext : text ≠ []) :
    InOrder front ps :=
  ⟨fun p hp => .inr (h.before htext p hp), h.pairwise⟩

theorem InOrder.cons (h : InOrder (front ++ text) ps) (htext : text ≠ []) :
    InOrder front (.behind front :: ps) where
  from_front := List.forall_mem_cons.mpr ⟨.inl rfl, (h.of_append htext).from_front⟩
  pairwise := .cons (h.before htext) h.pairwise

/-- **The places that a scan gives are in order.** -/
theorem inOrder_of_scanFrom (hlength : whole.length + 1 < UInt32.size)
    (hreached : Reached whole front offset cs)
    (h : scanFrom keywords (Lines.ofText whole).place offset cs = .ok c) :
    InOrder front (places c) := by
  -- A gap only moves the front on; a token stands at it.
  fun_induction scanFrom keywords (Lines.ofText whole).place offset cs
    generalizing front c with
  | case1 offset =>
    cases h
    rw [places, hreached.place_eq hlength]
    exact ⟨fun p hp => .inl (List.mem_singleton.mp hp), List.pairwise_singleton _ _⟩
  | case2 => cases h
  | case3 => cases h
  | case4 => cases h
  | case5 offset cs k text rest hmunch hopen _ cursor hcursor hkind ih =>
    cases h
    exact (ih (hreached.of_munch hmunch) hcursor).of_append (Lexeme.munch_split hmunch).1
  | case6 offset cs k text rest hmunch hopen _ cursor hcursor kind hkind ih =>
    cases h
    rw [places, hreached.place_eq hlength]
    exact (ih (hreached.of_munch hmunch) hcursor).cons (Lexeme.munch_split hmunch).1

end

/-- **Places are exact.** At each offset between two characters the place is
found, with one line for each line feed before it and one column for each
character since the last of them. So the places of the tokens are in
order, offsets as well as lines and columns, and the end comes behind
them all. -/
theorem places_exact (input : String) (hlength : input.length ≤ 2 ^ 32 - 2) :
    (∀ front rest : String, input = front ++ rest →
      (Lines.ofText input.toList).position? front.utf8ByteSize
        = some ⟨front.utf8ByteSize, 1 + front.toList.count '\n',
            1 + (front.toList.rtakeWhile (· ≠ '\n')).length⟩)
      ∧ ∀ keywords c, scan keywords input = .ok c →
        (c.rest.map Token.position ++ [c.finish]).Pairwise Position.Before := by
  have hsize : input.toList.length + 1 < UInt32.size := by
    rw [String.length_toList]
    exact Nat.lt_of_le_of_lt (Nat.succ_le_succ hlength) (by decide)
  refine ⟨fun front rest h => ?_, fun keywords c h => ?_⟩
  · rw [h, String.toList_append, List.length_append] at hsize
    rw [← Text.bytes_toList, h, String.toList_append]
    exact Lines.position?_append_of_length front.toList rest.toList (by omega)
  · exact (inOrder_of_scanFrom hsize .start h).pairwise

/-- Behind a character of two bytes, an empty line and a blank. -/
theorem places_exact_third_line :
    (Lines.ofText "\"é\"\n\n x".toList).position? 7 = some ⟨7, 3, 2⟩
      ∧ [(⟨0, 1, 1⟩ : Position), ⟨7, 3, 2⟩, ⟨8, 3, 3⟩].Pairwise Position.Before := by
  obtain ⟨hplace, horder⟩ := places_exact "\"é\"\n\n x" (by decide)
  refine ⟨hplace "\"é\"\n\n " "x" (by decide), ?_⟩
  exact horder [] ⟨[⟨.string, "\"é\"", ⟨0, 1, 1⟩⟩, ⟨.identifier, "x", ⟨7, 3, 2⟩⟩], ⟨8, 3, 3⟩⟩
    (by decide +kernel)

end Descent.Token
