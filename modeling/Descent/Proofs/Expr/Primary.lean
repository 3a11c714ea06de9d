import Descent.Proofs.Expr.Reading

/-!
# Operands in the usual notation

Some runs of tokens are read as the same tree wherever they stand: a token
by itself, and anything in parentheses. The operators around them take
hold of them as a whole. `Expr.Primary` is about such runs, for the usual
operators.

Applications in delimiters, such as `f(x)` or `a[i]`, are almost operands.
They hold together against every operator that does not want a right
operand that holds tighter than delimiters do; of the usual ones only the
point does.

A group in parentheses may also turn out to be a cast, by what is in it and
by the token behind it. With more than one token in it, few tokens can do
that (`Expr.Quiet`).
-/

namespace Descent.Expr

open OperatorTable (standard)

/-- **Whether the outermost operator is a pair of delimiters** behind its
first operand. -/
def isEnclosing : Expr → Bool
  | .binary op _ _ | .vacant op _ =>
    match op.fixity with
    | .bracket _ | .paramList _ => true
    | _ => false
  | _ => false

/-! ## The usual operators -/

/-- **How tightly the usual operators hold.** Delimiters hold their left
operand tightest, and no operator but the point needs a right operand that
holds tighter than they do. -/
theorem standard_leds : ∀ op ∈ standard.leds,
    ((op.fixity = .bracket "]" ∨ op.fixity = .paramList ")") ∧ op.power = 16)
      ∨ op.fixity = .postfixed
      ∨ (op.fixity = .infixLeft ∧ (op.spelling = "." ∨ nextPower op.power ≤ 16))
      ∨ (op.fixity = .infixRight ∧ op.power ≤ 16) := by
  decide +kernel

/-- The usual prefix operators hold looser than delimiters. -/
theorem standard_nuds : ∀ op ∈ standard.nuds,
    op.spelling ∈ ["-", "+", "!", "~"] ∧ op.power ≤ 16 := by
  decide +kernel

section

variable {op : Operator} {t : Token} {s : String}

theorem operatorSpelling?_of_isPunct (h : t.isPunct s = true) :
    operatorSpelling? t = some s := by
  obtain ⟨hk, hs⟩ := (Bool.and_eq_true _ _).mp h
  unfold operatorSpelling?
  cases hkind : t.kind with
  | operator => exact congrArg some (beq_iff_eq.mp hs)
  | delimiter => exact congrArg some (beq_iff_eq.mp hs)
  | _ =>
    rw [hkind] at hk
    cases hk

theorem not_isOperand_of_isPunct (h : t.isPunct s = true) : t.kind.isOperand = false := by
  obtain ⟨hk, -⟩ := (Bool.and_eq_true _ _).mp h
  cases hkind : t.kind with
  | operator => rfl
  | delimiter => rfl
  | _ =>
    rw [hkind] at hk
    cases hk

/-- **A token that nothing in parentheses casts**, as long as there is more
than one token in them. -/
def Quiet (next : Option Token) : Prop := isCast standard none next = false

/-- Among signs only the prefix operators that are nothing else are
cast. -/
theorem quiet_of_isPunct (h : t.isPunct s = true) (hs : s ≠ "!" ∧ s ≠ "~") :
    Quiet (some t) := by
  unfold Quiet isCast
  dsimp only
  rw [not_isOperand_of_isPunct h, operatorSpelling?_of_isPunct h]
  dsimp only
  rw [Bool.false_and, if_neg Bool.false_ne_true]
  split
  · rfl
  · next hsign =>
    refine Bool.eq_false_iff.mpr (fun hsome => ?_)
    obtain ⟨op, hop⟩ := Option.isSome_iff_exists.mp hsome
    have hmem := (standard_nuds op (List.mem_of_find?_eq_some hop)).1
    rw [(OperatorTable.nud?_spelling hop).1] at hmem
    simp only [List.mem_cons, List.not_mem_nil, or_false] at hmem
    grind

/-- A sign that the table has behind an operand is applied, if it holds
tightly enough. -/
theorem continuation_of_led {table : OperatorTable} {min : UInt32}
    (h : t.isPunct op.spelling = true) (hop : table.led? op.spelling = some op)
    (hmin : min ≤ op.power) : continuation table min (some t) = .apply op := by
  have hled : (operatorSpelling? t).bind table.led? = some op := by
    rw [operatorSpelling?_of_isPunct h]
    exact hop
  rw [continuation_eq_of_led hled, if_neg (UInt32.not_lt.mpr hmin)]

/-- **A token that ends every expression**: a delimiter that closes
something. -/
def IsClosing (t : Token) : Prop :=
  t.kind = .delimiter ∧ t.spelling ∈ [")", "]", "\x7d"]

theorem isClosing_delimiter (h : s ∈ [")", "]", "\x7d"]) (p : Position) :
    IsClosing ⟨.delimiter, s, p⟩ := ⟨rfl, h⟩

theorem IsClosing.isPunct (h : IsClosing t) : t.isPunct t.spelling = true := by
  unfold Token.isPunct
  rw [h.1, BEq.rfl]
  rfl

theorem IsClosing.quiet (h : IsClosing t) : Quiet (some t) := by
  refine quiet_of_isPunct h.isPunct ?_
  have hall : ∀ s ∈ [")", "]", "\x7d"], s ≠ "!" ∧ s ≠ "~" := by decide
  exact hall _ h.2

theorem IsClosing.stop (h : IsClosing t) (min : UInt32) :
    continuation standard min (some t) = .stop := by
  have hall : ∀ s ∈ [")", "]", "\x7d"], standard.led? s = none := by decide +kernel
  unfold continuation
  dsimp only
  rw [operatorSpelling?_of_isPunct h.isPunct]
  dsimp only
  rw [hall _ h.2, h.1]
  rfl

end

/-! ## Operands -/

/-- **An operand, and the tree that it is.** What is read from its tokens,
up to the operators that come next, starts with this tree. -/
structure Primary (e : Expr) (u : List Token) : Prop where
  /-- It begins with a token of its own or with a parenthesis. -/
  opens : u.head?.any (fun t => t.kind.isOperand || isDelimiter t "(") = true
  /-- It is no single token, unless a parenthesis is closed right behind
  it. -/
  unenclosed : ∀ {w : List Token}, w.head?.any (isDelimiter · ")") = false →
    enclosed? (u ++ w) = none
  /-- Delimiters belong to an operand only where they hold tightly
  enough. -/
  reads : ∀ {min : UInt32} {v : List Token} {e' : Expr} {next : Option Token},
    (e.isEnclosing = true → min ≤ 16) → Quiet (v.head?.or next) →
      Climbs standard min e v e' next → Reads standard min (u ++ v) e' next

namespace Primary

variable {e x y : Expr} {u v : List Token} {op : Operator} {p q : Position}

/-- An operand before a closing delimiter is all that is read. -/
theorem reads_all (h : Primary e u) {t : Token} (ht : IsClosing t) {min : UInt32}
    (hmin : e.isEnclosing = true → min ≤ 16) : Reads standard min u e (some t) := by
  have hread : Reads standard min (u ++ []) e (some t) :=
    h.reads hmin ht.quiet (.stop (ht.stop min))
  rwa [List.append_nil] at hread

/-- **What is read between parentheses is an operand**, unless it is a
single token. -/
theorem group (hr : Reads standard 0 u e (some ⟨.delimiter, ")", q⟩))
    (hu : enclosed? (u ++ [⟨.delimiter, ")", q⟩]) = none) :
    Primary e (⟨.delimiter, "(", p⟩ :: (u ++ [⟨.delimiter, ")", q⟩])) where
  opens := rfl
  unenclosed := by
    intro w hw
    obtain ⟨t, r, hu⟩ : ∃ t r, u ++ [⟨.delimiter, ")", q⟩] ++ w = t :: r := by
      cases u with
      | nil => exact ⟨_, _, rfl⟩
      | cons t r => exact ⟨_, _, rfl⟩
    rw [List.cons_append, hu]
    rfl
  reads := by
    intro min v e' next _ hquiet hc
    refine .intro (.group rfl hr rfl (fun _ _ => ?_)) hc
    rw [hu]
    exact hquiet

/-- A token by itself. -/
theorem atom {t : Token} (ho : t.kind.isOperand = true) (hr : t.kind ≠ .reserved) :
    Primary (.atom t.kind t.spelling) [t] where
  opens := by
    show (t.kind.isOperand || isDelimiter t "(") = true
    rw [ho]
    rfl
  unenclosed := by
    intro w hw
    cases w with
    | nil => rfl
    | cons d w =>
      have hd : isDelimiter d ")" = false := hw
      show (if t.kind.isOperand && isDelimiter d ")" then some t.spelling else none) = none
      rw [hd, Bool.and_false, if_neg Bool.false_ne_true]
  reads := by
    intro min v e' next _ _ hc
    have hspelling : operatorSpelling? t = none := by
      unfold operatorSpelling?
      cases hk : t.kind with
      | identifier => rfl
      | number => rfl
      | string => rfl
      | reserved => exact absurd hk hr
      | operator =>
        rw [hk] at ho
        cases ho
      | delimiter =>
        rw [hk] at ho
        cases ho
    have hdelimiter : isDelimiter t "(" = false := by
      unfold isDelimiter
      cases hk : t.kind with
      | delimiter =>
        rw [hk] at ho
        cases ho
      | _ => rfl
    refine .intro (u := [t]) (.atom hdelimiter ?_ ho) hc
    rw [hspelling]
    rfl

/-! ### Applications -/

/-- `(op x)` -/
theorem prefixed (hop : standard.nud? op.spelling = some op) (hx : Primary x u) {r : Position} :
    Primary (.unary op x)
      (⟨.delimiter, "(", p⟩ :: (⟨.operator, op.spelling, r⟩ :: u ++ [⟨.delimiter, ")", q⟩])) := by
  have hpower := (standard_nuds op (List.mem_of_find?_eq_some hop)).2
  have hclosing := isClosing_delimiter (s := ")") (by decide) q
  have hread := hx.reads_all hclosing (fun _ => hpower)
  refine group ?_ ?_
  · have hstart := Starts.unary (t := ⟨.operator, op.spelling, r⟩) rfl hop hread
    have hall := Reads.intro (v := []) hstart (.stop (hclosing.stop 0))
    rwa [List.append_nil] at hall
  · cases u with
    | nil => rfl
    | cons t u => rfl

/-- The usual cast holds looser than delimiters. -/
theorem standard_cast (hop : standard.cast? = some op) : op.power ≤ 16 := by
  have hall : standard.cast?.all (fun op => decide (op.power ≤ 16)) = true := by decide +kernel
  rw [hop] at hall
  exact of_decide_eq_true hall

/-- `((x) y)`, if parentheses cast what `y` begins with. -/
theorem cast (hop : standard.cast? = some op) (hx : Primary x u) (hy : Primary y v)
    (hv : ∀ enclosed next, isCast standard enclosed (v.head?.or next) = true) {p' q' : Position} :
    Primary (.binary op x y) (⟨.delimiter, "(", p⟩ ::
      ((⟨.delimiter, "(", p'⟩ :: (u ++ [⟨.delimiter, ")", q'⟩]) ++ v)
        ++ [⟨.delimiter, ")", q⟩])) := by
  have hclosing := isClosing_delimiter (s := ")") (by decide)
  have hgroup := hx.reads_all (hclosing q') (fun _ => UInt32.zero_le)
  have hoperand := hy.reads_all (hclosing q) (fun _ => standard_cast hop)
  refine group ?_ ?_
  · have hstart := Starts.cast (t := ⟨.delimiter, "(", p'⟩) rfl hgroup rfl hop (hv _ _) hoperand
    have hall := Reads.intro (v := []) hstart (.stop ((hclosing q).stop 0))
    rwa [List.append_nil] at hall
  · cases u with
    | nil => rfl
    | cons t u => rfl

section

variable {t : Token}

/-- What is known of the sign of a usual operator. -/
theorem sign_facts (hop : standard.led? op.spelling = some op)
    (ht : t.isPunct op.spelling = true) :
    Quiet (some t) ∧ isDelimiter t ")" = false := by
  have hall : ∀ op ∈ standard.leds, op.spelling ≠ ")" ∧ op.spelling ≠ "!" ∧ op.spelling ≠ "~" := by
    decide +kernel
  have hs := hall op (List.mem_of_find?_eq_some hop)
  refine ⟨quiet_of_isPunct ht hs.2, Bool.eq_false_iff.mpr (fun h => hs.1 ?_)⟩
  exact Token.eq_of_isPunct ht (isPunct_of_isDelimiter h)

/-- No operand begins with a closing parenthesis. -/
theorem not_closing (h : Primary e u) : u.head?.any (·.isPunct ")") = false := by
  have hopens := h.opens
  cases u with
  | nil => rfl
  | cons t u =>
    refine Bool.eq_false_iff.mpr (fun hpunct => ?_)
    have hpunct : t.isPunct ")" = true := hpunct
    rcases (Bool.or_eq_true _ _).mp hopens with ho | hd
    · rw [not_isOperand_of_isPunct hpunct] at ho
      cases ho
    · exact absurd (Token.eq_of_isPunct (isPunct_of_isDelimiter hd) hpunct) (by decide)

/-- **An application behind an operand, in parentheses.** -/
theorem applied (hx : Primary x u) (hop : standard.led? op.spelling = some op)
    (ht : t.isPunct op.spelling = true)
    (ha : Applies standard op x v e (some ⟨.delimiter, ")", q⟩)) :
    Primary e (⟨.delimiter, "(", p⟩ :: (u ++ t :: v ++ [⟨.delimiter, ")", q⟩])) := by
  obtain ⟨hquiet, hnot⟩ := sign_facts hop ht
  have hclosing := isClosing_delimiter (s := ")") (by decide) q
  refine group ?_ ?_
  · have hcont := continuation_of_led ht hop UInt32.zero_le
    have hclimb := Climbs.apply (v := []) hcont ha (.stop (hclosing.stop 0))
    rw [List.append_nil] at hclimb
    exact hx.reads (fun _ => UInt32.zero_le) hquiet hclimb
  · rw [List.append_assoc]
    exact hx.unenclosed hnot

/-- **An application in delimiters**, without parentheses. -/
theorem enclosing (hx : Primary x u) (hop : standard.led? op.spelling = some op)
    (ht : t.isPunct op.spelling = true) (hpower : op.power = 16) (he : e.isEnclosing = true)
    (ha : ∀ {next : Option Token}, Applies standard op x v e next) :
    Primary e (u ++ t :: v) := by
  obtain ⟨hquiet, hnot⟩ := sign_facts hop ht
  refine ⟨?_, ?_, ?_⟩
  · have hopens := hx.opens
    cases u with
    | nil => cases hopens
    | cons t' u => exact hopens
  · intro w hw
    rw [List.append_assoc]
    exact hx.unenclosed hnot
  · intro min v' e' next hmin _ hc
    -- The delimiters are climbed to from the operand, at a power that both
    -- of them pass.
    have hcont : continuation standard min (some t) = .apply op :=
      continuation_of_led ht hop (hpower ▸ hmin he)
    rw [List.append_assoc]
    exact hx.reads (fun _ => hmin he) hquiet (.apply hcont ha hc)

end

end Primary

end Descent.Expr
