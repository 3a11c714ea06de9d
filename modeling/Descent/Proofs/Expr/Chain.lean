import Descent.Proofs.Expr.Reading
import Mathlib.Data.List.TakeWhile

/-!
# Chains of operators

Take operands with infix operators between them, and nothing else. How such
a chain is grouped is usually said from the top: **it comes apart at the
operator that holds most loosely**, at the last one of these if they group
to the left and at the first if they group to the right, and both parts
come apart in the same way (`Groups`). The reader never looks at a whole
chain. It goes from one operator to the next, and lets the right operand of
each take what holds tightly enough.

The two agree for any powers (`parse_chain`), as long as operators of equal
power group the same way (`Coherent`). What brings them together is a step:
if the first operator of a chain is applied at once to all that its right
operand takes, then a tree of what is left is a tree of the whole chain
(`Groups.cons`). Made from left to right, these steps are the climb.

The greatest power is left out (`Link.power_lt`). What goes wrong there
shows in chains of a single operator (`parse_left_chain`).
-/

namespace Descent.Expr

/-- **A token that stands as an operand.** -/
structure Operand (table : OperatorTable) where
  /-- The token. -/
  token : Token
  /-- It is of a kind that operands have. -/
  isOperand : token.kind.isOperand = true
  /-- It is no operator where an operand is due. -/
  nud?_eq_none : table.nud? token.spelling = none

/-- **A link of a chain**: an infix operator and the operand behind it. -/
structure Link (table : OperatorTable) where
  /-- The token of the operator. -/
  sign : Token
  /-- The operator. -/
  op : Operator
  /-- The operand behind it. -/
  operand : Operand table
  /-- The token is the operator, after an operand. -/
  led : (operatorSpelling? sign).bind table.led? = some op
  /-- The operator stands between its operands. -/
  fixity : op.fixity = .infixLeft ∨ op.fixity = .infixRight
  /-- Its power is not the greatest. -/
  power_lt : op.power < 0xffffffff

variable {table : OperatorTable}

/-- The operand as a tree. -/
def Operand.atom (a : Operand table) : Expr := .atom a.token.kind a.token.spelling

/-- The tokens of some links, in order. -/
def tokens (links : List (Link table)) : List Token :=
  links.flatMap fun l => [l.sign, l.operand.token]

theorem tokens_cons (l : Link table) (links : List (Link table)) :
    tokens (l :: links) = l.sign :: l.operand.token :: tokens links := rfl

theorem tokens_append (links ls : List (Link table)) :
    tokens (links ++ ls) = tokens links ++ tokens ls :=
  List.flatMap_append

/-- **Operators of equal power group the same way.** -/
def Coherent (links : List (Link table)) : Prop :=
  ∀ k ∈ links, ∀ l ∈ links, k.op.power = l.op.power → k.op.fixity = l.op.fixity

theorem Coherent.mono {links ls : List (Link table)} (h : Coherent links) (hs : ls ⊆ links) :
    Coherent ls :=
  fun k hk l hl => h k (hs hk) l (hs hl)

/-! ## Trees of chains -/

/-- **An operator of the smallest power** among those before and behind it:
the last one if it groups to the left, and the first if to the right. -/
structure Loosest (before : List (Link table)) (k : Link table) (behind : List (Link table)) :
    Prop where
  le_before : ∀ l ∈ before, k.op.power ≤ l.op.power
  le_behind : ∀ l ∈ behind, k.op.power ≤ l.op.power
  last : k.op.fixity = .infixLeft → ∀ l ∈ behind, k.op.power < l.op.power
  first : k.op.fixity = .infixRight → ∀ l ∈ before, k.op.power < l.op.power

/-- **The tree of a chain** with the tree `x` as its first operand. -/
inductive Groups : Expr → List (Link table) → Expr → Prop
  | operand {x : Expr} : Groups x [] x
  | split {x y z : Expr} {before behind : List (Link table)} {k : Link table} :
    Loosest before k behind → Groups x before y → Groups k.operand.atom behind z →
      Groups x (before ++ k :: behind) (.binary k.op y z)

/-- Of two operators at which a chain may come apart none stands before the
other. -/
theorem Loosest.not_before {before behind before' behind' : List (Link table)}
    {k k' : Link table} (h : Loosest before k behind) (h' : Loosest before' k' behind')
    (hk : k ∈ before') (hk' : k' ∈ behind)
    (heq : k.op.power = k'.op.power → k.op.fixity = k'.op.fixity) : False := by
  have hpower : k.op.power = k'.op.power :=
    UInt32.le_antisymm (h.le_behind k' hk') (h'.le_before k hk)
  rcases k.fixity with hf | hf
  · exact UInt32.lt_irrefl _ (hpower ▸ h.last hf k' hk')
  · exact UInt32.lt_irrefl _ (hpower ▸ h'.first ((heq hpower).symm.trans hf) k hk)

/-- **A chain comes apart at one place only.** -/
theorem Loosest.unique {before behind before' behind' : List (Link table)} {k k' : Link table}
    (hc : Coherent (before ++ k :: behind)) (h : Loosest before k behind)
    (h' : Loosest before' k' behind')
    (heq : before ++ k :: behind = before' ++ k' :: behind') :
    before = before' ∧ k = k' ∧ behind = behind' := by
  have hk : k ∈ before ++ k :: behind := List.mem_append_right _ List.mem_cons_self
  have hk' : k' ∈ before ++ k :: behind := by
    rw [heq]
    exact List.mem_append_right _ List.mem_cons_self
  rcases List.append_eq_append_iff.mp heq with ⟨as, rfl, htail⟩ | ⟨as, rfl, htail⟩
  · cases as with
    | nil =>
      obtain ⟨rfl, rfl⟩ := List.cons.inj htail
      exact ⟨(List.append_nil _).symm, rfl, rfl⟩
    | cons a as =>
      obtain ⟨rfl, rfl⟩ := List.cons.inj htail
      exact (h.not_before h' (List.mem_append_right _ List.mem_cons_self)
        (List.mem_append_right _ List.mem_cons_self) (hc k hk k' hk')).elim
  · cases as with
    | nil =>
      obtain ⟨rfl, rfl⟩ := List.cons.inj htail
      exact ⟨List.append_nil _, rfl, rfl⟩
    | cons a as =>
      obtain ⟨rfl, rfl⟩ := List.cons.inj htail
      exact (h'.not_before h (List.mem_append_right _ List.mem_cons_self)
        (List.mem_append_right _ List.mem_cons_self) (hc k' hk' k hk)).elim

/-- **A chain has one tree at most.** -/
theorem Groups.unique {x e e' : Expr} {links : List (Link table)} (hc : Coherent links)
    (h : Groups x links e) (h' : Groups x links e') : e = e' := by
  induction h generalizing e' with
  | operand =>
    generalize hlinks : ([] : List (Link table)) = links at h'
    cases h' with
    | operand => rfl
    | split =>
      exact absurd hlinks.symm (List.append_ne_nil_of_right_ne_nil _ (List.cons_ne_nil _ _))
  | @split x y z before behind k hk _ _ hy hz =>
    generalize hlinks : before ++ k :: behind = links at h'
    cases h' with
    | operand =>
      exact absurd hlinks (List.append_ne_nil_of_right_ne_nil _ (List.cons_ne_nil _ _))
    | split hk' hy' hz' =>
      obtain ⟨rfl, rfl, rfl⟩ := hk.unique hc hk' hlinks
      rw [hy (hc.mono (List.subset_append_left _ _)) hy',
        hz (hc.mono fun l hl => List.mem_append_right _ (List.mem_cons_of_mem _ hl)) hz']

/-- The least power of the operators that the right operand takes. -/
def Link.reach (l : Link table) : UInt32 :=
  match l.op.fixity with
  | .infixLeft => nextPower l.op.power
  | _ => l.op.power

/-- **The right operand takes what holds more tightly**, and what holds as
tightly if the operator groups to the right. -/
theorem Link.reach_le_iff {l : Link table} {power : UInt32} :
    l.reach ≤ power
      ↔ l.op.power ≤ power ∧ (l.op.fixity = .infixLeft → l.op.power < power) := by
  have hlt := l.power_lt
  unfold reach
  rcases l.fixity with hf | hf
  · rw [hf]
    unfold nextPower
    grind
  · rw [hf]
    grind

/-- An operator that a right operand leaves holds at most as tightly as
that operator, and less tightly if it groups to the right. -/
theorem Link.of_lt_reach {l k : Link table} {power : UInt32} (h : power < l.reach)
    (hk : k.op.power ≤ power) (heq : k.op.power = l.op.power → k.op.fixity = l.op.fixity) :
    k.op.power ≤ l.op.power ∧ (k.op.fixity = .infixRight → k.op.power < l.op.power) := by
  rw [← UInt32.not_le, reach_le_iff] at h
  grind

/-- An operator that takes all of a chain is where it comes apart. -/
theorem Loosest.nil {l : Link table} {part : List (Link table)}
    (hpart : ∀ k ∈ part, l.reach ≤ k.op.power) : Loosest [] l part :=
  ⟨fun _ hk => absurd hk List.not_mem_nil,
    fun k hk => (Link.reach_le_iff.mp (hpart k hk)).1,
    fun hf k hk => (Link.reach_le_iff.mp (hpart k hk)).2 hf,
    fun _ _ hk => absurd hk List.not_mem_nil⟩

/-- **Where a chain comes apart that a right operand leaves, the whole chain
comes apart.** -/
theorem Loosest.cons {l k : Link table} {part before behind : List (Link table)}
    (hc : Coherent (l :: (part ++ (before ++ k :: behind))))
    (hpart : ∀ j ∈ part, l.reach ≤ j.op.power)
    (hrest : ∀ j ∈ (before ++ k :: behind).head?, j.op.power < l.reach)
    (h : Loosest before k behind) : Loosest (l :: (part ++ before)) k behind := by
  -- The operator holds at most as tightly as the first one that is left.
  obtain ⟨power, hpower, hle⟩ : ∃ power, power < l.reach ∧ k.op.power ≤ power := by
    cases before with
    | nil => exact ⟨_, hrest k rfl, UInt32.le_refl _⟩
    | cons j before => exact ⟨_, hrest j rfl, h.le_before j List.mem_cons_self⟩
  have hk : k ∈ l :: (part ++ (before ++ k :: behind)) :=
    List.mem_cons_of_mem _ (List.mem_append_right _
      (List.mem_append_right _ List.mem_cons_self))
  obtain ⟨hkl, hkl'⟩ := Link.of_lt_reach hpower hle (hc k hk l List.mem_cons_self)
  have hle_part : ∀ j ∈ part, l.op.power ≤ j.op.power :=
    fun j hj => (Link.reach_le_iff.mp (hpart j hj)).1
  refine ⟨fun j hj => ?_, h.le_behind, h.last, fun hf j hj => ?_⟩
  · rcases List.mem_cons.mp hj with rfl | hj
    · exact hkl
    rcases List.mem_append.mp hj with hj | hj
    · exact UInt32.le_trans hkl (hle_part j hj)
    · exact h.le_before j hj
  · rcases List.mem_cons.mp hj with rfl | hj
    · exact hkl' hf
    rcases List.mem_append.mp hj with hj | hj
    · exact UInt32.lt_of_lt_of_le (hkl' hf) (hle_part j hj)
    · exact h.first hf j hj

/-- **The step of a climb.** If the right operand of the first operator
takes as much of a chain as it can, the tree of what is left, with the
application as its first operand, is the tree of the chain. -/
theorem Groups.cons {x y e : Expr} {l : Link table} {part rest : List (Link table)}
    (hc : Coherent (l :: (part ++ rest))) (hpart : ∀ k ∈ part, l.reach ≤ k.op.power)
    (hrest : ∀ k ∈ rest.head?, k.op.power < l.reach) (hy : Groups l.operand.atom part y)
    (he : Groups (.binary l.op x y) rest e) : Groups x (l :: (part ++ rest)) e := by
  -- The first operand is the application all along the left side of the
  -- tree, and at the bottom of that side it is the whole tree.
  generalize hfirst : Expr.binary l.op x y = first at he
  induction he with
  | operand =>
    subst hfirst
    rw [List.append_nil]
    exact .split (.nil hpart) .operand hy
  | @split first y' z before behind k hk _ hz hy' _ =>
    have hloosest := hk.cons hc hpart hrest
    rw [← List.append_assoc, ← List.cons_append] at hc ⊢
    have hhead : ∀ j ∈ before.head?, j.op.power < l.reach := by
      intro j hj
      refine hrest j ?_
      rw [List.head?_append, Option.mem_def.mp hj]
      rfl
    have hbefore : Groups x (l :: (part ++ before)) y' :=
      hy' (hc.mono (List.subset_append_left _ _)) hhead hfirst
    exact .split hloosest hbefore hz

/-! ## Reading chains -/

theorem Operand.not_isDelimiter (a : Operand table) (spelling : String) :
    isDelimiter a.token spelling = false := by
  obtain ⟨⟨kind, spelling, position⟩, hkind, hnud⟩ := a
  cases kind with
  | delimiter => cases hkind
  | _ => rfl

theorem Operand.bind_nud? (a : Operand table) :
    (operatorSpelling? a.token).bind table.nud? = none := by
  obtain ⟨⟨kind, spelling, position⟩, hkind, hnud⟩ := a
  cases kind with
  | operator => cases hkind
  | delimiter => cases hkind
  | reserved => exact hnud
  | _ => rfl

/-- An expression may consist of the operand and what follows it. -/
theorem Operand.reads (a : Operand table) {min : UInt32} {v : List Token} {e : Expr}
    {next : Option Token} (h : Climbs table min a.atom v e next) :
    Reads table min (a.token :: v) e next :=
  .intro (.atom (a.not_isDelimiter "(") a.bind_nud? a.isOperand) h

/-- The right operand of a link is read at its reach. -/
theorem Link.applies (l : Link table) {x y : Expr} {u : List Token} {next : Option Token}
    (h : Reads table l.reach u y next) : Applies table l.op x u (.binary l.op x y) next := by
  unfold reach at h
  rcases l.fixity with hf | hf
  · rw [hf] at h
    exact .infixLeft hf h
  · rw [hf] at h
    exact .infixRight (.inl hf) h

/-- Where the reader stops it stops at any higher power. -/
theorem continuation_mono {min power : UInt32} {next : Option Token}
    (h : continuation table min next = .stop) (hle : min ≤ power) :
    continuation table power next = .stop := by
  unfold continuation at h ⊢
  split at h
  · rfl
  · split at h
    · rfl
    · split at h
      · split at h
        · next hlt => rw [if_pos (UInt32.lt_of_lt_of_le hlt hle)]
        · cases h
      · exact h

/-- The reader stops before a link that does not hold tightly enough, as it
does where there is none. -/
theorem continuation_before {min : UInt32} {next : Option Token} {links : List (Link table)}
    (hlinks : ∀ l ∈ links.head?, l.op.power < min) (h : continuation table min next = .stop) :
    continuation table min ((tokens links).head?.or next) = .stop := by
  cases links with
  | nil => exact h
  | cons l links =>
    show continuation table min (some l.sign) = .stop
    rw [continuation_eq_of_led l.led, if_pos (hlinks l rfl)]

theorem le_of_mem_takeWhile {min : UInt32} {links : List (Link table)} :
    ∀ l ∈ links.takeWhile (min ≤ ·.op.power), min ≤ l.op.power := by
  intro l hl
  have htake := List.mem_takeWhile_imp hl
  exact of_decide_eq_true htake

/-- The first link behind those that hold tightly enough does not. -/
theorem lt_of_mem_head?_dropWhile {min : UInt32} {links : List (Link table)} :
    ∀ l ∈ (links.dropWhile (min ≤ ·.op.power)).head?, l.op.power < min := by
  intro l hl
  have hhead := List.head?_dropWhile_not (fun l : Link table => decide (min ≤ l.op.power)) links
  rw [Option.mem_def.mp hl] at hhead
  exact UInt32.not_le.mp (of_decide_eq_false hhead)

/-- **A climb over links gives their tree.** -/
theorem exists_climbs {links : List (Link table)} (hc : Coherent links) :
    ∀ {min : UInt32} {x : Expr} {next : Option Token}, (∀ l ∈ links, min ≤ l.op.power) →
      continuation table min next = .stop →
        ∃ e, Groups x links e ∧ Climbs table min x (tokens links) e next := by
  -- Both what the right operand of the first link takes and what it leaves
  -- are shorter than the chain.
  induction hn : links.length using Nat.strongRecOn generalizing links with
  | ind n ih =>
    intro min x next hmin hstop
    cases links with
    | nil => exact ⟨x, .operand, .stop hstop⟩
    | cons l links =>
      obtain ⟨part, rest, rfl, hpart, hrest⟩ : ∃ part rest, links = part ++ rest
          ∧ (∀ k ∈ part, l.reach ≤ k.op.power) ∧ ∀ k ∈ rest.head?, k.op.power < l.reach :=
        ⟨_, _, List.takeWhile_append_dropWhile.symm, le_of_mem_takeWhile,
          lt_of_mem_head?_dropWhile⟩
      obtain ⟨hl, hlinks⟩ := List.forall_mem_cons.mp hmin
      have hreach : min ≤ l.reach :=
        UInt32.le_trans hl (Link.reach_le_iff.mp (UInt32.le_refl _)).1
      rw [List.length_cons, List.length_append] at hn
      obtain ⟨y, hy, hright⟩ := ih part.length (by omega)
        (hc.mono fun k hk => List.mem_cons_of_mem _ (List.mem_append_left _ hk)) rfl hpart
        (continuation_before hrest (continuation_mono hstop hreach))
      obtain ⟨e, he, hclimb⟩ := ih rest.length (by omega)
        (hc.mono fun k hk => List.mem_cons_of_mem _ (List.mem_append_right _ hk)) rfl
        (fun k hk => hlinks k (List.mem_append_right _ hk)) hstop
      have happly : continuation table min (some l.sign) = .apply l.op := by
        rw [continuation_eq_of_led l.led, if_neg (UInt32.not_lt.mpr hl)]
      have htokens : tokens (l :: (part ++ rest))
          = l.sign :: (l.operand.token :: tokens part) ++ tokens rest := by
        rw [tokens_cons, tokens_append]
        rfl
      rw [htokens]
      exact ⟨e, hy.cons hc hpart hrest he,
        .apply happly (l.applies (l.operand.reads hright)) hclimb⟩

/-- **Chains are grouped by power and fixity.** Of a chain that ends the
text, the links are taken up to the first whose operator does not hold
tightly enough. They have one tree, and this tree is what is read. -/
theorem parse_chain (a : Operand table) {links : List (Link table)} (hc : Coherent links)
    (min : UInt32) (finish : Position) :
    ∃ e, (∀ e', Groups a.atom (links.takeWhile (min ≤ ·.op.power)) e' ↔ e' = e)
      ∧ parse table min ⟨a.token :: tokens links, finish⟩
        = .ok e ⟨tokens (links.dropWhile (min ≤ ·.op.power)), finish⟩ := by
  have hcpart : Coherent (links.takeWhile (min ≤ ·.op.power)) :=
    hc.mono (List.takeWhile_subset _)
  have happend : links.takeWhile (min ≤ ·.op.power) ++ links.dropWhile (min ≤ ·.op.power) = links :=
    List.takeWhile_append_dropWhile
  have hstop : continuation table min
      ((tokens (links.dropWhile (min ≤ ·.op.power))).head?.or none) = .stop :=
    continuation_before lt_of_mem_head?_dropWhile rfl
  obtain ⟨e, he, hclimb⟩ :=
    exists_climbs hcpart (x := a.atom) le_of_mem_takeWhile hstop
  refine ⟨e, fun e' => ⟨fun he' => he'.unique hcpart he, ?_⟩, ?_⟩
  · rintro rfl
    exact he
  · rw [Option.or_none] at hclimb
    have htake : Cursor.Takes ⟨a.token :: tokens links, finish⟩
        (a.token :: tokens (links.takeWhile (min ≤ ·.op.power)))
        ⟨tokens (links.dropWhile (min ≤ ·.op.power)), finish⟩ := by
      refine ⟨?_, rfl⟩
      show a.token :: tokens links = a.token :: (tokens _ ++ tokens _)
      rw [← tokens_append, happend]
    exact Reads.parse_eq (a.reads hclimb) htake

/-- A comma, a difference, a product and a power. -/
def fourOperators : OperatorTable :=
  .insertAll .empty [.infixLeft "," 1 1, .infixLeft "-" 22 11, .infixLeft "*" 23 12,
    .infixRight "**" 26 13]

/-- A name as an operand. -/
def Operand.ofName (name : String) : Operand fourOperators :=
  ⟨⟨.identifier, name, .start⟩, rfl, rfl⟩

/-- An operator and a name behind it. -/
def Link.ofName (op : Operator) (name : String)
    (led : fourOperators.led? op.spelling = some op)
    (fixity : op.fixity = .infixLeft ∨ op.fixity = .infixRight)
    (power_lt : op.power < 0xffffffff) : Link fourOperators :=
  ⟨⟨.operator, op.spelling, .start⟩, op, .ofName name, led, fixity, power_lt⟩

/-- The link `- b`. -/
def minusB : Link fourOperators :=
  .ofName ⟨"-", 22, 11, .infixLeft⟩ "b" (by decide) (.inl rfl) (by decide)

/-- The link `** c`. -/
def powerC : Link fourOperators :=
  .ofName ⟨"**", 26, 13, .infixRight⟩ "c" (by decide) (.inr rfl) (by decide)

/-- The link `** d`. -/
def powerD : Link fourOperators :=
  .ofName ⟨"**", 26, 13, .infixRight⟩ "d" (by decide) (.inr rfl) (by decide)

/-- The link `* e`. -/
def timesE : Link fourOperators :=
  .ofName ⟨"*", 23, 12, .infixLeft⟩ "e" (by decide) (.inl rfl) (by decide)

/-- The link `, f`. -/
def commaF : Link fourOperators :=
  .ofName ⟨",", 1, 1, .infixLeft⟩ "f" (by decide) (.inl rfl) (by decide)

/-- At a power above that of the comma, `a - b ** c ** d * e , f` is read up
to the comma. -/
theorem parse_chain_mixed :
    Coherent [minusB, powerC, powerD, timesE, commaF]
      ∧ ∃ e, e.render = "(a - ((b ** (c ** d)) * e))"
        ∧ parse fourOperators 2 ⟨(Operand.ofName "a").token
            :: tokens [minusB, powerC, powerD, timesE, commaF], .start⟩
          = .ok e ⟨tokens [commaF], .start⟩ := by
  have hc : Coherent [minusB, powerC, powerD, timesE, commaF] := by
    unfold Coherent
    decide
  obtain ⟨e, he, hparse⟩ := parse_chain (.ofName "a") hc 2 .start
  refine ⟨hc, e, ?_, hparse⟩
  have hminus : Loosest [] minusB [powerC, powerD, timesE] :=
    ⟨by decide, by decide, by decide, by decide⟩
  have htimes : Loosest [powerC, powerD] timesE [] :=
    ⟨by decide, by decide, by decide, by decide⟩
  have hpower : Loosest [] powerC [powerD] := ⟨by decide, by decide, by decide, by decide⟩
  have hpower' : Loosest [] powerD [] := ⟨by decide, by decide, by decide, by decide⟩
  have hgroups := Groups.split hminus (.operand (x := (Operand.ofName "a").atom))
    (.split htimes (.split hpower .operand (.split hpower' .operand .operand)) .operand)
  rw [← (he _).mp hgroups]
  decide +kernel

/-! ## One operator over and over

Where the same operator stands between all operands, the chain says nothing
but how the operator groups. One that groups to the left takes a right
operand that holds more tightly than itself. **At the greatest power nothing
does**, and the right operand takes what holds as tightly, so that a chain
comes out grouped to the right (`parse_left_chain_greatest`). At every other
power it does as it should.
-/

/-- **A climb over one operator that groups to the left** applies it to all
that it has climbed, each time. -/
theorem climbs_left {op : Operator} (hop : table.led? op.spelling = some op)
    (hf : op.fixity = .infixLeft) (hpower : op.power < 0xffffffff)
    {links : List (Token × Operand table)}
    (hsigns : ∀ l ∈ links, operatorSpelling? l.1 = some op.spelling) (x : Expr) :
    Climbs table 0 x (links.flatMap fun l => [l.1, l.2.token])
      (links.foldl (fun left l => .binary op left l.2.atom) x) none := by
  have hnext : op.power < nextPower op.power := by
    unfold nextPower
    grind
  have hled : ∀ {t : Token}, operatorSpelling? t = some op.spelling →
      (operatorSpelling? t).bind table.led? = some op := by
    intro t ht
    rw [ht]
    exact hop
  induction links generalizing x with
  | nil => exact .stop rfl
  | cons l links ih =>
    obtain ⟨hl, hlinks⟩ := List.forall_mem_cons.mp hsigns
    have happly : continuation table 0 (some l.1) = .apply op := by
      rw [continuation_eq_of_led (hled hl), if_neg UInt32.not_lt_zero]
    -- What comes next is the operator again, which holds too loosely for
    -- its own right operand.
    have hstop : continuation table (nextPower op.power)
        ((links.flatMap fun l => [l.1, l.2.token]).head?.or none) = .stop := by
      cases links with
      | nil => rfl
      | cons k links =>
        show continuation table (nextPower op.power) (some k.1) = .stop
        rw [continuation_eq_of_led (hled (hlinks k List.mem_cons_self)), if_pos hnext]
    exact .apply happly (.infixLeft hf (l.2.reads (.stop hstop))) (ih hlinks _)

/-- **A chain of one operator that groups to the left is nested to the
left**, at any power but the greatest. -/
theorem parse_left_chain (op : Operator) (hop : table.led? op.spelling = some op)
    (hf : op.fixity = .infixLeft) (hpower : op.power < 0xffffffff) (a : Operand table)
    (links : List (Token × Operand table))
    (hsigns : ∀ l ∈ links, operatorSpelling? l.1 = some op.spelling) (finish : Position) :
    parse table 0 ⟨a.token :: links.flatMap fun l => [l.1, l.2.token], finish⟩
      = .ok (links.foldl (fun left l => .binary op left l.2.atom) a.atom) ⟨[], finish⟩ :=
  Reads.parse_eq (a.reads (climbs_left hop hf hpower hsigns a.atom))
    ⟨(List.append_nil _).symm, rfl⟩

/-- A sum that groups to the left, and nothing else. -/
def sumAt (power : UInt32) : OperatorTable :=
  .insertAll .empty [.infixLeft "+" 21 power]

/-- The operator of such a sum. -/
def plusAt (power : UInt32) : Operator := ⟨"+", 21, power, .infixLeft⟩

/-- A number as an operand. -/
def Operand.ofNumber (power : UInt32) (digits : String) : Operand (sumAt power) :=
  ⟨⟨.number, digits, .start⟩, rfl, rfl⟩

/-- A plus and a number behind it. -/
def plusNumber (power : UInt32) (digits : String) : Token × Operand (sumAt power) :=
  (⟨.operator, "+", .start⟩, .ofNumber power digits)

/-- The tree of a number. -/
def numeral (digits : String) : Expr := .atom .number digits

/-- At the last power but one, `1 + 2 + 3` is `(1 + 2) + 3`. -/
theorem parse_left_chain_high :
    (sumAt 0xfffffffe).led? "+" = some (plusAt 0xfffffffe)
      ∧ (plusAt 0xfffffffe).power < 0xffffffff
      ∧ parse (sumAt 0xfffffffe) 0
          ⟨[⟨.number, "1", .start⟩, ⟨.operator, "+", .start⟩, ⟨.number, "2", .start⟩,
            ⟨.operator, "+", .start⟩, ⟨.number, "3", .start⟩], .start⟩
        = .ok (.binary (plusAt 0xfffffffe)
            (.binary (plusAt 0xfffffffe) (numeral "1") (numeral "2")) (numeral "3"))
          ⟨[], .start⟩ :=
  ⟨rfl, by decide, parse_left_chain (plusAt 0xfffffffe) rfl rfl (by decide)
    (.ofNumber 0xfffffffe "1") [plusNumber 0xfffffffe "2", plusNumber 0xfffffffe "3"]
    (by decide) .start⟩

/-- **At the greatest power, `1 + 2 + 3` is `1 + (2 + 3)`**, although the
operator is one that groups to the left. -/
theorem parse_left_chain_greatest :
    (sumAt 0xffffffff).led? "+" = some (plusAt 0xffffffff)
      ∧ (plusAt 0xffffffff).fixity = .infixLeft
      ∧ parse (sumAt 0xffffffff) 0
          ⟨[⟨.number, "1", .start⟩, ⟨.operator, "+", .start⟩, ⟨.number, "2", .start⟩,
            ⟨.operator, "+", .start⟩, ⟨.number, "3", .start⟩], .start⟩
        = .ok (.binary (plusAt 0xffffffff) (numeral "1")
            (.binary (plusAt 0xffffffff) (numeral "2") (numeral "3")))
          ⟨[], .start⟩
      ∧ Expr.binary (plusAt 0xffffffff) (numeral "1")
          (.binary (plusAt 0xffffffff) (numeral "2") (numeral "3"))
        ≠ .binary (plusAt 0xffffffff)
          (.binary (plusAt 0xffffffff) (numeral "1") (numeral "2")) (numeral "3") :=
  ⟨rfl, rfl, rfl, by decide⟩

end Descent.Expr
