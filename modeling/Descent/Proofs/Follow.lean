import Descent.Proofs.Derivation

/-!
# What follows a body

That a literal follows a body is said of all forms that the goal derives
(`RuleTable.Follows`). It can be worked out rule by rule. What starts the
tail of a sequence follows its head; what follows a sequence follows its
tail, and its head as well if the tail can be passed; what follows a choice
follows its branches, and what follows a reference follows the body of the
rule (`Node.Followed`). **Nothing else follows a body** in any derivation
(`RuleTable.Follows.followed`).

The reason is that in every form each body is followed, in this sense, by
whatever can start what stands behind it (`EachFollowed`), and that a step
keeps it so. Before the body that is replaced nothing new can come up,
since a body can start with whatever it expands to can start with; and
behind it nothing changes.
-/

namespace Descent

variable {table : RuleTable}

/-- **A literal that can follow a body**, by the rules. -/
inductive Node.Followed (table : RuleTable) : Node → String → Prop
  | next {h t : Node} {s : String} :
    .seq h t ∈ table.parts → t.First table (.literal s) → Followed table h s
  | head {h t : Node} {s : String} :
    .seq h t ∈ table.parts → t.Nullable table → Followed table (.seq h t) s → Followed table h s
  | tail {h t : Node} {s : String} :
    .seq h t ∈ table.parts → Followed table (.seq h t) s → Followed table t s
  | lone {h : Node} {s : String} :
    .lone h ∈ table.parts → Followed table (.lone h) s → Followed table h s
  | branch {n b : Node} {s : String} :
    n ∈ table.parts → b ∈ n.branches → Followed table n s → Followed table b s
  | rule {name : String} {r : Rule} {s : String} :
    table.get? name = some r → Followed table (.rule name) s → Followed table r.body s

/-- A literal that can start a form. -/
inductive Opens (table : RuleTable) : List Node → String → Prop
  | head {n : Node} {ns : List Node} {s : String} :
    n.First table (.literal s) → Opens table (n :: ns) s
  | tail {n : Node} {ns : List Node} {s : String} :
    n.Nullable table → Opens table ns s → Opens table (n :: ns) s

/-- **Each body of a form is followed by what can start the rest.** -/
def EachFollowed (table : RuleTable) : List Node → Prop
  | [] => True
  | n :: ns => (∀ s, Opens table ns s → n.Followed table s) ∧ EachFollowed table ns

/-- What starts a form depends on its end only through what starts that. -/
theorem Opens.mono {ns ms : List Node} (h : ∀ s, Opens table ns s → Opens table ms s)
    (pre : List Node) {s : String} (hs : Opens table (pre ++ ns) s) :
    Opens table (pre ++ ms) s := by
  induction pre with
  | nil => exact h s hs
  | cons n pre ih =>
    cases hs with
    | head hn => exact .head hn
    | tail hn hs => exact .tail hn (ih hs)

/-- **A body can start with what it expands to can start with.** -/
theorem Opens.of_expands {n : Node} {ns post : List Node} {s : String}
    (he : n.Expands table ns) (h : Opens table (ns ++ post) s) : Opens table (n :: post) s := by
  cases he with
  | seq =>
    cases h with
    | head hh => exact .head (.head hh)
    | tail hh h =>
      cases h with
      | head ht => exact .head (.tail hh ht)
      | tail ht h => exact .tail (.seq hh ht) h
  | lone =>
    cases h with
    | head hh => exact .head (.lone hh)
    | tail hh h => exact .tail (.lone hh) h
  | choice _ hb =>
    cases h with
    | head hf => exact .head (Node.first_iff_branch.mpr ⟨_, hb, hf⟩)
    | tail hn h => exact .tail (Node.nullable_iff_branch.mpr ⟨_, hb, hn⟩) h
  | rule hr =>
    cases h with
    | head hf => exact .head (.rule hr hf)
    | tail hn h => exact .tail (.rule hr hn) h
  | empty => exact .tail .empty h

namespace EachFollowed

theorem drop {pre ns : List Node} (h : EachFollowed table (pre ++ ns)) : EachFollowed table ns := by
  induction pre with
  | nil => exact h
  | cons n pre ih => exact ih h.2

/-- The end of a form may be replaced by one that starts with no more. -/
theorem replace {pre ns ms : List Node} (h : EachFollowed table (pre ++ ns))
    (hopens : ∀ s, Opens table ms s → Opens table ns s) (hms : EachFollowed table ms) :
    EachFollowed table (pre ++ ms) := by
  induction pre with
  | nil => exact hms
  | cons n pre ih => exact ⟨fun s hs => h.1 s (Opens.mono hopens pre hs), ih h.2⟩

/-- **A body may be replaced by what it expands to.** -/
theorem expand {n : Node} {ns post : List Node} (he : n.Expands table ns)
    (hn : (∃ name, n = .rule name) ∨ n ∈ table.parts) (h : EachFollowed table (n :: post)) :
    EachFollowed table (ns ++ post) := by
  obtain ⟨hfollowed, hpost⟩ := h
  cases he with
  | @seq a b =>
    have hpart : .seq a b ∈ table.parts := hn.resolve_left nofun
    refine ⟨fun s hs => ?_, fun s hs => .tail hpart (hfollowed s hs), hpost⟩
    cases hs with
    | head hb => exact .next hpart hb
    | tail hb hs => exact .head hpart hb (hfollowed s hs)
  | lone => exact ⟨fun s hs => .lone (hn.resolve_left nofun) (hfollowed s hs), hpost⟩
  | choice hc hb =>
    have hpart : n ∈ table.parts := by
      refine hn.resolve_left ?_
      rintro ⟨name, rfl⟩
      cases hc
    exact ⟨fun s hs => .branch hpart hb (hfollowed s hs), hpost⟩
  | rule hr => exact ⟨fun s hs => .rule hr (hfollowed s hs), hpost⟩
  | empty => exact hpost

end EachFollowed

/-- **In every form that a rule derives each body is followed by what can
start the rest.** -/
theorem RuleTable.Derives.eachFollowed {goal : String} {form : List Node}
    (h : table.Derives [.rule goal] form) :
    EachFollowed table form ∧ ∀ n ∈ form, (∃ name, n = .rule name) ∨ n ∈ table.parts := by
  induction h with
  | refl =>
    refine ⟨⟨nofun, trivial⟩, fun n hn => .inl ⟨goal, List.mem_singleton.mp hn⟩⟩
  | tail _ hstep ih =>
    obtain ⟨hfollowed, hparts⟩ := ih
    obtain @⟨pre, post, n, ns, he⟩ := hstep
    have hn := hparts n (List.mem_append_right _ List.mem_cons_self)
    have hend : EachFollowed table (n :: post) := hfollowed.drop
    rw [List.append_assoc]
    refine ⟨hfollowed.replace (fun s => .of_expands he) (hend.expand he hn), fun m hm => ?_⟩
    rcases List.mem_append.mp hm with hm | hm
    · exact hparts m (List.mem_append_left _ hm)
    rcases List.mem_append.mp hm with hm | hm
    · exact .inr (he.mem_parts hn m hm)
    · exact hparts m (List.mem_append_right _ (List.mem_cons_of_mem _ hm))

/-- **What follows a body follows it by the rules.** -/
theorem RuleTable.Follows.followed {goal : String} {n : Node} {s : String}
    (h : table.Follows goal n s) : n.Followed table s := by
  obtain ⟨pre, post, hderives⟩ := h
  exact hderives.eachFollowed.1.drop.1 s (.head .literal)

end Descent
