import TreeWalk.Tree.Depth

/-!
# Lowering goes as deep as the tree

A path down a tree has no more trees than its nesting (`IsPath.length_le`), and the nesting is at
most one more than the number of containers that are open at a time where the tree is written down
(`nesting_le_opens`): every tree below another takes a container of its own but for a bare name,
below which there is nothing.

Lowering with a bound comes to the same as lowering without, if the bound is not below the nesting,
and otherwise to nothing (`lowerNested_eq`).  So the nesting is what lowering needs, for every tree
and behind whatever was laid out before.
-/

namespace TreeWalk

namespace Tree

variable {t : Tree} {levels : Nat}

/-! ## Paths -/

theorem nesting_pos (t : Tree) : 0 < t.nesting := by
  cases t <;> simp [nesting]

theorem nestingOption_eq (o : Option Tree) : nestingOption o = nestingList o.toList := by
  cases o <;> simp [nestingOption, nestingList]

/-- A tree nests once more than the deepest of its children. -/
theorem nesting_eq (t : Tree) : t.nesting = nestingList t.children + 1 := by
  cases t with
  | cond test thenBranch elseBranch =>
    simp only [nesting, children, nestingList, nestingOption_eq]
    omega
  | print argument => rw [nesting, children, nestingOption_eq]
  | ret value => rw [nesting, children, nestingOption_eq]
  | call callee args => cases args <;> rfl
  | _ => simp [nesting, children, nestingList]

theorem nesting_le_of_mem {ts : List Tree} (h : t ∈ ts) : t.nesting ≤ nestingList ts := by
  induction ts with
  | nil => cases h
  | cons u rest ih =>
    rcases List.mem_cons.mp h with rfl | h
    · exact Nat.le_max_left _ _
    · exact Nat.le_trans (ih h) (Nat.le_max_right _ _)

/-- **A path has no more trees than the nesting says.** -/
theorem IsPath.length_le {path : List Tree} (h : t.IsPath path) : path.length ≤ t.nesting := by
  induction h with
  | stop t => exact t.nesting_pos
  | @step t child path hchild _ ih =>
    have hle := nesting_le_of_mem hchild
    rw [nesting_eq, List.length_cons]
    omega

/-! ## Containers -/

mutual

/-- **Trees nest no deeper than containers, and once more at the most.** -/
theorem nesting_le_opens : ∀ t : Tree, t.nesting ≤ t.opens + 1
  | ident _ => Nat.le_succ _
  | int _ => Nat.le_succ _
  | float _ => Nat.le_succ _
  | nil => Nat.le_refl _
  | unary _ operand => by
    have hoperand := nesting_le_opens operand
    simp only [nesting, opens]
    omega
  | binary _ left right => by
    have hleft := nesting_le_opens left
    have hright := nesting_le_opens right
    simp only [nesting, opens]
    omega
  | assign _ value => by
    have hvalue := nesting_le_opens value
    simp only [nesting, opens]
    omega
  | print argument => Nat.succ_le_succ (nestingOption_le_opens argument)
  | cond test thenBranch elseBranch => by
    have htest := nesting_le_opens test
    have hthen := nesting_le_opens thenBranch
    have helse := nestingOption_le_opens elseBranch
    simp only [nesting, opens]
    omega
  | suite statements => by
    have hstatements := nestingList_le_opens statements
    simp only [nesting, opens]
    omega
  | funcDef _ _ body => by
    have hbody := nesting_le_opens body
    simp only [nesting, opens]
    omega
  | call _ none => by simp [nesting, nestingArgs]
  | call _ (some ts) => by
    have hargs := nestingList_le_opens ts
    simp only [nesting, nestingArgs, opens, opensArgs]
    omega
  | ret value => Nat.succ_le_succ (nestingOption_le_opens value)

theorem nestingOption_le_opens : ∀ o : Option Tree, nestingOption o ≤ opensOption o + 1
  | none => Nat.zero_le _
  | some t => nesting_le_opens t

theorem nestingList_le_opens : ∀ ts : List Tree, nestingList ts ≤ opensList ts + 1
  | [] => Nat.zero_le _
  | t :: rest => by
    have ht := nesting_le_opens t
    have hrest := nestingList_le_opens rest
    simp only [nestingList, opensList]
    omega

end

/-! ## Lowering with a bound -/

/-- One step after another, of which either may be over its bound. -/
theorem bounded_bind {α β : Type} {p q : Prop} [Decidable p] [Decidable q] {a : α} {b : β}
    {f : α → Option β} (h : f a = if q then some b else none) :
    ((if p then some a else none) >>= f) = if p ∧ q then some b else none := by
  by_cases hp : p
  · simpa [hp] using h
  · simp [hp]

section

variable {low : Tree → Layout → Option (NodeId × Layout)}

/-- A way to lay out trees that nest no deeper than so many levels. -/
def LowersTo (levels : Nat) (low : Tree → Layout → Option (NodeId × Layout)) : Prop :=
  ∀ t l, low t l = if t.nesting ≤ levels then some (t.lower l) else none

theorem LowersTo.lowerOptionBy_eq (h : LowersTo levels low) (o : Option Tree) (l : Layout) :
    lowerOptionBy low o l = if nestingOption o ≤ levels then some (lowerOption o l) else none := by
  cases o with
  | none => rfl
  | some t => exact h t l

theorem LowersTo.lowerListBy_eq (h : LowersTo levels low) (ts : List Tree) (l : Layout) :
    lowerListBy low ts l = if nestingList ts ≤ levels then some (lowerList ts l) else none := by
  induction ts generalizing l with
  | nil => rfl
  | cons t rest ih =>
    simp only [lowerListBy, nestingList, Nat.max_le, h t l]
    refine bounded_bind ?_
    simp only [ih]
    split <;> rfl

theorem LowersTo.lowerArgsBy_eq (h : LowersTo levels low) (args : Option (List Tree))
    (l : Layout) :
    lowerArgsBy low args l =
      if nestingArgs args ≤ levels then some (lowerArgs args l) else none := by
  cases args with
  | none => rfl
  | some ts =>
    simp only [lowerArgsBy, nestingArgs, h.lowerListBy_eq]
    by_cases hts : nestingList ts ≤ levels
    · simp [hts, lowerArgs]
    · simp [hts]

end

/-- **The nesting is what lowering needs.** -/
theorem lowerNested_eq (levels : Nat) : LowersTo levels (lowerNested levels) := by
  induction levels with
  | zero => exact fun t l => (if_neg (Nat.not_le.mpr t.nesting_pos)).symm
  | succ levels ih =>
    intro t l
    cases t with
    | ident name => rfl
    | int n => rfl
    | float x => rfl
    | nil => rfl
    | unary op operand =>
      simp only [lowerNested, nesting, lower, ih operand, Nat.add_le_add_iff_right]
      split <;> rfl
    | binary op left right =>
      simp only [lowerNested, nesting, Nat.add_le_add_iff_right, Nat.max_le, ih left]
      refine bounded_bind ?_
      simp only [ih right]
      split <;> rfl
    | assign target value =>
      simp only [lowerNested, nesting, lower, ih value, Nat.add_le_add_iff_right]
      split <;> rfl
    | print argument =>
      simp only [lowerNested, nesting, lower, ih.lowerOptionBy_eq, Nat.add_le_add_iff_right]
      split <;> rfl
    | cond test thenBranch elseBranch =>
      simp only [lowerNested, nesting, Nat.add_le_add_iff_right, Nat.max_le, and_assoc, ih test]
      refine bounded_bind ?_
      simp only [ih thenBranch]
      refine bounded_bind ?_
      simp only [ih.lowerOptionBy_eq]
      split <;> rfl
    | suite statements =>
      simp only [lowerNested, nesting, lower, ih.lowerListBy_eq, Nat.add_le_add_iff_right]
      split <;> rfl
    | funcDef name params body =>
      simp only [lowerNested, nesting, lower, ih body, Nat.add_le_add_iff_right]
      split <;> rfl
    | call callee args =>
      simp only [lowerNested, nesting, lower, ih.lowerArgsBy_eq, Nat.add_le_add_iff_right]
      split <;> rfl
    | ret value =>
      simp only [lowerNested, nesting, lower, ih.lowerOptionBy_eq, Nat.add_le_add_iff_right]
      split <;> rfl

end Tree

end TreeWalk
