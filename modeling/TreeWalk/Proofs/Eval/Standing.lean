import TreeWalk.Proofs.Eval.Threads
import TreeWalk.Proofs.Program

/-!
# Nodes that stand for trees

The root of a program stands for a tree, and a node that stands for a tree visits nodes that
stand for the children of the tree.  `Tree.asked` are these children, and `holds_asked`
pairs them with the nodes, one by one.  A property of trees that passes from a tree to its
children is in this way a property of everything that is evaluated.
-/

namespace TreeWalk

/-- The children of a tree that are evaluated in the frame in which the tree is. -/
def Tree.asked : Tree → List (Option Tree)
  | .unary _ operand => [some operand]
  | .binary _ left right => [some left, some right]
  | .assign _ value => [some value]
  | .print argument => [argument]
  | .cond test thenBranch elseBranch => [some test, some thenBranch, elseBranch]
  | .suite statements => statements.map some
  | .call _ args => (args.getD []).map some
  | .ret value => [value]
  | _ => []

namespace Eval

variable {ctx : Context} {id c : NodeId} {n : Node} {tr : Tree}

/-- A node stands for a tree, or for a child that is absent. -/
def Stands (ctx : Context) (id : NodeId) : Prop := ∃ o, ctx.layout.HoldsOption o id

theorem forall₂_of_holdsList {ts : List Tree} {ids : List NodeId}
    (h : ctx.layout.HoldsList ts ids) :
    List.Forall₂ ctx.layout.HoldsOption (ts.map some) ids := by
  induction ts generalizing ids with
  | nil =>
    cases ids with
    | nil => exact List.Forall₂.nil
    | cons _ _ => exact h.elim
  | cons t rest ih =>
    cases ids with
    | nil => exact h.elim
    | cons id ids =>
      obtain ⟨ht, hrest⟩ := h
      exact List.Forall₂.cons ht (ih hrest)

/-- A node asks for nodes that stand for the children of its tree. -/
theorem holds_asked (h : ctx.layout.Holds tr id) (hn : ctx.nodes.get? id = some n) :
    List.Forall₂ ctx.layout.HoldsOption tr.asked (ctx.asked n) := by
  cases tr with
  | ident name =>
    obtain ⟨k, hk, -⟩ := h
    cases hn.symm.trans hk
    exact List.Forall₂.nil
  | int i =>
    cases hn.symm.trans h
    exact List.Forall₂.nil
  | float x =>
    cases hn.symm.trans h
    exact List.Forall₂.nil
  | nil =>
    cases hn.symm.trans h
    exact List.Forall₂.nil
  | unary op operand =>
    obtain ⟨i, hk, hi⟩ := h
    cases hn.symm.trans hk
    exact .cons hi .nil
  | binary op left right =>
    obtain ⟨i, j, hk, hi, hj⟩ := h
    cases hn.symm.trans hk
    exact .cons hi (.cons hj .nil)
  | assign target value =>
    obtain ⟨i, j, hk, -, hj⟩ := h
    cases hn.symm.trans hk
    exact .cons hj .nil
  | print argument =>
    obtain ⟨i, hk, hi⟩ := h
    cases hn.symm.trans hk
    exact .cons hi .nil
  | cond test thenBranch elseBranch =>
    obtain ⟨i, j, k, hk, hi, hj, hk'⟩ := h
    cases hn.symm.trans hk
    exact .cons hi (.cons hj (.cons hk' .nil))
  | suite statements =>
    obtain ⟨r, ids, hk, hr, hids⟩ := h
    cases hn.symm.trans hk
    have hr : ctx.nodes.list? r = some ids := hr
    simp only [Context.asked, hr, Option.getD_some]
    exact forall₂_of_holdsList hids
  | funcDef name params body =>
    obtain ⟨k, i, j, hk, -⟩ := h
    cases hn.symm.trans hk
    exact List.Forall₂.nil
  | call callee args =>
    obtain ⟨k, i, hk, -, hargs⟩ := h
    cases hn.symm.trans hk
    cases args with
    | none =>
      have hi : ctx.nodes.get? i = some .empty := hargs
      simp only [Context.asked, hi]
      exact List.Forall₂.nil
    | some ts =>
      obtain ⟨r, ids, hi, hr, hids⟩ := hargs
      have hi : ctx.nodes.get? i = some (.paramList r) := hi
      have hr : ctx.nodes.list? r = some ids := hr
      simp only [Context.asked, hi, hr, Option.getD_some]
      exact forall₂_of_holdsList hids
  | ret value =>
    obtain ⟨i, hk, hi⟩ := h
    cases hn.symm.trans hk
    exact .cons hi .nil

/-- What stands for an absent child asks for nothing, and other nodes ask for children of
their trees. -/
theorem exists_child_of_mem_asked {o : Option Tree} (h : ctx.layout.HoldsOption o id)
    (hn : ctx.nodes.get? id = some n) (hc : c ∈ ctx.asked n) :
    ∃ tr, o = some tr ∧ ∃ o' ∈ tr.asked, ctx.layout.HoldsOption o' c := by
  cases o with
  | none =>
    cases hn.symm.trans h
    cases hc
  | some tr =>
    obtain ⟨k, hk, rfl⟩ := List.mem_iff_getElem.mp hc
    have hpairs := holds_asked h hn
    have hlt : k < tr.asked.length := by
      rw [hpairs.length_eq]
      exact hk
    exact ⟨tr, rfl, _, List.getElem_mem hlt, hpairs.get hlt hk⟩

/-- Whatever a node asks for stands for something too. -/
theorem Stands.of_mem_asked (h : Stands ctx id) (hn : ctx.nodes.get? id = some n)
    (hc : c ∈ ctx.asked n) : Stands ctx c := by
  obtain ⟨o, ho⟩ := h
  obtain ⟨-, -, o', -, hchild⟩ := exists_child_of_mem_asked ho hn hc
  exact ⟨o', hchild⟩

/-- A node that stands for a tree and is not the empty node stands for a tree of its kind. -/
theorem exists_tree_of_ne_empty {o : Option Tree} (h : ctx.layout.HoldsOption o id)
    (hn : ctx.nodes.get? id = some n) (hne : n ≠ .empty) :
    ∃ tr, o = some tr ∧ ctx.layout.Holds tr id ∧ n.kind = tr.kind := by
  cases o with
  | none => exact absurd (Option.some.inj (hn.symm.trans h)) hne
  | some tr =>
    obtain ⟨m, hm, hkind⟩ := Layout.Holds.exists_node h
    obtain rfl : n = m := Option.some.inj (hn.symm.trans hm)
    exact ⟨tr, rfl, h, hkind⟩

end Eval

end TreeWalk
