import TreeWalk.Interpreter
import TreeWalk.Tree.Lowering

/-!
# Machines

Names, nodes, items of lists and values are referred to by their positions, and the stores take
as many of them as they are given.  A machine writes a position into 32 bits.  So it tells
`capacity` things of a kind apart, and when there is one more, it gives up.

This is the only way in which the machine and the stores differ, and it is laid down here for
all of them.  A table, a store or a state `Fits` if there is a position for each thing in it.
Stores never shrink, so what fits in the end has fitted all along.

## Evaluation

`Machine.eval` and `Machine.run` are evaluations and runs on the machine.  A rule stores one
value at most, and it does so at the end.  Hence it is enough to look at the store when a rule is
through: if it holds a value without a handle, the evaluation and everything around it are given
up, which is the outcome `full`.

Nothing else is limited.  In particular there is memory for whatever fits.
-/

namespace TreeWalk

/-- How many positions 32 bits can tell apart. -/
def capacity : Nat := NameError.maxIndex + 1

/-- There is a name for each string. -/
def NameTable.Fits (t : NameTable) : Prop := t.size ≤ capacity

instance (t : NameTable) : Decidable t.Fits := inferInstanceAs (Decidable (_ ≤ _))

/-- Where a list begins and how many items it has are written down. -/
def NodeRange.Fits (r : NodeRange) : Prop := r.start < capacity ∧ r.size < capacity

instance (r : NodeRange) : Decidable r.Fits := inferInstanceAs (Decidable (_ ∧ _))

/-- There is a number for each node, and a range for each list. -/
structure NodeStore.Fits (s : NodeStore) : Prop where
  /-- Nodes have numbers. -/
  size_le : s.size ≤ capacity
  /-- Lists have ranges. -/
  ranges : ∀ n ∈ s.nodes, ∀ r ∈ n.range?, r.Fits

instance (s : NodeStore) : Decidable s.Fits :=
  decidable_of_iff (s.size ≤ capacity ∧ ∀ n ∈ s.nodes, ∀ r ∈ n.range?, r.Fits)
    ⟨fun h => ⟨h.1, h.2⟩, fun h => ⟨h.size_le, h.ranges⟩⟩

/-- There is a position for everything in the layout of a tree. -/
structure Tree.Fits (t : Tree) : Prop where
  /-- Strings have names. -/
  names : (t.lower .fresh).2.names.Fits
  /-- Nodes have numbers. -/
  nodes : (t.lower .fresh).2.nodes.Fits

instance (t : Tree) : Decidable t.Fits :=
  decidable_of_iff ((t.lower .fresh).2.names.Fits ∧ (t.lower .fresh).2.nodes.Fits)
    ⟨fun h => ⟨h.1, h.2⟩, fun h => ⟨h.names, h.nodes⟩⟩

/-- There is a handle for each value. -/
def State.Fits (s : State) : Prop := s.values.size ≤ capacity

instance (s : State) : Decidable s.Fits := inferInstanceAs (Decidable (_ ≤ _))

namespace Machine

/-- What becomes of an evaluation once its values are looked at. -/
def checked {α : Type} (o : Outcome α) : Outcome α :=
  match o.state? with
  | some s => if s.Fits then o else .full s
  | none => o

/-- The evaluation of a node on the machine, with at most `fuel` evaluations nested in one
another. -/
def nested (ctx : Context) : Nat → NodeId → Eval Flow
  | 0, _ => fun _ => .exhausted
  | fuel + 1, id => fun s => checked (Eval.step ctx (nested ctx fuel) id s)

/-- The evaluation of a node on the machine. -/
def eval (ctx : Context) (id : NodeId) : Eval Flow := fun s =>
  nested ctx (Eval.fuel ctx s.env.limit) id s

/-- Evaluate a root on the machine and yield its value. -/
def run (ctx : Context) (root : NodeId) : Eval (Option Value) := fun s =>
  Eval.finish (eval ctx root s)

end Machine

end TreeWalk
