import TreeWalk.Program
import TreeWalk.Proofs.Layout.Lowering

/-!
# The layout of a program

Loading lays a tree out in a fresh layout and keeps the result.  So the names and the
nodes of a program are in order, its root stands for the tree that was loaded, and no node
but the empty one has two parents.
-/

namespace TreeWalk

/-- The layout of the program that is evaluated. -/
def Context.layout (ctx : Context) : Layout := ⟨ctx.names, ctx.nodes⟩

namespace Program

variable {t : Tree} {p : Program} {settings : Settings}

/-- The layout that a program keeps. -/
def layout (p : Program) : Layout := ⟨p.names, p.nodes⟩

theorem layout_eq {l : Layout} (hnames : p.names = l.names) (hnodes : p.nodes = l.nodes) :
    p.layout = l := by
  unfold layout
  rw [hnames, hnodes]

/-- The trees that are programs are the blocks. -/
theorem ofTree_eq_ok_iff :
    ofTree t = .ok p ↔ t.kind = .suite ∧ p.root = (t.lower .fresh).1 ∧
      p.layout = (t.lower .fresh).2 := by
  unfold ofTree
  dsimp only
  by_cases hk : t.kind = .suite
  · rw [if_pos hk]
    constructor
    · intro h
      cases h
      exact ⟨hk, rfl, rfl⟩
    · rintro ⟨-, hroot, hlayout⟩
      obtain ⟨names, nodes, root⟩ := p
      rw [← hroot, ← hlayout]
      rfl
  · rw [if_neg hk]
    constructor
    · intro h
      cases h
    · rintro ⟨h, -⟩
      exact absurd h hk

/-- Every block is a program. -/
theorem exists_ofTree (ts : List Tree) : ∃ p, ofTree (.suite ts) = .ok p := ⟨_, rfl⟩

/-- A block is the program whose nodes and root are known and whose names are those of its
layout. -/
theorem ofTree_eq_of_nodes {nodes : NodeStore} {root : NodeId} (hk : t.kind = .suite)
    (hroot : root = (t.lower .fresh).1) (hnodes : nodes = (t.lower .fresh).2.nodes) :
    ofTree t = .ok ⟨(t.lower .fresh).2.names, nodes, root⟩ :=
  ofTree_eq_ok_iff.mpr ⟨hk, hroot, layout_eq rfl hnodes⟩

/-- The layout of a program is in order. -/
theorem sound_of_ofTree (h : ofTree t = .ok p) : p.layout.Sound := by
  obtain ⟨-, -, hlayout⟩ := ofTree_eq_ok_iff.mp h
  rw [hlayout]
  exact (Tree.lays_lower t .fresh).sound Layout.sound_fresh

/-- The root of a program stands for its tree. -/
theorem holds_of_ofTree (h : ofTree t = .ok p) : p.layout.Holds t p.root := by
  obtain ⟨-, hroot, hlayout⟩ := ofTree_eq_ok_iff.mp h
  rw [hroot, hlayout]
  exact Tree.holds_lower t Layout.sound_fresh

/-- Every node of a program but the empty one is referred to at most once. -/
theorem count_references_le (h : ofTree t = .ok p) {c : NodeId} (hc : c ≠ .empty) :
    p.nodes.references.count c ≤ 1 := by
  obtain ⟨-, -, hlayout⟩ := ofTree_eq_ok_iff.mp h
  have hcount := (Tree.lays_lower t .fresh).builds.count_eq c hc
  rw [← hlayout] at hcount
  have hfresh : (Layout.fresh).nodes.references.count c = 0 := rfl
  have hbetween : NodeStore.between Layout.fresh.nodes.size p.layout.nodes.size c ≤ 1 := by
    unfold NodeStore.between
    split_ifs <;> omega
  rw [hfresh] at hcount
  show p.layout.nodes.references.count c ≤ 1
  simp only [List.count_nil] at hcount
  omega

end Program

end TreeWalk
