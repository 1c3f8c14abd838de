import TreeWalk.Proofs.Layout.Lowering
import TreeWalk.Tree.Recovery

/-!
# Lowering loses nothing and lays out a tree

A node that stands for a tree is read back as this tree: `Layout.Holds` says node by node what
`Layout.recover` reads.  The bound of the reader is no obstacle, because in a layout that is in
order the children of a node have smaller numbers, so the number of the node bounds how deeply
nodes nest below it (`recoverNested_of_holds`).

What lowering adds to a fresh layout is a tree of nodes, `NodeStore.IsTree`: the root comes
last, every other node has one parent, and the lists lie side by side.  All this is known of
single constructors, and `Tree.lays_lower` carries it through a whole tree.
-/

namespace TreeWalk

/-! ## Reading back -/

namespace Layout

variable {l : Layout} {id : NodeId} {fuel : Nat}

/-- Reading items one by one. -/
theorem mapM_of_forall₂ {α β : Type} {read : α → Option β} {as : List α} {bs : List β}
    (h : List.Forall₂ (fun a b => read a = some b) as bs) : as.mapM read = some bs := by
  induction h with
  | nil => rfl
  | cons hhead _ ih => simp only [List.mapM_cons, hhead, ih, Option.bind_eq_bind, Option.bind_some,
      Option.pure_def]

theorem isAbsent_of_empty (h : l.nodes.get? id = some .empty) : l.isAbsent id = true :=
  NodeStore.isEmpty_of_get? h

theorem isAbsent_of_paramList {r : NodeRange} (h : l.nodes.get? id = some (.paramList r)) :
    l.isAbsent id = false := NodeStore.isEmpty_of_get? h

theorem paramItems?_of_get? {r : NodeRange} {ids : List NodeId}
    (h : l.nodes.get? id = some (.paramList r)) (hids : l.nodes.list? r = some ids) :
    l.paramItems? id = some ids := by
  unfold paramItems?
  rw [h]
  exact hids

theorem identString?_of_isIdent {s : String} (h : l.IsIdent id s) :
    l.identString? id = some s := by
  obtain ⟨n, hn, hs⟩ := h
  unfold identString?
  rw [hn]
  exact congrArg some hs.lookup_eq

/-- Parameters are read back, and an absent list of them as absent. -/
theorem params?_of_holds {params : Option (List String)} (h : l.HoldsParams id params) :
    l.params? id = some params := by
  unfold params?
  cases params with
  | none => rw [if_pos (isAbsent_of_empty h)]
  | some ss =>
    obtain ⟨r, ids, hr, hids, hss⟩ := h
    have hnames : ids.mapM l.identString? = some ss :=
      mapM_of_forall₂ (hss.imp fun _ _ => identString?_of_isIdent)
    rw [isAbsent_of_paramList hr, paramItems?_of_get? hr hids]
    simp [hnames]

/-- The items of a list of a store in order come before the node that has the list. -/
theorem items_lt {n : Node} {r : NodeRange} {ids : List NodeId} (hl : l.Sound)
    (hn : l.nodes.get? id = some n) (hr : n.range? = some r) (hids : l.nodes.list? r = some ids) :
    ∀ c ∈ ids, c.index < id.index := by
  obtain ⟨ids', hids', hlt⟩ := hl.nodes.items_lt hn hr
  cases hids.symm.trans hids'
  exact hlt

/-- What comes before a node is within the bound with which the node's children are read. -/
theorem lt_of_children {n : Node} (hl : l.Sound) (hn : l.nodes.get? id = some n)
    (hfuel : id.index < fuel + 1) : ∀ c ∈ n.children, c.index < fuel := fun c hc =>
  Nat.lt_of_lt_of_le (hl.nodes.children_lt hn c hc) (Nat.le_of_lt_succ hfuel)

mutual

/-- **A node that stands for a tree is read back as the tree.** -/
theorem recoverNested_of_holds (hl : l.Sound) : ∀ (t : Tree) {id : NodeId} {fuel : Nat},
    l.Holds t id → id.index < fuel → l.recoverNested fuel id = some t
  | t, id, 0, _, hfuel => absurd hfuel (Nat.not_lt_zero _)
  | .ident s, id, fuel + 1, ⟨n, hn, hs⟩, _ => by
    simp [recoverNested, hn, hs.lookup_eq]
  | .int n, id, fuel + 1, hn, _ => by
    have hn : l.nodes.get? id = some (.int n) := hn
    simp [recoverNested, hn]
  | .float x, id, fuel + 1, hn, _ => by
    have hn : l.nodes.get? id = some (.float x) := hn
    simp [recoverNested, hn]
  | .nil, id, fuel + 1, hn, _ => by
    have hn : l.nodes.get? id = some .nil := hn
    simp [recoverNested, hn]
  | .unary op a, id, fuel + 1, ⟨i, hn, ha⟩, hfuel => by
    have hlt := lt_of_children hl hn hfuel
    have hread := recoverNested_of_holds hl a ha (hlt _ (by simp [Node.children]))
    simp [recoverNested, hn, hread]
  | .binary op a b, id, fuel + 1, ⟨i, j, hn, ha, hb⟩, hfuel => by
    have hlt := lt_of_children hl hn hfuel
    have hleft := recoverNested_of_holds hl a ha (hlt _ (by simp [Node.children]))
    have hright := recoverNested_of_holds hl b hb (hlt _ (by simp [Node.children]))
    simp [recoverNested, hn, hleft, hright]
  | .assign target value, id, fuel + 1, ⟨i, j, hn, ht, hv⟩, hfuel => by
    have hlt := lt_of_children hl hn hfuel
    have hread := recoverNested_of_holds hl value hv (hlt _ (by simp [Node.children]))
    simp [recoverNested, hn, identString?_of_isIdent ht, hread]
  | .print argument, id, fuel + 1, ⟨i, hn, ha⟩, hfuel => by
    have hlt := lt_of_children hl hn hfuel
    have hread := optional?_of_holds hl argument ha (hlt _ (by simp [Node.children]))
    simp [recoverNested, hn, hread]
  | .cond test thenBranch elseBranch, id, fuel + 1, ⟨i, j, k, hn, hc, ht, he⟩, hfuel => by
    have hlt := lt_of_children hl hn hfuel
    have htest := recoverNested_of_holds hl test hc (hlt _ (by simp [Node.children]))
    have hthen := recoverNested_of_holds hl thenBranch ht (hlt _ (by simp [Node.children]))
    have helse := optional?_of_holds hl elseBranch he (hlt _ (by simp [Node.children]))
    simp [recoverNested, hn, htest, hthen, helse]
  | .suite ts, id, fuel + 1, ⟨r, ids, hn, hr, hts⟩, hfuel => by
    have hlt := items_lt hl hn rfl hr
    have hread := mapM_of_holdsList hl ts hts fun c hc =>
      Nat.lt_of_lt_of_le (hlt c hc) (Nat.le_of_lt_succ hfuel)
    simp [recoverNested, hn, hr, hread]
  | .funcDef name params body, id, fuel + 1, ⟨n, i, j, hn, hs, hp, hb⟩, hfuel => by
    have hlt := lt_of_children hl hn hfuel
    have hread := recoverNested_of_holds hl body hb (hlt _ (by simp [Node.children]))
    simp [recoverNested, hn, hs.lookup_eq, params?_of_holds hp, hread]
  | .call callee args, id, fuel + 1, ⟨n, i, hn, hs, ha⟩, hfuel => by
    have hlt := lt_of_children hl hn hfuel
    have hread := args?_of_holds hl args ha (hlt _ (by simp [Node.children]))
    simp [recoverNested, hn, hs.lookup_eq, hread]
  | .ret value, id, fuel + 1, ⟨i, hn, hv⟩, hfuel => by
    have hlt := lt_of_children hl hn hfuel
    have hread := optional?_of_holds hl value hv (hlt _ (by simp [Node.children]))
    simp [recoverNested, hn, hread]

theorem optional?_of_holds (hl : l.Sound) : ∀ (o : Option Tree) {id : NodeId} {fuel : Nat},
    l.HoldsOption o id → id.index < fuel → l.optional? (l.recoverNested fuel) id = some o
  | none, id, fuel, ho, _ => if_pos (isAbsent_of_empty ho)
  | some t, id, fuel, ho, hfuel => by
    have hpresent : l.isAbsent id = false := Holds.isEmpty_eq ho
    have hread := recoverNested_of_holds hl t ho hfuel
    simp [optional?, hpresent, hread]

theorem mapM_of_holdsList (hl : l.Sound) : ∀ (ts : List Tree) {ids : List NodeId} {fuel : Nat},
    l.HoldsList ts ids → (∀ i ∈ ids, i.index < fuel) →
      ids.mapM (l.recoverNested fuel) = some ts
  | [], [], _, _, _ => rfl
  | t :: ts, id :: ids, fuel, ⟨ht, hts⟩, hfuel => by
    obtain ⟨hid, hids⟩ := List.forall_mem_cons.mp hfuel
    have hhead := recoverNested_of_holds hl t ht hid
    have htail := mapM_of_holdsList hl ts hts hids
    simp [List.mapM_cons, hhead, htail]

theorem args?_of_holds (hl : l.Sound) : ∀ (o : Option (List Tree)) {id : NodeId} {fuel : Nat},
    l.HoldsArgs o id → id.index < fuel → l.args? (l.recoverNested fuel) id = some o
  | none, id, fuel, ho, _ => if_pos (isAbsent_of_empty ho)
  | some ts, id, fuel, ⟨r, ids, hn, hr, hts⟩, hfuel => by
    have hlt := items_lt hl hn rfl hr
    have hread := mapM_of_holdsList hl ts hts fun c hc => Nat.lt_trans (hlt c hc) hfuel
    simp [args?, isAbsent_of_paramList hn, paramItems?_of_get? hn hr, hread]

end

/-- A node of a layout in order that stands for a tree is the root of the tree. -/
theorem recover_of_holds (hl : l.Sound) {t : Tree} (h : l.Holds t id) : l.recover id = some t :=
  recoverNested_of_holds hl t h (Nat.lt_succ_self _)

end Layout

/-! ## A tree of nodes -/

namespace NodeStore

/-- The nodes of a store form a tree below a root, and its lists share the storage of items
among them. -/
structure IsTree (s : NodeStore) (root : NodeId) : Prop extends s.Ordered where
  /-- The root is the last node. -/
  root_last : root.index + 1 = s.size
  /-- Nothing refers to the root. -/
  count_root : s.references.count root = 0
  /-- Every other node but the empty one is referred to once. -/
  count_eq_one : ∀ ⦃id⦄, id.index < s.size → id ≠ .empty → id ≠ root → s.references.count id = 1
  /-- The lists of different nodes do not overlap. -/
  disjoint : ∀ ⦃id id' n n' r r'⦄, s.get? id = some n → s.get? id' = some n' →
    n.range? = some r → n'.range? = some r' → id ≠ id' →
      r.start + r.size ≤ r'.start ∨ r'.start + r'.size ≤ r.start
  /-- Every item belongs to a list. -/
  covered : ∀ ⦃k⦄, k < s.items.size → ∃ id n r, s.get? id = some n ∧ n.range? = some r ∧
    r.start ≤ k ∧ k < r.start + r.size

/-- Of two lists in a row that tiles the storage, one ends before the other begins. -/
theorem Tiled.disjoint {s : NodeStore} (hs : s.Tiled) {id id' : NodeId} {n n' : Node}
    {r r' : NodeRange} (hn : s.get? id = some n) (hn' : s.get? id' = some n')
    (hr : n.range? = some r) (hr' : n'.range? = some r') (hne : id ≠ id') :
    r.start + r.size ≤ r'.start ∨ r'.start + r'.size ≤ r.start := by
  have hindex : id.index ≠ id'.index := fun h => hne (by cases id; cases id'; exact congrArg _ h)
  rcases Nat.lt_or_gt_of_ne hindex with hlt | hlt
  · exact Or.inl (hs.le_start_of_lt hn hn' hr hr' hlt)
  · exact Or.inr (hs.le_start_of_lt hn' hn hr' hr hlt)

theorem index_add (s : NodeStore) (node : Node) :
    (s.add node).1.index + 1 = (s.add node).2.size := (size_add s node).symm

/-- What is built from nothing around a single root that comes last is a tree. -/
theorem Builds.isTree {s : NodeStore} {root : NodeId} (h : fresh.Builds [] s [root])
    (hlast : root.index + 1 = s.size) (hroot : root ≠ .empty) : s.IsTree root := by
  have hcount {id : NodeId} (hid : id ≠ .empty) :
      s.references.count id + [root].count id = between 1 s.size id := by
    have hall := h.count_eq id hid
    rw [show fresh.references.count id = 0 from rfl, List.count_nil, Nat.zero_add] at hall
    simpa using hall
  have hpos {id : NodeId} (hid : id ≠ .empty) : 1 ≤ id.index :=
    Nat.pos_of_ne_zero fun h0 => hid (by cases id; exact congrArg _ h0)
  have htiled := h.tiled tiled_fresh
  refine { (h.ordered ordered_fresh (by simp)).1 with
    root_last := hlast, count_root := ?_, count_eq_one := fun id hsize hid hne => ?_,
    disjoint := fun _ _ _ _ _ _ => htiled.disjoint, covered := fun _ => htiled.exists_range }
  · have hall := hcount hroot
    rw [between, if_pos ⟨hpos hroot, by omega⟩, List.count_singleton_self] at hall
    omega
  · have hall := hcount hid
    rw [between, if_pos ⟨hpos hid, hsize⟩, List.count_singleton,
      if_neg (by simpa using Ne.symm hne)] at hall
    exact hall

end NodeStore

namespace Tree

/-- The root of a tree is laid out after everything else. -/
theorem root_last (t : Tree) (l : Layout) :
    (t.lower l).1.index + 1 = (t.lower l).2.nodes.size := by
  cases t <;> exact NodeStore.index_add _ _

/-- A tree that is laid out from the beginning is a tree of nodes. -/
theorem isTree_lower (t : Tree) : (t.lower .fresh).2.nodes.IsTree (t.lower .fresh).1 := by
  refine (lays_lower t .fresh).builds.isTree (root_last t .fresh) fun hempty => ?_
  have hholds := Layout.Holds.isEmpty_eq (holds_lower t Layout.sound_fresh)
  have hsound := (lays_lower t .fresh).sound Layout.sound_fresh
  rw [hempty, hsound.nodes.isEmpty_iff.mpr rfl] at hholds
  cases hholds

end Tree

/-! ## Nothing is lost -/

namespace Layout

/-- **Lowering loses nothing and lays out a tree.**  From the number with which lowering
answers, in any layout in order, the same tree is read back: names through the table, the empty
node in an optional slot as an absent child, an empty list apart from an absent one, integers as
the very same numbers and floats bit for bit.  The layout stays in order and what was read in it
before is read in it again, so trees can be laid out one behind another.  The first of them is
the only tree of its store: its root is the last node, no other node lacks a parent or has two,
and the lists share the storage of items among them. -/
theorem lowering_lossless (t : Tree) :
    (∀ l : Layout, l.Sound →
      (t.lower l).2.Sound ∧ (t.lower l).2.recover (t.lower l).1 = some t ∧
        ∀ u id, l.Holds u id → (t.lower l).2.recover id = some u) ∧
      fresh.Sound ∧ (t.lower fresh).2.nodes.IsTree (t.lower fresh).1 := by
  refine ⟨fun l hl => ?_, sound_fresh, t.isTree_lower⟩
  have hsound := (Tree.lays_lower t l).sound hl
  refine ⟨hsound, recover_of_holds hsound (Tree.holds_lower t hl), fun u id hu => ?_⟩
  exact recover_of_holds hsound (hu.of_grows (Tree.lays_lower t l).grows)

/-- Two definitions, of which only the second declares a list of parameters, an empty one. -/
def twoDefinitions : Tree :=
  .suite [.funcDef "f" none (.ret none),
    .funcDef "g" (some []) (.print (some (.call "f" none))), .call "g" (some [])]

/-- Behind another tree the two definitions are read back apart, and so is the other tree. -/
theorem lowering_lossless_twoDefinitions :
    ((Tree.int 7).lower fresh).2.Sound ∧
      (twoDefinitions.lower ((Tree.int 7).lower fresh).2).1 = ⟨10⟩ ∧
      (twoDefinitions.lower ((Tree.int 7).lower fresh).2).2.recover ⟨10⟩ = some twoDefinitions ∧
      (twoDefinitions.lower ((Tree.int 7).lower fresh).2).2.recover ⟨1⟩ = some (.int 7) := by
  have hsound := ((lowering_lossless (.int 7)).1 fresh sound_fresh).1
  have hroot : (twoDefinitions.lower ((Tree.int 7).lower fresh).2).1 = ⟨10⟩ := by decide
  obtain ⟨-, hread, hkept⟩ := (lowering_lossless twoDefinitions).1 _ hsound
  rw [hroot] at hread
  exact ⟨hsound, hroot, hread, hkept (.int 7) ⟨1⟩ (Tree.holds_lower (.int 7) sound_fresh)⟩

end Layout

end TreeWalk
