import TreeWalk.Proofs.Layout.Names
import TreeWalk.Proofs.Layout.Nodes
import TreeWalk.Tree.Lowering

/-!
# What lowering lays out

`Layout.Holds` says, without lowering anything, that a node of a layout stands for a tree:
node by node it has the right kind, its names stand for the right strings, and its
children stand for the children of the tree, where the empty node stands for a child that
is absent.

The main statements are `lays_lower`, which says how lowering changes a layout, and
`holds_lower`, which says that the node it answers with stands for the tree.  Lowering
works on a layout that other trees were laid out in before, and what comes later leaves
them in place, so `Layout.Holds.of_grows` is used at every node with several children.
-/

namespace TreeWalk

namespace Layout

variable {l m k : Layout} {id : NodeId}

/-! ## Growth -/

/-- What can be read in the first layout reads the same in the second. -/
structure Grows (l m : Layout) : Prop where
  /-- Names keep their strings. -/
  names : l.names.Grows m.names
  /-- Nodes and lists stay. -/
  nodes : l.nodes.Grows m.nodes

theorem Grows.trans (hlm : l.Grows m) (hmk : m.Grows k) : l.Grows k :=
  ⟨hlm.names.trans hmk.names, hlm.nodes.trans hmk.nodes⟩

/-- The layout `l` was extended to `m`.  Names are still told apart by their strings, and
the nodes were built from those of `waiting` up to those of `roots`. -/
structure Lays (l : Layout) (waiting : List NodeId) (m : Layout) (roots : List NodeId) :
    Prop where
  /-- Names keep their strings. -/
  names_grow : l.names.Grows m.names
  /-- The table of names stays a bijection. -/
  consistent : l.names.Consistent → m.names.Consistent
  /-- The store of nodes is built up. -/
  builds : l.nodes.Builds waiting m.nodes roots

/-- Names are told apart by their strings, and nodes come after their children. -/
structure Sound (l : Layout) : Prop where
  /-- The table of names is a bijection. -/
  names : l.names.Consistent
  /-- The store of nodes is in order. -/
  nodes : l.nodes.Ordered

theorem sound_fresh : fresh.Sound := ⟨NameTable.consistent_fresh, NodeStore.ordered_fresh⟩

namespace Lays

variable {ws rs qs : List NodeId}

theorem grows (h : l.Lays ws m rs) : l.Grows m := ⟨h.names_grow, h.builds.grows⟩

theorem sound (h : l.Lays [] m rs) (hl : l.Sound) : m.Sound :=
  ⟨h.consistent hl.names, (h.builds.ordered hl.nodes (by simp)).1⟩

theorem refl (l : Layout) (ws : List NodeId) : l.Lays ws l ws :=
  ⟨.refl _, fun h => h, .refl _ ws⟩

theorem trans (hlm : l.Lays ws m rs) (hmk : m.Lays rs k qs) : l.Lays ws k qs :=
  ⟨hlm.names_grow.trans hmk.names_grow, fun h => hmk.consistent (hlm.consistent h),
    hlm.builds.trans hmk.builds⟩

theorem beside (h : l.Lays ws m rs) (left right : List NodeId) :
    l.Lays (left ++ ws ++ right) m (left ++ rs ++ right) :=
  ⟨h.names_grow, h.consistent, h.builds.beside left right⟩

/-- The empty node is there for every slot that needs it. -/
theorem empty (l : Layout) : l.Lays [] l [NodeId.empty] :=
  ⟨.refl _, fun h => h, .empty _⟩

/-- Naming a string leaves the nodes alone. -/
theorem intern (l : Layout) (s : String) (ws : List NodeId) : l.Lays ws (l.intern s).2 ws :=
  ⟨l.names.grows_intern s, fun h => NameTable.consistent_intern h s, .refl _ ws⟩

theorem internParams (l : Layout) (params : Option (List String)) (ws : List NodeId) :
    l.Lays ws (l.internParams params).2 ws := by
  cases params with
  | none => exact refl l ws
  | some ss =>
    exact ⟨l.names.grows_internAll ss, fun h => NameTable.consistent_internAll h ss, .refl _ ws⟩

/-- Building a node leaves the names alone. -/
theorem build {make : NodeStore → NodeId × NodeStore}
    (h : l.nodes.Builds ws (make l.nodes).2 [(make l.nodes).1]) :
    l.Lays ws (l.build make).2 [(l.build make).1] :=
  ⟨.refl _, fun h => h, h⟩

/-- A node without a list takes its children. -/
theorem add (l : Layout) (node : Node) (hne : node ≠ .empty) (hr : node.range? = none) :
    l.Lays node.children (l.build (·.add node)).2 [(l.build (·.add node)).1] :=
  build (l.nodes.builds_add node hne hr)

end Lays

/-! ## Nodes that stand for trees -/

/-- A node is an identifier with the given string. -/
def IsIdent (l : Layout) (id : NodeId) (s : String) : Prop :=
  ∃ n, l.nodes.get? id = some (.ident n) ∧ l.names.Holds n s

/-- A node stands for the parameters of a function definition. -/
def HoldsParams (l : Layout) (id : NodeId) : Option (List String) → Prop
  | none => l.nodes.get? id = some .empty
  | some ss => ∃ r ids, l.nodes.get? id = some (.paramList r) ∧
      l.nodes.list? r = some ids ∧ List.Forall₂ l.IsIdent ids ss

mutual

/-- A node stands for a tree. -/
def Holds (l : Layout) : Tree → NodeId → Prop
  | .ident s, id => l.IsIdent id s
  | .int n, id => l.nodes.get? id = some (.int n)
  | .float x, id => l.nodes.get? id = some (.float x)
  | .nil, id => l.nodes.get? id = some .nil
  | .unary op a, id => ∃ i, l.nodes.get? id = some (.unary op i) ∧ l.Holds a i
  | .binary op a b, id =>
    ∃ i j, l.nodes.get? id = some (.binary op i j) ∧ l.Holds a i ∧ l.Holds b j
  | .assign target value, id =>
    ∃ i j, l.nodes.get? id = some (.assign i j) ∧ l.IsIdent i target ∧ l.Holds value j
  | .print argument, id => ∃ i, l.nodes.get? id = some (.print i) ∧ l.HoldsOption argument i
  | .cond test thenBranch elseBranch, id =>
    ∃ i j k, l.nodes.get? id = some (.cond i j k) ∧ l.Holds test i ∧ l.Holds thenBranch j ∧
      l.HoldsOption elseBranch k
  | .suite ts, id =>
    ∃ r ids, l.nodes.get? id = some (.suite r) ∧ l.nodes.list? r = some ids ∧ l.HoldsList ts ids
  | .funcDef name params body, id =>
    ∃ n i j, l.nodes.get? id = some (.funcDef n i j) ∧ l.names.Holds n name ∧
      l.HoldsParams i params ∧ l.Holds body j
  | .call callee args, id =>
    ∃ n i, l.nodes.get? id = some (.call n i) ∧ l.names.Holds n callee ∧ l.HoldsArgs args i
  | .ret value, id => ∃ i, l.nodes.get? id = some (.ret i) ∧ l.HoldsOption value i

/-- A node stands for a child that may be absent. -/
def HoldsOption (l : Layout) : Option Tree → NodeId → Prop
  | none, id => l.nodes.get? id = some .empty
  | some t, id => l.Holds t id

/-- Nodes stand for trees, one by one. -/
def HoldsList (l : Layout) : List Tree → List NodeId → Prop
  | [], [] => True
  | t :: ts, id :: ids => l.Holds t id ∧ l.HoldsList ts ids
  | _, _ => False

/-- A node stands for the arguments of a call. -/
def HoldsArgs (l : Layout) : Option (List Tree) → NodeId → Prop
  | none, id => l.nodes.get? id = some .empty
  | some ts, id => ∃ r ids, l.nodes.get? id = some (.paramList r) ∧
      l.nodes.list? r = some ids ∧ l.HoldsList ts ids

end

/-- Identifier nodes for names that stand for strings. -/
theorem forall₂_isIdent {ids : List NodeId} {ns : List Name} {ss : List String}
    (hids : List.Forall₂ (fun i n => l.nodes.get? i = some (.ident n)) ids ns)
    (hns : List.Forall₂ l.names.Holds ns ss) : List.Forall₂ l.IsIdent ids ss := by
  induction hids generalizing ss with
  | nil =>
    cases hns
    exact List.Forall₂.nil
  | cons hi _ ih =>
    cases hns with
    | cons hn hrest => exact List.Forall₂.cons ⟨_, hi, hn⟩ (ih hrest)

theorem IsIdent.of_grows (h : l.Grows m) {s : String} : l.IsIdent id s → m.IsIdent id s := by
  rintro ⟨n, hn, hs⟩
  exact ⟨n, h.nodes.get? hn, h.names hs⟩

theorem HoldsParams.of_grows (h : l.Grows m) {params : Option (List String)} :
    l.HoldsParams id params → m.HoldsParams id params := by
  cases params with
  | none => exact fun hp => h.nodes.get? hp
  | some ss =>
    rintro ⟨r, ids, hr, hi, hs⟩
    exact ⟨r, ids, h.nodes.get? hr, h.nodes.list? hi, hs.imp fun _ _ => IsIdent.of_grows h⟩

mutual

/-- A node keeps standing for its tree while the layout grows. -/
theorem Holds.of_grows (h : l.Grows m) : ∀ {t : Tree} {id : NodeId}, l.Holds t id → m.Holds t id
  | .ident _, _, ht => IsIdent.of_grows h ht
  | .int _, _, ht => h.nodes.get? ht
  | .float _, _, ht => h.nodes.get? ht
  | .nil, _, ht => h.nodes.get? ht
  | .unary _ _, _, ⟨i, hn, ha⟩ => ⟨i, h.nodes.get? hn, Holds.of_grows h ha⟩
  | .binary _ _ _, _, ⟨i, j, hn, ha, hb⟩ =>
    ⟨i, j, h.nodes.get? hn, Holds.of_grows h ha, Holds.of_grows h hb⟩
  | .assign _ _, _, ⟨i, j, hn, ht, hv⟩ =>
    ⟨i, j, h.nodes.get? hn, IsIdent.of_grows h ht, Holds.of_grows h hv⟩
  | .print _, _, ⟨i, hn, ha⟩ => ⟨i, h.nodes.get? hn, HoldsOption.of_grows h ha⟩
  | .cond _ _ _, _, ⟨i, j, k, hn, hc, ht, he⟩ =>
    ⟨i, j, k, h.nodes.get? hn, Holds.of_grows h hc, Holds.of_grows h ht,
      HoldsOption.of_grows h he⟩
  | .suite _, _, ⟨r, ids, hn, hr, hs⟩ =>
    ⟨r, ids, h.nodes.get? hn, h.nodes.list? hr, HoldsList.of_grows h hs⟩
  | .funcDef _ _ _, _, ⟨n, i, j, hn, hs, hp, hb⟩ =>
    ⟨n, i, j, h.nodes.get? hn, h.names hs, HoldsParams.of_grows h hp, Holds.of_grows h hb⟩
  | .call _ _, _, ⟨n, i, hn, hs, ha⟩ =>
    ⟨n, i, h.nodes.get? hn, h.names hs, HoldsArgs.of_grows h ha⟩
  | .ret _, _, ⟨i, hn, hv⟩ => ⟨i, h.nodes.get? hn, HoldsOption.of_grows h hv⟩

theorem HoldsOption.of_grows (h : l.Grows m) :
    ∀ {o : Option Tree} {id : NodeId}, l.HoldsOption o id → m.HoldsOption o id
  | none, _, ho => h.nodes.get? ho
  | some _, _, ho => Holds.of_grows h ho

theorem HoldsList.of_grows (h : l.Grows m) :
    ∀ {ts : List Tree} {ids : List NodeId}, l.HoldsList ts ids → m.HoldsList ts ids
  | [], [], _ => trivial
  | _ :: _, _ :: _, ⟨ht, hts⟩ => ⟨Holds.of_grows h ht, HoldsList.of_grows h hts⟩

theorem HoldsArgs.of_grows (h : l.Grows m) :
    ∀ {o : Option (List Tree)} {id : NodeId}, l.HoldsArgs o id → m.HoldsArgs o id
  | none, _, ho => h.nodes.get? ho
  | some _, _, ⟨r, ids, hn, hr, hs⟩ =>
    ⟨r, ids, h.nodes.get? hn, h.nodes.list? hr, HoldsList.of_grows h hs⟩

end

/-- A node that stands for a tree has the kind of the tree. -/
theorem Holds.exists_node {t : Tree} (h : l.Holds t id) :
    ∃ node, l.nodes.get? id = some node ∧ node.kind = t.kind := by
  cases t with
  | ident s => obtain ⟨n, hn, -⟩ := h; exact ⟨_, hn, rfl⟩
  | int n => exact ⟨_, h, rfl⟩
  | float x => exact ⟨_, h, rfl⟩
  | nil => exact ⟨_, h, rfl⟩
  | unary op a => obtain ⟨i, hn, -⟩ := h; exact ⟨_, hn, rfl⟩
  | binary op a b => obtain ⟨i, j, hn, -⟩ := h; exact ⟨_, hn, rfl⟩
  | assign target value => obtain ⟨i, j, hn, -⟩ := h; exact ⟨_, hn, rfl⟩
  | print argument => obtain ⟨i, hn, -⟩ := h; exact ⟨_, hn, rfl⟩
  | cond test thenBranch elseBranch => obtain ⟨i, j, k, hn, -⟩ := h; exact ⟨_, hn, rfl⟩
  | suite ts => obtain ⟨r, ids, hn, -⟩ := h; exact ⟨_, hn, rfl⟩
  | funcDef name params body => obtain ⟨n, i, j, hn, -⟩ := h; exact ⟨_, hn, rfl⟩
  | call callee args => obtain ⟨n, i, hn, -⟩ := h; exact ⟨_, hn, rfl⟩
  | ret value => obtain ⟨i, hn, -⟩ := h; exact ⟨_, hn, rfl⟩

/-- A node that stands for a tree is not the empty node. -/
theorem Holds.isEmpty_eq {t : Tree} (h : l.Holds t id) : l.nodes.isEmpty id = false := by
  obtain ⟨node, hn, hk⟩ := h.exists_node
  rw [NodeStore.isEmpty_of_get? hn, beq_eq_false_iff_ne]
  rintro rfl
  cases t <;> cases hk

theorem Holds.index_lt {t : Tree} (h : l.Holds t id) : id.index < l.nodes.size := by
  obtain ⟨node, hn, -⟩ := h.exists_node
  exact NodeStore.index_lt_of_get? hn

end Layout

namespace Tree

open Layout

/-! ## Lowering -/

mutual

/-- **How lowering changes a layout.**  It answers with the one new node that has no
parent. -/
theorem lays_lower : ∀ (t : Tree) (l : Layout), l.Lays [] (t.lower l).2 [(t.lower l).1]
  | ident s, l => (Lays.intern l s []).trans (.add _ (.ident (l.intern s).1) (by simp) rfl)
  | int n, l => .add l (.int n) (by simp) rfl
  | float x, l => .add l (.float x) (by simp) rfl
  | nil, l => .add l .nil (by simp) rfl
  | unary op a, l => (lays_lower a l).trans (.add _ (.unary op (a.lower l).1) (by simp) rfl)
  | binary op a b, l => by
    have ha := lays_lower a l
    have hb := (lays_lower b (a.lower l).2).beside [(a.lower l).1] []
    exact (ha.trans hb).trans
      (.add _ (.binary op (a.lower l).1 (b.lower (a.lower l).2).1) (by simp) rfl)
  | assign target value, l => by
    have hv := lays_lower value l
    have hn := Lays.intern (value.lower l).2 target [(value.lower l).1]
    exact (hv.trans hn).trans (.build (NodeStore.builds_addAssign _ _ _))
  | print argument, l =>
    (lays_lowerOption argument l).trans
      (.add _ (.print (lowerOption argument l).1) (by simp) rfl)
  | cond test thenBranch elseBranch, l => by
    have hc := lays_lower test l
    have ht := (lays_lower thenBranch (test.lower l).2).beside [(test.lower l).1] []
    have he := (lays_lowerOption elseBranch (thenBranch.lower (test.lower l).2).2).beside
      [(test.lower l).1, (thenBranch.lower (test.lower l).2).1] []
    exact ((hc.trans ht).trans he).trans (.add _ (.cond _ _ _) (by simp) rfl)
  | suite ts, l => (lays_lowerList ts l).trans (.build (NodeStore.builds_addSuite _ _))
  | funcDef name params body, l => by
    have hb := lays_lower body l
    have hp := Lays.internParams (body.lower l).2 params [(body.lower l).1]
    have hn := Lays.intern ((body.lower l).2.internParams params).2 name [(body.lower l).1]
    exact ((hb.trans hp).trans hn).trans (.build (NodeStore.builds_addFuncDef _ _ _ _))
  | call callee args, l => by
    have ha := lays_lowerArgs args l
    have hn := Lays.intern (lowerArgs args l).2 callee ((lowerArgs args l).1.getD [])
    exact (ha.trans hn).trans (.build (NodeStore.builds_addCall _ _ _))
  | ret value, l =>
    (lays_lowerOption value l).trans (.add _ (.ret (lowerOption value l).1) (by simp) rfl)

theorem lays_lowerOption :
    ∀ (o : Option Tree) (l : Layout), l.Lays [] (lowerOption o l).2 [(lowerOption o l).1]
  | none, l => Lays.empty l
  | some t, l => lays_lower t l

theorem lays_lowerList :
    ∀ (ts : List Tree) (l : Layout), l.Lays [] (lowerList ts l).2 (lowerList ts l).1
  | [], l => Lays.refl l []
  | t :: ts, l => by
    have hts := (lays_lowerList ts (t.lower l).2).beside [(t.lower l).1] []
    simp only [List.append_nil] at hts
    exact (lays_lower t l).trans hts

theorem lays_lowerArgs :
    ∀ (o : Option (List Tree)) (l : Layout),
      l.Lays [] (lowerArgs o l).2 ((lowerArgs o l).1.getD [])
  | none, l => Lays.refl l []
  | some ts, l => lays_lowerList ts l

end

theorem grows_intern (l : Layout) (s : String) : l.Grows (l.intern s).2 :=
  (Lays.intern l s []).grows

theorem grows_build (l : Layout) (make : NodeStore → NodeId × NodeStore)
    (h : l.nodes.Grows (make l.nodes).2) : l.Grows (l.build make).2 :=
  ⟨.refl _, h⟩

theorem grows_add (l : Layout) (node : Node) : l.Grows (l.build (·.add node)).2 :=
  ⟨.refl _, l.nodes.grows_add node⟩

mutual

/-- **Lowering answers with a node that stands for the tree.** -/
theorem holds_lower :
    ∀ (t : Tree) {l : Layout}, l.Sound → (t.lower l).2.Holds t (t.lower l).1
  | ident s, _, h => ⟨_, NodeStore.get?_add_self _ _, NameTable.holds_intern h.names s⟩
  | int _, _, _ => NodeStore.get?_add_self _ _
  | float _, _, _ => NodeStore.get?_add_self _ _
  | nil, _, _ => NodeStore.get?_add_self _ _
  | unary _ a, _, h =>
    ⟨_, NodeStore.get?_add_self _ _, (holds_lower a h).of_grows (grows_add _ _)⟩
  | binary _ a b, l, h => by
    have hb := (lays_lower a l).sound h
    have hgrow := (lays_lower b (a.lower l).2).grows
    exact ⟨_, _, NodeStore.get?_add_self _ _,
      ((holds_lower a h).of_grows hgrow).of_grows (grows_add _ _),
      (holds_lower b hb).of_grows (grows_add _ _)⟩
  | assign target value, l, h => by
    have hn := ((lays_lower value l).sound h).names
    have hgrow := grows_intern (value.lower l).2 target
    obtain ⟨i, hi, ht⟩ := NodeStore.get?_addAssign ((value.lower l).2.intern target).2.nodes
      ((value.lower l).2.intern target).1 (value.lower l).1
    have hlast := grows_build ((value.lower l).2.intern target).2
      (·.addAssign ((value.lower l).2.intern target).1 (value.lower l).1)
      (NodeStore.builds_addAssign _ _ _).grows
    exact ⟨i, _, hi, ⟨_, ht, NameTable.holds_intern hn target⟩,
      ((holds_lower value h).of_grows hgrow).of_grows hlast⟩
  | print argument, _, h =>
    ⟨_, NodeStore.get?_add_self _ _, (holds_lowerOption argument h).of_grows (grows_add _ _)⟩
  | cond test thenBranch elseBranch, l, h => by
    have ht := (lays_lower test l).sound h
    have he := (lays_lower thenBranch (test.lower l).2).sound ht
    have hgt := (lays_lower thenBranch (test.lower l).2).grows
    have hge := (lays_lowerOption elseBranch (thenBranch.lower (test.lower l).2).2).grows
    exact ⟨_, _, _, NodeStore.get?_add_self _ _,
      ((holds_lower test h).of_grows (hgt.trans hge)).of_grows (grows_add _ _),
      ((holds_lower thenBranch ht).of_grows hge).of_grows (grows_add _ _),
      (holds_lowerOption elseBranch he).of_grows (grows_add _ _)⟩
  | suite ts, l, h => by
    obtain ⟨r, hr, hids⟩ := NodeStore.get?_addSuite (lowerList ts l).2.nodes (lowerList ts l).1
    have hlast := grows_build (lowerList ts l).2 (·.addSuite (lowerList ts l).1)
      (NodeStore.builds_addSuite _ _).grows
    exact ⟨r, _, hr, hids, (holds_lowerList ts h).of_grows hlast⟩
  | funcDef name none body, l, h => by
    have hb := (lays_lower body l).sound h
    have hgn := grows_intern (body.lower l).2 name
    have hs := (Lays.intern (body.lower l).2 name []).sound hb
    exact ⟨_, _, _, NodeStore.get?_add_self _ _, NameTable.holds_intern hb.names name,
      (NodeStore.grows_add _ _).get? ((hs.nodes.get?_empty_iff _).mpr rfl),
      ((holds_lower body h).of_grows hgn).of_grows (grows_add _ _)⟩
  | funcDef name (some ps) body, l, h => by
    have hb := ((lays_lower body l).sound h).names
    have hp := NameTable.consistent_internAll hb ps
    have hgp := (Lays.internParams (body.lower l).2 (some ps) []).grows
    have hgn := grows_intern ((body.lower l).2.internParams (some ps)).2 name
    obtain ⟨i, r, ids, hd, hr, hids, hitems⟩ := NodeStore.get?_addFuncDef
      (((body.lower l).2.internParams (some ps)).2.intern name).2.nodes
      (((body.lower l).2.internParams (some ps)).2.intern name).1
      ((body.lower l).2.names.internAll ps).1 (body.lower l).1
    have hlast := grows_build (((body.lower l).2.internParams (some ps)).2.intern name).2
      (·.addFuncDef (((body.lower l).2.internParams (some ps)).2.intern name).1
        (some ((body.lower l).2.names.internAll ps).1) (body.lower l).1)
      (NodeStore.builds_addFuncDef _ _ _ _).grows
    have hnames := (NameTable.holds_internAll hb ps).imp fun _ _ hn => hgn.names hn
    exact ⟨_, i, _, hd, NameTable.holds_intern hp name,
      ⟨r, ids, hr, hids, forall₂_isIdent hitems hnames⟩,
      (((holds_lower body h).of_grows hgp).of_grows hgn).of_grows hlast⟩
  | call callee none, l, h => by
    have hs := (Lays.intern l callee []).sound h
    exact ⟨_, _, NodeStore.get?_add_self _ _, NameTable.holds_intern h.names callee,
      (NodeStore.grows_add _ _).get? ((hs.nodes.get?_empty_iff _).mpr rfl)⟩
  | call callee (some ts), l, h => by
    have hn := ((lays_lowerList ts l).sound h).names
    have hgn := grows_intern (lowerList ts l).2 callee
    obtain ⟨i, r, hi, hr, hids⟩ := NodeStore.get?_addCall ((lowerList ts l).2.intern callee).2.nodes
      ((lowerList ts l).2.intern callee).1 (lowerList ts l).1
    have hlast := grows_build ((lowerList ts l).2.intern callee).2
      (·.addCall ((lowerList ts l).2.intern callee).1 (some (lowerList ts l).1))
      (NodeStore.builds_addCall _ _ _).grows
    exact ⟨_, i, hi, NameTable.holds_intern hn callee,
      r, _, hr, hids, ((holds_lowerList ts h).of_grows hgn).of_grows hlast⟩
  | ret value, _, h =>
    ⟨_, NodeStore.get?_add_self _ _, (holds_lowerOption value h).of_grows (grows_add _ _)⟩

theorem holds_lowerOption :
    ∀ (o : Option Tree) {l : Layout}, l.Sound →
      (lowerOption o l).2.HoldsOption o (lowerOption o l).1
  | none, _, h => (h.nodes.get?_empty_iff _).mpr rfl
  | some t, _, h => holds_lower t h

theorem holds_lowerList :
    ∀ (ts : List Tree) {l : Layout}, l.Sound → (lowerList ts l).2.HoldsList ts (lowerList ts l).1
  | [], _, _ => trivial
  | t :: ts, l, h => by
    have hts := (lays_lower t l).sound h
    have hgrow := (lays_lowerList ts (t.lower l).2).grows
    exact ⟨(holds_lower t h).of_grows hgrow, holds_lowerList ts hts⟩

end

end Tree

end TreeWalk
