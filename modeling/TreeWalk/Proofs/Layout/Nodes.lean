import Mathlib.Data.List.Forall2
import Mathlib.Tactic.Common
import TreeWalk.Proofs.Layout.Tiling

/-!
# Stores of nodes grow, and hold trees

The constructors of nodes only ever add to a store, so what is read at a number or at a
range stays as it is: `NodeStore.Grows`.  They also keep the store in an order,
`NodeStore.Ordered`, in which the empty node comes first and every node comes after the
nodes to which it refers.

## Each node has one parent

`NodeStore.references` lists the numbers to which the nodes and the lists of a store refer.
A program that is being laid out consists of finished parts that still wait for a parent.
`Builds s waiting t roots` says that the store `s` was extended to `t`, that the nodes of
`waiting` were given a parent on the way, and that of the new nodes those of `roots` have
none yet, while all others are referred to exactly once.  Constructors are steps of this
kind, and such steps can be put in a row and set beside parts that keep waiting.  On the way
the lists of the store stay side by side.
-/

namespace TreeWalk

namespace NodeStore

variable {s t u : NodeStore} {node : Node} {id : NodeId} {ids : List NodeId}

/-! ## Growth -/

/-- What can be read in the first store reads the same in the second. -/
structure Grows (s t : NodeStore) : Prop where
  /-- Nodes stay. -/
  get? : ∀ ⦃id node⦄, s.get? id = some node → t.get? id = some node
  /-- Lists stay. -/
  list? : ∀ ⦃r ids⦄, s.list? r = some ids → t.list? r = some ids

theorem Grows.refl (s : NodeStore) : s.Grows s := ⟨fun _ _ h => h, fun _ _ h => h⟩

theorem Grows.trans (hst : s.Grows t) (htu : t.Grows u) : s.Grows u :=
  ⟨fun _ _ h => htu.get? (hst.get? h), fun _ _ h => htu.list? (hst.list? h)⟩

theorem index_lt_of_get? (h : s.get? id = some node) : id.index < s.size := by
  obtain ⟨hi, -⟩ := Array.getElem?_eq_some_iff.mp h
  exact hi

theorem get?_add_iff {m : Node} :
    (s.add node).2.get? id = some m ↔ (id.index = s.size ∧ node = m) ∨ s.get? id = some m := by
  unfold get? add size
  rw [Array.getElem?_push]
  by_cases hi : id.index = s.nodes.size
  · simp [hi]
  · simp [hi]

theorem grows_add (s : NodeStore) (node : Node) : s.Grows (s.add node).2 :=
  ⟨fun _ _ h => get?_add_iff.mpr (Or.inr h), fun _ _ h => h⟩

theorem list?_eq_some_iff {r : NodeRange} :
    s.list? r = some ids ↔
      r.start + r.size ≤ s.items.size ∧
        (s.items.toList.drop r.start).take r.size = ids := by
  unfold list?
  by_cases h : r.start + r.size ≤ s.items.size
  · simp [h]
  · simp [h]

theorem grows_addList (s : NodeStore) (ids : List NodeId) : s.Grows (s.addList ids).2 := by
  refine ⟨fun _ _ h => h, fun r is h => ?_⟩
  obtain ⟨hr, his⟩ := list?_eq_some_iff.mp h
  refine list?_eq_some_iff.mpr ⟨?_, ?_⟩
  · rw [size_items_addList]
    omega
  · have hlen : r.size ≤ (s.items.toList.drop r.start).length := by
      rw [List.length_drop, Array.length_toList]
      omega
    rw [← his]
    simp only [addList, Array.toList_appendList]
    rw [List.drop_append_of_le_length (by rw [Array.length_toList]; omega),
      List.take_append_of_le_length hlen]

/-- A list that was just added is read back from its range. -/
theorem list?_addList_self (s : NodeStore) (ids : List NodeId) :
    (s.addList ids).2.list? (s.addList ids).1 = some ids := by
  refine list?_eq_some_iff.mpr ⟨?_, ?_⟩
  · rw [size_items_addList]
    exact Nat.le_refl _
  · simp only [addList, Array.toList_appendList]
    rw [← Array.length_toList, List.drop_left, List.take_length]

/-! ## Reading back what was added -/

theorem get?_addAssign (s : NodeStore) (name : Name) (value : NodeId) :
    ∃ i, (s.addAssign name value).2.get? (s.addAssign name value).1 = some (.assign i value) ∧
      (s.addAssign name value).2.get? i = some (.ident name) :=
  ⟨_, get?_add_self _ _, (grows_add _ _).get? (get?_add_self _ _)⟩

theorem get?_addSuite (s : NodeStore) (ids : List NodeId) :
    ∃ r, (s.addSuite ids).2.get? (s.addSuite ids).1 = some (.suite r) ∧
      (s.addSuite ids).2.list? r = some ids :=
  ⟨_, get?_add_self _ _, list?_addList_self s ids⟩

theorem get?_addParamList (s : NodeStore) (ids : List NodeId) :
    ∃ r, (s.addParamList ids).2.get? (s.addParamList ids).1 = some (.paramList r) ∧
      (s.addParamList ids).2.list? r = some ids :=
  ⟨_, get?_add_self _ _, list?_addList_self s ids⟩

theorem grows_addParamList (s : NodeStore) (ids : List NodeId) :
    s.Grows (s.addParamList ids).2 :=
  (grows_addList s ids).trans (grows_add _ _)

theorem grows_addAll (s : NodeStore) (nodes : List Node) : s.Grows (s.addAll nodes).2 := by
  induction nodes generalizing s with
  | nil => exact Grows.refl s
  | cons node rest ih => exact (grows_add s node).trans (ih (s.add node).2)

/-- Nodes that were added one after another are read back one by one. -/
theorem get?_addAll (s : NodeStore) (nodes : List Node) :
    List.Forall₂ (fun i node => (s.addAll nodes).2.get? i = some node)
      (s.addAll nodes).1 nodes := by
  induction nodes generalizing s with
  | nil => exact List.Forall₂.nil
  | cons node rest ih =>
    exact List.Forall₂.cons ((grows_addAll _ rest).get? (get?_add_self s node)) (ih (s.add node).2)

/-- A definition with parameters is read back together with its list of identifiers. -/
theorem get?_addFuncDef (s : NodeStore) (name : Name) (params : List Name) (body : NodeId) :
    ∃ i r ids, (s.addFuncDef name (some params) body).2.get?
          (s.addFuncDef name (some params) body).1 = some (.funcDef name i body) ∧
        (s.addFuncDef name (some params) body).2.get? i = some (.paramList r) ∧
        (s.addFuncDef name (some params) body).2.list? r = some ids ∧
        List.Forall₂ (fun j n =>
          (s.addFuncDef name (some params) body).2.get? j = some (.ident n)) ids params := by
  have hall := get?_addAll s (params.map .ident)
  rw [List.forall₂_map_right_iff] at hall
  obtain ⟨r, hr, hids⟩ :=
    get?_addParamList (s.addAll (params.map .ident)).2 (s.addAll (params.map .ident)).1
  have hlist := grows_addParamList (s.addAll (params.map .ident)).2
    (s.addAll (params.map .ident)).1
  have hdef := grows_add (s.addParams (some params)).2
    (.funcDef name (s.addParams (some params)).1 body)
  exact ⟨_, r, _, get?_add_self _ _, hdef.get? hr, hdef.list? hids,
    hall.imp fun _ _ h => hdef.get? (hlist.get? h)⟩

/-- A call with arguments is read back together with its list. -/
theorem get?_addCall (s : NodeStore) (callee : Name) (ids : List NodeId) :
    ∃ i r, (s.addCall callee (some ids)).2.get? (s.addCall callee (some ids)).1 =
          some (.call callee i) ∧
        (s.addCall callee (some ids)).2.get? i = some (.paramList r) ∧
        (s.addCall callee (some ids)).2.list? r = some ids := by
  obtain ⟨r, hr, hids⟩ := get?_addParamList s ids
  exact ⟨_, r, get?_add_self _ _, (grows_add _ _).get? hr, hids⟩

/-! ## Order -/

/-- The empty node comes first and nowhere else, and every node comes after the nodes to
which it refers. -/
structure Ordered (s : NodeStore) : Prop where
  /-- The empty node has the first number. -/
  get?_empty_iff : ∀ id, s.get? id = some .empty ↔ id = NodeId.empty
  /-- Children come before their parents. -/
  children_lt : ∀ ⦃id node⦄, s.get? id = some node → ∀ c ∈ node.children, c.index < id.index
  /-- Lists are there, and their items come before the nodes that have the lists. -/
  items_lt : ∀ ⦃id node r⦄, s.get? id = some node → node.range? = some r →
    ∃ ids, s.list? r = some ids ∧ ∀ c ∈ ids, c.index < id.index

theorem ordered_fresh : fresh.Ordered := by
  have hget : ∀ id node, fresh.get? id = some node → id = NodeId.empty ∧ node = .empty := by
    rintro ⟨i⟩ node h
    rcases i with _ | i
    · exact ⟨rfl, (Option.some.inj h).symm⟩
    · cases h
  refine ⟨fun id => ⟨fun h => (hget _ _ h).1, ?_⟩, ?_, ?_⟩
  · rintro rfl
    rfl
  · intro id node h c hc
    rw [(hget _ _ h).2] at hc
    cases hc
  · intro id node r h hr
    rw [(hget _ _ h).2] at hr
    cases hr

theorem Ordered.size_pos (hs : s.Ordered) : 0 < s.size :=
  index_lt_of_get? ((hs.get?_empty_iff _).mpr rfl)

/-- Whether a node is empty can be told from its number. -/
theorem Ordered.isEmpty_iff (hs : s.Ordered) : s.isEmpty id = true ↔ id = NodeId.empty := by
  rw [← hs.get?_empty_iff id]
  unfold isEmpty
  split
  · simp_all
  · simp_all

theorem isEmpty_of_get? (h : s.get? id = some node) : s.isEmpty id = (node == .empty) := by
  unfold isEmpty
  rw [h]
  cases node <;> rfl

theorem Ordered.add (hs : s.Ordered) (hne : node ≠ .empty)
    (hc : ∀ c ∈ node.children, c.index < s.size)
    (hr : ∀ r, node.range? = some r → ∃ ids, s.list? r = some ids ∧ ∀ c ∈ ids, c.index < s.size) :
    (s.add node).2.Ordered := by
  refine ⟨fun id => ?_, ?_, ?_⟩
  · rw [get?_add_iff, ← hs.get?_empty_iff id]
    exact or_iff_right fun h => hne h.2
  · intro id m hm c hcm
    rcases get?_add_iff.mp hm with ⟨hi, rfl⟩ | hm
    · rw [hi]
      exact hc c hcm
    · exact hs.children_lt hm c hcm
  · intro id m r hm hmr
    rcases get?_add_iff.mp hm with ⟨hi, rfl⟩ | hm
    · rw [hi]
      exact hr r hmr
    · exact hs.items_lt hm hmr

theorem Ordered.addList (hs : s.Ordered) (ids : List NodeId) : (s.addList ids).2.Ordered := by
  refine ⟨hs.get?_empty_iff, hs.children_lt, fun id node r hm hr => ?_⟩
  obtain ⟨is, his, hlt⟩ := hs.items_lt hm hr
  exact ⟨is, (grows_addList s ids).list? his, hlt⟩

/-! ## References -/

/-- The numbers to which the nodes and the lists of a store refer. -/
def references (s : NodeStore) : List NodeId :=
  s.nodes.toList.flatMap Node.children ++ s.items.toList

theorem count_references_add (s : NodeStore) (node : Node) (i : NodeId) :
    (s.add node).2.references.count i = s.references.count i + node.children.count i := by
  simp only [references, add, Array.toList_push, List.flatMap_append, List.flatMap_singleton,
    List.count_append]
  omega

theorem count_references_addList (s : NodeStore) (ids : List NodeId) (i : NodeId) :
    (s.addList ids).2.references.count i = s.references.count i + ids.count i := by
  simp only [references, addList, Array.toList_appendList, List.count_append]
  omega

/-- What is in two of the lists that are joined is in the joined list twice. -/
theorem index_eq_of_count_le_one {l : List Node} {c : NodeId} {i j : Nat} {m n : Node}
    (h : (l.flatMap Node.children).count c ≤ 1) (hi : l[i]? = some m) (hj : l[j]? = some n)
    (hm : c ∈ m.children) (hn : c ∈ n.children) : i = j := by
  induction l generalizing i j with
  | nil => cases hi
  | cons x rest ih =>
    rw [List.flatMap_cons, List.count_append] at h
    have hrest {k : Nat} {y : Node} (hk : rest[k]? = some y) (hy : c ∈ y.children) :
        0 < (rest.flatMap Node.children).count c :=
      List.count_pos_iff.mpr (List.mem_flatMap.mpr ⟨y, List.mem_of_getElem? hk, hy⟩)
    have hhead (hx : c ∈ x.children) : 0 < x.children.count c := List.count_pos_iff.mpr hx
    cases i with
    | zero =>
      obtain rfl : x = m := Option.some.inj hi
      cases j with
      | zero => rfl
      | succ j =>
        have h₁ := hhead hm
        have h₂ := hrest hj hn
        omega
    | succ i =>
      cases j with
      | zero =>
        obtain rfl : x = n := Option.some.inj hj
        have h₁ := hhead hn
        have h₂ := hrest hi hm
        omega
      | succ j => rw [ih (by omega) hi hj]

/-- A number that is referred to once has one parent. -/
theorem eq_of_mem_children {id id' c : NodeId} {m n : Node} (h : s.references.count c ≤ 1)
    (hm : s.get? id = some m) (hn : s.get? id' = some n) (hcm : c ∈ m.children)
    (hcn : c ∈ n.children) : id = id' := by
  unfold references at h
  rw [List.count_append] at h
  unfold get? at hm hn
  rw [← Array.getElem?_toList] at hm hn
  have hindex := index_eq_of_count_le_one (by omega) hm hn hcm hcn
  rcases id with ⟨i⟩
  rcases id' with ⟨j⟩
  exact congrArg NodeId.mk hindex

/-- One for a number that lies between two sizes of a store, and zero for the others. -/
def between (low high : Nat) (i : NodeId) : Nat :=
  if low ≤ i.index ∧ i.index < high then 1 else 0

theorem between_add {a b c : Nat} (hab : a ≤ b) (hbc : b ≤ c) (i : NodeId) :
    between a b i + between b c i = between a c i := by
  unfold between
  split_ifs <;> omega

@[simp] theorem between_self (a : Nat) (i : NodeId) : between a a i = 0 := by
  unfold between
  exact if_neg (by omega)

theorem between_succ (a : Nat) (i : NodeId) :
    between a (a + 1) i = [(⟨a⟩ : NodeId)].count i := by
  rcases i with ⟨i⟩
  unfold between
  rw [List.count_singleton]
  by_cases h : a = i
  · subst h
    simp
  · have hne : (⟨a⟩ : NodeId) ≠ ⟨i⟩ := fun he => h (congrArg NodeId.index he)
    rw [if_neg fun hi : a ≤ i ∧ i < a + 1 => h (by omega), if_neg (by simpa using hne)]

/-- The store `s` was extended to `t`.  The nodes of `waiting` were given a parent, and of
the new nodes those of `roots` wait for one. -/
structure Builds (s : NodeStore) (waiting : List NodeId) (t : NodeStore) (roots : List NodeId) :
    Prop where
  /-- Nothing is lost. -/
  grows : s.Grows t
  /-- The store does not shrink. -/
  size_le : s.size ≤ t.size
  /-- The order is kept, and the roots are there. -/
  ordered : s.Ordered → (∀ i ∈ waiting, i.index < s.size) →
    t.Ordered ∧ ∀ i ∈ roots, i.index < t.size
  /-- Every number is referred to once, either by the store or as a root. -/
  count_eq : ∀ i, i ≠ NodeId.empty →
    t.references.count i + roots.count i =
      s.references.count i + waiting.count i + between s.size t.size i
  /-- The lists lie side by side. -/
  tiled : s.Tiled → t.Tiled

namespace Builds

variable {ws rs qs : List NodeId}

/-- Nothing was added. -/
theorem refl (s : NodeStore) (ws : List NodeId) : s.Builds ws s ws where
  grows := Grows.refl s
  size_le := Nat.le_refl _
  ordered hs hw := ⟨hs, hw⟩
  count_eq i _ := by rw [between_self, Nat.add_zero]
  tiled h := h

/-- One step after another. -/
theorem trans (hst : s.Builds ws t rs) (htu : t.Builds rs u qs) : s.Builds ws u qs where
  grows := hst.grows.trans htu.grows
  size_le := Nat.le_trans hst.size_le htu.size_le
  ordered hs hw := by
    obtain ⟨ht, hr⟩ := hst.ordered hs hw
    exact htu.ordered ht hr
  count_eq i hi := by
    have h₁ := hst.count_eq i hi
    have h₂ := htu.count_eq i hi
    have h₃ := between_add hst.size_le htu.size_le i
    omega
  tiled h := htu.tiled (hst.tiled h)

/-- A step beside parts that keep waiting. -/
theorem beside (h : s.Builds ws t rs) (left right : List NodeId) :
    s.Builds (left ++ ws ++ right) t (left ++ rs ++ right) where
  grows := h.grows
  size_le := h.size_le
  ordered hs hw := by
    obtain ⟨ht, hr⟩ := h.ordered hs fun i hi => hw i (by simp [hi])
    refine ⟨ht, fun i hi => ?_⟩
    have hside : ∀ j, j ∈ left ∨ j ∈ right → j.index < t.size := fun j hj =>
      Nat.lt_of_lt_of_le (hw j (by rcases hj with hj | hj <;> simp [hj])) h.size_le
    simp only [List.mem_append] at hi
    rcases hi with (hi | hi) | hi
    · exact hside i (Or.inl hi)
    · exact hr i hi
    · exact hside i (Or.inr hi)
  count_eq i hi := by
    have hc := h.count_eq i hi
    simp only [List.count_append]
    omega
  tiled := h.tiled

/-- The empty node is there for every slot that needs it. -/
theorem empty (s : NodeStore) : s.Builds [] s [NodeId.empty] where
  grows := Grows.refl s
  size_le := Nat.le_refl _
  ordered hs _ := by
    refine ⟨hs, fun i hi => ?_⟩
    rw [List.mem_singleton.mp hi]
    exact hs.size_pos
  count_eq i hi := by
    have h : [NodeId.empty].count i = 0 :=
      List.count_eq_zero_of_not_mem fun hmem => hi (List.mem_singleton.mp hmem)
    simp [h]
  tiled h := h

end Builds

/-- A node without a list takes its children. -/
theorem builds_add (s : NodeStore) (node : Node) (hne : node ≠ .empty) (hr : node.range? = none) :
    s.Builds node.children (s.add node).2 [(s.add node).1] where
  grows := grows_add s node
  size_le := by simp
  ordered hs hw := by
    refine ⟨hs.add hne hw fun r h => ?_, fun i hi => ?_⟩
    · rw [hr] at h
      cases h
    · rw [List.mem_singleton.mp hi, size_add]
      exact Nat.lt_succ_self s.size
  count_eq i _ := by
    rw [count_references_add, size_add, between_succ]
    rfl
  tiled h := h.add hr

/-- A node with a list takes the items of the list. -/
theorem builds_addListed (s : NodeStore) (make : NodeRange → Node)
    (hne : ∀ r, make r ≠ .empty) (hr : ∀ r, (make r).range? = some r)
    (hc : ∀ r, (make r).children = []) (ids : List NodeId) :
    s.Builds ids ((s.addList ids).2.add (make (s.addList ids).1)).2
      [((s.addList ids).2.add (make (s.addList ids).1)).1] where
  grows := (grows_addList s ids).trans (grows_add _ _)
  size_le := by simp
  ordered hs hw := by
    refine ⟨(hs.addList ids).add (hne _) (fun c h => ?_) (fun r h => ?_), fun i hi => ?_⟩
    · rw [hc] at h
      cases h
    · rw [hr] at h
      rw [← Option.some.inj h]
      exact ⟨ids, list?_addList_self s ids, hw⟩
    · rw [List.mem_singleton.mp hi, size_add]
      exact Nat.lt_succ_self s.size
  count_eq i _ := by
    rw [count_references_add, count_references_addList, hc, size_add, size_addList, between_succ]
    rfl
  tiled h := h.addListed ids (hr _)

theorem builds_addSuite (s : NodeStore) (ids : List NodeId) :
    s.Builds ids (s.addSuite ids).2 [(s.addSuite ids).1] :=
  builds_addListed s .suite (by simp) (fun _ => rfl) (fun _ => rfl) ids

theorem builds_addParamList (s : NodeStore) (ids : List NodeId) :
    s.Builds ids (s.addParamList ids).2 [(s.addParamList ids).1] :=
  builds_addListed s .paramList (by simp) (fun _ => rfl) (fun _ => rfl) ids

/-- The target of an assignment is added before the assignment takes it. -/
theorem builds_addAssign (s : NodeStore) (name : Name) (value : NodeId) :
    s.Builds [value] (s.addAssign name value).2 [(s.addAssign name value).1] := by
  have htarget := (s.builds_add (.ident name) (by simp) rfl).beside [] [value]
  exact htarget.trans (builds_add _ (.assign (s.add (.ident name)).1 value) (by simp) rfl)

theorem builds_addAll (s : NodeStore) (names : List Name) :
    s.Builds [] (s.addAll (names.map .ident)).2 (s.addAll (names.map .ident)).1 := by
  induction names generalizing s with
  | nil => exact Builds.refl s []
  | cons n rest ih =>
    have hhead := s.builds_add (.ident n) (by simp) rfl
    have htail := (ih (s.add (.ident n)).2).beside [(s.add (.ident n)).1] []
    simp only [List.append_nil] at htail
    exact hhead.trans htail

theorem builds_addParams (s : NodeStore) (params : Option (List Name)) :
    s.Builds [] (s.addParams params).2 [(s.addParams params).1] := by
  cases params with
  | none => exact Builds.empty s
  | some names => exact (builds_addAll s names).trans (builds_addParamList _ _)

theorem builds_addArgs (s : NodeStore) (args : Option (List NodeId)) :
    s.Builds (args.getD []) (s.addArgs args).2 [(s.addArgs args).1] := by
  cases args with
  | none => exact Builds.empty s
  | some ids => exact builds_addParamList s ids

theorem builds_addFuncDef (s : NodeStore) (name : Name) (params : Option (List Name))
    (body : NodeId) :
    s.Builds [body] (s.addFuncDef name params body).2 [(s.addFuncDef name params body).1] := by
  have hparams := (builds_addParams s params).beside [] [body]
  exact hparams.trans
    (builds_add _ (.funcDef name (s.addParams params).1 body) (by simp) rfl)

theorem builds_addCall (s : NodeStore) (callee : Name) (args : Option (List NodeId)) :
    s.Builds (args.getD []) (s.addCall callee args).2 [(s.addCall callee args).1] :=
  (builds_addArgs s args).trans
    (builds_add _ (.call callee (s.addArgs args).1) (by simp) rfl)

end NodeStore

end TreeWalk
