import Mathlib.Data.List.Pairwise
import TreeWalk.NodeStore

/-!
# The lists of a store lie side by side

All lists of a store share one array of items.  A constructor that adds a list appends the
items and then, with nothing in between, the node that has the list.  So in the order of the
nodes each list begins where the one before it ends: the ranges tile the storage
(`NodeStore.Tiled`).  No two lists overlap (`Tiled.le_start_of_lt`), and every item belongs to
one (`Tiled.exists_range`).
-/

namespace TreeWalk

/-- Ranges that follow one another without a gap, from one position to another. -/
def Tiles : Nat → List NodeRange → Nat → Prop
  | low, [], high => low = high
  | low, r :: rs, high => r.start = low ∧ Tiles (low + r.size) rs high

namespace Tiles

variable {low high k : Nat} {rs : List NodeRange}

/-- A range is put behind the last one. -/
theorem concat (h : Tiles low rs high) (size : Nat) :
    Tiles low (rs ++ [⟨high, size⟩]) (high + size) := by
  induction rs generalizing low with
  | nil =>
    obtain rfl : low = high := h
    exact ⟨rfl, rfl⟩
  | cons r rest ih =>
    obtain ⟨hstart, hrest⟩ := h
    exact ⟨hstart, ih hrest⟩

/-- No range begins before the first position. -/
theorem le_start (h : Tiles low rs high) : ∀ r ∈ rs, low ≤ r.start := by
  induction rs generalizing low with
  | nil => simp
  | cons r rest ih =>
    obtain ⟨hstart, hrest⟩ := h
    refine List.forall_mem_cons.mpr ⟨Nat.le_of_eq hstart.symm, fun r' hr' => ?_⟩
    exact Nat.le_trans (Nat.le_add_right low r.size) (ih hrest r' hr')

/-- A range ends before the ranges behind it begin. -/
theorem pairwise (h : Tiles low rs high) :
    rs.Pairwise fun r r' => r.start + r.size ≤ r'.start := by
  induction rs generalizing low with
  | nil => exact List.Pairwise.nil
  | cons r rest ih =>
    obtain ⟨rfl, hrest⟩ := h
    exact List.pairwise_cons.mpr ⟨hrest.le_start, ih hrest⟩

/-- Every position lies in a range. -/
theorem exists_mem (h : Tiles low rs high) (hlow : low ≤ k) (hhigh : k < high) :
    ∃ r ∈ rs, r.start ≤ k ∧ k < r.start + r.size := by
  induction rs generalizing low with
  | nil =>
    obtain rfl : low = high := h
    omega
  | cons r rest ih =>
    obtain ⟨rfl, hrest⟩ := h
    by_cases hk : k < r.start + r.size
    · exact ⟨r, List.mem_cons_self .., hlow, hk⟩
    · obtain ⟨r', hr', hin⟩ := ih hrest (Nat.not_lt.mp hk)
      exact ⟨r', List.mem_cons_of_mem _ hr', hin⟩

end Tiles

namespace NodeStore

variable {s : NodeStore}

/-- The ranges of the lists of a store, in the order of the nodes that have them. -/
def ranges (s : NodeStore) : List NodeRange := s.nodes.toList.filterMap Node.range?

/-- The lists of a store tile its storage. -/
def Tiled (s : NodeStore) : Prop := Tiles 0 s.ranges s.items.size

theorem tiled_fresh : fresh.Tiled := rfl

theorem size_items_addList (s : NodeStore) (ids : List NodeId) :
    (s.addList ids).2.items.size = s.items.size + ids.length := by
  rw [← Array.length_toList, ← Array.length_toList]
  simp only [addList, Array.toList_appendList, List.length_append]

theorem ranges_add (s : NodeStore) (node : Node) :
    (s.add node).2.ranges = s.ranges ++ node.range?.toList := by
  unfold ranges add
  rw [Array.toList_push, List.filterMap_append]
  cases hr : node.range? <;> simp [hr]

/-- A node without a list leaves the tiling as it is. -/
theorem Tiled.add (hs : s.Tiled) {node : Node} (hr : node.range? = none) :
    (s.add node).2.Tiled := by
  unfold Tiled
  rw [ranges_add, hr, Option.toList_none, List.append_nil]
  exact hs

/-- A list that is added together with its node goes on with the tiling. -/
theorem Tiled.addListed (hs : s.Tiled) (ids : List NodeId) {node : Node}
    (hr : node.range? = some (s.addList ids).1) : ((s.addList ids).2.add node).2.Tiled := by
  unfold Tiled
  rw [ranges_add, hr]
  show Tiles 0 (s.ranges ++ [⟨s.items.size, ids.length⟩]) (s.addList ids).2.items.size
  rw [size_items_addList]
  exact Tiles.concat hs ids.length

/-- **Lists do not overlap.**  Of two lists, that of the earlier node ends before that of the
later one begins. -/
theorem Tiled.le_start_of_lt (hs : s.Tiled) {id id' : NodeId} {n n' : Node} {r r' : NodeRange}
    (hn : s.get? id = some n) (hn' : s.get? id' = some n') (hr : n.range? = some r)
    (hr' : n'.range? = some r') (hlt : id.index < id'.index) : r.start + r.size ≤ r'.start := by
  obtain ⟨hi, hget⟩ := Array.getElem?_eq_some_iff.mp hn
  obtain ⟨hi', hget'⟩ := Array.getElem?_eq_some_iff.mp hn'
  have hpairs := List.pairwise_iff_getElem.mp (List.pairwise_filterMap.mp hs.pairwise)
    id.index id'.index (by simpa using hi) (by simpa using hi') hlt
  refine hpairs r ?_ r' ?_
  · rw [Array.getElem_toList, hget, hr]
  · rw [Array.getElem_toList, hget', hr']

/-- **Every item belongs to a list.** -/
theorem Tiled.exists_range (hs : s.Tiled) {k : Nat} (hk : k < s.items.size) :
    ∃ id n r, s.get? id = some n ∧ n.range? = some r ∧ r.start ≤ k ∧ k < r.start + r.size := by
  obtain ⟨r, hr, hin⟩ := Tiles.exists_mem hs (Nat.zero_le k) hk
  obtain ⟨n, hn, hnr⟩ := List.mem_filterMap.mp hr
  obtain ⟨i, hi, hget⟩ := List.mem_iff_getElem.mp hn
  refine ⟨⟨i⟩, n, r, ?_, hnr, hin⟩
  unfold get?
  rw [← Array.getElem?_toList, List.getElem?_eq_getElem hi, hget]

end NodeStore

end TreeWalk
