import Mathlib.Tactic.Common
import TreeWalk.ValueStore

/-!
# Handles of values

A handle means the value that is stored behind it, and since values are only ever
appended, it goes on meaning that value in every later store.
-/

namespace TreeWalk

namespace ValueStore

variable {s t u : ValueStore} {id : ValueId} {v w : Value}

/-- A handle belongs to a value. -/
def Holds (s : ValueStore) (id : ValueId) (v : Value) : Prop := s.get? id = some v

/-- Every handle of the first store belongs to the same value in the second. -/
def Grows (s t : ValueStore) : Prop := ∀ ⦃id v⦄, s.Holds id v → t.Holds id v

theorem Grows.refl (s : ValueStore) : s.Grows s := fun _ _ h => h

theorem Grows.trans (hst : s.Grows t) (htu : t.Grows u) : s.Grows u :=
  fun _ _ h => htu (hst h)

theorem Holds.index_lt (h : s.Holds id v) : id.index < s.size := by
  obtain ⟨hi, -⟩ := Array.getElem?_eq_some_iff.mp h
  exact hi

theorem grows_alloc (s : ValueStore) (v : Value) : s.Grows (s.alloc v).2 := by
  by_cases hv : v = .nil
  · rw [hv, alloc_nil]
    exact Grows.refl s
  · rw [alloc_of_ne_nil s hv]
    intro id w h
    have hi : id.index < s.values.size := h.index_lt
    unfold Holds get?
    rw [Array.getElem?_push, if_neg (Nat.ne_of_lt hi)]
    exact h

/-- Storing a value does not shrink the store. -/
theorem size_le_alloc (s : ValueStore) (v : Value) : s.size ≤ (s.alloc v).2.size := by
  by_cases hv : v = .nil
  · subst hv
    exact Nat.le_refl _
  · rw [alloc_of_ne_nil s hv]
    unfold size
    rw [Array.size_push]
    exact Nat.le_succ _

/-- The handle that storing a value answers with belongs to the store. -/
theorem index_alloc_lt (hs : 0 < s.size) (v : Value) :
    (s.alloc v).1.index < (s.alloc v).2.size := by
  by_cases hv : v = .nil
  · rw [hv, alloc_nil]
    exact hs
  · rw [alloc_of_ne_nil s hv]
    unfold size
    rw [Array.size_push]
    exact Nat.lt_succ_self _

/-- The handle that storing a value answers with belongs to the value. -/
theorem holds_alloc (hnil : s.Holds ValueId.nil .nil) (v : Value) :
    (s.alloc v).2.Holds (s.alloc v).1 v := by
  by_cases hv : v = .nil
  · rw [hv, alloc_nil]
    exact hnil
  · rw [alloc_of_ne_nil s hv]
    unfold Holds get? size
    rw [Array.getElem?_push, if_pos rfl]

/-! ## Values that are appended -/

/-- The second store has the values of the first, and perhaps more after them. -/
def Begins (s t : ValueStore) : Prop := s.values.toList <+: t.values.toList

theorem Begins.refl (s : ValueStore) : s.Begins s := List.prefix_refl _

theorem Begins.trans (hst : s.Begins t) (htu : t.Begins u) : s.Begins u :=
  List.IsPrefix.trans hst htu

theorem begins_alloc (s : ValueStore) (v : Value) : s.Begins (s.alloc v).2 := by
  by_cases hv : v = .nil
  · rw [hv, alloc_nil]
    exact .refl s
  · rw [alloc_of_ne_nil s hv]
    unfold Begins
    rw [Array.toList_push]
    exact List.prefix_append _ _

/-- What comes after the values of a store does not matter to their handles. -/
theorem Begins.grows (h : s.Begins t) : s.Grows t := by
  intro id v hv
  obtain ⟨rest, hrest⟩ := h
  have hlt : id.index < s.values.toList.length := hv.index_lt
  unfold Holds get? at hv ⊢
  rw [← Array.getElem?_toList] at hv ⊢
  rw [← hrest, List.getElem?_append_left hlt]
  exact hv

/-! ## The handle of nil -/

/-- `nil` belongs to its own handle and to no other. -/
def NilOnce (s : ValueStore) : Prop := ∀ id, s.Holds id .nil ↔ id = .nil

theorem nilOnce_fresh : fresh.NilOnce := by
  rintro ⟨i⟩
  cases i with
  | zero => exact iff_of_true rfl rfl
  | succ i => exact iff_of_false nofun nofun

/-- Storing a value does not store `nil` a second time. -/
theorem NilOnce.alloc (h : s.NilOnce) (v : Value) : (s.alloc v).2.NilOnce := by
  by_cases hv : v = .nil
  · rw [hv, alloc_nil]
    exact h
  · intro id
    constructor
    · intro hid
      rw [alloc_of_ne_nil s hv] at hid
      unfold Holds get? at hid
      rw [Array.getElem?_push] at hid
      split at hid
      · exact absurd (Option.some.inj hid) hv
      · exact (h id).mp hid
    · rintro rfl
      exact s.grows_alloc v ((h .nil).mpr rfl)

/-- A handle of a value is the handle of `nil` just if the value is `nil`. -/
theorem NilOnce.eq_nil_iff (h : s.NilOnce) (hv : s.Holds id v) : id = .nil ↔ v = .nil := by
  constructor
  · rintro rfl
    exact Option.some.inj (hv.symm.trans ((h .nil).mpr rfl))
  · rintro rfl
    exact (h id).mp hv

end ValueStore

end TreeWalk
