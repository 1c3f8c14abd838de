import TreeWalk.Value

/-!
# The store of values

Every value that a run produces is appended to one store and handed around as its
position there, a `ValueId`.  Nothing is ever removed or overwritten, so a handle
stays good for as long as the store lives, whichever frame it outlives.

The value `nil` sits at position `0` from the beginning and is never stored a
second time: storing it answers with that position and leaves the store alone.

A store takes any number of values.  A machine has handles for `capacity` of them, and
`TreeWalk.Machine` says what happens when there are more.
-/

namespace TreeWalk

/-- A handle to a stored value. -/
structure ValueId where
  /-- The position of the value in its store. -/
  index : Nat
  deriving DecidableEq, Repr

namespace ValueId

/-- The handle of `nil` in every store. -/
def nil : ValueId := ⟨0⟩

instance : Inhabited ValueId := ⟨nil⟩

/-- A handle as listings show it. -/
def text (id : ValueId) : String := s!"ValueId({id.index})"

end ValueId

/-- The values of a run, in the order in which they were produced. -/
structure ValueStore where
  /-- The values, each at the position that is its handle. -/
  values : Array Value
  deriving DecidableEq

namespace ValueStore

/-- A store that holds `nil` alone. -/
def fresh : ValueStore := ⟨#[.nil]⟩

instance : Inhabited ValueStore := ⟨fresh⟩

/-- The number of stored values, `nil` included. -/
def size (s : ValueStore) : Nat := s.values.size

/-- Store a value.  `nil` is there already. -/
def alloc (s : ValueStore) : Value → ValueId × ValueStore
  | .nil => (ValueId.nil, s)
  | v => (⟨s.values.size⟩, ⟨s.values.push v⟩)

/-- The value behind a handle, if the handle belongs to this store. -/
def get? (s : ValueStore) (id : ValueId) : Option Value := s.values[id.index]?

@[simp] theorem size_fresh : fresh.size = 1 := rfl

@[simp] theorem get?_fresh_nil : fresh.get? ValueId.nil = some .nil := rfl

@[simp] theorem alloc_nil (s : ValueStore) : s.alloc .nil = (ValueId.nil, s) := rfl

theorem alloc_of_ne_nil (s : ValueStore) {v : Value} (h : v ≠ .nil) :
    s.alloc v = (⟨s.size⟩, ⟨s.values.push v⟩) := by
  cases v with
  | nil => exact absurd rfl h
  | int n => rfl
  | float x => rfl

end ValueStore

end TreeWalk
