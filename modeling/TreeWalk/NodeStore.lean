import TreeWalk.Node

/-!
# The store of nodes

A `NodeStore` owns the nodes of a program and the items of its lists.  Both only
grow: a number or a range that was given out once refers to the same node or the
same items for good.  The empty node is the first node of every store.

Each constructor of a node answers with the number of the new node and the grown
store.  Three of them need nodes of their own, which they add before the node they
answer with: an assignment adds its target, a function definition adds one
identifier for each parameter and then the parameter list, and a call adds its
argument list.

A store takes any number of nodes and of items.  What a machine has numbers for is told by
`NodeStore.Fits`.
-/

namespace TreeWalk

/-- The nodes of a program, and the items of their lists. -/
structure NodeStore where
  /-- The nodes, each at the position that is its number. -/
  nodes : Array Node
  /-- The items of all lists, one list after another. -/
  items : Array NodeId
  deriving DecidableEq

namespace NodeStore

/-- A store that holds the empty node alone. -/
def fresh : NodeStore := ⟨#[.empty], #[]⟩

instance : Inhabited NodeStore := ⟨fresh⟩

/-- The number of nodes, the empty node included. -/
def size (s : NodeStore) : Nat := s.nodes.size

/-- The node with a given number, if the store has one. -/
def get? (s : NodeStore) (id : NodeId) : Option Node := s.nodes[id.index]?

/-- The items of a range, if the range lies within the storage of lists. -/
def list? (s : NodeStore) (r : NodeRange) : Option (List NodeId) :=
  if r.start + r.size ≤ s.items.size then
    some (s.items.extract r.start (r.start + r.size)).toList
  else
    none

/-- Whether a number is that of an empty node. -/
def isEmpty (s : NodeStore) (id : NodeId) : Bool :=
  match s.get? id with
  | some .empty => true
  | _ => false

/-- Add a node. -/
def add (s : NodeStore) (node : Node) : NodeId × NodeStore :=
  (⟨s.nodes.size⟩, ⟨s.nodes.push node, s.items⟩)

/-- Add the items of a list. -/
def addList (s : NodeStore) (ids : List NodeId) : NodeRange × NodeStore :=
  (⟨s.items.size, ids.length⟩, ⟨s.nodes, s.items ++ ids⟩)

/-- Add nodes one after another. -/
def addAll (s : NodeStore) : List Node → List NodeId × NodeStore
  | [] => ([], s)
  | node :: rest =>
    let (id, s) := s.add node
    let (ids, s) := s.addAll rest
    (id :: ids, s)

/-- Add an assignment to a name, together with its target. -/
def addAssign (s : NodeStore) (name : Name) (value : NodeId) : NodeId × NodeStore :=
  let (target, s) := s.add (.ident name)
  s.add (.assign target value)

/-- Add a block of statements. -/
def addSuite (s : NodeStore) (statements : List NodeId) : NodeId × NodeStore :=
  let (range, s) := s.addList statements
  s.add (.suite range)

/-- Add a list of parameters or arguments. -/
def addParamList (s : NodeStore) (ids : List NodeId) : NodeId × NodeStore :=
  let (range, s) := s.addList ids
  s.add (.paramList range)

/-- Add a parameter list that declares the given names, or answer with the empty node
where there is no list. -/
def addParams (s : NodeStore) : Option (List Name) → NodeId × NodeStore
  | none => (NodeId.empty, s)
  | some names =>
    let (ids, s) := s.addAll (names.map .ident)
    s.addParamList ids

/-- Add an argument list, or answer with the empty node where there is none. -/
def addArgs (s : NodeStore) : Option (List NodeId) → NodeId × NodeStore
  | none => (NodeId.empty, s)
  | some ids => s.addParamList ids

/-- Add a function definition, together with its parameter list. -/
def addFuncDef (s : NodeStore) (name : Name) (params : Option (List Name)) (body : NodeId) :
    NodeId × NodeStore :=
  let (list, s) := s.addParams params
  s.add (.funcDef name list body)

/-- Add a call, together with its argument list. -/
def addCall (s : NodeStore) (callee : Name) (args : Option (List NodeId)) : NodeId × NodeStore :=
  let (list, s) := s.addArgs args
  s.add (.call callee list)

@[simp] theorem size_fresh : fresh.size = 1 := rfl

@[simp] theorem get?_fresh_empty : fresh.get? NodeId.empty = some .empty := rfl

@[simp] theorem size_add (s : NodeStore) (node : Node) : (s.add node).2.size = s.size + 1 := by
  simp [add, size]

@[simp] theorem size_addList (s : NodeStore) (ids : List NodeId) :
    (s.addList ids).2.size = s.size := rfl

/-- A node that was just added is read back under its number. -/
@[simp] theorem get?_add_self (s : NodeStore) (node : Node) :
    (s.add node).2.get? (s.add node).1 = some node := by
  simp [add, get?]

end NodeStore

end TreeWalk
