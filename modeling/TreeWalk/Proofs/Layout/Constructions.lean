import TreeWalk.Proofs.Layout.Nodes

/-!
# A store is what was added to it

A store is built by calls of its constructors, one after another.  How many nodes a call adds can
be told from the call (`Construction.nodeCount`), so the numbers that are given out can be told
without the store: they go on from the empty node without a gap, and where a call needs nodes of
its own, these get the numbers before the one that it answers with.

`Construction.ReadIn` says what is read in a store through the answer to a call: the node or the
list that was asked for, and behind it the nodes that were added for it, under their numbers.  It
holds right after the call (`readIn_construct`), and it survives growth (`ReadIn.of_grows`).  Since
every call lets the store grow, it holds for good.

## Numbers without a limit

Numbers and ranges are natural numbers here.  Whatever is read through them lies within the store,
so those of a store that has fewer than 2^32 nodes and items fit into 32 bits.
-/

namespace TreeWalk

namespace NodeStore

/-! ## Calls of constructors -/

/-- A call of a constructor. -/
inductive Construction where
  /-- A node that needs no other, like a literal or an operator with its operands. -/
  | node (node : Node)
  /-- A list without a node that has it. -/
  | list (ids : List NodeId)
  | assign (name : Name) (value : NodeId)
  | suite (statements : List NodeId)
  | paramList (ids : List NodeId)
  | funcDef (name : Name) (params : Option (List Name)) (body : NodeId)
  | call (callee : Name) (args : Option (List NodeId))

/-- What a constructor answers with: the number of a node, or the range of a list. -/
abbrev Answer : Type := NodeId ⊕ NodeRange

/-- The answer to a call, and the store afterwards. -/
def construct (s : NodeStore) : Construction → Answer × NodeStore
  | .node node => (s.add node).map .inl id
  | .list ids => (s.addList ids).map .inr id
  | .assign name value => (s.addAssign name value).map .inl id
  | .suite statements => (s.addSuite statements).map .inl id
  | .paramList ids => (s.addParamList ids).map .inl id
  | .funcDef name params body => (s.addFuncDef name params body).map .inl id
  | .call callee args => (s.addCall callee args).map .inl id

/-- The answers to calls, one after another, and the store afterwards. -/
def constructAll (s : NodeStore) : List Construction → List Answer × NodeStore
  | [] => ([], s)
  | c :: rest =>
    let (a, s) := s.construct c
    let (as, s) := s.constructAll rest
    (a :: as, s)

/-- Numbers in a row. -/
def numbers (first count : Nat) : List NodeId := (List.range' first count).map NodeId.mk

/-- An identifier for each name, and behind them the list of these identifiers. -/
structure ReadParams (s : NodeStore) (first : Nat) (names : List Name) : Prop where
  idents : List.Forall₂ (fun i n => s.get? i = some (.ident n)) (numbers first names.length) names
  list : ∃ r, s.get? ⟨first + names.length⟩ = some (.paramList r) ∧
    s.list? r = some (numbers first names.length)

namespace Construction

/-- How many nodes a call adds. -/
def nodeCount : Construction → Nat
  | .list _ => 0
  | .assign .. => 2
  | .funcDef _ (some names) _ => names.length + 2
  | .call _ (some _) => 2
  | _ => 1

/-- How many nodes calls add. -/
def nodeCounts : List Construction → Nat
  | [] => 0
  | c :: rest => c.nodeCount + nodeCounts rest

/-- What is read through the answer to a call, whose first node was to get the number `first`. -/
def ReadIn (s : NodeStore) (first : Nat) (answer : Answer) : Construction → Prop
  | .node n => answer = .inl ⟨first⟩ ∧ s.get? ⟨first⟩ = some n
  | .list ids => ∃ r, answer = .inr r ∧ s.list? r = some ids
  | .assign name value =>
    answer = .inl ⟨first + 1⟩ ∧ s.get? ⟨first + 1⟩ = some (.assign ⟨first⟩ value) ∧
      s.get? ⟨first⟩ = some (.ident name)
  | .suite statements =>
    answer = .inl ⟨first⟩ ∧ ∃ r, s.get? ⟨first⟩ = some (.suite r) ∧ s.list? r = some statements
  | .paramList ids =>
    answer = .inl ⟨first⟩ ∧ ∃ r, s.get? ⟨first⟩ = some (.paramList r) ∧ s.list? r = some ids
  | .funcDef name none body =>
    answer = .inl ⟨first⟩ ∧ s.get? ⟨first⟩ = some (.funcDef name .empty body)
  | .funcDef name (some names) body =>
    answer = .inl ⟨first + names.length + 1⟩ ∧
      s.get? ⟨first + names.length + 1⟩ = some (.funcDef name ⟨first + names.length⟩ body) ∧
      s.ReadParams first names
  | .call callee none => answer = .inl ⟨first⟩ ∧ s.get? ⟨first⟩ = some (.call callee .empty)
  | .call callee (some ids) =>
    answer = .inl ⟨first + 1⟩ ∧ s.get? ⟨first + 1⟩ = some (.call callee ⟨first⟩) ∧
      ∃ r, s.get? ⟨first⟩ = some (.paramList r) ∧ s.list? r = some ids

end Construction

open Construction

variable {s t : NodeStore} {first : Nat} {answer : Answer} {c : Construction}

/-! ## One call -/

theorem grows_construct (s : NodeStore) (c : Construction) : s.Grows (s.construct c).2 := by
  cases c with
  | node node => exact grows_add s node
  | list ids => exact grows_addList s ids
  | assign name value => exact (builds_addAssign s name value).grows
  | suite statements => exact (builds_addSuite s statements).grows
  | paramList ids => exact (builds_addParamList s ids).grows
  | funcDef name params body => exact (builds_addFuncDef s name params body).grows
  | call callee args => exact (builds_addCall s callee args).grows

/-! ## The numbers of new nodes -/

/-- A new node is read back under the number that the size of the store was. -/
theorem add_of_size {n : Nat} (h : s.size = n) (node : Node) :
    (s.add node).1 = ⟨n⟩ ∧ (s.add node).2.get? ⟨n⟩ = some node := by
  subst h
  exact ⟨rfl, get?_add_self s node⟩

/-- Nodes that are added one after another get numbers in a row. -/
theorem fst_addAll (s : NodeStore) (nodes : List Node) :
    (s.addAll nodes).1 = numbers s.size nodes.length := by
  induction nodes generalizing s with
  | nil => rfl
  | cons node rest ih =>
    have htail := ih (s.add node).2
    rw [size_add] at htail
    exact congrArg (⟨s.size⟩ :: ·) htail

theorem size_addAll (s : NodeStore) (nodes : List Node) :
    (s.addAll nodes).2.size = s.size + nodes.length := by
  induction nodes generalizing s with
  | nil => rfl
  | cons node rest ih =>
    have htail := ih (s.add node).2
    rw [size_add] at htail
    rw [List.length_cons]
    exact htail.trans (by omega)

/-- The identifiers of a parameter list come first, and then the list. -/
theorem addParams_some (s : NodeStore) (names : List Name) :
    (s.addParams (some names)).1 = ⟨s.size + names.length⟩ ∧
      (s.addParams (some names)).2.size = s.size + names.length + 1 ∧
      (s.addParams (some names)).2.ReadParams s.size names := by
  have hids := s.fst_addAll (names.map .ident)
  have hidents := s.get?_addAll (names.map .ident)
  have hsize := s.size_addAll (names.map .ident)
  rw [List.length_map] at hids hsize
  rw [List.forall₂_map_right_iff, hids] at hidents
  have hparams : s.addParams (some names) =
      (s.addAll (names.map .ident)).2.addParamList (numbers s.size names.length) := by
    rw [← hids]
    rfl
  rw [hparams]
  generalize (s.addAll (names.map .ident)).2 = t at hidents hsize
  have hitems := list?_addList_self t (numbers s.size names.length)
  have hgrows := grows_addParamList t (numbers s.size names.length)
  obtain ⟨hid, hlist⟩ := add_of_size (s := (t.addList (numbers s.size names.length)).2) hsize
    (.paramList (t.addList (numbers s.size names.length)).1)
  refine ⟨hid, (size_add _ _).trans (congrArg (· + 1) hsize), ?_, _, hlist, hitems⟩
  exact hidents.imp fun _ _ h => hgrows.get? h

/-- The store goes on by as many numbers as there are new nodes. -/
theorem size_construct (s : NodeStore) (c : Construction) :
    (s.construct c).2.size = s.size + c.nodeCount := by
  cases c with
  | node node => exact size_add s node
  | list ids => rfl
  | assign name value => exact (size_add _ _).trans (congrArg (· + 1) (size_add s _))
  | suite statements => exact size_add (s.addList statements).2 _
  | paramList ids => exact size_add (s.addList ids).2 _
  | funcDef name params body =>
    cases params with
    | none => exact size_add s _
    | some names =>
      obtain ⟨-, hsize, -⟩ := s.addParams_some names
      exact (size_add _ _).trans (congrArg (· + 1) hsize)
  | call callee args =>
    cases args with
    | none => exact size_add s _
    | some ids => exact (size_add _ _).trans (congrArg (· + 1) (size_add (s.addList ids).2 _))

/-! ## What is read back -/

theorem ReadParams.of_grows (h : s.Grows t) {names : List Name} (hs : s.ReadParams first names) :
    t.ReadParams first names := by
  obtain ⟨hidents, r, hlist, hitems⟩ := hs
  exact ⟨hidents.imp fun _ _ hi => h.get? hi, r, h.get? hlist, h.list? hitems⟩

/-- **What was asked for is read back.** -/
theorem readIn_construct (s : NodeStore) (c : Construction) :
    c.ReadIn (s.construct c).2 s.size (s.construct c).1 := by
  cases c with
  | node node => exact ⟨rfl, get?_add_self s node⟩
  | list ids => exact ⟨_, rfl, list?_addList_self s ids⟩
  | assign name value =>
    obtain ⟨hid, hassign⟩ := add_of_size (size_add s (.ident name)) (.assign ⟨s.size⟩ value)
    have htarget := get?_add_self s (.ident name)
    exact ⟨congrArg Sum.inl hid, hassign, (grows_add _ _).get? htarget⟩
  | suite statements => exact ⟨rfl, _, get?_add_self _ _, list?_addList_self s statements⟩
  | paramList ids => exact ⟨rfl, _, get?_add_self _ _, list?_addList_self s ids⟩
  | funcDef name params body =>
    cases params with
    | none => exact ⟨rfl, get?_add_self s _⟩
    | some names =>
      obtain ⟨hlist, hsize, hparams⟩ := s.addParams_some names
      obtain ⟨hid, hdef⟩ := add_of_size hsize (.funcDef name (s.addParams (some names)).1 body)
      refine ⟨congrArg Sum.inl hid, ?_, hparams.of_grows (grows_add _ _)⟩
      rw [← hlist]
      exact hdef
  | call callee args =>
    cases args with
    | none => exact ⟨rfl, get?_add_self s _⟩
    | some ids =>
      have hlist := get?_add_self (s.addList ids).2 (.paramList (s.addList ids).1)
      obtain ⟨hid, hcall⟩ := add_of_size (size_add (s.addList ids).2 (.paramList (s.addList ids).1))
        (.call callee ⟨s.size⟩)
      exact ⟨congrArg Sum.inl hid, hcall, _, (grows_add _ _).get? hlist, list?_addList_self s ids⟩

/-- What is read back stays as the store grows. -/
theorem Construction.ReadIn.of_grows (h : s.Grows t) (hs : c.ReadIn s first answer) :
    c.ReadIn t first answer := by
  cases c with
  | node node => exact ⟨hs.1, h.get? hs.2⟩
  | list ids =>
    obtain ⟨r, hr, hitems⟩ := hs
    exact ⟨r, hr, h.list? hitems⟩
  | assign name value =>
    obtain ⟨hid, hassign, htarget⟩ := hs
    exact ⟨hid, h.get? hassign, h.get? htarget⟩
  | suite statements =>
    obtain ⟨hid, r, hsuite, hitems⟩ := hs
    exact ⟨hid, r, h.get? hsuite, h.list? hitems⟩
  | paramList ids =>
    obtain ⟨hid, r, hlist, hitems⟩ := hs
    exact ⟨hid, r, h.get? hlist, h.list? hitems⟩
  | funcDef name params body =>
    cases params with
    | none => exact ⟨hs.1, h.get? hs.2⟩
    | some names =>
      obtain ⟨hid, hdef, hparams⟩ := hs
      exact ⟨hid, h.get? hdef, hparams.of_grows h⟩
  | call callee args =>
    cases args with
    | none => exact ⟨hs.1, h.get? hs.2⟩
    | some ids =>
      obtain ⟨hid, hcall, r, hlist, hitems⟩ := hs
      exact ⟨hid, h.get? hcall, r, h.get? hlist, h.list? hitems⟩

/-! ## Calls one after another -/

theorem constructAll_cons (s : NodeStore) (c : Construction) (rest : List Construction) :
    s.constructAll (c :: rest) =
      ((s.construct c).1 :: ((s.construct c).2.constructAll rest).1,
        ((s.construct c).2.constructAll rest).2) := rfl

/-- Calls behind others begin with the store that the others leave. -/
theorem constructAll_append (s : NodeStore) (cs rest : List Construction) :
    s.constructAll (cs ++ rest) =
      ((s.constructAll cs).1 ++ ((s.constructAll cs).2.constructAll rest).1,
        ((s.constructAll cs).2.constructAll rest).2) := by
  induction cs generalizing s with
  | nil => rfl
  | cons c cs ih =>
    rw [List.cons_append, constructAll_cons, ih, constructAll_cons, List.cons_append]

theorem length_constructAll (s : NodeStore) (cs : List Construction) :
    (s.constructAll cs).1.length = cs.length := by
  induction cs generalizing s with
  | nil => rfl
  | cons c cs ih => rw [constructAll_cons, List.length_cons, ih, List.length_cons]

theorem grows_constructAll (s : NodeStore) (cs : List Construction) :
    s.Grows (s.constructAll cs).2 := by
  induction cs generalizing s with
  | nil => exact Grows.refl s
  | cons c cs ih => exact (grows_construct s c).trans (ih _)

theorem size_constructAll (s : NodeStore) (cs : List Construction) :
    (s.constructAll cs).2.size = s.size + nodeCounts cs := by
  induction cs generalizing s with
  | nil => rfl
  | cons c cs ih =>
    rw [constructAll_cons, nodeCounts, ← Nat.add_assoc, ← size_construct]
    exact ih _

/-- **Nodes and lists are added for good, and lists are exact.**  Let constructors be called on a
fresh store, one after another.  The numbers of the nodes go on from the empty one without a gap.
Each call is answered by a number or a range, and through it what was asked for is read back, with
the nodes that were added for it, whatever is called later.  Nor does anything else that could be
read change, and the empty node stays where it is. -/
theorem constructions_exact (before after : List Construction) (c : Construction) :
    (fresh.constructAll before).2.size = 1 + nodeCounts before ∧
    (fresh.constructAll before).2.get? NodeId.empty = some .empty ∧
    (fresh.constructAll before).2.Grows (fresh.constructAll (before ++ c :: after)).2 ∧
    ∃ answer, (fresh.constructAll (before ++ c :: after)).1[before.length]? = some answer ∧
      c.ReadIn (fresh.constructAll (before ++ c :: after)).2 (1 + nodeCounts before)
        answer := by
  have hsize := size_constructAll fresh before
  have hempty := (grows_constructAll fresh before).get? get?_fresh_empty
  have hread := readIn_construct (fresh.constructAll before).2 c
  have hlater := grows_constructAll ((fresh.constructAll before).2.construct c).2 after
  rw [hsize, size_fresh] at hread
  rw [constructAll_append]
  refine ⟨hsize, hempty, grows_constructAll _ _, _, ?_, hread.of_grows hlater⟩
  rw [← length_constructAll fresh before, List.getElem?_append_right (Nat.le_refl _), Nat.sub_self]
  rfl

/-- The identifiers of the parameters, their list and the definition, behind a body. -/
example : (fresh.constructAll [.suite [], .funcDef ⟨1⟩ (some [⟨2⟩, ⟨3⟩]) ⟨1⟩]).2.nodes =
    #[.empty, .suite ⟨0, 0⟩, .ident ⟨2⟩, .ident ⟨3⟩, .paramList ⟨0, 2⟩, .funcDef ⟨1⟩ ⟨4⟩ ⟨1⟩] := rfl

end NodeStore

end TreeWalk
