import TreeWalk.Json.Shape
import TreeWalk.Tree

/-!
# The fields of a node

The content of most nodes in a program file is a record of fields.  A record may be
written in two ways: as an object, whose keys come in any order and may be mixed with
keys that mean nothing, or as an array of the fields in their fixed order.

What a field holds is one of a few kinds of thing, `FieldKind`, and a record is read
once for all from the list of its fields.  While an object is read, `Slots` holds the
fields seen so far; at its end every field has a value or may be absent, which makes it
`Fields`.
-/

namespace TreeWalk

open Json (Reader)

/-- What a field of a node may hold. -/
inductive FieldKind where
  | unaryOp
  | binaryOp
  | name
  | tree
  /-- A tree or nothing. -/
  | treeOption
  /-- A list of names or nothing. -/
  | nameListOption
  /-- A list of trees or nothing. -/
  | treeListOption
  deriving DecidableEq, Repr

namespace FieldKind

/-- The things of a kind. -/
def Value : FieldKind → Type
  | unaryOp => UnaryOp
  | binaryOp => BinaryOp
  | name => String
  | tree => Tree
  | treeOption => Option Tree
  | nameListOption => Option (List String)
  | treeListOption => Option (List Tree)

/-- What a field holds that is absent, if it may be absent. -/
def absent? : (kind : FieldKind) → Option kind.Value
  | unaryOp => none
  | binaryOp => none
  | name => none
  | tree => none
  | treeOption => some (none : Option Tree)
  | nameListOption => some (none : Option (List String))
  | treeListOption => some (none : Option (List Tree))

end FieldKind

/-- An operator that is written as its keyword, with or without an empty content. -/
def operator {τ : Type} (find : String → Option τ) (keywords : List String) : Reader τ :=
  Json.tagged find keywords pure fun op => do
    Json.null
    return op

/-- Take a thing of a kind, in which trees are taken by a given reader. -/
def FieldKind.read (tree : Reader Tree) : (kind : FieldKind) → Reader kind.Value
  | .unaryOp => operator UnaryOp.ofKeyword? (UnaryOp.all.map UnaryOp.keyword)
  | .binaryOp => operator BinaryOp.ofKeyword? (BinaryOp.all.map BinaryOp.keyword)
  | .name => Json.string
  | .tree => tree
  | .treeOption => Json.optional tree
  | .nameListOption => Json.optional (Json.array Json.string)
  | .treeListOption => Json.optional (Json.array tree)

/-- A field of a node. -/
structure Field where
  /-- The key of the field in an object. -/
  key : String
  /-- What it holds. -/
  kind : FieldKind
  deriving DecidableEq, Repr

/-- A value for each field. -/
def Fields : List Field → Type
  | [] => Unit
  | f :: fs => f.kind.Value × Fields fs

/-- A value for each field that was seen. -/
def Slots : List Field → Type
  | [] => Unit
  | f :: fs => Option f.kind.Value × Slots fs

namespace Slots

/-- No field was seen. -/
def empty : (fs : List Field) → Slots fs
  | [] => ()
  | _ :: fs => (none, empty fs)

/-- The fields once all are seen.  The first that is missing and may not be absent is
complained about. -/
def complete : (fs : List Field) → Slots fs → Except Json.Error (Fields fs)
  | [], _ => .ok ()
  | f :: fs, (slot, slots) =>
    match slot.or f.kind.absent? with
    | none => .error (.missingField f.key)
    | some v =>
      match complete fs slots with
      | .error e => .error e
      | .ok vs => .ok (v, vs)

/-- Take the value that belongs to a key.  A key that means nothing has its value skipped,
and a key that was seen before is refused ahead of its value. -/
def take (tree : Reader Tree) : (fs : List Field) → Slots fs → String → Reader (Slots fs)
  | [], slots, _ => do
    Json.colon
    Json.skipValue
    return slots
  | f :: fs, (slot, slots), key =>
    if key = f.key then
      if slot.isSome then Reader.fail (.duplicateField key)
      else do
        Json.colon
        let v ← f.kind.read tree
        return (some v, slots)
    else do return (slot, ← take tree fs slots key)

end Slots

namespace Fields

/-- Take the items of an object. -/
def objectItems (tree : Reader Tree) (fs : List Field) : Nat → Bool → Slots fs → Reader (Fields fs)
  | 0, _, _ => Reader.fail .objectEnded
  | rounds + 1, first, slots => do
    if ← Json.moreKeys first then
      let slots ← slots.take tree fs (← Json.stringBody)
      objectItems tree fs rounds false slots
    else
      match slots.complete fs with
      | .error e => Reader.fail e
      | .ok vs =>
        Json.objectEnd
        return vs

/-- The values of fields that an array ends before, the first of which has the given
position. -/
def absent (expected : String) : (fs : List Field) → Nat → Except Json.Error (Fields fs)
  | [], _ => .ok ()
  | f :: fs, position =>
    match f.kind.absent? with
    | none => .error (.invalidLength position expected)
    | some v =>
      match absent expected fs (position + 1) with
      | .error e => .error e
      | .ok vs => .ok (v, vs)

/-- Take the items of an array, the first of which has the given position. -/
def arrayItems (tree : Reader Tree) (expected : String) :
    (fs : List Field) → Nat → Reader (Fields fs)
  | [], _ => pure ()
  | f :: fs, position => do
    if ← Json.moreItems (position == 0) then
      let v ← f.kind.read tree
      return (v, ← arrayItems tree expected fs (position + 1))
    else
      match absent expected (f :: fs) position with
      | .error e => Reader.fail e
      | .ok vs => return vs

/-- Take a record of fields, written as an object or as an array.  `label` is the name by
which complaints refer to the node. -/
def read (tree : Reader Tree) (label : String) (fs : List Field) : Reader (Fields fs) :=
  fun limits cs =>
    let expected := "struct variant Node::" ++ label
    match Json.skipBlank cs with
    | [] => .error .valueEnded
    | c :: rest =>
      if c = '{' then
        Reader.entering (objectItems tree fs (limits.rounds + 1) true (Slots.empty fs)) limits rest
      else if c = '[' then
        Reader.entering
          (do
            let vs ← arrayItems tree s!"{expected} with {fs.length} elements" fs 0
            Json.arrayEnd
            return vs) limits rest
      else Json.unexpectedAt expected c rest limits cs

end Fields

end TreeWalk
