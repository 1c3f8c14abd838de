import TreeWalk.Json.Error

/-!
# Readers

A `Reader α` takes an `α` off the front of a text, under two limits.  The first is
how many containers may still be entered, one inside another; a reader that enters a
container runs its contents under a smaller limit, and nothing can be entered when the
limit would fall to zero.  The second bounds the loops of the readers by the length of
the whole text, which they cannot exceed because each round takes at least one
character.
-/

namespace TreeWalk

namespace Json

/-- The limits under which a text is read. -/
structure Limits where
  /-- One more than the number of containers that may still be entered. -/
  depth : Nat
  /-- A bound on the rounds of every loop. -/
  rounds : Nat
  deriving DecidableEq, Repr

/-- Takes something off the front of a text. -/
def Reader (α : Type) : Type := Limits → List Char → Except Error (α × List Char)

namespace Reader

variable {α β : Type}

/-- Take nothing. -/
@[inline] protected def pure (a : α) : Reader α := fun _ cs => .ok (a, cs)

/-- One reader after another. -/
@[inline] protected def bind (r : Reader α) (f : α → Reader β) : Reader β := fun limits cs =>
  match r limits cs with
  | .ok (a, rest) => f a limits rest
  | .error e => .error e

@[always_inline] instance : Monad Reader where
  pure := Reader.pure
  bind := Reader.bind

theorem pure_apply (a : α) (limits : Limits) (cs : List Char) :
    (pure a : Reader α) limits cs = .ok (a, cs) := rfl

theorem bind_apply (r : Reader α) (f : α → Reader β) (limits : Limits) (cs : List Char) :
    (r >>= f) limits cs =
      match r limits cs with
      | .ok (a, rest) => f a limits rest
      | .error e => .error e := rfl

/-- Give up. -/
def fail (e : Error) : Reader α := fun _ _ => .error e

/-- Run a reader inside one more container. -/
def entering (r : Reader α) : Reader α := fun limits cs =>
  if limits.depth ≤ 1 then .error .tooDeep
  else r { limits with depth := limits.depth - 1 } cs

end Reader

/-- The four characters that may stand between the parts of a text. -/
def isBlank (c : Char) : Bool := c == ' ' || c == '\t' || c == '\n' || c == '\r'

/-- The text from its first character that is not blank. -/
def skipBlank (cs : List Char) : List Char := cs.dropWhile isBlank

/-- Take the rest of a word whose first letter was met. -/
def word : List Char → Reader Unit
  | [], _, cs => .ok ((), cs)
  | _ :: _, _, [] => .error .valueEnded
  | c :: more, limits, d :: rest => if c = d then word more limits rest else .error .expectedIdent

/-- Take the colon after a key. -/
def colon : Reader Unit := fun _ cs =>
  match skipBlank cs with
  | [] => .error .objectEnded
  | c :: rest => if c = ':' then .ok ((), rest) else .error .expectedColon

end Json

end TreeWalk
