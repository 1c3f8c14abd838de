import Mathlib.Data.List.Forall2
import TreeWalk.Json.Shape
import TreeWalk.Json.Token

/-!
# Spellings

A `Spelling` is the set of all ways to write one thing: which lists of tokens write it
with at most so many containers open at a time.  The functions below build spellings of
composed things from spellings of their parts, and choose nothing: wherever a format
leaves a choice to the writer, every choice is in the set.

A record of fields is written as an object or as an array.  In an object the fields come
in any order, among any members whose keys mean nothing; the values of those may be
anything, and they do not count as open containers.  A field that may be left out is
left out anywhere in an object, and at the end of an array.
-/

namespace TreeWalk

namespace Json

/-- The ways to write a thing, with at most so many containers open. -/
abbrev Spelling : Type := Nat → List Token → Prop

namespace Spelling

/-- One of the ways of either of two spellings. -/
def either (p q : Spelling) : Spelling := fun room ts => p room ts ∨ q room ts

/-- The ways to write something inside one more container. -/
def inside (p : Spelling) : Spelling
  | 0, _ => False
  | room + 1, ts => p room ts

/-- The ways to write a token of a given kind. -/
def token (p : Token → Prop) : Spelling := fun _ ts => ∃ t, p t ∧ ts = [t]

/-- The ways to write `null`. -/
def null : Spelling := token (· = Token.null)

/-- The ways to write a string. -/
def string (s : String) : Spelling := token (SpellsString s)

/-- The ways to write an integer. -/
def int64 (n : Int64) : Spelling := token (· = integerToken n.toInt)

/-- The ways to write a float: the numbers that are read as this float. -/
def float64 (x : Float) : Spelling :=
  token fun t => IsNumber t ∧ ∀ limits, Json.float64 limits t = .ok (x, [])

/-- The ways to write items as an array. -/
def array (items : List Spelling) : Spelling :=
  inside fun room ts =>
    ∃ written, List.Forall₂ (fun p ts => p room ts) items written ∧
      ts = Token.mark '[' :: commaSeparated written ++ [Token.mark ']']

/-- The ways to write a name with a content. -/
def tagged (name : String) (content : Spelling) : Spelling :=
  inside fun room ts =>
    ∃ key written, SpellsString name key ∧ content room written ∧
      ts = Token.mark '{' :: key :: Token.mark ':' :: written ++ [Token.mark '}']

/-- The ways to write a bare name, which may be given the content `null`. -/
def word (name : String) : Spelling := either (string name) (tagged name null)

/-- A field of a record: its key, the ways to write what it holds, and whether it may be
left out. -/
structure Part where
  key : String
  value : Spelling
  omittable : Bool

/-- A field that must be given. -/
def Part.given (key : String) (value : Spelling) : Part := ⟨key, value, false⟩

/-- A member of an object: its key, the token for the key, and its value. -/
structure Member where
  key : String
  token : Token
  value : List Token

/-- A member as it is written. -/
def Member.tokens (m : Member) : List Token := m.token :: Token.mark ':' :: m.value

/-- The ways to write a record as an object. -/
def object (parts : List Part) : Spelling :=
  inside fun room ts =>
    ∃ members : List Member,
      (∀ m ∈ members, SpellsString m.key m.token) ∧
      (∀ m ∈ members, m.key ∉ parts.map Part.key → IsValue m.value) ∧
      (∀ p ∈ parts, ∀ m ∈ members, m.key = p.key → p.value room m.value) ∧
      (∀ p ∈ parts, (members.map Member.key).count p.key ≤ 1) ∧
      (∀ p ∈ parts, p.key ∉ members.map Member.key → p.omittable = true) ∧
      ts = Token.mark '{' :: commaSeparated (members.map Member.tokens) ++ [Token.mark '}']

/-- The ways to write a record as an array. -/
def positional (parts : List Part) : Spelling := fun room ts =>
  ∃ written rest, parts = written ++ rest ∧ (∀ p ∈ rest, p.omittable = true) ∧
    array (written.map Part.value) room ts

/-- The ways to write a record. -/
def record (parts : List Part) : Spelling := either (object parts) (positional parts)

end Spelling

end Json

end TreeWalk
