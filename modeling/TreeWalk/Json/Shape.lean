import TreeWalk.Json.Number
import TreeWalk.Json.Skip
import TreeWalk.Json.Text

/-!
# Readers for the shapes of JSON

The readers here take a value of one expected shape: a string, a number, `null`, an
array of things of one kind, or a name with a content.  Where the text holds another
shape, `unexpected` says what it holds, which for numbers and strings means that they
are read first and may turn out to be malformed themselves.
-/

namespace TreeWalk

namespace Json

variable {α τ : Type}

/-- Complain about a value of the wrong shape, whose first character is `c`. -/
def unexpectedAt (expected : String) (c : Char) (rest : List Char) : Reader α := fun limits _ =>
  if c = 'n' then
    match word ['u', 'l', 'l'] limits rest with
    | .error e => .error e
    | .ok _ => .error (.invalidType .null expected)
  else if c = 't' then
    match word ['r', 'u', 'e'] limits rest with
    | .error e => .error e
    | .ok _ => .error (.invalidType (.boolean true) expected)
  else if c = 'f' then
    match word ['a', 'l', 's', 'e'] limits rest with
    | .error e => .error e
    | .ok _ => .error (.invalidType (.boolean false) expected)
  else if c = '-' ∨ (digit? c).isSome then
    match number limits (c :: rest) with
    | .error e => .error e
    | .ok (n, _) => .error (.invalidType n.found expected)
  else if c = '"' then
    match stringBody limits rest with
    | .error e => .error e
    | .ok (s, _) => .error (.invalidType (.string s) expected)
  else if c = '[' then .error (.invalidType .sequence expected)
  else if c = '{' then .error (.invalidType .map expected)
  else .error .expectedValue

/-- Take a string. -/
def string : Reader String := fun limits cs =>
  match skipBlank cs with
  | [] => .error .valueEnded
  | c :: rest =>
    if c = '"' then stringBody limits rest
    else unexpectedAt "a string" c rest limits cs

/-- Take a number. -/
def numeral (expected : String) : Reader Number := fun limits cs =>
  match skipBlank cs with
  | [] => .error .valueEnded
  | c :: rest =>
    if c = '-' ∨ (digit? c).isSome then number limits (c :: rest)
    else unexpectedAt expected c rest limits cs

/-- Take a 64-bit integer. -/
def int64 : Reader Int64 := do
  match ← numeral "i64" with
  | .natural n => if n < Nat.pow 2 63 then pure (Int64.ofNat n) else Reader.fail (.invalidInteger n)
  | .negative n => pure n
  | .float x => Reader.fail (.invalidType (.float x) "i64")

/-- Take a double, to which an integer is rounded. -/
def float64 : Reader Float := do
  match ← numeral "f64" with
  | .natural n => pure n.toUInt64.toFloat
  | .negative n => pure (Binary64.ofInt64 n)
  | .float x => pure x

/-- Take `null`. -/
def null : Reader Unit := fun limits cs =>
  match skipBlank cs with
  | [] => .error .valueEnded
  | c :: rest =>
    if c = 'n' then word ['u', 'l', 'l'] limits rest
    else unexpectedAt "unit" c rest limits cs

/-- Take `null` for nothing, or whatever a reader takes. -/
def optional (r : Reader α) : Reader (Option α) := fun limits cs =>
  match skipBlank cs with
  | 'n' :: rest =>
    match word ['u', 'l', 'l'] limits rest with
    | .error e => .error e
    | .ok (_, rest) => .ok (none, rest)
  | cs =>
    match r limits cs with
    | .error e => .error e
    | .ok (a, rest) => .ok (some a, rest)

/-- Whether another item of an array follows.  The text goes on with the item, or with the
bracket that closes the array. -/
def moreItems (first : Bool) : Reader Bool := fun _ cs =>
  match skipBlank cs with
  | [] => .error .listEnded
  | c :: rest =>
    if c = ']' then .ok (false, c :: rest)
    else if first then .ok (true, c :: rest)
    else if c = ',' then
      match skipBlank rest with
      | [] => .error .valueEnded
      | d :: rest => if d = ']' then .error .trailingComma else .ok (true, d :: rest)
    else .error .expectedListCommaOrEnd

/-- Take the end of an array whose items are all taken. -/
def arrayEnd : Reader Unit := fun _ cs =>
  match skipBlank cs with
  | [] => .error .listEnded
  | c :: rest =>
    if c = ']' then .ok ((), rest)
    else if c = ',' then
      match skipBlank rest with
      | [] => .error .trailingCharacters
      | d :: _ => if d = ']' then .error .trailingComma else .error .trailingCharacters
    else .error .trailingCharacters

/-- Take the items of an array. -/
def items (r : Reader α) : Nat → Bool → Reader (List α)
  | 0, _ => Reader.fail .listEnded
  | rounds + 1, first => do
    if ← moreItems first then
      let a ← r
      return a :: (← items r rounds false)
    else
      arrayEnd
      return []

/-- Take an array. -/
def array (r : Reader α) : Reader (List α) := fun limits cs =>
  match skipBlank cs with
  | [] => .error .valueEnded
  | c :: rest =>
    if c = '[' then Reader.entering (items r (limits.rounds + 1) true) limits rest
    else unexpectedAt "a sequence" c rest limits cs

/-- Whether another item of an object follows.  The text goes on behind the quote that opens
its key, or with the brace that closes the object. -/
def moreKeys (first : Bool) : Reader Bool := fun _ cs =>
  match skipBlank cs with
  | [] => .error .objectEnded
  | c :: rest =>
    if c = '}' then .ok (false, c :: rest)
    else if first then
      if c = '"' then .ok (true, rest) else .error .keyMustBeString
    else if c = ',' then
      match skipBlank rest with
      | [] => .error .valueEnded
      | d :: rest =>
        if d = '"' then .ok (true, rest)
        else if d = '}' then .error .trailingComma
        else .error .keyMustBeString
    else .error .expectedObjectCommaOrEnd

/-- Take the end of an object whose items are all taken. -/
def objectEnd : Reader Unit := fun _ cs =>
  match skipBlank cs with
  | [] => .error .objectEnded
  | c :: rest => if c = '}' then .ok ((), rest) else .error .trailingCharacters

/-- Find the name that was read among the names that are known. -/
def known (find : String → Option τ) (names : List String) (name : String) : Reader τ :=
  match find name with
  | some t => pure t
  | none => Reader.fail (.unknownVariant name names)

/-- Take the opening quote of the name in `{"name": content}`. -/
def tagStart : Reader Unit := fun _ cs =>
  match skipBlank cs with
  | [] => .error .objectEnded
  | c :: rest =>
    if c = '"' then .ok ((), rest)
    else if c = '}' then .error .expectedValue
    else .error .keyMustBeString

/-- Take the brace behind the content in `{"name": content}`. -/
def tagEnd : Reader Unit := fun _ cs =>
  match skipBlank cs with
  | [] => .error .objectEnded
  | c :: rest => if c = '}' then .ok ((), rest) else .error .expectedValue

/-- Take a name, either bare or with a content, as in `{"name": content}`.  The names are
those that `find` knows; a bare name and a name with a content are read differently. -/
def tagged (find : String → Option τ) (names : List String)
    (bare : τ → Reader α) (content : τ → Reader α) : Reader α := fun limits cs =>
  match skipBlank cs with
  | [] => .error .valueEnded
  | c :: rest =>
    if c = '"' then
      (do bare (← known find names (← stringBody))) limits rest
    else if c = '{' then
      match Reader.entering
          (do
            tagStart
            let t ← known find names (← stringBody)
            colon
            content t) limits rest with
      | .error e => .error e
      | .ok (a, rest) => (do tagEnd; return a) limits rest
    else .error .expectedValue

/-- Take one value and nothing but blanks behind it. -/
def whole (r : Reader α) (depth : Nat) (text : String) : Except Error α :=
  let cs := text.toList
  match r ⟨depth, cs.length + 1⟩ cs with
  | .error e => .error e
  | .ok (a, rest) => if (skipBlank rest).isEmpty then .ok a else .error .trailingCharacters

end Json

end TreeWalk
