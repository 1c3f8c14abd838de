import TreeWalk.Json.Reader

/-!
# Strings in a JSON text

A string is read after its opening quote.  Characters below the space must be
escaped.  An escape by number names a unit of UTF-16, so a character beyond the basic
plane takes two of them, and a unit that is half of such a pair may not stand alone.

A string that nobody looks at is only skipped: its escapes must be well formed, but
its halves of pairs need not match.
-/

namespace TreeWalk

namespace Json

/-- The value of a hexadecimal digit. -/
def hexDigit? (c : Char) : Option Nat :=
  if '0' ≤ c ∧ c ≤ '9' then some (c.toNat - '0'.toNat)
  else if 'a' ≤ c ∧ c ≤ 'f' then some (c.toNat - 'a'.toNat + 10)
  else if 'A' ≤ c ∧ c ≤ 'F' then some (c.toNat - 'A'.toNat + 10)
  else none

/-- The number of bytes that characters take in UTF-8. -/
def byteSize (cs : List Char) : Nat := cs.foldr (fun c n => c.utf8Size + n) 0

/-- Four hexadecimal digits as a number.  A text with fewer than four bytes left has
ended, whatever those bytes are. -/
def hexUnit (cs : List Char) : Except Error (Nat × List Char) :=
  match cs with
  | a :: b :: c :: d :: rest =>
    match hexDigit? a, hexDigit? b, hexDigit? c, hexDigit? d with
    | some a, some b, some c, some d => .ok (((a * 16 + b) * 16 + c) * 16 + d, rest)
    | _, _, _, _ => .error .invalidEscape
  | _ => if byteSize cs < 4 then .error .stringEnded else .error .invalidEscape

/-- The first units of pairs. -/
def isLeading (n : Nat) : Bool := 0xd800 ≤ n && n ≤ 0xdbff

/-- The second units of pairs. -/
def isTrailing (n : Nat) : Bool := 0xdc00 ≤ n && n ≤ 0xdfff

/-- The character that two units stand for. -/
def ofPair (leading trailing : Nat) : Char :=
  Char.ofNat ((leading - 0xd800) * 0x400 + (trailing - 0xdc00) + 0x10000)

/-- The second half of a pair, after its first half. -/
def trailingUnit (leading : Nat) : List Char → Except Error (Char × List Char)
  | [] => .error .stringEnded
  | c :: cs =>
    if c = '\\' then
      match cs with
      | [] => .error .stringEnded
      | d :: ds =>
        if d = 'u' then
          match hexUnit ds with
          | .error e => .error e
          | .ok (n, rest) =>
            if isTrailing n then .ok (ofPair leading n, rest) else .error .loneSurrogate
        else .error .unfinishedSurrogate
    else .error .unfinishedSurrogate

/-- The character of an escape by number, after its `u`. -/
def numberedEscape (cs : List Char) : Except Error (Char × List Char) :=
  match hexUnit cs with
  | .error e => .error e
  | .ok (n, rest) =>
    if isTrailing n then .error .loneSurrogate
    else if isLeading n then trailingUnit n rest
    else .ok (Char.ofNat n, rest)

/-- The character of an escape by a letter. -/
def letterEscape? (c : Char) : Option Char :=
  if c = '"' then some '"'
  else if c = '\\' then some '\\'
  else if c = '/' then some '/'
  else if c = 'b' then some '\x08'
  else if c = 'f' then some '\x0c'
  else if c = 'n' then some '\n'
  else if c = 'r' then some '\r'
  else if c = 't' then some '\t'
  else none

/-- The character of an escape, after its backslash. -/
def escaped : List Char → Except Error (Char × List Char)
  | [] => .error .stringEnded
  | c :: rest =>
    match letterEscape? c with
    | some d => .ok (d, rest)
    | none => if c = 'u' then numberedEscape rest else .error .invalidEscape

/-- The characters of a string up to its closing quote, after those in `before`, which
are given last first. -/
def stringRest : Nat → List Char → List Char → Except Error (String × List Char)
  | 0, _, _ => .error .stringEnded
  | _ + 1, _, [] => .error .stringEnded
  | rounds + 1, before, c :: rest =>
    if c = '"' then .ok (String.ofList before.reverse, rest)
    else if c = '\\' then
      match escaped rest with
      | .error e => .error e
      | .ok (d, rest) => stringRest rounds (d :: before) rest
    else if c < ' ' then .error .controlCharacter
    else stringRest rounds (c :: before) rest

/-- A string, after its opening quote. -/
def stringBody : Reader String := fun limits cs => stringRest limits.rounds [] cs

/-- Skip an escape, after its backslash. -/
def skipEscaped : List Char → Except Error (List Char)
  | [] => .error .stringEnded
  | c :: rest =>
    match letterEscape? c with
    | some _ => .ok rest
    | none =>
      if c = 'u' then
        match hexUnit rest with
        | .error e => .error e
        | .ok (_, rest) => .ok rest
      else .error .invalidEscape

/-- Skip a string, after its opening quote. -/
def skipStringRest : Nat → List Char → Except Error (List Char)
  | 0, _ => .error .stringEnded
  | _ + 1, [] => .error .stringEnded
  | rounds + 1, c :: rest =>
    if c = '"' then .ok rest
    else if c = '\\' then
      match skipEscaped rest with
      | .error e => .error e
      | .ok rest => skipStringRest rounds rest
    else if c < ' ' then .error .controlCharacter
    else skipStringRest rounds rest

end Json

end TreeWalk
