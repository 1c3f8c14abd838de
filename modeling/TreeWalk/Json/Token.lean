import TreeWalk.Json.Text

/-!
# The tokens of a JSON text

What a text says and how it says it are kept apart here.  A `Token` is a punctuation
mark, a word, a number or a string as it is written, and `Spaced` relates a list of
tokens to the texts that hold these tokens with any blanks in between.  The relations
below say which tokens spell a string and which lists of tokens are a value.

* `Spaced ts cs`: the text `cs` consists of the tokens `ts` and blanks.
* `SpellsString s t`: the token `t` is the string `s` between quotes, with any escapes.
* `IsString t`: the token `t` is a string, halves of pairs of units included.
* `IsNumber t`: the token `t` is a number.
* `IsValue ts`: the tokens `ts` are a value of any kind.
-/

namespace TreeWalk

namespace Json

/-- A token, as it is written. -/
abbrev Token : Type := List Char

namespace Token

/-- The token of a single character. -/
def mark (c : Char) : Token := [c]

/-- The token `null`. -/
def null : Token := ['n', 'u', 'l', 'l']

end Token

/-- A text that consists of tokens with any blanks before, between and behind them. -/
inductive Spaced : List Token → List Char → Prop where
  | nil {blanks : List Char} : (∀ c ∈ blanks, isBlank c = true) → Spaced [] blanks
  | cons {blanks cs : List Char} {t : Token} {ts : List Token} :
    (∀ c ∈ blanks, isBlank c = true) → Spaced ts cs → Spaced (t :: ts) (blanks ++ t ++ cs)

/-- Tokens are a text of their own when nothing is put between them. -/
theorem spaced_flatten : ∀ ts : List Token, Spaced ts ts.flatten
  | [] => .nil (List.forall_mem_nil _)
  | t :: ts => @Spaced.cons [] ts.flatten t ts (List.forall_mem_nil _) (spaced_flatten ts)

/-- Lists of tokens, one after another, with commas between them. -/
def commaSeparated (items : List (List Token)) : List Token :=
  [Token.mark ','].intercalate items

/-! ## Strings -/

/-- The units of a character in UTF-16. -/
def units (c : Char) : List Nat :=
  if c.toNat < 0x10000 then [c.toNat]
  else [0xd800 + (c.toNat - 0x10000) / 0x400, 0xdc00 + (c.toNat - 0x10000) % 0x400]

/-- Four hexadecimal digits that spell a number. -/
def SpellsUnit (n : Nat) (digits : List Char) : Prop :=
  ∃ a b c d : Nat, digits.map hexDigit? = [some a, some b, some c, some d] ∧
    n = ((a * 16 + b) * 16 + c) * 16 + d

/-- Escapes by number that spell units, one after another. -/
inductive SpellsUnits : List Nat → List Char → Prop where
  | nil : SpellsUnits [] []
  | cons {n : Nat} {ns : List Nat} {digits cs : List Char} :
    SpellsUnit n digits → SpellsUnits ns cs → SpellsUnits (n :: ns) ('\\' :: 'u' :: digits ++ cs)

/-- A character that may stand in a string as it is. -/
def IsPlain (c : Char) : Prop := ' ' ≤ c ∧ c ≠ '"' ∧ c ≠ '\\'

/-- The ways to write a character in a string. -/
inductive SpellsChar (c : Char) : List Char → Prop where
  | plain : IsPlain c → SpellsChar c [c]
  | letter {l : Char} : letterEscape? l = some c → SpellsChar c ['\\', l]
  | numbered {cs : List Char} : SpellsUnits (units c) cs → SpellsChar c cs

/-- The ways to write the characters of a string. -/
inductive SpellsChars : List Char → List Char → Prop where
  | nil : SpellsChars [] []
  | cons {c : Char} {s text cs : List Char} :
    SpellsChar c text → SpellsChars s cs → SpellsChars (c :: s) (text ++ cs)

/-- The ways to write a string. -/
def SpellsString (s : String) (t : Token) : Prop :=
  ∃ cs, SpellsChars s.toList cs ∧ t = '"' :: cs ++ ['"']

/-- The parts of a string of which nobody asks what characters it has. -/
inductive IsStringPart : List Char → Prop where
  | plain {c : Char} : IsPlain c → IsStringPart [c]
  | letter {l : Char} : (letterEscape? l).isSome → IsStringPart ['\\', l]
  | numbered {n : Nat} {digits : List Char} :
    SpellsUnit n digits → IsStringPart ('\\' :: 'u' :: digits)

/-- A string of which nobody asks what characters it has. -/
def IsString (t : Token) : Prop :=
  ∃ parts : List (List Char), (∀ p ∈ parts, IsStringPart p) ∧ t = '"' :: parts.flatten ++ ['"']

/-! ## Numbers -/

/-- One decimal digit or more. -/
def IsDigits (cs : List Char) : Prop := cs ≠ [] ∧ ∀ c ∈ cs, c.isDigit = true

/-- An optional part of a number. -/
def IsOptional (p : List Char → Prop) (cs : List Char) : Prop := cs = [] ∨ p cs

/-- The integer part of a number, which has no zero ahead of other digits. -/
def IsIntegerPart (cs : List Char) : Prop :=
  IsDigits cs ∧ (cs.head? = some '0' → cs = ['0'])

/-- The fraction of a number. -/
def IsFraction (cs : List Char) : Prop := ∃ ds, IsDigits ds ∧ cs = '.' :: ds

/-- The exponent of a number. -/
def IsExponent (cs : List Char) : Prop :=
  ∃ e sign ds, (e = 'e' ∨ e = 'E') ∧ (sign = [] ∨ sign = ['+'] ∨ sign = ['-']) ∧ IsDigits ds ∧
    cs = e :: sign ++ ds

/-- A number. -/
def IsNumber (t : Token) : Prop :=
  ∃ sign whole fraction exponent, (sign = [] ∨ sign = ['-']) ∧ IsIntegerPart whole ∧
    IsOptional IsFraction fraction ∧ IsOptional IsExponent exponent ∧
    t = sign ++ whole ++ fraction ++ exponent

/-- An integer in decimal digits, without needless zeros and with a sign only if it is
negative. -/
def integerToken (n : Int) : Token :=
  if n < 0 then '-' :: Nat.toDigits 10 n.natAbs else Nat.toDigits 10 n.natAbs

/-! ## Values -/

/-- The tokens of a value of any kind. -/
inductive IsValue : List Token → Prop where
  | null : IsValue [Token.null]
  | yes : IsValue [['t', 'r', 'u', 'e']]
  | no : IsValue [['f', 'a', 'l', 's', 'e']]
  | number {t : Token} : IsNumber t → IsValue [t]
  | string {t : Token} : IsString t → IsValue [t]
  | array {items : List (List Token)} :
    (∀ item ∈ items, IsValue item) →
    IsValue (Token.mark '[' :: commaSeparated items ++ [Token.mark ']'])
  | object {members : List (Token × List Token)} :
    (∀ m ∈ members, IsString m.1) → (∀ m ∈ members, IsValue m.2) →
    IsValue (Token.mark '{' ::
      commaSeparated (members.map fun m => m.1 :: Token.mark ':' :: m.2) ++ [Token.mark '}'])

end Json

end TreeWalk
