import Mathlib.Tactic.Common
import TreeWalk.Json.Reader
import TreeWalk.Json.Token

/-!
# What lies ahead of a reader

`Spaced` says of a whole text that it consists of some tokens and blanks.  A reader is in the
middle of a text: it takes its own tokens and leaves the rest to others.  `Ahead ts text rest` says
that the text goes on with the tokens `ts`, each of them behind any blanks, and then with `rest`,
which begins right behind the last token.  Tokens in a row are ahead one part after another
(`ahead_append_iff`), so a reader for a shape can be followed through its parts.

## Where a number ends

A token ends where it says so, except for a number, which ends where something stands that is no
part of it.  What may stand behind the tokens of a value is a blank, a comma, a closing bracket or
the end of the text: `Delimited`.
-/

namespace TreeWalk

namespace Json

variable {ts us : List Token} {t : Token} {c : Char} {text mid rest blanks : List Char}

/-! ## Blanks -/

/-- The characters are all blank. -/
def Blank (cs : List Char) : Prop := ∀ c ∈ cs, isBlank c = true

theorem blank_nil : Blank [] := List.forall_mem_nil _

theorem skipBlank_append (h : Blank blanks) (text : List Char) :
    skipBlank (blanks ++ text) = skipBlank text := by
  induction blanks with
  | nil => rfl
  | cons c cs ih =>
    obtain ⟨hc, hcs⟩ := List.forall_mem_cons.mp h
    rw [List.cons_append, skipBlank, List.dropWhile_cons_of_pos hc]
    exact ih hcs

theorem skipBlank_of_blank (h : Blank blanks) : skipBlank blanks = [] := by
  have happend := skipBlank_append h []
  rwa [List.append_nil] at happend

theorem skipBlank_cons (hc : isBlank c = false) (text : List Char) :
    skipBlank (c :: text) = c :: text := List.dropWhile_cons_of_neg (by simp [hc])

/-! ## Tokens ahead -/

/-- The text goes on with tokens, each behind any blanks, and then with the rest. -/
inductive Ahead : List Token → List Char → List Char → Prop where
  | nil (rest : List Char) : Ahead [] rest rest
  | cons {blanks cs rest : List Char} {t : Token} {ts : List Token} :
    Blank blanks → Ahead ts cs rest → Ahead (t :: ts) (blanks ++ (t ++ cs)) rest

/-- A text that consists of tokens has them ahead of its last blanks. -/
theorem exists_ahead_of_spaced (h : Spaced ts text) : ∃ rest, Blank rest ∧ Ahead ts text rest := by
  induction h with
  | nil hblanks => exact ⟨_, hblanks, .nil _⟩
  | cons hblanks _ ih =>
    obtain ⟨rest, hrest, hahead⟩ := ih
    refine ⟨rest, hrest, ?_⟩
    rw [List.append_assoc]
    exact .cons hblanks hahead

theorem ahead_nil_iff : Ahead [] text rest ↔ text = rest := by
  constructor
  · intro h
    cases h
    rfl
  · rintro rfl
    exact .nil _

theorem ahead_cons_iff :
    Ahead (t :: ts) text rest ↔
      ∃ blanks mid, Blank blanks ∧ text = blanks ++ (t ++ mid) ∧ Ahead ts mid rest := by
  constructor
  · intro h
    cases h with
    | cons hblanks hmid => exact ⟨_, _, hblanks, rfl, hmid⟩
  · rintro ⟨blanks, mid, hblanks, rfl, hmid⟩
    exact .cons hblanks hmid

/-- Tokens in a row are ahead one part after another. -/
theorem ahead_append_iff :
    Ahead (ts ++ us) text rest ↔ ∃ mid, Ahead ts text mid ∧ Ahead us mid rest := by
  induction ts generalizing text with
  | nil =>
    constructor
    · intro h
      exact ⟨text, .nil _, h⟩
    · rintro ⟨mid, hts, hus⟩
      obtain rfl := ahead_nil_iff.mp hts
      exact hus
  | cons t ts ih =>
    rw [List.cons_append, ahead_cons_iff]
    constructor
    · rintro ⟨blanks, next, hblanks, rfl, hnext⟩
      obtain ⟨mid, hts, hus⟩ := ih.mp hnext
      exact ⟨mid, .cons hblanks hts, hus⟩
    · rintro ⟨mid, hts, hus⟩
      obtain ⟨blanks, next, hblanks, rfl, hnext⟩ := ahead_cons_iff.mp hts
      exact ⟨blanks, next, hblanks, rfl, ih.mpr ⟨mid, hnext, hus⟩⟩

/-- Blanks ahead of the first token make no difference. -/
theorem Ahead.skipBlank_eq (h : Ahead ((c :: t) :: ts) text rest) (hc : isBlank c = false) :
    ∃ mid, skipBlank text = c :: (t ++ mid) ∧ Ahead ts mid rest := by
  obtain ⟨blanks, mid, hblanks, rfl, hmid⟩ := ahead_cons_iff.mp h
  refine ⟨mid, ?_, hmid⟩
  rw [skipBlank_append hblanks, List.cons_append, skipBlank_cons hc]

/-- The first token stays ahead when the blanks before it are skipped. -/
theorem Ahead.of_skipBlank (h : Ahead ((c :: t) :: ts) text rest) (hc : isBlank c = false) :
    Ahead ((c :: t) :: ts) (skipBlank text) rest := by
  obtain ⟨mid, htext, hmid⟩ := h.skipBlank_eq hc
  rw [htext, ← List.cons_append]
  exact .cons blank_nil hmid

theorem length_skipBlank_le (text : List Char) : (skipBlank text).length ≤ text.length :=
  (List.dropWhile_sublist _).length_le

/-- The text goes on with a mark. -/
theorem Ahead.skipBlank_mark (h : Ahead (Token.mark c :: ts) text rest) (hc : isBlank c = false) :
    ∃ mid, skipBlank text = c :: mid ∧ Ahead ts mid rest ∧ mid.length < text.length := by
  obtain ⟨mid, htext, hmid⟩ := h.skipBlank_eq hc
  have hlength := length_skipBlank_le text
  rw [htext, List.length_cons, List.nil_append] at hlength
  exact ⟨mid, htext, hmid, hlength⟩

/-- The text goes on with something between quotes. -/
theorem Ahead.skipBlank_quoted {cs : List Char}
    (h : Ahead (('"' :: cs ++ ['"']) :: ts) text rest) :
    ∃ mid, skipBlank text = '"' :: (cs ++ '"' :: mid) ∧ Ahead ts mid rest ∧
      cs.length + mid.length + 1 < text.length := by
  rw [List.cons_append] at h
  obtain ⟨mid, htext, hmid⟩ := h.skipBlank_eq rfl
  rw [List.append_assoc, List.singleton_append] at htext
  have hlength := length_skipBlank_le text
  rw [htext, List.length_cons, List.length_append, List.length_cons] at hlength
  exact ⟨mid, htext, hmid, by omega⟩

/-- What is behind some tokens is no longer than the text. -/
theorem Ahead.length_le (h : Ahead ts text rest) : rest.length ≤ text.length := by
  induction h with
  | nil => exact Nat.le_refl _
  | cons _ _ ih =>
    rw [List.length_append, List.length_append]
    omega

/-! ## What a value is followed by -/

/-- The text ends, or goes on with something that cannot belong to a number. -/
def Delimited (text : List Char) : Prop :=
  ∀ c ∈ text.head?, isBlank c = true ∨ c ∈ [',', ']', '}']

theorem delimited_of_blank (h : Blank text) : Delimited text := by
  intro c hc
  exact Or.inl (h c (List.mem_of_mem_head? hc))

/-- A mark that may stand behind a value is behind it, with any blanks in between. -/
theorem Ahead.delimited (h : Ahead (Token.mark c :: ts) text rest) (hc : c ∈ [',', ']', '}']) :
    Delimited text := by
  obtain ⟨blanks, mid, hblanks, rfl, -⟩ := ahead_cons_iff.mp h
  intro d hd
  cases blanks with
  | nil =>
    obtain rfl : c = d := Option.some.inj hd
    exact Or.inr hc
  | cons b bs =>
    obtain rfl : b = d := Option.some.inj hd
    exact Or.inl (hblanks b (List.mem_cons_self ..))

/-! ## Commas -/

/-- Lists of tokens, each behind a comma. -/
def afterCommas (items : List (List Token)) : List Token := items.flatMap (Token.mark ',' :: ·)

theorem afterCommas_cons (item : List Token) (items : List (List Token)) :
    afterCommas (item :: items) = Token.mark ',' :: (item ++ afterCommas items) := rfl

/-- Behind the first item, every item has a comma before it. -/
theorem commaSeparated_cons (item : List Token) (items : List (List Token)) :
    commaSeparated (item :: items) = item ++ afterCommas items := by
  induction items generalizing item with
  | nil => simp [commaSeparated, afterCommas]
  | cons next items ih =>
    rw [afterCommas_cons, ← ih next]
    simp [commaSeparated, List.intercalate_cons_cons]

/-- Behind an item stands a comma, or what closes the container. -/
theorem delimited_of_afterCommas {items : List (List Token)} (hc : c ∈ [',', ']', '}'])
    (h : Ahead (afterCommas items ++ [Token.mark c]) text rest) : Delimited text := by
  cases items with
  | nil => exact Ahead.delimited h hc
  | cons item items => exact Ahead.delimited h (by decide)

/-- The tokens begin as an item of a container does, with nothing that would close it. -/
def BeginsItem (ts : List Token) : Prop :=
  ∃ c t us, ts = (c :: t) :: us ∧ isBlank c = false ∧ c ≠ ']' ∧ c ≠ '}'

theorem BeginsItem.append (h : BeginsItem ts) : BeginsItem (ts ++ us) := by
  obtain ⟨c, t, vs, rfl, hc⟩ := h
  exact ⟨c, t, vs ++ us, rfl, hc⟩

/-- An item takes up some of the text. -/
theorem Ahead.length_lt (h : Ahead ts text rest) (hbegins : BeginsItem ts) :
    rest.length < text.length := by
  obtain ⟨c, t, vs, rfl, hblank, -⟩ := hbegins
  obtain ⟨mid, htext, hmid⟩ := h.skipBlank_eq hblank
  have hle := hmid.length_le
  have hlength := length_skipBlank_le text
  rw [htext, List.length_cons, List.length_append] at hlength
  omega

/-! ## Readers -/

section Readers

variable {α β : Type} {r : Reader α} {a : α} {limits : Limits}

/-- A reader takes something from tokens, wherever they are ahead, if so many containers may still
be entered and there are more rounds than characters. -/
def Takes (r : Reader α) (a : α) (room : Nat) (ts : List Token) : Prop :=
  ∀ ⦃rounds text rest⦄, Ahead ts text rest → Delimited rest → text.length < rounds →
    r ⟨room + 1, rounds⟩ text = .ok (a, rest)

/-- Once something is taken, the next reader goes on. -/
theorem bind_of_ok (h : r limits text = .ok (a, rest)) (f : α → Reader β) :
    (r >>= f) limits text = f a limits rest := by
  rw [Reader.bind_apply, h]

/-- A container is entered as long as there is room. -/
theorem entering_apply (r : Reader α) (room rounds : Nat) (text : List Char) :
    Reader.entering r ⟨room + 2, rounds⟩ text = r ⟨room + 1, rounds⟩ text := by
  rw [Reader.entering, if_neg (by simp)]
  rfl

theorem Ahead.colon_eq (h : Ahead (Token.mark ':' :: ts) text rest) (limits : Limits) :
    ∃ mid, colon limits text = .ok ((), mid) ∧ Ahead ts mid rest ∧ mid.length < text.length := by
  obtain ⟨mid, htext, hmid, hlength⟩ := h.skipBlank_mark rfl
  refine ⟨mid, ?_, hmid, hlength⟩
  rw [colon, htext]
  rfl

end Readers

end Json

end TreeWalk
