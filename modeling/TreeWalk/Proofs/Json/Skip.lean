import TreeWalk.Json.Skip
import TreeWalk.Proofs.Json.Number
import TreeWalk.Proofs.Json.Text

/-!
# Values of any kind are skipped

A value that nobody asks about may nest as deep as it likes, and the reader that skips it walks
through it in one loop.  The loop gets twice as many rounds as the text has characters.  Almost
every round takes a character; the exception is the one that finds the first item of a container
that was just opened, and the bracket or brace before it has paid for two.  So the rounds a stretch
of the text may take are counted against its characters, with one to spare right behind an opening
bracket: this is `SkipPoint.room`, and `Reaches` says that the loop gets from one point to another
within it.

A value then takes the loop from where a value must follow to where one just ended, whatever is
open around it (`passesValue_of_isValue`), and the proof follows the grammar.
-/

namespace TreeWalk

namespace Json

variable {ts : List Token} {t : Token} {c : Char} {text rest more : List Char} {limits : Limits}

/-! ## Numbers -/

section Numbers

theorem eq_of_digit?_zero (h : digit? c = some 0) : c = '0' := by
  unfold digit? at h
  split at h
  · next hrange =>
    have hlow : 48 ≤ c.toNat := hrange.1
    have hzero : c.toNat - 48 = 0 := Option.some.inj h
    exact Char.toNat_inj.mp (Nat.le_antisymm (Nat.sub_eq_zero_iff_le.mp hzero) hlow)
  · cases h

/-- An integer part has a first digit, and is the digit zero if it begins with it. -/
theorem IsIntegerPart.exists_digit {whole : List Char} (h : IsIntegerPart whole) :
    ∃ c cs d, whole = c :: cs ∧ digit? c = some d ∧ (∀ b ∈ cs, b.isDigit = true) ∧
      (d = 0 → cs = []) := by
  obtain ⟨⟨hne, hdigits⟩, hlone⟩ := h
  obtain ⟨c, cs, rfl⟩ := List.exists_cons_of_ne_nil hne
  obtain ⟨hc, hcs⟩ := List.forall_mem_cons.mp hdigits
  obtain ⟨d, hd⟩ := Option.isSome_iff_exists.mp (isSome_digit?_of_isDigit hc)
  refine ⟨c, cs, d, rfl, hd, hcs, ?_⟩
  rintro rfl
  obtain rfl := eq_of_digit?_zero hd
  exact (List.cons.inj (hlone rfl)).2

theorem dropDigits_append {ds : List Char} (hds : ∀ c ∈ ds, c.isDigit = true)
    (hrest : startsWithDigit rest = false) : dropDigits (ds ++ rest) = rest := by
  suffices h : ∀ n, (countDigits n (ds ++ rest)).2 = rest from h 0
  induction ds with
  | nil =>
    intro n
    cases rest with
    | nil => rfl
    | cons c rest =>
      have hc : ¬ (digit? c).isSome = true := by
        rw [startsWithDigit] at hrest
        rw [hrest]
        decide
      rw [List.nil_append, countDigits, if_neg hc]
  | cons c ds ih =>
    intro n
    obtain ⟨hc, hds⟩ := List.forall_mem_cons.mp hds
    rw [List.cons_append, countDigits, if_pos (isSome_digit?_of_isDigit hc)]
    exact ih hds (n + 1)

theorem startsWithDigit_of_isDigits {ds : List Char} (h : IsDigits ds) (rest : List Char) :
    startsWithDigit (ds ++ rest) = true := by
  obtain ⟨c, cs, rfl⟩ := List.exists_cons_of_ne_nil h.1
  exact isSome_digit?_of_isDigit (h.2 c (List.mem_cons_self ..))

variable (hd : Delimited rest)

include hd

theorem startsWithDigit_eq_false : startsWithDigit rest = false :=
  (startsWithDigit_append hd []).trans rfl

theorem skipExponent_eq {sign ds : List Char} (hsign : sign = [] ∨ sign = ['+'] ∨ sign = ['-'])
    (hds : IsDigits ds) : skipExponent (sign ++ (ds ++ rest)) = .ok rest := by
  have hdigit := startsWithDigit_of_isDigits hds rest
  have hdrop := dropDigits_append hds.2 (startsWithDigit_eq_false hd)
  rcases hsign with rfl | rfl | rfl
  · obtain ⟨c, cs, rfl⟩ := List.exists_cons_of_ne_nil hds.1
    have hc : ¬ (c = '+' ∨ c = '-') := by
      have hisDigit := hds.2 c (List.mem_cons_self ..)
      rintro (rfl | rfl) <;> cases hisDigit
    simp only [List.nil_append, List.cons_append] at hdigit hdrop ⊢
    simp only [skipExponent, if_neg hc, if_pos hdigit, hdrop]
  · simp only [List.singleton_append, skipExponent, true_or, if_true, hdigit, hdrop]
  · simp only [List.singleton_append, skipExponent, or_true, if_true, hdigit, hdrop]

/-- An exponent is skipped, or nothing in its place. -/
theorem skipOptionalExponent_eq {exponent : List Char} (h : IsOptional IsExponent exponent) :
    skipOptionalExponent (exponent ++ rest) = .ok rest := by
  rcases h with rfl | ⟨e, sign, ds, he, hsign, hds, rfl⟩
  · have hexponent : startsWithExponent rest = false := (startsWithExponent_append hd []).trans rfl
    rw [List.nil_append, skipOptionalExponent, hexponent]
    rfl
  · have hmark : startsWithExponent (e :: (sign ++ (ds ++ rest))) = true := by
      rcases he with rfl | rfl <;> rfl
    rw [List.cons_append, List.cons_append, List.append_assoc, skipOptionalExponent, if_pos hmark,
      List.drop_one, List.tail_cons, skipExponent_eq hd hsign hds]

/-- An exponent, or nothing in its place, begins with no digit and no point. -/
theorem starts_exponent {exponent : List Char} (h : IsOptional IsExponent exponent) :
    startsWithDigit (exponent ++ rest) = false ∧ startsWithPoint (exponent ++ rest) = false := by
  rcases h with rfl | ⟨e, sign, ds, he, -, -, rfl⟩
  · exact ⟨startsWithDigit_eq_false hd, (startsWithPoint_append hd []).trans rfl⟩
  · rcases he with rfl | rfl <;> exact ⟨rfl, rfl⟩

/-- A number without its sign is skipped. -/
theorem skipUnsigned_eq {whole fraction exponent : List Char} (hwhole : IsIntegerPart whole)
    (hfraction : IsOptional IsFraction fraction) (hexponent : IsOptional IsExponent exponent) :
    skipUnsigned (whole ++ (fraction ++ (exponent ++ rest))) = .ok rest := by
  obtain ⟨hdigit, hpoint⟩ := starts_exponent hd hexponent
  have hskip := skipOptionalExponent_eq hd hexponent
  obtain ⟨c, cs, d, rfl, hdc, hcs, hzero⟩ := hwhole.exists_digit
  -- behind the integer part stands no digit, so nothing is wrong with a zero there
  have hbehind : startsWithDigit (fraction ++ (exponent ++ rest)) = false := by
    rcases hfraction with rfl | ⟨ds, -, rfl⟩
    · exact hdigit
    · rfl
  have hdropped : (if d = 0 then cs ++ (fraction ++ (exponent ++ rest))
      else dropDigits (cs ++ (fraction ++ (exponent ++ rest)))) =
        fraction ++ (exponent ++ rest) := by
    split
    · next hd0 => rw [hzero hd0, List.nil_append]
    · exact dropDigits_append hcs hbehind
  have hlead : ¬ (d = 0 && startsWithDigit (cs ++ (fraction ++ (exponent ++ rest)))) = true := by
    rw [Bool.and_eq_true, decide_eq_true_eq]
    rintro ⟨hd0, hstart⟩
    rw [hzero hd0, List.nil_append, hbehind] at hstart
    cases hstart
  rw [List.cons_append, skipUnsigned]
  dsimp only
  rw [hdc]
  dsimp only
  rw [if_neg hlead, hdropped]
  rcases hfraction with rfl | ⟨ds, hds, rfl⟩
  · rw [List.nil_append, hpoint]
    exact hskip
  · have hstart := startsWithDigit_of_isDigits hds (exponent ++ rest)
    rw [List.cons_append, startsWithPoint, beq_self_eq_true, if_pos rfl, List.drop_one,
      List.tail_cons, if_pos hstart, dropDigits_append hds.2 hdigit, hskip]

end Numbers

/-! ## The rounds of the loop -/

/-- Where the loop stands. -/
structure SkipPoint where
  state : SkipState
  /-- The containers that are open, innermost first. -/
  enclosing : List Container
  text : List Char

namespace SkipPoint

/-- What the loop makes of the text from here. -/
def run (limits : Limits) (rounds : Nat) (p : SkipPoint) : Except Error (List Char) :=
  skipRounds limits rounds p.state p.enclosing p.text

/-- The rounds that the text may take from here. -/
def room (p : SkipPoint) : Nat := 2 * p.text.length + if p.state = .opened then 1 else 0

/-- The loop gets from one point to another, and the rounds that it takes are paid for by the
characters that it takes. -/
def Reaches (limits : Limits) (p q : SkipPoint) : Prop :=
  ∃ n, n + q.room ≤ p.room ∧ ∀ rounds, p.run limits (rounds + n) = q.run limits rounds

variable {p q r : SkipPoint}

theorem Reaches.trans (hpq : Reaches limits p q) (hqr : Reaches limits q r) :
    Reaches limits p r := by
  obtain ⟨m, hm, hrunm⟩ := hpq
  obtain ⟨n, hn, hrunn⟩ := hqr
  refine ⟨n + m, by omega, fun rounds => ?_⟩
  rw [← Nat.add_assoc, hrunm, hrunn]

/-- One round. -/
theorem Reaches.of_round (hroom : 1 + q.room ≤ p.room)
    (h : ∀ rounds, p.run limits (rounds + 1) = q.run limits rounds) : Reaches limits p q :=
  ⟨1, hroom, h⟩

end SkipPoint

open SkipPoint

/-! ## One round at a time -/

variable {enclosing : List Container} {k : Container}

namespace Container

/-- The character that opens a container. -/
def opening : Container → Char
  | array => '['
  | object => '{'

end Container

theorem opening_not_blank (k : Container) : isBlank k.opening = false := by
  cases k <;> rfl

theorem closing_not_blank (k : Container) : isBlank k.closing = false := by
  cases k <;> rfl

theorem ne_closing (hbracket : c ≠ ']') (hbrace : c ≠ '}') (k : Container) : c ≠ k.closing := by
  cases k
  · exact hbracket
  · exact hbrace

theorem closing_mem (k : Container) : k.closing ∈ [',', ']', '}'] := by
  cases k <;> decide

/-- Past a value that is not a container. -/
theorem reaches_scalar {t : List Char} (hahead : Ahead [c :: t] text rest)
    (hblank : isBlank c = false) (harray : c ≠ '[') (hobject : c ≠ '{')
    (hscalar : skipScalar limits c (t ++ rest) = .ok rest) :
    Reaches limits ⟨.value, enclosing, text⟩ ⟨.closed, enclosing, rest⟩ := by
  obtain ⟨mid, htext, hmid⟩ := hahead.skipBlank_eq hblank
  obtain rfl := ahead_nil_iff.mp hmid
  refine .of_round ?_ fun rounds => ?_
  · have hlength := length_skipBlank_le text
    rw [htext, List.length_cons, List.length_append] at hlength
    simp only [room, reduceCtorEq, if_false]
    omega
  · simp only [run]
    rw [skipRounds, htext]
    dsimp only
    rw [if_neg harray, if_neg hobject, hscalar]

/-- Past the bracket or brace that opens a container. -/
theorem reaches_opened (hahead : Ahead (Token.mark k.opening :: ts) text rest) :
    ∃ mid, Ahead ts mid rest ∧ mid.length < text.length ∧
      Reaches limits ⟨.value, enclosing, text⟩ ⟨.opened, k :: enclosing, mid⟩ := by
  obtain ⟨mid, htext, hmid, hlength⟩ := hahead.skipBlank_mark (opening_not_blank k)
  refine ⟨mid, hmid, hlength, .of_round ?_ fun rounds => ?_⟩
  · simp only [room, reduceCtorEq, if_false, if_true]
    omega
  · simp only [run]
    rw [skipRounds, htext]
    cases k <;> rfl

/-- Past the bracket or brace that closes a container. -/
theorem reaches_closed (hahead : Ahead [Token.mark k.closing] text rest) {state : SkipState}
    (hstate : state ≠ .value) :
    Reaches limits ⟨state, k :: enclosing, text⟩ ⟨.closed, enclosing, rest⟩ := by
  obtain ⟨mid, htext, hmid, hlength⟩ := hahead.skipBlank_mark (closing_not_blank k)
  obtain rfl := ahead_nil_iff.mp hmid
  refine .of_round ?_ fun rounds => ?_
  · simp only [room, reduceCtorEq, if_false]
    omega
  · cases state with
    | value => exact absurd rfl hstate
    | opened =>
      simp only [run]
      rw [skipRounds, htext]
      exact if_pos rfl
    | closed =>
      simp only [run]
      rw [skipRounds, htext]
      cases k <;> rfl

/-! ## Items -/

/-- A value is passed, wherever it is ahead. -/
def PassesValue (limits : Limits) (ts : List Token) : Prop :=
  ∀ ⦃enclosing text rest⦄, Ahead ts text rest → Delimited rest → text.length < limits.rounds →
    Reaches limits ⟨.value, enclosing, text⟩ ⟨.closed, enclosing, rest⟩

/-- An item of a container is passed, wherever it is ahead: what stands before its value first,
and then the value. -/
def PassesItem (limits : Limits) (k : Container) (ts : List Token) : Prop :=
  BeginsItem ts ∧
  ∀ ⦃enclosing text rest⦄, Ahead ts text rest → Delimited rest → text.length < limits.rounds →
    ∃ mid, mid.length ≤ text.length ∧ skipItemStart limits k text = .ok mid ∧
      Reaches limits ⟨.value, k :: enclosing, mid⟩ ⟨.closed, k :: enclosing, rest⟩

/-- Items behind commas are passed, and the end of their container. -/
theorem reaches_afterCommas {items : List (List Token)}
    (hitems : ∀ i ∈ items, PassesItem limits k i)
    (hahead : Ahead (afterCommas items ++ [Token.mark k.closing]) text rest)
    (hrounds : text.length < limits.rounds) :
    Reaches limits ⟨.closed, k :: enclosing, text⟩ ⟨.closed, enclosing, rest⟩ := by
  induction items generalizing text with
  | nil => exact reaches_closed hahead (by decide)
  | cons item items ih =>
    obtain ⟨⟨-, hitem⟩, hitems⟩ := List.forall_mem_cons.mp hitems
    rw [afterCommas_cons, List.cons_append, List.append_assoc] at hahead
    obtain ⟨mid, htext, hmid, hlength⟩ := hahead.skipBlank_mark rfl
    obtain ⟨next, hahead, hnext⟩ := ahead_append_iff.mp hmid
    obtain ⟨start, hstart, hskip, hreaches⟩ :=
      hitem hahead (delimited_of_afterCommas (closing_mem k) hnext) (by omega)
    have hcomma :
        Reaches limits ⟨.closed, k :: enclosing, text⟩ ⟨.value, k :: enclosing, start⟩ := by
      refine .of_round ?_ fun rounds => ?_
      · simp only [room, reduceCtorEq, if_false]
        omega
      · simp only [run]
        rw [skipRounds, htext]
        dsimp only
        rw [if_pos rfl, hskip]
    have hle := hahead.length_le
    exact (hcomma.trans hreaches).trans (ih hitems hnext (by omega))

/-- The items of a container that was just opened are passed, and its end. -/
theorem reaches_items {items : List (List Token)} (hitems : ∀ i ∈ items, PassesItem limits k i)
    (hahead : Ahead (commaSeparated items ++ [Token.mark k.closing]) text rest)
    (hrounds : text.length < limits.rounds) :
    Reaches limits ⟨.opened, k :: enclosing, text⟩ ⟨.closed, enclosing, rest⟩ := by
  cases items with
  | nil => exact reaches_closed hahead (by decide)
  | cons item items =>
    obtain ⟨⟨hbegins, hitem⟩, hmore⟩ := List.forall_mem_cons.mp hitems
    obtain ⟨c, t, us, rfl, hblank, hbracket, hbrace⟩ := hbegins
    rw [commaSeparated_cons, List.append_assoc] at hahead
    obtain ⟨next, hahead, hnext⟩ := ahead_append_iff.mp hahead
    have hlength := length_skipBlank_le text
    obtain ⟨start, hstart, hskip, hreaches⟩ :=
      hitem (hahead.of_skipBlank hblank) (delimited_of_afterCommas (closing_mem k) hnext) (by omega)
    have hfirst :
        Reaches limits ⟨.opened, k :: enclosing, text⟩ ⟨.value, k :: enclosing, start⟩ := by
      refine .of_round ?_ fun rounds => ?_
      · simp only [room, reduceCtorEq, if_false, if_true]
        omega
      · have hclosing := ne_closing hbracket hbrace k
        obtain ⟨mid, htext, -⟩ := hahead.skipBlank_eq hblank
        rw [htext] at hskip
        simp only [run]
        rw [skipRounds, htext]
        dsimp only
        rw [if_neg hclosing, hskip]
    have hle := hahead.length_le
    exact (hfirst.trans hreaches).trans (reaches_afterCommas hmore hnext (by omega))

/-- A container is passed when its items are. -/
theorem passesValue_container {items : List (List Token)}
    (hitems : ∀ i ∈ items, PassesItem limits k i) :
    PassesValue limits
      (Token.mark k.opening :: commaSeparated items ++ [Token.mark k.closing]) := by
  intro enclosing text rest hahead _ hrounds
  obtain ⟨mid, hmid, hlt, hopened⟩ := reaches_opened hahead
  exact hopened.trans (reaches_items hitems hmid (by omega))

/-- An item of an array is a value. -/
theorem passesItem_array (hbegins : BeginsItem ts) (h : PassesValue limits ts) :
    PassesItem limits .array ts :=
  ⟨hbegins, fun _ text _ hahead hrest hrounds => ⟨text, Nat.le_refl _, rfl, h hahead hrest hrounds⟩⟩

/-- An item of an object is a key and a value. -/
theorem passesItem_object (hkey : IsString t) (h : PassesValue limits ts) :
    PassesItem limits .object (t :: Token.mark ':' :: ts) := by
  obtain ⟨parts, hparts, rfl⟩ := hkey
  refine ⟨⟨_, _, _, rfl, by decide⟩, ?_⟩
  intro enclosing text rest hahead hrest hrounds
  obtain ⟨mid, htext, hmid, hlength⟩ := hahead.skipBlank_quoted
  obtain ⟨value, hcolon, hvalue, hlengthmid⟩ := hmid.colon_eq limits
  refine ⟨value, by omega, ?_, h hvalue hrest (by omega)⟩
  rw [skipItemStart, skipKey, htext]
  dsimp only
  rw [if_pos rfl, skipStringRest_eq hparts (by omega)]
  dsimp only
  rw [hcolon]
  rfl

/-! ## Values -/

/-- A value begins with a character that is not blank and closes nothing. -/
theorem beginsItem_of_isValue (h : IsValue ts) : BeginsItem ts := by
  cases h with
  | null | yes | no | array | object => exact ⟨_, _, _, rfl, by decide⟩
  | string h =>
    obtain ⟨parts, -, rfl⟩ := h
    exact ⟨_, _, _, rfl, by decide⟩
  | number h =>
    obtain ⟨c, cs, rfl, hc⟩ := exists_head_of_isNumber h
    exact beginsItem_of_number hc

theorem skipScalar_digit (h : c.isDigit = true) (limits : Limits) (rest : List Char) :
    skipScalar limits c rest = skipUnsigned (c :: rest) := by
  have hn : c ≠ 'n' := by rintro rfl; cases h
  have ht : c ≠ 't' := by rintro rfl; cases h
  have hf : c ≠ 'f' := by rintro rfl; cases h
  have hminus : c ≠ '-' := by rintro rfl; cases h
  rw [skipScalar, if_neg hn, if_neg ht, if_neg hf, if_neg hminus,
    if_pos (isSome_digit?_of_isDigit h)]

theorem skipScalar_number (h : IsNumber (c :: t)) (hd : Delimited rest) :
    skipScalar limits c (t ++ rest) = .ok rest := by
  obtain ⟨sign, whole, fraction, exponent, hsign, hwhole, hfraction, hexponent, heq⟩ := h
  have hskip := skipUnsigned_eq hd hwhole hfraction hexponent
  rw [← List.append_assoc, ← List.append_assoc] at hskip
  rcases hsign with rfl | rfl
  · obtain ⟨d, cs, rfl⟩ := List.exists_cons_of_ne_nil hwhole.1.1
    obtain ⟨rfl, -⟩ := List.cons.inj heq
    rw [skipScalar_digit (hwhole.1.2 c (List.mem_cons_self ..)), ← List.cons_append, heq,
      List.nil_append]
    exact hskip
  · obtain ⟨rfl, rfl⟩ := List.cons.inj heq
    exact hskip

/-- A number is passed. -/
theorem passesValue_number (h : IsNumber t) : PassesValue limits [t] := by
  intro enclosing text rest hahead hrest _
  obtain ⟨c, cs, rfl, hc⟩ := exists_head_of_isNumber h
  refine reaches_scalar hahead (not_blank_of_number hc) ?_ ?_ (skipScalar_number h hrest)
  · rintro rfl
    revert hc
    decide
  · rintro rfl
    revert hc
    decide

/-- A string is passed. -/
theorem passesValue_string (h : IsString t) : PassesValue limits [t] := by
  intro enclosing text rest hahead _ hrounds
  obtain ⟨parts, hparts, rfl⟩ := h
  obtain ⟨mid, -, hmid, hlength⟩ := hahead.skipBlank_quoted
  obtain rfl := ahead_nil_iff.mp hmid
  refine reaches_scalar hahead rfl (by decide) (by decide) ?_
  have hfits : parts.flatten.length < limits.rounds := by omega
  have hskip := skipStringRest_eq hparts hfits mid
  rw [← List.singleton_append, ← List.append_assoc] at hskip
  exact hskip

/-- A value of any kind is passed. -/
theorem passesValue_of_isValue (h : IsValue ts) : PassesValue limits ts := by
  induction h with
  | null | yes | no =>
    intro enclosing text rest hahead _ _
    exact reaches_scalar hahead rfl (by decide) (by decide) rfl
  | number h => exact passesValue_number h
  | string h => exact passesValue_string h
  | array hitems ih =>
    exact passesValue_container (k := .array) fun i hi =>
      passesItem_array (beginsItem_of_isValue (hitems i hi)) (ih i hi)
  | object hkeys hvalues ih =>
    refine passesValue_container (k := .object) fun i hi => ?_
    obtain ⟨m, hm, rfl⟩ := List.mem_map.mp hi
    exact passesItem_object (hkeys m hm) (ih m hm)

/-- **A value of any kind is skipped.** -/
theorem takes_skipValue (h : IsValue ts) (room : Nat) : Takes skipValue () room ts := by
  intro rounds text rest hahead hrest hrounds
  have hpasses : PassesValue ⟨room + 1, rounds⟩ ts := passesValue_of_isValue h
  obtain ⟨n, hn, hrun⟩ := @hpasses [] text rest hahead hrest hrounds
  obtain ⟨spare, hspare⟩ : ∃ spare, 2 * rounds = spare + 1 + n := by
    simp only [SkipPoint.room, reduceCtorEq, if_false] at hn
    exact ⟨2 * rounds - n - 1, by omega⟩
  have hskip : skipRounds ⟨room + 1, rounds⟩ (2 * rounds) .value [] text = .ok rest := by
    rw [hspare]
    exact hrun (spare + 1)
  rw [skipValue, hskip]

end Json

end TreeWalk
