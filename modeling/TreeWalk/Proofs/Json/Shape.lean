import TreeWalk.Json.Spelling
import TreeWalk.Proofs.Json.Number
import TreeWalk.Proofs.Json.Text

/-!
# The readers for the shapes take every spelling

`Decodes bound r a p` is what a reader owes to the writers: whatever a spelling of `a` with fewer
than `bound` containers open puts into the text, the reader `r` takes `a` from it and leaves what
stands behind.  The functions that build spellings have a reader each that builds readers, and for
each pair there is one lemma below.  So a format that is put together from them is read as it is
put together.

The items of a container are met one after another, the first of them without a comma before it.
`separated` keeps the two apart: the first item of what is left of a container is behind a comma
unless it is the first of all.
-/

namespace TreeWalk

namespace Json

variable {α β τ : Type} {ts : List Token} {t : Token} {c : Char} {text rest : List Char}
  {limits : Limits} {room bound : Nat} {a : α} {r : Reader α} {p : Spelling}

/-- The reader takes a thing from each of its spellings with fewer containers open than the
bound. -/
def Decodes (bound : Nat) (r : Reader α) (a : α) (p : Spelling) : Prop :=
  ∀ ⦃room ts⦄, room < bound → p room ts → BeginsItem ts ∧ Takes r a room ts

theorem Decodes.mono {bound' : Nat} (h : Decodes bound r a p) (hle : bound' ≤ bound) :
    Decodes bound' r a p :=
  fun _ _ hroom hp => h (Nat.lt_of_lt_of_le hroom hle) hp

/-- What is made of a thing is taken where the thing is taken. -/
theorem Decodes.bind {f : α → Reader β} {b : β} (h : Decodes bound r a p) (hf : f a = pure b) :
    Decodes bound (r >>= f) b p := by
  intro room ts hroom hp
  obtain ⟨hbegins, htakes⟩ := h hroom hp
  refine ⟨hbegins, fun rounds text rest hahead hrest hrounds => ?_⟩
  rw [bind_of_ok (htakes hahead hrest hrounds), hf]
  rfl

theorem decodes_either {q : Spelling} (hp : Decodes bound r a p) (hq : Decodes bound r a q) :
    Decodes bound r a (.either p q) := by
  rintro room ts hroom (h | h)
  · exact hp hroom h
  · exact hq hroom h

/-! ## Strings, numbers and null -/

theorem decodes_string (s : String) : Decodes bound string s (.string s) := by
  rintro room ts - ⟨_, ⟨cs, hcs, rfl⟩, rfl⟩
  refine ⟨⟨_, _, _, rfl, by decide⟩, fun rounds text rest hahead _ hrounds => ?_⟩
  obtain ⟨mid, htext, hmid, hlength⟩ := hahead.skipBlank_quoted
  obtain rfl := ahead_nil_iff.mp hmid
  rw [string, htext]
  dsimp only
  rw [if_pos rfl]
  refine stringBody_eq hcs ?_ mid
  show cs.length < rounds
  omega

theorem decodes_int64 (n : Int64) : Decodes bound int64 n (.int64 n) := by
  rintro room ts - ⟨_, rfl, rfl⟩
  obtain ⟨c, cs, heq, hc⟩ := exists_head_of_number (number_integerToken n ⟨0, 0⟩)
  rw [heq]
  refine ⟨beginsItem_of_number hc, ?_⟩
  rw [← heq]
  exact takes_int64 n room

theorem decodes_float64 (x : Float) : Decodes bound float64 x (.float64 x) := by
  rintro room ts - ⟨t, ⟨hnumber, hreads⟩, rfl⟩
  obtain ⟨c, cs, rfl, hc⟩ := exists_head_of_isNumber hnumber
  exact ⟨beginsItem_of_number hc, takes_float64 hnumber hreads room⟩

theorem decodes_null : Decodes bound null () .null := by
  rintro room ts - ⟨_, rfl, rfl⟩
  refine ⟨⟨_, _, _, rfl, by decide⟩, fun rounds text rest hahead _ _ => ?_⟩
  obtain ⟨mid, htext, hmid⟩ := hahead.skipBlank_eq rfl
  obtain rfl := ahead_nil_iff.mp hmid
  rw [null, htext]
  rfl

/-! ## Things that may be absent -/

theorem decodes_optional_none : Decodes bound (optional r) none .null := by
  rintro room ts - ⟨_, rfl, rfl⟩
  refine ⟨⟨_, _, _, rfl, by decide⟩, fun rounds text rest hahead _ _ => ?_⟩
  obtain ⟨mid, htext, hmid⟩ := hahead.skipBlank_eq rfl
  obtain rfl := ahead_nil_iff.mp hmid
  rw [optional, htext]
  rfl

/-- None of the spellings could be taken for a beginning of `null`. -/
def NeverNull (p : Spelling) : Prop :=
  ∀ ⦃room ts⦄, p room ts → ∃ c t us, ts = (c :: t) :: us ∧ c ≠ 'n'

theorem decodes_optional_some (h : Decodes bound r a p) (hp : NeverNull p) :
    Decodes bound (optional r) (some a) p := by
  intro room ts hroom hspelled
  obtain ⟨hbegins, htakes⟩ := h hroom hspelled
  refine ⟨hbegins, fun rounds text rest hahead hrest hrounds => ?_⟩
  obtain ⟨c, t, us, rfl, hblank, -⟩ := hbegins
  obtain ⟨d, t', us', heq, hd⟩ := hp hspelled
  obtain ⟨rfl, rfl⟩ := List.cons.inj (List.cons.inj heq).1
  have hshorter := Nat.lt_of_le_of_lt (length_skipBlank_le text) hrounds
  have hread := htakes (hahead.of_skipBlank hblank) hrest hshorter
  obtain ⟨mid, htext, -⟩ := hahead.skipBlank_eq hblank
  rw [htext] at hread
  rw [optional, htext]
  split
  · next heq => exact absurd (List.cons.inj heq).1 hd
  · rw [hread]

theorem neverNull_inside (h : ∀ ⦃room ts⦄, p room ts → ∃ c t us, ts = (c :: t) :: us ∧ c ≠ 'n') :
    NeverNull (.inside p) := by
  intro room ts hp
  cases room with
  | zero => cases hp
  | succ room => exact h hp

/-! ## Items -/

/-- What stands before an item, which may be the first of its container. -/
def separator (first : Bool) : List Token := if first then [] else [Token.mark ',']

/-- Items of a container, which may be all of them or those behind another. -/
def separated (first : Bool) (items : List (List Token)) : List Token :=
  if first then commaSeparated items else afterCommas items

theorem separated_nil (first : Bool) : separated first [] = [] := by
  cases first <;> rfl

theorem separated_cons (first : Bool) (item : List Token) (items : List (List Token)) :
    separated first (item :: items) = separator first ++ (item ++ separated false items) := by
  cases first
  · rfl
  · exact commaSeparated_cons item items

/-- Behind an item of an array or an object the next one stands behind a comma, or the end. -/
theorem delimited_of_separated {items : List (List Token)} (hc : c ∈ [',', ']', '}'])
    (h : Ahead (separated false items ++ [Token.mark c]) text rest) : Delimited text :=
  delimited_of_afterCommas hc h

/-! ## Arrays -/

/-- The next item of an array is found. -/
theorem moreItems_item (limits : Limits) (first : Bool) (hbegins : BeginsItem ts)
    (hahead : Ahead (separator first ++ ts) text rest) :
    ∃ mid, moreItems first limits text = .ok (true, mid) ∧ Ahead ts mid rest ∧
      mid.length ≤ text.length := by
  obtain ⟨c, t, us, rfl, hblank, hbracket, -⟩ := hbegins
  cases first with
  | true =>
    have hahead : Ahead ((c :: t) :: us) text rest := hahead
    obtain ⟨mid, htext, -⟩ := hahead.skipBlank_eq hblank
    refine ⟨skipBlank text, ?_, hahead.of_skipBlank hblank, length_skipBlank_le text⟩
    rw [moreItems, htext]
    dsimp only
    rw [if_neg hbracket, if_pos rfl]
  | false =>
    obtain ⟨item, hcomma, hitem, hlength⟩ := Ahead.skipBlank_mark hahead rfl
    obtain ⟨mid, htext, -⟩ := hitem.skipBlank_eq hblank
    have hlengthitem := length_skipBlank_le item
    refine ⟨skipBlank item, ?_, hitem.of_skipBlank hblank, by omega⟩
    rw [moreItems, hcomma]
    dsimp only
    rw [if_neg (by decide), if_neg Bool.false_ne_true, if_pos rfl, htext]
    dsimp only
    rw [if_neg hbracket]

/-- The end of an array is found. -/
theorem moreItems_end (limits : Limits) (first : Bool) (hahead : Ahead [Token.mark ']'] text rest) :
    ∃ mid, moreItems first limits text = .ok (false, mid) ∧ Ahead [Token.mark ']'] mid rest := by
  obtain ⟨mid, htext, -⟩ := hahead.skipBlank_mark rfl
  refine ⟨skipBlank text, ?_, Ahead.of_skipBlank hahead rfl⟩
  rw [moreItems, htext]
  rfl

theorem arrayEnd_eq (hahead : Ahead [Token.mark ']'] text rest) :
    arrayEnd limits text = .ok ((), rest) := by
  obtain ⟨mid, htext, hmid, -⟩ := hahead.skipBlank_mark rfl
  obtain rfl := ahead_nil_iff.mp hmid
  rw [arrayEnd, htext]
  rfl

/-- The items of an array are taken up to its end. -/
theorem items_eq {as : List α} {written : List (List Token)}
    (h : List.Forall₂ (fun a ts => BeginsItem ts ∧ Takes r a room ts) as written) {rounds n : Nat}
    (first : Bool) (hahead : Ahead (separated first written ++ [Token.mark ']']) text rest)
    (hrounds : text.length < rounds) (hn : text.length < n) :
    items r n first ⟨room + 1, rounds⟩ text = .ok (as, rest) := by
  induction h generalizing first text n with
  | nil =>
    obtain ⟨n, rfl⟩ : ∃ k, n = k + 1 := ⟨n - 1, by omega⟩
    rw [separated_nil] at hahead
    obtain ⟨mid, hmore, hend⟩ := moreItems_end ⟨room + 1, rounds⟩ first hahead
    rw [items, bind_of_ok hmore, if_neg Bool.false_ne_true, bind_of_ok (arrayEnd_eq hend)]
    rfl
  | @cons a ts as written hitem _ ih =>
    obtain ⟨hbegins, htakes⟩ := hitem
    obtain ⟨n, rfl⟩ : ∃ k, n = k + 1 := ⟨n - 1, by omega⟩
    rw [separated_cons, List.append_assoc, List.append_assoc] at hahead
    obtain ⟨mid, hmore, hmid, hlength⟩ :=
      moreItems_item ⟨room + 1, rounds⟩ first hbegins.append hahead
    obtain ⟨next, hitem, hnext⟩ := ahead_append_iff.mp hmid
    have hshorter := hitem.length_lt hbegins
    have hread := htakes hitem (delimited_of_separated (by decide) hnext)
      (Nat.lt_of_le_of_lt hlength hrounds)
    rw [items, bind_of_ok hmore, if_pos rfl, bind_of_ok hread,
      bind_of_ok (ih false hnext (by omega) (by omega))]
    rfl

/-- Spelled items are taken one by one. -/
theorem forall₂_takes {as : List α} {ps : List Spelling} {written : List (List Token)}
    (h : List.Forall₂ (Decodes bound r) as ps) (hroom : room < bound)
    (hwritten : List.Forall₂ (fun p ts => p room ts) ps written) :
    List.Forall₂ (fun a ts => BeginsItem ts ∧ Takes r a room ts) as written := by
  induction h generalizing written with
  | nil =>
    cases hwritten
    exact .nil
  | cons ha _ ih =>
    cases hwritten with
    | cons hts hrest => exact .cons (ha hroom hts) (ih hrest)

/-- **An array is taken when its items are.** -/
theorem decodes_array {as : List α} {ps : List Spelling}
    (h : List.Forall₂ (Decodes bound r) as ps) : Decodes bound (array r) as (.array ps) := by
  intro room ts hroom hspelled
  cases room with
  | zero => cases hspelled
  | succ room =>
    obtain ⟨written, hwritten, rfl⟩ := hspelled
    refine ⟨⟨_, _, _, rfl, by decide⟩, fun rounds text rest hahead _ hrounds => ?_⟩
    obtain ⟨mid, htext, hmid, hlength⟩ := hahead.skipBlank_mark rfl
    have hitems := forall₂_takes h (by omega : room < bound) hwritten
    have hshorter : mid.length < rounds := Nat.lt_trans hlength hrounds
    rw [array, htext]
    dsimp only
    rw [if_pos rfl, entering_apply]
    exact items_eq hitems true hmid hshorter (Nat.lt_succ_of_lt hshorter)

theorem neverNull_array (ps : List Spelling) : NeverNull (.array ps) := by
  refine neverNull_inside ?_
  rintro room ts ⟨written, -, rfl⟩
  exact ⟨_, _, _, rfl, by decide⟩

/-! ## Objects -/

/-- The key of the next member of an object is found. -/
theorem moreKeys_item (limits : Limits) (first : Bool) {cs : List Char}
    (hahead : Ahead (separator first ++ ('"' :: cs ++ ['"']) :: ts) text rest) :
    ∃ mid, moreKeys first limits text = .ok (true, cs ++ '"' :: mid) ∧ Ahead ts mid rest ∧
      cs.length + mid.length + 1 < text.length := by
  cases first with
  | true =>
    obtain ⟨mid, hkey, hmid, hlength⟩ := Ahead.skipBlank_quoted hahead
    refine ⟨mid, ?_, hmid, hlength⟩
    rw [moreKeys, hkey]
    rfl
  | false =>
    obtain ⟨item, hcomma, hitem, hlengthitem⟩ := Ahead.skipBlank_mark hahead rfl
    obtain ⟨mid, hkey, hmid, hlength⟩ := Ahead.skipBlank_quoted hitem
    refine ⟨mid, ?_, hmid, by omega⟩
    rw [moreKeys, hcomma]
    dsimp only
    rw [if_neg (by decide), if_neg Bool.false_ne_true, if_pos rfl, hkey]
    rfl

/-- The end of an object is found. -/
theorem moreKeys_end (limits : Limits) (first : Bool) (hahead : Ahead [Token.mark '}'] text rest) :
    ∃ mid, moreKeys first limits text = .ok (false, mid) ∧ Ahead [Token.mark '}'] mid rest := by
  obtain ⟨mid, htext, -⟩ := hahead.skipBlank_mark rfl
  refine ⟨skipBlank text, ?_, Ahead.of_skipBlank hahead rfl⟩
  rw [moreKeys, htext]
  rfl

theorem objectEnd_eq (hahead : Ahead [Token.mark '}'] text rest) :
    objectEnd limits text = .ok ((), rest) := by
  obtain ⟨mid, htext, hmid, -⟩ := hahead.skipBlank_mark rfl
  obtain rfl := ahead_nil_iff.mp hmid
  rw [objectEnd, htext]
  rfl

/-! ## Names with a content -/

section Tagged

variable {find : String → Option τ} {names : List String} {bare content : τ → Reader α}
  {name : String} {tag : τ}

theorem known_eq (hfind : find name = some tag) (names : List String) :
    known find names name = pure tag := by
  rw [known, hfind]

/-- **A name with a content is taken when the content is.** -/
theorem decodes_tagged (hfind : find name = some tag) (hcontent : Decodes bound (content tag) a p) :
    Decodes (bound + 1) (tagged find names bare content) a (.tagged name p) := by
  intro room ts hroom hspelled
  cases room with
  | zero => cases hspelled
  | succ room =>
    obtain ⟨_, written, ⟨cs, hcs, rfl⟩, hwritten, rfl⟩ := hspelled
    obtain ⟨-, htakes⟩ := hcontent (by omega : room < bound) hwritten
    refine ⟨⟨_, _, _, rfl, by decide⟩, fun rounds text rest hahead _ hrounds => ?_⟩
    -- the parts of the text, one after another
    obtain ⟨inner, htext, hinner, hlength⟩ := hahead.skipBlank_mark rfl
    obtain ⟨mid, hquoted, hmid, hlengthmid⟩ := Ahead.skipBlank_quoted hinner
    obtain ⟨value, hcolon, hvalue, hlengthvalue⟩ := hmid.colon_eq ⟨room + 1, rounds⟩
    obtain ⟨next, hcontent, hnext⟩ := ahead_append_iff.mp hvalue
    obtain ⟨last, hbrace, hlast, -⟩ := hnext.skipBlank_mark rfl
    obtain rfl := ahead_nil_iff.mp hlast
    -- what the readers make of them
    have hstart : tagStart ⟨room + 1, rounds⟩ inner = .ok ((), cs ++ '"' :: mid) := by
      rw [tagStart, hquoted]
      rfl
    have hfits : cs.length < rounds := by omega
    have hname : stringBody ⟨room + 1, rounds⟩ (cs ++ '"' :: mid) = .ok (name, mid) :=
      stringBody_eq hcs hfits mid
    have hshorter : value.length < rounds := by omega
    have hend : tagEnd ⟨room + 2, rounds⟩ next = .ok ((), last) := by
      rw [tagEnd, hbrace]
      rfl
    rw [tagged, htext]
    dsimp only
    rw [if_neg (by decide), if_pos rfl, entering_apply, bind_of_ok hstart, bind_of_ok hname,
      known_eq hfind, bind_of_ok (Reader.pure_apply _ _ _), bind_of_ok hcolon,
      htakes hcontent (hnext.delimited (by decide)) hshorter]
    dsimp only
    rw [bind_of_ok hend]
    rfl

/-- **A bare name is taken.** -/
theorem decodes_bare (hfind : find name = some tag) (hbare : bare tag = pure a) :
    Decodes bound (tagged find names bare content) a (.string name) := by
  rintro room ts - ⟨_, ⟨cs, hcs, rfl⟩, rfl⟩
  refine ⟨⟨_, _, _, rfl, by decide⟩, fun rounds text rest hahead _ hrounds => ?_⟩
  obtain ⟨mid, htext, hmid, hlength⟩ := hahead.skipBlank_quoted
  obtain rfl := ahead_nil_iff.mp hmid
  have hfits : cs.length < rounds := by omega
  have hname : stringBody ⟨room + 1, rounds⟩ (cs ++ '"' :: mid) = .ok (name, mid) :=
    stringBody_eq hcs hfits mid
  rw [tagged, htext]
  dsimp only
  rw [if_pos rfl, bind_of_ok hname, known_eq hfind, bind_of_ok (Reader.pure_apply _ _ _), hbare]
  rfl

/-- A name without a content is taken, however it is written. -/
theorem decodes_word (hfind : find name = some tag) (hbare : bare tag = pure a)
    (hcontent : content tag = null >>= fun _ => pure a) :
    Decodes bound (tagged find names bare content) a (.word name) := by
  refine decodes_either (decodes_bare hfind hbare) ?_
  have hnull : Decodes bound (content tag) a .null := by
    rw [hcontent]
    exact decodes_null.bind rfl
  exact (decodes_tagged hfind hnull).mono (Nat.le_succ bound)

end Tagged

theorem neverNull_string (s : String) : NeverNull (.string s) := by
  rintro room ts ⟨_, ⟨cs, -, rfl⟩, rfl⟩
  exact ⟨_, _, _, rfl, by decide⟩

theorem neverNull_tagged (name : String) (p : Spelling) : NeverNull (.tagged name p) := by
  refine neverNull_inside ?_
  rintro room ts ⟨key, written, -, -, rfl⟩
  exact ⟨_, _, _, rfl, by decide⟩

theorem neverNull_word (name : String) : NeverNull (.word name) := by
  rintro room ts (h | h)
  · exact neverNull_string name h
  · exact neverNull_tagged name .null h

end Json

end TreeWalk
