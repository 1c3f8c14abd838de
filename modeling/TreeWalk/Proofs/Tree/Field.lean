import TreeWalk.Proofs.Json.Shape
import TreeWalk.Proofs.Json.Skip
import TreeWalk.Tree.Field

/-!
# Records of fields are taken however they are written

A record has its fields in a fixed order, and a writer who puts it down as an object may choose any
other order, repeat members that mean nothing, and leave out what may be absent.  While such an
object is read, the state of the reader depends on the members only through the set of their keys:
`Slots.seen fs vs keys` holds the value of each field whose key is among `keys`.  One member adds
its key (`take_seen`), and once all members are read a field that was not seen may be absent, so
the record is complete (`complete_seen`).

What is still to come of an object is described by `MembersLeft`, in which the keys that were seen
are a parameter, so that it holds of the rest of the members once one of them is read.

In an array the fields come in order, and the array may end when the fields that are left may all
be absent.
-/

namespace TreeWalk

open Json
open Json.Spelling (Part Member)

variable {tree : Reader Tree} {bound room rounds : Nat} {text rest : List Char} {ts : List Token}
  {fs : List Field} {vs : Fields fs} {parts : List Part} {keys : List String} {key : String}

/-- A part of a record writes what a field holds. -/
structure Field.WrittenAs (bound : Nat) (tree : Reader Tree) (f : Field) (v : f.kind.Value)
    (p : Part) : Prop where
  key_eq : p.key = f.key
  absent : p.omittable = true → f.kind.absent? = some v
  decodes : Decodes bound (f.kind.read tree) v p.value

namespace Fields

/-- The parts of a record write the values of its fields, each in its place. -/
inductive WrittenAs (bound : Nat) (tree : Reader Tree) :
    (fs : List Field) → Fields fs → List Part → Prop where
  | nil : WrittenAs bound tree [] () []
  | cons {f : Field} {v : f.kind.Value} {p : Part} {fs : List Field} {vs : Fields fs}
    {parts : List Part} : f.WrittenAs bound tree v p → WrittenAs bound tree fs vs parts →
    WrittenAs bound tree (f :: fs) (v, vs) (p :: parts)

/-! ## Arrays -/

/-- Fields that may all be absent are absent from an array that ends before them. -/
theorem absent_eq (h : WrittenAs bound tree fs vs parts) (homit : ∀ p ∈ parts, p.omittable = true)
    (expected : String) (position : Nat) : absent expected fs position = .ok vs := by
  induction h generalizing position with
  | nil => rfl
  | cons hfield _ ih =>
    obtain ⟨hp, hparts⟩ := List.forall_mem_cons.mp homit
    rw [absent, hfield.absent hp]
    dsimp only
    rw [ih hparts]

section Steps

variable {f : Field} {v : f.kind.Value} {expected : String} {position : Nat} {limits : Limits}
  {start next mid : List Char}

/-- An array ends before its fields do. -/
theorem arrayItems_end {ws : Fields (f :: fs)}
    (hmore : moreItems (position == 0) limits text = .ok (false, mid))
    (habsent : absent expected (f :: fs) position = .ok ws) :
    arrayItems tree expected (f :: fs) position limits text = .ok (ws, mid) := by
  unfold arrayItems
  rw [habsent]
  exact bind_of_ok hmore _

/-- An item of an array is taken for a field. -/
theorem arrayItems_item (hmore : moreItems (position == 0) limits text = .ok (true, start))
    (hread : f.kind.read tree limits start = .ok (v, next))
    (hrest : arrayItems tree expected fs (position + 1) limits next = .ok (vs, mid)) :
    arrayItems tree expected (f :: fs) position limits text = .ok ((v, vs), mid) := by
  refine (bind_of_ok hmore _).trans ?_
  refine (bind_of_ok hread _).trans ?_
  exact bind_of_ok hrest _

end Steps

/-- The items of an array are taken for the fields, and the end of the array is left. -/
theorem arrayItems_eq (h : WrittenAs bound tree fs vs parts) (hroom : room < bound)
    (expected : String) {written left : List Part} (hparts : parts = written ++ left)
    (hleft : ∀ p ∈ left, p.omittable = true) {items : List (List Token)}
    (hitems : List.Forall₂ (fun p ts => p room ts) (written.map Part.value) items)
    (position : Nat)
    (hahead : Ahead (separated (position == 0) items ++ [Token.mark ']']) text rest)
    (hrounds : text.length < rounds) :
    ∃ mid, arrayItems tree expected fs position ⟨room + 1, rounds⟩ text = .ok (vs, mid) ∧
      Ahead [Token.mark ']'] mid rest := by
  induction h generalizing written items position text with
  | nil =>
    obtain ⟨rfl, rfl⟩ := List.append_eq_nil_iff.mp hparts.symm
    cases hitems
    rw [separated_nil] at hahead
    exact ⟨text, rfl, hahead⟩
  | @cons f v p fs vs parts hfield hrest ih =>
    cases written with
    | nil =>
      cases hitems
      rw [separated_nil] at hahead
      obtain ⟨mid, hmore, hmid⟩ :=
        moreItems_end ⟨room + 1, rounds⟩ (position == 0) hahead
      obtain rfl : p :: parts = left := hparts
      have habsent := absent_eq (.cons hfield hrest) hleft expected position
      exact ⟨mid, arrayItems_end hmore habsent, hmid⟩
    | cons q written =>
      obtain ⟨rfl, hbehind⟩ := List.cons.inj hparts
      cases hitems with
      | @cons _ item _ items hitem hitems =>
        obtain ⟨hbegins, htakes⟩ := hfield.decodes hroom hitem
        rw [separated_cons, List.append_assoc, List.append_assoc] at hahead
        obtain ⟨start, hmore, hstart, hlength⟩ :=
          moreItems_item ⟨room + 1, rounds⟩ (position == 0) hbegins.append hahead
        obtain ⟨next, hitem, hnext⟩ := ahead_append_iff.mp hstart
        have hshorter : start.length < rounds := Nat.lt_of_le_of_lt hlength hrounds
        have hread := htakes hitem (delimited_of_separated (by decide) hnext) hshorter
        obtain ⟨mid, hmid, hend⟩ := ih hbehind hitems (position + 1) hnext
          (Nat.lt_of_le_of_lt hitem.length_le hshorter)
        exact ⟨mid, arrayItems_item hmore hread hmid, hend⟩

end Fields

/-! ## Objects -/

namespace Slots

/-- The fields whose keys are among the given ones were seen. -/
def seen : (fs : List Field) → Fields fs → List String → Slots fs
  | [], _, _ => ()
  | f :: fs, (v, vs), keys => (if f.key ∈ keys then some v else none, seen fs vs keys)

theorem seen_nil : ∀ (fs : List Field) (vs : Fields fs), seen fs vs [] = empty fs
  | [], _ => rfl
  | f :: fs, (v, vs) => by rw [seen, if_neg List.not_mem_nil, seen_nil fs vs, empty]

/-- A key that belongs to no field makes no difference. -/
theorem seen_cons_of_not_mem : ∀ {fs : List Field} (vs : Fields fs),
    key ∉ fs.map Field.key → seen fs vs (key :: keys) = seen fs vs keys
  | [], _, _ => rfl
  | f :: fs, (v, vs), hkey => by
    rw [List.map_cons, List.mem_cons, not_or] at hkey
    obtain ⟨hne, hkey⟩ := hkey
    rw [seen, seen, seen_cons_of_not_mem vs hkey,
      if_congr (List.mem_cons.trans (or_iff_right (Ne.symm hne))) rfl rfl]

/-- **An object is complete when every field that was not seen may be absent.** -/
theorem complete_seen (h : Fields.WrittenAs bound tree fs vs parts)
    (habsent : ∀ p ∈ parts, p.key ∉ keys → p.omittable = true) :
    complete fs (seen fs vs keys) = .ok vs := by
  induction h with
  | nil => rfl
  | @cons f v p fs vs parts hfield _ ih =>
    obtain ⟨hp, hparts⟩ := List.forall_mem_cons.mp habsent
    have hslot : (if f.key ∈ keys then some v else none).or f.kind.absent? = some v := by
      split
      · rfl
      · next hkey => exact hfield.absent (hp (hfield.key_eq ▸ hkey))
    rw [seen, complete, hslot]
    dsimp only
    rw [ih hparts]

section Steps

variable {f : Field} {v : f.kind.Value} {slot : Option f.kind.Value} {slots slots' : Slots fs}
  {limits : Limits} {mid : List Char}

/-- The value of a member is taken for the field that it belongs to. -/
theorem take_own (hkey : key = f.key) (hslot : slot = none)
    (hcolon : colon limits text = .ok ((), mid))
    (hread : f.kind.read tree limits mid = .ok (v, rest)) :
    take tree (f :: fs) (slot, slots) key limits text = .ok ((some v, slots), rest) := by
  subst hkey hslot
  refine (congrFun (congrFun (if_pos rfl) limits) text).trans ?_
  refine (bind_of_ok hcolon _).trans ?_
  exact bind_of_ok hread _

/-- The value of a member is not taken for a field that it does not belong to. -/
theorem take_other (hkey : key ≠ f.key)
    (htake : take tree fs slots key limits text = .ok (slots', rest)) :
    take tree (f :: fs) (slot, slots) key limits text = .ok ((slot, slots'), rest) := by
  refine (congrFun (congrFun (if_neg hkey) limits) text).trans ?_
  exact bind_of_ok htake _

end Steps

/-- **One member adds its key to those that were seen.** -/
theorem take_seen (h : Fields.WrittenAs bound tree fs vs parts) (hnodup : (fs.map Field.key).Nodup)
    (hroom : room < bound) (hvalue : ∀ p ∈ parts, key = p.key → p.value room ts ∧ key ∉ keys)
    (hunknown : key ∉ parts.map Part.key → IsValue ts)
    (hahead : Ahead (Token.mark ':' :: ts) text rest) (hrest : Delimited rest)
    (hrounds : text.length < rounds) :
    take tree fs (seen fs vs keys) key ⟨room + 1, rounds⟩ text =
      .ok (seen fs vs (key :: keys), rest) := by
  obtain ⟨mid, hcolon, hmid, hlength⟩ := hahead.colon_eq ⟨room + 1, rounds⟩
  have hshorter : mid.length < rounds := Nat.lt_trans hlength hrounds
  induction h with
  | nil =>
    have hskip := takes_skipValue (hunknown List.not_mem_nil) room hmid hrest hshorter
    rw [take, bind_of_ok hcolon, bind_of_ok hskip]
    rfl
  | @cons f v p fs vs parts hfield _ ih =>
    obtain ⟨hp, hparts⟩ := List.forall_mem_cons.mp hvalue
    obtain ⟨hfresh, hnodup⟩ := List.nodup_cons.mp hnodup
    rw [seen, seen]
    by_cases hkey : key = f.key
    · obtain ⟨hspelled, hunseen⟩ := hp (hkey.trans hfield.key_eq.symm)
      have hread := (hfield.decodes hroom hspelled).2 hmid hrest hshorter
      rw [if_neg (hkey ▸ hunseen), if_pos (hkey ▸ List.mem_cons_self ..),
        seen_cons_of_not_mem vs (hkey ▸ hfresh)]
      exact take_own hkey rfl hcolon hread
    · have hnotmem : key ∉ parts.map Part.key → key ∉ (p :: parts).map Part.key := by
        intro hmem
        rw [List.map_cons, List.mem_cons, hfield.key_eq]
        exact not_or.mpr ⟨hkey, hmem⟩
      have htake := ih hnodup hparts fun hmem => hunknown (hnotmem hmem)
      rw [if_congr (List.mem_cons.trans (or_iff_right (Ne.symm hkey))) rfl rfl]
      exact take_other hkey htake

end Slots

/-- The members of an object that are left behind members with the given keys. -/
structure MembersLeft (parts : List Part) (room : Nat) (keys : List String)
    (members : List Member) : Prop where
  spelled : ∀ m ∈ members, SpellsString m.key m.token
  unknown : ∀ m ∈ members, m.key ∉ parts.map Part.key → IsValue m.value
  value : ∀ p ∈ parts, ∀ m ∈ members, m.key = p.key → p.value room m.value
  once : ∀ p ∈ parts, keys.count p.key + (members.map Member.key).count p.key ≤ 1
  absent : ∀ p ∈ parts, p.key ∉ keys → p.key ∉ members.map Member.key → p.omittable = true

namespace MembersLeft

variable {m : Member} {members : List Member}

/-- The members behind the first one are left once it is read. -/
theorem tail (h : MembersLeft parts room keys (m :: members)) :
    MembersLeft parts room (m.key :: keys) members where
  spelled n hn := h.spelled n (List.mem_cons_of_mem m hn)
  unknown n hn := h.unknown n (List.mem_cons_of_mem m hn)
  value p hp n hn := h.value p hp n (List.mem_cons_of_mem m hn)
  once p hp := by
    have honce := h.once p hp
    rw [List.map_cons, List.count_cons] at honce
    rw [List.count_cons]
    omega
  absent p hp hkeys hmembers := by
    obtain ⟨hne, hkeys⟩ := not_or.mp (mt List.mem_cons.mpr hkeys)
    refine h.absent p hp hkeys ?_
    rw [List.map_cons, List.mem_cons]
    exact not_or.mpr ⟨hne, hmembers⟩

/-- The first member has no field that was seen. -/
theorem not_mem (h : MembersLeft parts room keys (m :: members)) {p : Part} (hp : p ∈ parts)
    (hkey : m.key = p.key) : m.key ∉ keys := by
  have honce := h.once p hp
  rw [List.map_cons, hkey, List.count_cons_self] at honce
  rw [hkey, ← List.count_eq_zero]
  omega

end MembersLeft

namespace Fields

/-- The members of an object are taken for the fields, in the order in which they come. -/
theorem objectItems_eq (h : WrittenAs bound tree fs vs parts) (hnodup : (fs.map Field.key).Nodup)
    (hroom : room < bound) {members : List Member} (hmembers : MembersLeft parts room keys members)
    (first : Bool)
    (hahead : Ahead (separated first (members.map Member.tokens) ++ [Token.mark '}']) text rest)
    (hrounds : text.length < rounds) {n : Nat} (hn : text.length < n) :
    objectItems tree fs n first (.seen fs vs keys) ⟨room + 1, rounds⟩ text = .ok (vs, rest) := by
  induction members generalizing keys first text n with
  | nil =>
    obtain ⟨n, rfl⟩ : ∃ k, n = k + 1 := ⟨n - 1, by omega⟩
    rw [List.map_nil, separated_nil] at hahead
    obtain ⟨mid, hmore, hend⟩ := moreKeys_end ⟨room + 1, rounds⟩ first hahead
    have hcomplete := Slots.complete_seen h fun p hp hkey =>
      hmembers.absent p hp hkey List.not_mem_nil
    rw [objectItems, bind_of_ok hmore, if_neg Bool.false_ne_true, hcomplete]
    dsimp only
    rw [bind_of_ok (objectEnd_eq hend)]
    rfl
  | cons m members ih =>
    obtain ⟨n, rfl⟩ : ∃ k, n = k + 1 := ⟨n - 1, by omega⟩
    obtain ⟨cs, hcs, htoken⟩ := hmembers.spelled m (List.mem_cons_self ..)
    rw [List.map_cons, separated_cons, Member.tokens, htoken, List.append_assoc, List.append_assoc,
      List.cons_append] at hahead
    obtain ⟨mid, hmore, hmid, hlength⟩ :=
      moreKeys_item ⟨room + 1, rounds⟩ first hahead
    obtain ⟨next, hmember, hnext⟩ := ahead_append_iff.mp hmid
    have hfits : cs.length < rounds := by omega
    have hname : stringBody ⟨room + 1, rounds⟩ (cs ++ '"' :: mid) = .ok (m.key, mid) :=
      stringBody_eq hcs hfits mid
    have hshorter : mid.length < rounds := by omega
    have htake := Slots.take_seen h hnodup hroom
      (fun p hp hkey => ⟨hmembers.value p hp m (List.mem_cons_self ..) hkey,
        hmembers.not_mem hp hkey⟩)
      (hmembers.unknown m (List.mem_cons_self ..)) hmember
      (delimited_of_separated (by decide) hnext) hshorter
    have hle := hmember.length_le
    rw [objectItems, bind_of_ok hmore, if_pos rfl, bind_of_ok hname, bind_of_ok htake]
    exact ih hmembers.tail false hnext (by omega) (by omega)

/-- A record that is written as an object is taken. -/
theorem decodes_object (h : WrittenAs bound tree fs vs parts) (hnodup : (fs.map Field.key).Nodup)
    (label : String) : Decodes bound (Fields.read tree label fs) vs (.object parts) := by
  intro room ts hroom hspelled
  cases room with
  | zero => cases hspelled
  | succ room =>
    obtain ⟨members, hspelled, hunknown, hvalue, honce, habsent, rfl⟩ := hspelled
    refine ⟨⟨_, _, _, rfl, by decide⟩, fun rounds text rest hahead _ hrounds => ?_⟩
    obtain ⟨mid, htext, hmid, hlength⟩ := hahead.skipBlank_mark rfl
    have hshorter : mid.length < rounds := Nat.lt_trans hlength hrounds
    have hmembers : MembersLeft parts room [] members :=
      ⟨hspelled, hunknown, hvalue, fun p hp => by simpa using honce p hp,
        fun p hp _ => habsent p hp⟩
    rw [Fields.read, htext]
    dsimp only
    rw [if_pos rfl, entering_apply, ← Slots.seen_nil fs vs]
    exact objectItems_eq h hnodup (by omega) hmembers true hmid hshorter
      (Nat.lt_succ_of_lt hshorter)

/-- A record that is written as an array is taken. -/
theorem decodes_positional (h : WrittenAs bound tree fs vs parts) (label : String) :
    Decodes bound (Fields.read tree label fs) vs (.positional parts) := by
  rintro room ts hroom ⟨written, left, hparts, hleft, hspelled⟩
  cases room with
  | zero => cases hspelled
  | succ room =>
    obtain ⟨items, hitems, rfl⟩ := hspelled
    refine ⟨⟨_, _, _, rfl, by decide⟩, fun rounds text rest hahead _ hrounds => ?_⟩
    obtain ⟨mid, htext, hmid, hlength⟩ := hahead.skipBlank_mark rfl
    have hshorter : mid.length < rounds := Nat.lt_trans hlength hrounds
    -- the complaint about an array that is too short makes no difference
    have hrecord (expected : String) : (do
        let vs ← arrayItems tree expected fs 0
        arrayEnd
        return vs) ⟨room + 1, rounds⟩ mid = .ok (vs, rest) := by
      obtain ⟨next, hnext, hend⟩ :=
        arrayItems_eq h (by omega : room < bound) expected hparts hleft hitems 0 hmid hshorter
      rw [bind_of_ok hnext, bind_of_ok (arrayEnd_eq hend)]
      rfl
    rw [Fields.read, htext]
    dsimp only
    rw [if_neg (by decide), if_pos rfl, entering_apply]
    exact hrecord _

/-- **A record is taken however it is written.** -/
theorem decodes_record (h : WrittenAs bound tree fs vs parts) (hnodup : (fs.map Field.key).Nodup)
    (label : String) : Decodes bound (Fields.read tree label fs) vs (.record parts) :=
  decodes_either (decodes_object h hnodup label) (decodes_positional h label)

end Fields

end TreeWalk
