import Mathlib.Data.List.Forall2
import Mathlib.Data.Set.Function
import TreeWalk.Proofs.Layout.Names

/-!
# Strings are numbered as they appear

A table of names is asked for one name after another.  The strings that it holds in the end are
the empty string and those that it was asked for, each of them once and where it first appeared
(`strings_internAll`).  So the name of a string can be told without the table: it is the place
of the string among the distinct ones, `nameOf`.

## Two ways to ask

A request is made either way, and a full table refuses the second kind.  As long as the distinct
strings are no more than a name can number, nothing is refused and the two come to the same
(`answerAll_eq`).  Then the main statement, `names_bijective`, says that the two halves of the
table, its strings and its index, are inverse bijections, and that they only ever grow.
-/

namespace TreeWalk

namespace NameTable

variable {t : NameTable} {n : Name} {s : String} {l ss : List String}

/-! ## Requests -/

/-- A request for the name of a string. -/
inductive Request where
  | intern (s : String)
  /-- A full table refuses this one. -/
  | tryIntern (s : String)

/-- The string whose name is asked for. -/
def Request.text : Request → String
  | intern s => s
  | tryIntern s => s

/-- The answer to a request, and the table afterwards. -/
def answer (t : NameTable) : Request → Except NameError Name × NameTable
  | .intern s => (.ok (t.intern s).1, (t.intern s).2)
  | .tryIntern s =>
    match t.tryIntern s with
    | .ok (n, t) => (.ok n, t)
    | .error e => (.error e, t)

/-- The answers to requests, one after another, and the table afterwards. -/
def answerAll (t : NameTable) : List Request → List (Except NameError Name) × NameTable
  | [] => ([], t)
  | r :: rest =>
    let (a, t) := t.answer r
    let (as, t) := t.answerAll rest
    (a :: as, t)

theorem answerAll_cons (t : NameTable) (r : Request) (rest : List Request) :
    t.answerAll (r :: rest) =
      ((t.answer r).1 :: ((t.answer r).2.answerAll rest).1, ((t.answer r).2.answerAll rest).2) :=
  rfl

/-! ## The strings of a table -/

/-- The strings of a table are those that names stand for. -/
theorem mem_strings_iff : s ∈ t.strings.toList ↔ ∃ n, t.Holds n s := by
  unfold Holds
  rw [List.mem_iff_getElem?]
  constructor
  · rintro ⟨i, hi⟩
    exact ⟨⟨i⟩, by simpa using hi⟩
  · rintro ⟨n, hn⟩
    exact ⟨n.index, by simpa using hn⟩

/-- The table finds the names of its strings and no others. -/
theorem Consistent.find?_eq_none_iff (ht : t.Consistent) :
    t.find? s = none ↔ s ∉ t.strings.toList := by
  rw [mem_strings_iff, not_exists, Option.eq_none_iff_forall_ne_some]
  exact forall_congr' fun n => not_congr (ht n s)

/-- A new string goes to the end. -/
theorem strings_intern (ht : t.Consistent) (s : String) :
    (t.intern s).2.strings.toList =
      if s ∈ t.strings.toList then t.strings.toList else t.strings.toList ++ [s] := by
  by_cases hs : s ∈ t.strings.toList
  · obtain ⟨n, hn⟩ := mem_strings_iff.mp hs
    rw [intern_of_find?_eq_some ((ht n s).mpr hn), if_pos hs]
  · rw [intern_of_find?_eq_none (ht.find?_eq_none_iff.mpr hs), if_neg hs]
    simp [append]

/-- One string more is another distinct string if it is new. -/
theorem eraseDups_concat (l : List String) (s : String) :
    (l ++ [s]).eraseDups = if s ∈ l.eraseDups then l.eraseDups else l.eraseDups ++ [s] := by
  rw [List.eraseDups_append]
  by_cases hs : s ∈ l
  · simp [List.cons_removeAll, hs]
  · simp [List.cons_removeAll, hs, List.eraseDups_cons]

/-- **Strings are numbered as they appear.**  A table that holds the distinct strings of a list
holds those of a longer list when it has been asked for the rest. -/
theorem strings_internAll (ht : t.Consistent) (hl : t.strings.toList = l.eraseDups)
    (ss : List String) : (t.internAll ss).2.strings.toList = (l ++ ss).eraseDups := by
  induction ss generalizing t l with
  | nil => rw [List.append_nil, internAll_nil, hl]
  | cons s rest ih =>
    have hs : (t.intern s).2.strings.toList = (l ++ [s]).eraseDups := by
      rw [strings_intern ht, hl, eraseDups_concat]
    rw [internAll_cons, ih (consistent_intern ht s) hs, List.append_assoc, List.singleton_append]

theorem strings_internAll_fresh (ss : List String) :
    (fresh.internAll ss).2.strings.toList = ("" :: ss).eraseDups :=
  strings_internAll consistent_fresh (l := [""]) rfl ss

/-- Asking for some names after others. -/
theorem internAll_append (t : NameTable) (ss rs : List String) :
    (t.internAll (ss ++ rs)).2 = ((t.internAll ss).2.internAll rs).2 := by
  induction ss generalizing t with
  | nil => rfl
  | cons s rest ih => exact ih (t.intern s).2

/-! ## Requests that are not refused -/

theorem size_append (t : NameTable) (s : String) : (t.append s).2.size = t.size + 1 :=
  Array.size_push _

/-- Asking for names does not shrink a table. -/
theorem size_le_intern (t : NameTable) (s : String) : t.size ≤ (t.intern s).2.size := by
  cases hs : t.find? s with
  | some n => rw [intern_of_find?_eq_some hs]
  | none =>
    rw [intern_of_find?_eq_none hs, size_append]
    omega

theorem size_le_internAll (t : NameTable) (ss : List String) :
    t.size ≤ (t.internAll ss).2.size := by
  induction ss generalizing t with
  | nil => rw [internAll_nil]
  | cons s rest ih => exact (size_le_intern t s).trans (ih (t.intern s).2)

/-- Either request is answered in the same way, but for a new string and a full table. -/
theorem answer_cases (t : NameTable) (r : Request) :
    t.answer r = (.ok (t.intern r.text).1, (t.intern r.text).2) ∨
      t.find? r.text = none ∧ UInt32.size ≤ t.size ∧
        t.answer r = (.error (.full t.size), t) := by
  cases r with
  | intern s => exact Or.inl rfl
  | tryIntern s =>
    simp only [answer, tryIntern, Request.text]
    cases hs : t.find? s with
    | some n => exact Or.inl (by rw [intern_of_find?_eq_some hs])
    | none =>
      by_cases hroom : t.size ≤ NameError.maxIndex
      · exact Or.inl (by rw [intern_of_find?_eq_none hs, if_pos hroom])
      · refine Or.inr ⟨rfl, ?_, by rw [if_neg hroom]⟩
        simp only [NameError.maxIndex] at hroom
        omega

/-- If a table does not become too large, a request is not refused. -/
theorem answer_eq_intern (r : Request) (h : (t.intern r.text).2.size ≤ UInt32.size) :
    t.answer r = (.ok (t.intern r.text).1, (t.intern r.text).2) := by
  rcases t.answer_cases r with hr | ⟨hs, hfull, -⟩
  · exact hr
  · rw [intern_of_find?_eq_none hs, size_append] at h
    omega

/-- Nor does it matter in which way each of several names is asked for. -/
theorem answerAll_eq (rs : List Request)
    (h : (t.internAll (rs.map Request.text)).2.size ≤ UInt32.size) :
    t.answerAll rs =
      ((t.internAll (rs.map Request.text)).1.map .ok, (t.internAll (rs.map Request.text)).2) := by
  induction rs generalizing t with
  | nil => rfl
  | cons r rest ih =>
    rw [List.map_cons, internAll_cons] at h ⊢
    have hr := answer_eq_intern r ((size_le_internAll _ (rest.map Request.text)).trans h)
    rw [answerAll_cons, hr, ih h, List.map_cons]

/-! ## Names without a table -/

/-- The name of a string: the place where it first appears among the distinct strings, of which
the empty one is always the first. -/
def nameOf (ss : List String) (s : String) : Name := ⟨("" :: ss).eraseDups.idxOf s⟩

/-- Different strings have different names. -/
theorem nameOf_inj {r : String} (hs : s ∈ "" :: ss) : nameOf ss s = nameOf ss r ↔ s = r := by
  unfold nameOf
  rw [Name.mk.injEq, List.idxOf_inj (List.mem_eraseDups.mpr hs)]

/-- In a table of the distinct strings of a list a string has its name. -/
theorem holds_nameOf (hl : t.strings.toList = ("" :: ss).eraseDups) (hs : s ∈ "" :: ss) :
    t.Holds (nameOf ss s) s := by
  unfold Holds nameOf
  rw [← Array.getElem?_toList, hl, List.getElem?_idxOf (List.mem_eraseDups.mpr hs)]

/-- The names that a fresh table gives are the places of the strings. -/
theorem internAll_fresh (ss : List String) : (fresh.internAll ss).1 = ss.map (nameOf ss) := by
  have hconsistent := consistent_internAll consistent_fresh ss
  have hnames : List.Forall₂ (fun s n => s ∈ ss ∧ (fresh.internAll ss).2.Holds n s) ss
      (fresh.internAll ss).1 :=
    (List.forall₂_and_left _ _).mpr ⟨fun _ hs => hs, (holds_internAll consistent_fresh ss).flip⟩
  symm
  rw [← List.forall₂_eq_eq_eq, List.forall₂_map_left_iff]
  refine hnames.imp ?_
  rintro s n ⟨hs, hn⟩
  have hplace := holds_nameOf (strings_internAll_fresh ss) (List.mem_cons_of_mem "" hs)
  exact (hconsistent.eq_iff hplace hn).mpr rfl

/-- If the distinct strings are no more than a name can number, no request is refused. -/
theorem answerAll_fresh (rs : List Request)
    (hfew : ("" :: rs.map Request.text).eraseDups.length ≤ UInt32.size) :
    fresh.answerAll rs =
      (rs.map (fun r => .ok (nameOf (rs.map Request.text) r.text)),
        (fresh.internAll (rs.map Request.text)).2) := by
  rw [← strings_internAll_fresh, Array.length_toList] at hfew
  rw [answerAll_eq rs hfew, internAll_fresh, List.map_map, List.map_map]
  rfl

/-! ## Tables that were asked for strings -/

/-- A table that was asked for strings numbers them. -/
structure Numbers (t : NameTable) (ss : List String) : Prop where
  /-- Its strings are the distinct ones in order of appearance, the empty one first. -/
  strings_eq : t.strings.toList = ("" :: ss).eraseDups
  /-- Names below its size stand for these strings, one for one. -/
  bijOn : Set.BijOn t.lookup {n | n.index < t.size} {s | s = "" ∨ s ∈ ss}
  /-- Its index goes the other way. -/
  find?_eq_some_iff : ∀ s n, t.find? s = some n ↔ n.index < t.size ∧ t.lookup n = s
  /-- Other names stand for the empty string. -/
  lookup_eq_empty : ∀ n : Name, t.size ≤ n.index → t.lookup n = ""
  /-- Asking for the string of a name answers with the name and changes nothing. -/
  answer_eq : ∀ (n : Name) (r : Request), n.index < t.size → r.text = t.lookup n →
    t.answer r = (.ok n, t)
  /-- Whatever name is given to a string stands for it. -/
  lookup_of_answer : ∀ (r : Request) (n : Name) (u : NameTable), t.answer r = (.ok n, u) →
    u.lookup n = r.text

/-- Names below the size stand for what is found when they are looked up. -/
theorem holds_iff_lookup : t.Holds n s ↔ n.index < t.size ∧ t.lookup n = s := by
  constructor
  · intro h
    exact ⟨h.index_lt, h.lookup_eq⟩
  · rintro ⟨hn, rfl⟩
    have h : t.Holds n t.strings[n.index] := Array.getElem?_eq_getElem hn
    rwa [h.lookup_eq]

theorem Consistent.numbers (ht : t.Consistent) (hl : t.strings.toList = ("" :: ss).eraseDups) :
    t.Numbers ss where
  strings_eq := hl
  bijOn := by
    refine ⟨?_, ?_, ?_⟩
    · intro n hn
      have hmem : t.lookup n ∈ t.strings.toList :=
        mem_strings_iff.mpr ⟨n, holds_iff_lookup.mpr ⟨hn, rfl⟩⟩
      rw [hl, List.mem_eraseDups] at hmem
      simpa using hmem
    · intro n hn m hm h
      exact (ht.eq_iff (holds_iff_lookup.mpr ⟨hn, rfl⟩) (holds_iff_lookup.mpr ⟨hm, rfl⟩)).mpr h
    · intro s hs
      have hplace := holds_nameOf hl (List.mem_cons.mpr hs)
      exact ⟨nameOf ss s, hplace.index_lt, hplace.lookup_eq⟩
  find?_eq_some_iff s n := by rw [ht, holds_iff_lookup]
  lookup_eq_empty n hn := by
    unfold lookup
    rw [Array.getElem?_eq_none hn, Option.getD_none]
  answer_eq n r hn hr := by
    have hfind : t.find? r.text = some n := (ht n _).mpr (holds_iff_lookup.mpr ⟨hn, hr.symm⟩)
    rcases t.answer_cases r with hanswer | ⟨hnone, -⟩
    · rw [hanswer, intern_of_find?_eq_some hfind]
    · cases hfind.symm.trans hnone
  lookup_of_answer r n u h := by
    rcases t.answer_cases r with hanswer | ⟨-, -, hanswer⟩
    · obtain ⟨hn, rfl⟩ := Prod.mk.inj (hanswer.symm.trans h)
      rw [← Except.ok.inj hn]
      exact (holds_intern ht r.text).lookup_eq
    · cases hanswer.symm.trans h

/-! ## The names that were given -/

/-- **Names are numbers of strings, for good.**  Let a fresh table be asked for the names of
strings, in either way, and let the strings and the empty one be no more than a name can number.
Then every request is answered with a name, the place of its string in the order of first
appearance, and so two of them get the same name only if they ask for the same string.  The two
halves of the table are inverse bijections between the names below its size and these strings.
And whatever else the table is asked for, what a name stands for never changes. -/
theorem names_bijective (before after : List Request)
    (hfew : ("" :: (before ++ after).map Request.text).eraseDups.length ≤ UInt32.size) :
    (fresh.answerAll before).1 =
        before.map (fun r => .ok (nameOf (before.map Request.text) r.text)) ∧
    (∀ r ∈ before, ∀ q ∈ before,
      nameOf (before.map Request.text) r.text = nameOf (before.map Request.text) q.text ↔
        r.text = q.text) ∧
    (fresh.answerAll before).2.Numbers (before.map Request.text) ∧
    ∀ n : Name, n.index < (fresh.answerAll before).2.size →
      (fresh.answerAll (before ++ after)).2.lookup n = (fresh.answerAll before).2.lookup n := by
  have hbefore : ("" :: before.map Request.text).eraseDups.length ≤ UInt32.size := by
    rw [List.map_append, ← List.cons_append, List.eraseDups_append, List.length_append] at hfew
    omega
  rw [answerAll_fresh before hbefore, answerAll_fresh (before ++ after) hfew]
  refine ⟨rfl, fun r hr q _ => nameOf_inj ?_, ?_, fun n hn => ?_⟩
  · exact List.mem_cons_of_mem _ (List.mem_map_of_mem hr)
  · exact (consistent_internAll consistent_fresh _).numbers (strings_internAll_fresh _)
  · have hheld : (fresh.internAll (before.map Request.text)).2.Holds n _ :=
      holds_iff_lookup.mpr ⟨hn, rfl⟩
    dsimp only
    rw [List.map_append, internAll_append]
    exact (grows_internAll _ _ hheld).lookup_eq

/-- Four requests for two strings and the empty one, and then one for a string that is new. -/
theorem names_bijective_repeated :
    ("" :: [Request.intern "x", .tryIntern "", .tryIntern "y", .intern "x", .tryIntern "z"].map
        Request.text).eraseDups.length ≤ UInt32.size ∧
      (fresh.answerAll [.intern "x", .tryIntern "", .tryIntern "y", .intern "x"]).1 =
        [.ok ⟨1⟩, .ok ⟨0⟩, .ok ⟨2⟩, .ok ⟨1⟩] ∧
      (fresh.answerAll [.intern "x", .tryIntern "", .tryIntern "y", .intern "x"]).2.strings =
        #["", "x", "y"] := by
  have hfew : ("" :: [Request.intern "x", .tryIntern "", .tryIntern "y", .intern "x",
      .tryIntern "z"].map Request.text).eraseDups.length ≤ UInt32.size := by decide +kernel
  obtain ⟨hanswers, -, hnumbers, -⟩ :=
    names_bijective [.intern "x", .tryIntern "", .tryIntern "y", .intern "x"] [.tryIntern "z"] hfew
  refine ⟨hfew, hanswers.trans (by decide +kernel), ?_⟩
  exact Array.toList_inj.mp (hnumbers.strings_eq.trans (by decide +kernel))

end NameTable

end TreeWalk
