import Mathlib.Data.List.Induction
import TreeWalk.Options

/-!
# How arguments are understood

Arguments are read one after another, and the first that is not understood ends the reading.  Here
it is said without reading what the arguments of a run mean: which of them are bad and what is said
about a bad one (`Complaint`), which limit they ask for (`AsksFor`), and which are positional.  The
main statement, `ofArguments_reads`, is that `ofArguments` finds just this.

## Why options may stand anywhere

An option changes settings and a positional argument changes nothing but the list of positional
arguments, so neither sees whether the other has been there.  Reading a list is therefore reading
its options alone, with the positional arguments put back at the end (`addAll_eq_map`), and this
holds of lists that are not understood as well.
-/

namespace TreeWalk

namespace Options

variable {o o' : Options} {e : OptionError} {a : String} {args : List String} {cs : List Char}
  {n m : Nat}

/-! ## Numbers -/

/-- A text is a decimal numeral, and this is its value. -/
inductive Numeral : List Char → Nat → Prop
  | digit {c : Char} (hc : c.isDigit) : Numeral [c] (c.toNat - '0'.toNat)
  | snoc {cs : List Char} {c : Char} {n : Nat} (h : Numeral cs n) (hc : c.isDigit) :
      Numeral (cs ++ [c]) (10 * n + (c.toNat - '0'.toNat))

theorem Numeral.ne_nil (h : Numeral cs n) : cs ≠ [] := by
  cases h <;> simp

theorem Numeral.isDigit (h : Numeral cs n) : ∀ c ∈ cs, c.isDigit := by
  induction h with
  | digit hc => simpa using hc
  | snoc _ hc ih =>
    intro c hmem
    rcases List.mem_append.mp hmem with hmem | hmem
    · exact ih c hmem
    · rwa [List.mem_singleton.mp hmem]

theorem Numeral.ofDigitChars_eq (h : Numeral cs n) : Nat.ofDigitChars 10 cs 0 = n := by
  induction h with
  | digit hc => simp [Nat.ofDigitChars_cons]
  | snoc _ hc ih => simp [Nat.ofDigitChars_append, Nat.ofDigitChars_cons, ih]

/-- Digits, of which there is at least one, are a numeral. -/
theorem numeral_of_isDigit (hne : cs ≠ []) (hdigits : ∀ c ∈ cs, c.isDigit) :
    Numeral cs (Nat.ofDigitChars 10 cs 0) := by
  induction cs using List.reverseRecOn with
  | nil => exact absurd rfl hne
  | append_singleton cs c ih =>
    have hc : c.isDigit := hdigits c (by simp)
    rw [Nat.ofDigitChars_append, Nat.ofDigitChars_cons, Nat.ofDigitChars_nil]
    by_cases hcs : cs = []
    · subst hcs
      simpa using Numeral.digit hc
    · exact .snoc (ih hcs fun d hd => hdigits d (by simp [hd])) hc

theorem decimal?_eq_some_iff : decimal? cs = some n ↔ Numeral cs n := by
  unfold decimal?
  constructor
  · intro h
    split at h
    · rename_i hcs
      obtain rfl := Option.some.inj h
      exact numeral_of_isDigit hcs.1 (by simpa using hcs.2)
    · cases h
  · intro h
    rw [if_pos ⟨h.ne_nil, by simpa using h.isDigit⟩, h.ofDigitChars_eq]

/-- A text gives a limit: it is a numeral, which may follow a plus sign, and the number is below
`2^64`. -/
def GivesLimit (text : List Char) (n : Nat) : Prop :=
  ∃ sign digits, text = sign ++ digits ∧ (sign = [] ∨ sign = ['+']) ∧ Numeral digits n ∧
    n < UInt64.size

theorem givesLimit_plus_iff {digits : List Char} :
    GivesLimit ('+' :: digits) n ↔ Numeral digits n ∧ n < UInt64.size := by
  constructor
  · rintro ⟨sign, rest, htext, rfl | rfl, hrest, hn⟩
    · -- without a sign the plus would be a digit
      obtain rfl : '+' :: digits = rest := htext
      exact absurd (hrest.isDigit '+' (by simp)) (by decide)
    · obtain rfl : digits = rest := by simpa using htext
      exact ⟨hrest, hn⟩
  · rintro ⟨hdigits, hn⟩
    exact ⟨['+'], digits, rfl, .inr rfl, hdigits, hn⟩

theorem givesLimit_iff_of_ne_plus (h : ∀ rest, cs ≠ '+' :: rest) :
    GivesLimit cs n ↔ Numeral cs n ∧ n < UInt64.size := by
  constructor
  · rintro ⟨sign, rest, htext, rfl | rfl, hrest, hn⟩
    · obtain rfl : cs = rest := by simpa using htext
      exact ⟨hrest, hn⟩
    · exact absurd htext (h rest)
  · rintro ⟨hdigits, hn⟩
    exact ⟨[], cs, rfl, .inl rfl, hdigits, hn⟩

/-- The number of a numeral, if it is below `2^64`. -/
def bounded? (digits : List Char) : Option Nat :=
  (decimal? digits).filter (· < UInt64.size)

theorem bounded?_eq_some_iff {digits : List Char} :
    bounded? digits = some n ↔ Numeral digits n ∧ n < UInt64.size := by
  rw [bounded?, Option.filter_eq_some_iff, decimal?_eq_some_iff, decide_eq_true_iff]

theorem limit?_plus (digits : List Char) : limit? ('+' :: digits) = bounded? digits := by
  unfold limit? bounded?
  simp only [if_true]
  cases decimal? digits with
  | none => rfl
  | some n => simp [Option.filter]

theorem limit?_of_ne_plus (h : ∀ rest, cs ≠ '+' :: rest) : limit? cs = bounded? cs := by
  unfold limit? bounded?
  cases cs with
  | nil => rfl
  | cons c rest =>
    have hc : c ≠ '+' := fun hc => h rest (hc ▸ rfl)
    simp only [if_neg hc]
    cases decimal? (c :: rest) with
    | none => rfl
    | some n => simp [Option.filter]

theorem limit?_eq_some_iff : limit? cs = some n ↔ GivesLimit cs n := by
  by_cases hplus : ∃ digits, cs = '+' :: digits
  · obtain ⟨digits, rfl⟩ := hplus
    rw [limit?_plus, bounded?_eq_some_iff, givesLimit_plus_iff]
  · have hne := not_exists.mp hplus
    rw [limit?_of_ne_plus hne, bounded?_eq_some_iff, givesLimit_iff_of_ne_plus hne]

theorem limit?_eq_none_iff : limit? cs = none ↔ ∀ n, ¬ GivesLimit cs n := by
  simp only [Option.eq_none_iff_forall_ne_some, ne_eq, limit?_eq_some_iff]

/-! ## Bad arguments -/

/-- An argument is an option. -/
def Dashed (a : String) : Prop :=
  ∃ rest, a = "--" ++ rest

/-- An argument is meant to give a limit. -/
def SetsLimit (a : String) : Prop :=
  ∃ text, a = "--recursion-limit=" ++ text

/-- What is said about an argument that is not understood, as an error and in words. -/
inductive Complaint : String → OptionError → String → Prop
  | limit {text : String} (h : ∀ n, ¬ GivesLimit text.toList n) :
      Complaint ("--recursion-limit=" ++ text) (.invalidLimit text)
        ("invalid recursion limit '" ++ text ++ "'")
  | unknown {a : String} (hdashed : Dashed a) (hlimit : ¬ SetsLimit a)
      (hbinding : a ≠ "--no-call-result-binding") :
      Complaint a (.unknown a) ("unknown option '" ++ a ++ "'")

/-- An argument is not understood. -/
def Bad (a : String) : Prop :=
  ∃ e words, Complaint a e words

theorem Complaint.words_eq {words : String} (h : Complaint a e words) : words = e.message := by
  cases h <;> rfl

theorem bad_iff : Bad a ↔ ∃ e : OptionError, Complaint a e e.message := by
  constructor
  · rintro ⟨e, words, h⟩
    exact ⟨e, h.words_eq ▸ h⟩
  · rintro ⟨e, h⟩
    exact ⟨e, e.message, h⟩

/-- The two kinds of complaint are about different arguments. -/
theorem Complaint.unique {e' : OptionError} {words words' : String} (h : Complaint a e words)
    (h' : Complaint a e' words') : e = e' := by
  cases h with
  | @limit text _ =>
    generalize ha : "--recursion-limit=" ++ text = a at h'
    cases h' with
    | limit => rw [(String.append_right_inj _).mp ha]
    | unknown _ hlimit => exact absurd ⟨text, ha.symm⟩ hlimit
  | unknown _ hlimit =>
    cases h' with
    | @limit text => exact absurd ⟨text, rfl⟩ hlimit
    | unknown => rfl

theorem exists_eq_append_iff {start : String} :
    (∃ text, a = start ++ text) ↔ start.toList.isPrefixOf a.toList := by
  rw [List.isPrefixOf_iff_prefix]
  constructor
  · rintro ⟨text, rfl⟩
    simp
  · rintro ⟨text, h⟩
    exact ⟨String.ofList text, by rw [← String.toList_inj, String.toList_append, ← h]; simp⟩

theorem setsLimit_iff : SetsLimit a ↔ limitFlag.isPrefixOf a.toList :=
  exists_eq_append_iff

theorem dashed_iff : Dashed a ↔ ['-', '-'].isPrefixOf a.toList :=
  exists_eq_append_iff

instance : DecidablePred Dashed := fun _ => decidable_of_iff _ dashed_iff.symm

theorem SetsLimit.dashed (h : SetsLimit a) : Dashed a := by
  obtain ⟨text, rfl⟩ := h
  exact ⟨"recursion-limit=" ++ text, by rw [← String.append_assoc]; rfl⟩

theorem dashed_noBinding : Dashed "--no-call-result-binding" :=
  ⟨"no-call-result-binding", rfl⟩

theorem Complaint.dashed {words : String} (h : Complaint a e words) : Dashed a := by
  cases h with
  | limit => exact SetsLimit.dashed ⟨_, rfl⟩
  | unknown hdashed => exact hdashed

theorem not_setsLimit_noBinding : ¬ SetsLimit "--no-call-result-binding" := by
  rw [setsLimit_iff]
  decide

/-! ## One argument -/

/-- What comes of adding an argument to the options. -/
inductive Adds (o : Options) : String → Except OptionError Options → Prop
  | limit {n : Nat} {text : String} (h : GivesLimit text.toList n) :
      Adds o ("--recursion-limit=" ++ text)
        (.ok { o with settings := { o.settings with limit := n } })
  | noBinding : Adds o "--no-call-result-binding"
      (.ok { o with settings := { o.settings with resultBinding := .disabled } })
  | positional {a : String} (h : ¬ Dashed a) :
      Adds o a (.ok { o with positional := o.positional ++ [a] })
  | bad {a : String} {e : OptionError} (h : Complaint a e e.message) : Adds o a (.error e)

theorem adds_add (o : Options) (a : String) : Adds o a (o.add a) := by
  unfold add
  by_cases hlimit : limitFlag.isPrefixOf a.toList
  · obtain ⟨text, rfl⟩ := setsLimit_iff.mpr hlimit
    have htext : ("--recursion-limit=" ++ text).toList.drop limitFlag.length = text.toList := by
      rw [String.toList_append]
      exact List.drop_left
    simp only [hlimit, if_true, htext, String.ofList_toList]
    cases hn : limit? text.toList with
    | none => exact .bad (.limit (limit?_eq_none_iff.mp hn))
    | some n => exact .limit (limit?_eq_some_iff.mp hn)
  · simp only [hlimit, Bool.false_eq_true, if_false]
    by_cases hbinding : a = noBindingFlag
    · subst hbinding
      exact .noBinding
    · rw [if_neg hbinding]
      by_cases hdashed : Dashed a
      · rw [if_pos (dashed_iff.mp hdashed)]
        exact .bad (.unknown hdashed (fun h => hlimit (setsLimit_iff.mp h)) hbinding)
      · rw [if_neg fun h => hdashed (dashed_iff.mpr h)]
        exact .positional hdashed

theorem Adds.not_bad (h : Adds o a (.ok o')) : ¬ Bad a := by
  rintro ⟨e, words, hbad⟩
  cases h with
  | @limit n text hn =>
    generalize ha : "--recursion-limit=" ++ text = a at hbad
    cases hbad with
    | limit hnone => exact hnone n ((String.append_right_inj _).mp ha ▸ hn)
    | unknown _ hlimit => exact hlimit ⟨text, ha.symm⟩
  | noBinding =>
    generalize ha : "--no-call-result-binding" = a at hbad
    cases hbad with
    | limit => exact not_setsLimit_noBinding ⟨_, ha⟩
    | unknown _ _ hbinding => exact hbinding ha.symm
  | positional hdashed => exact hdashed hbad.dashed

/-- An argument is refused just if it is bad. -/
theorem add_eq_error_iff : o.add a = .error e ↔ Complaint a e e.message := by
  have hadds := adds_add o a
  constructor
  · intro h
    rw [h] at hadds
    cases hadds with
    | bad hbad => exact hbad
  · intro h
    cases hadd : o.add a with
    | error e' =>
      rw [hadd] at hadds
      cases hadds with
      | bad hbad => rw [hbad.unique h]
    | ok o' => exact absurd ⟨e, e.message, h⟩ (hadd ▸ hadds).not_bad

theorem bad_of_add (h : o.add a = .error e) : Bad a :=
  bad_iff.mpr ⟨e, add_eq_error_iff.mp h⟩

theorem not_bad_of_add (h : o.add a = .ok o') : ¬ Bad a :=
  (h ▸ adds_add o a).not_bad

theorem add_of_not_dashed (h : ¬ Dashed a) :
    o.add a = .ok { o with positional := o.positional ++ [a] } := by
  have hadds := adds_add o a
  generalize o.add a = r at hadds
  cases hadds with
  | limit => exact absurd (SetsLimit.dashed ⟨_, rfl⟩) h
  | noBinding => exact absurd dashed_noBinding h
  | positional => rfl
  | bad hbad => exact absurd hbad.dashed h

/-- An option does not see the positional arguments. -/
theorem add_positional_of_dashed (h : Dashed a) (o : Options) (ps : List String) :
    ({ o with positional := ps }).add a = (o.add a).map ({ · with positional := ps }) := by
  rw [dashed_iff] at h
  unfold add
  simp only [h, if_true]
  by_cases hlimit : limitFlag.isPrefixOf a.toList
  · simp only [hlimit, if_true]
    cases limit? (a.toList.drop limitFlag.length) <;> rfl
  · simp only [hlimit, Bool.false_eq_true, if_false]
    by_cases hbinding : a = noBindingFlag
    · simp only [hbinding, if_true]
      rfl
    · simp only [hbinding, if_false]
      rfl

theorem Adds.positional_eq (h : Adds o a (.ok o')) (ha : Dashed a) :
    o'.positional = o.positional := by
  cases h with
  | limit => rfl
  | noBinding => rfl
  | positional hnot => exact absurd ha hnot

/-! ## All arguments -/

theorem addAll_cons (o : Options) (a : String) (rest : List String) :
    o.addAll (a :: rest) = (o.add a).bind fun o => o.addAll rest := by
  rw [addAll]
  cases o.add a <;> rfl

theorem addAll_cons_eq_ok {rest : List String} (h : o.addAll (a :: rest) = .ok o') :
    ∃ o₁, Adds o a (.ok o₁) ∧ o₁.addAll rest = .ok o' := by
  have hadds := adds_add o a
  rw [addAll_cons] at h
  cases hadd : o.add a with
  | error e => rw [hadd] at h; cases h
  | ok o₁ => exact ⟨o₁, hadd ▸ hadds, by rwa [hadd] at h⟩

/-- A complaint about the first of the arguments that are bad. -/
def FirstComplaint (args : List String) (e : OptionError) : Prop :=
  ∃ before a after, args = before ++ a :: after ∧ (∀ b ∈ before, ¬ Bad b) ∧
    Complaint a e e.message

theorem firstComplaint_cons_iff {rest : List String} :
    FirstComplaint (a :: rest) e ↔
      Complaint a e e.message ∨ ¬ Bad a ∧ FirstComplaint rest e := by
  constructor
  · rintro ⟨before, b, after, hsplit, hbefore, hb⟩
    rcases List.cons_eq_append_iff.mp hsplit with ⟨rfl, hsplit⟩ | ⟨before, rfl, rfl⟩
    · obtain ⟨rfl, -⟩ := List.cons_eq_cons.mp hsplit
      exact .inl hb
    · exact .inr ⟨hbefore a (by simp), before, b, after, rfl,
        fun c hc => hbefore c (by simp [hc]), hb⟩
  · rintro (h | ⟨ha, before, b, after, rfl, hbefore, hb⟩)
    · exact ⟨[], a, rest, rfl, by simp, h⟩
    · exact ⟨a :: before, b, after, rfl, by simpa [ha] using hbefore, hb⟩

theorem addAll_eq_error_iff : o.addAll args = .error e ↔ FirstComplaint args e := by
  induction args generalizing o with
  | nil => simp [addAll, FirstComplaint]
  | cons a rest ih =>
    rw [firstComplaint_cons_iff, addAll_cons, ← add_eq_error_iff]
    cases hadd : o.add a with
    | error e' => simp [Except.bind, bad_of_add hadd]
    | ok o₁ => simp [Except.bind, not_bad_of_add hadd, ih]

theorem exists_addAll_eq_ok_iff : (∃ o', o.addAll args = .ok o') ↔ ∀ a ∈ args, ¬ Bad a := by
  induction args generalizing o with
  | nil => simp [addAll]
  | cons a rest ih =>
    rw [addAll_cons, List.forall_mem_cons]
    cases hadd : o.add a with
    | error e => simp [Except.bind, bad_of_add hadd]
    | ok o₁ => simp [Except.bind, not_bad_of_add hadd, ih]

/-! ### Options may stand anywhere -/

theorem addAll_positional_of_dashed (h : ∀ a ∈ args, Dashed a) (o : Options) (ps : List String) :
    ({ o with positional := ps }).addAll args =
      (o.addAll args).map ({ · with positional := ps }) := by
  induction args generalizing o with
  | nil => rfl
  | cons a rest ih =>
    obtain ⟨ha, hrest⟩ := List.forall_mem_cons.mp h
    rw [addAll_cons, addAll_cons, add_positional_of_dashed ha]
    cases o.add a with
    | error e => rfl
    | ok o₁ => exact ih hrest o₁

/-- Arguments are read as their options are, and the positional ones are added at the end. -/
theorem addAll_eq_map (o : Options) (args : List String) :
    o.addAll args = (o.addAll (args.filter (Dashed ·))).map
      ({ · with positional := o.positional ++ args.filter (¬ Dashed ·) }) := by
  induction args generalizing o with
  | nil => simp [addAll, Except.map]
  | cons a rest ih =>
    by_cases ha : Dashed a
    · have hoptions : (a :: rest).filter (Dashed ·) = a :: rest.filter (Dashed ·) :=
        List.filter_cons_of_pos (by simpa using ha)
      have hothers : (a :: rest).filter (¬ Dashed ·) = rest.filter (¬ Dashed ·) :=
        List.filter_cons_of_neg (by simpa using ha)
      rw [hoptions, hothers, addAll_cons, addAll_cons]
      cases hadd : o.add a with
      | error e => rfl
      | ok o₁ =>
        have hsame := (hadd ▸ adds_add o a).positional_eq ha
        simp only [Except.bind]
        rw [ih, hsame]
    · have hoptions : (a :: rest).filter (Dashed ·) = rest.filter (Dashed ·) :=
        List.filter_cons_of_neg (by simpa using ha)
      have hothers : (a :: rest).filter (¬ Dashed ·) = a :: rest.filter (¬ Dashed ·) :=
        List.filter_cons_of_pos (by simpa using ha)
      have hdashed : ∀ b ∈ rest.filter (Dashed ·), Dashed b := by simp
      rw [hoptions, hothers, addAll_cons, add_of_not_dashed ha]
      simp only [Except.bind]
      rw [ih, addAll_positional_of_dashed hdashed]
      cases o.addAll (rest.filter (Dashed ·)) with
      | error e => rfl
      | ok o' => simp [Except.map]

theorem positional_of_addAll (h : o.addAll args = .ok o') :
    o'.positional = o.positional ++ args.filter (¬ Dashed ·) := by
  rw [addAll_eq_map] at h
  cases hflags : o.addAll (args.filter (Dashed ·)) with
  | error e => rw [hflags] at h; cases h
  | ok o₁ => rw [hflags] at h; cases h; rfl

/-! ### The limit and the binding -/

/-- The limit that arguments ask for: the last that one of them gives, or else the one that is
given here. -/
def AsksFor (otherwise : Nat) (args : List String) (n : Nat) : Prop :=
  (∃ before text after, args = before ++ ("--recursion-limit=" ++ text) :: after ∧
    GivesLimit text.toList n ∧ ∀ a ∈ after, ¬ SetsLimit a) ∨
  n = otherwise ∧ ∀ a ∈ args, ¬ SetsLimit a

theorem AsksFor.cons_limit {otherwise : Nat} {text : String} (hm : GivesLimit text.toList m)
    (h : AsksFor m args n) : AsksFor otherwise (("--recursion-limit=" ++ text) :: args) n := by
  rcases h with ⟨before, text', after, rfl, hn, hafter⟩ | ⟨rfl, hnone⟩
  · exact .inl ⟨_ :: before, text', after, rfl, hn, hafter⟩
  · exact .inl ⟨[], text, args, rfl, hm, hnone⟩

theorem AsksFor.cons_other {otherwise : Nat} (ha : ¬ SetsLimit a) (h : AsksFor otherwise args n) :
    AsksFor otherwise (a :: args) n := by
  rcases h with ⟨before, text, after, rfl, hn, hafter⟩ | ⟨rfl, hnone⟩
  · exact .inl ⟨a :: before, text, after, rfl, hn, hafter⟩
  · exact .inr ⟨rfl, List.forall_mem_cons.mpr ⟨ha, hnone⟩⟩

theorem asksFor_of_addAll (h : o.addAll args = .ok o') :
    AsksFor o.settings.limit args o'.settings.limit := by
  induction args generalizing o with
  | nil =>
    cases h
    exact .inr ⟨rfl, by simp⟩
  | cons a rest ih =>
    obtain ⟨o₁, hadds, hrest⟩ := addAll_cons_eq_ok h
    have hasks := ih hrest
    cases hadds with
    | limit hn => exact hasks.cons_limit hn
    | noBinding => exact hasks.cons_other not_setsLimit_noBinding
    | positional hnot => exact hasks.cons_other fun hlimit => hnot hlimit.dashed

theorem resultBinding_of_addAll (h : o.addAll args = .ok o') :
    o'.settings.resultBinding = .disabled ↔
      o.settings.resultBinding = .disabled ∨ "--no-call-result-binding" ∈ args := by
  induction args generalizing o with
  | nil =>
    cases h
    simp
  | cons a rest ih =>
    obtain ⟨o₁, hadds, hrest⟩ := addAll_cons_eq_ok h
    rw [ih hrest, List.mem_cons]
    cases hadds with
    | @limit n text hn =>
      have hne : "--no-call-result-binding" ≠ "--recursion-limit=" ++ text := fun h =>
        not_setsLimit_noBinding ⟨text, h⟩
      simp [hne]
    | noBinding => simp
    | positional hnot =>
      have hne : "--no-call-result-binding" ≠ a := fun h => hnot (h ▸ dashed_noBinding)
      simp [hne]

/-! ## The reading of arguments -/

/-- Arguments are understood just if none of them is bad, and otherwise the first bad one is
complained about.  The positional ones are kept in order, the last limit counts, and the binding of
results is turned off by the option for it.  Options can be moved past positional arguments. -/
theorem ofArguments_reads (args : List String) :
    (∀ e, ofArguments args = .error e ↔
      ∃ before a after, args = before ++ a :: after ∧ (∀ b ∈ before, ¬ Bad b) ∧
        Complaint a e e.message) ∧
    ((∃ o, ofArguments args = .ok o) ↔ ∀ a ∈ args, ¬ Bad a) ∧
    (∀ o, ofArguments args = .ok o →
      o.positional = args.filter (¬ Dashed ·) ∧
      AsksFor 1000 args o.settings.limit ∧
      (o.settings.resultBinding = .disabled ↔ "--no-call-result-binding" ∈ args)) ∧
    ∀ moved : List String, moved.filter (Dashed ·) = args.filter (Dashed ·) →
      moved.filter (¬ Dashed ·) = args.filter (¬ Dashed ·) →
      ofArguments moved = ofArguments args := by
  refine ⟨fun e => addAll_eq_error_iff, exists_addAll_eq_ok_iff, ?_, ?_⟩
  · intro o h
    refine ⟨?_, asksFor_of_addAll h, ?_⟩
    · simpa using positional_of_addAll h
    · simpa [Settings.default] using resultBinding_of_addAll h
  · intro moved hoptions hothers
    unfold ofArguments
    rw [addAll_eq_map, addAll_eq_map _ args, hoptions, hothers]

/-- The options come first here, and the limit is written with a plus sign and zeros. -/
theorem ofArguments_reads_moved :
    ofArguments ["--recursion-limit=+007", "--no-call-result-binding", "program", "rest"] =
      ofArguments ["program", "--recursion-limit=+007", "rest", "--no-call-result-binding"] ∧
    ["program", "rest"] =
      ["program", "--recursion-limit=+007", "rest", "--no-call-result-binding"].filter
        (¬ Dashed ·) ∧
    ¬ ∀ a ∈ ["program", "--recursion-limit=18446744073709551616", "--verbose"], ¬ Bad a := by
  refine ⟨(ofArguments_reads _).2.2.2 _ (by decide) (by decide),
    ((ofArguments_reads _).2.2.1 ⟨⟨7, .disabled⟩, ["program", "rest"]⟩ (by decide)).1, ?_⟩
  rw [← (ofArguments_reads _).2.1]
  rintro ⟨o, ho⟩
  have herror : ofArguments ["program", "--recursion-limit=18446744073709551616", "--verbose"] =
      .error (.invalidLimit "18446744073709551616") := by decide
  rw [herror] at ho
  cases ho

end Options

end TreeWalk
