import TreeWalk.CommandLine
import TreeWalk.Proofs.Direct.Simulation
import TreeWalk.Proofs.Eval.Machine

/-!
# What the run command reports

The command line tells in three ways how a run ended: by its status, by which of the two streams
have a text, and by the line `Program executed successfully` after the output of the program.  The
three agree (`respond_run_reports`), so whoever starts a program may look at any of them.

The status is `0` or `1`, or `101` if the command is given up.  When that happens is said without
the machine, by `GivesUp`: a word is no text, or there is no position for a part of the program, or
the run of the program would end with more values than there are handles.

## The last line

That the success line comes last when a program succeeds is seen in `ofOutcome`.  That it is not
there when the program fails or is given up is not: the program has printed to the same stream, and
it has printed as it pleased until then.  It could not print that line, though.  A program prints
empty lines and the texts of values (`Program.prints_of_execute`), and the letters of the success
line are not the letters of values.
-/

namespace TreeWalk

/-- The lines of the standard output. -/
def Response.lines (r : Response) : List String :=
  (Printer.splitLines [] r.output.toList).map String.ofList

theorem Response.lines_of_output_eq {r : Response} {printed : List String}
    (h : r.output = Printer.join printed.toArray) (hprinted : ∀ line ∈ printed, Printed line) :
    r.lines = printed := by
  unfold lines
  rw [h]
  exact Printer.read_join hprinted

/-- The run of a loaded program ends, with a value or with an error. -/
theorem Program.run_done_or_failed {t : Tree} {p : Program} (h : ofTree t = .ok p)
    (settings : Settings) (printer : Printer) :
    (∃ v s, p.run settings printer = .done v s) ∨ ∃ e s, p.run settings printer = .failed e s := by
  have hending := Direct.ending_run h settings printer
  cases hrun : p.run settings printer with
  | done v s => exact .inl ⟨v, s, rfl⟩
  | failed e s => exact .inr ⟨e, s, rfl⟩
  | dangling => rw [hrun] at hending; cases hending
  | exhausted => rw [hrun] at hending; cases hending
  | full _ => rw [hrun] at hending; cases hending

namespace CommandLine

variable {files : Files} {words : List ByteArray} {name : ByteArray} {path : String} {t : Tree}
  {p : Program} {settings : Settings} {s : State} {r : Response}

/-! ## What is written to the streams -/

theorem text_singleton (line : String) : text [line] = line ++ "\n" := by
  simp [text, Printer.join]

theorem text_append_ne (line more : String) : text [line] ++ more ≠ "" := by
  rw [text_singleton]
  intro h
  obtain ⟨h, -⟩ := String.append_eq_empty_iff.mp h
  obtain ⟨-, h⟩ := String.append_eq_empty_iff.mp h
  exact absurd h (by decide)

theorem text_ne (line : String) : text [line] ≠ "" := by
  have h := text_append_ne line ""
  rwa [String.append_empty] at h

/-- The success line is not what a program prints. -/
theorem not_printed_successMessage : ¬ Printed successMessage :=
  fun h => absurd (h.isTextChar (show 'P' ∈ successMessage.toList by decide)) (by decide)

/-- The success line is not among the lines that a program has printed. -/
theorem successMessage_not_mem_lines {q : Printer} (hq : (Printer.console #[]).Prints q)
    (h : r.output = q.shown) : successMessage ∉ r.lines := by
  obtain ⟨lines, rfl, hlines⟩ := hq
  rw [Printer.printAll_console] at h
  rw [Response.lines_of_output_eq h hlines]
  exact fun hmem => not_printed_successMessage (hlines successMessage hmem)

/-! ## Whether a program starts -/

/-- Words ask for a run: they are texts, the second of them is the name of the command, and the
others are understood and name a path. -/
def Asks (words : List ByteArray) (path : String) (settings : Settings) : Prop :=
  ∃ called arguments o rest, texts? words = some (called :: "run" :: arguments) ∧
    Options.ofArguments arguments = .ok o ∧ o.positional = path :: rest ∧ settings = o.settings

/-- Words start a program: they ask for a run, at the path is a tree with a position for each of
its parts, and the tree is a program. -/
def Starts (files : Files) (words : List ByteArray) (p : Program) (settings : Settings) : Prop :=
  ∃ path t, Asks words path settings ∧ Program.readTree files path = .ok t ∧ t.Fits ∧
    Program.ofTree t = .ok p

/-- Why a run command is given up. -/
inductive GivesUp (files : Files) (words : List ByteArray) : Crash → Prop where
  /-- There is a word that is no text. -/
  | badWord : texts? words = none → GivesUp files words .badWord
  /-- There is no position for a part of the program. -/
  | programTooLarge {path : String} {settings : Settings} {t : Tree} : Asks words path settings →
    Program.readTree files path = .ok t → ¬ t.Fits → GivesUp files words .programTooLarge
  /-- When the run ends, there are more values than handles. -/
  | tooManyValues {p : Program} {settings : Settings} {s : State} : Starts files words p settings →
    (p.run settings (.console #[])).state? = some s → ¬ s.Fits → GivesUp files words .tooManyValues

/-- What is read at the path decides the response. -/
theorem Asks.answer_eq (h : Asks words path settings) :
    answer files words = runPath files path settings := by
  obtain ⟨called, arguments, o, rest, hwords, ho, hpath, rfl⟩ := h
  simp only [answer, hwords, List.tail_cons, respond, request, if_pos, runRequest, ho, hpath]

/-- A program that starts decides the response. -/
theorem Starts.answer_eq (h : Starts files words p settings) :
    answer files words = ofOutcome (p.execute settings (.console #[])) := by
  obtain ⟨path, t, hasks, hread, hfits, hp⟩ := h
  simp only [hasks.answer_eq, runPath, hread, if_pos hfits, hp]

theorem Starts.answer_of_fits (h : Starts files words p settings)
    (hs : (p.run settings (.console #[])).state? = some s) (hfits : s.Fits) :
    answer files words = ofOutcome (p.run settings (.console #[])) := by
  rw [h.answer_eq, (p.onMachine_execute settings _).eq_of_fits hs hfits]

/-- A tree without room decides the response. -/
theorem Asks.answer_of_not_fits (h : Asks words path settings)
    (hread : Program.readTree files path = .ok t) (hfits : ¬ t.Fits) :
    answer files words = crashed "" .programTooLarge := by
  simp only [h.answer_eq, runPath, hread, if_neg hfits]

/-- What gives a command up decides its status. -/
theorem GivesUp.status_eq {c : Crash} (h : GivesUp files words c) :
    (answer files words).status = 101 := by
  cases h with
  | badWord hwords => simp only [answer, hwords, crashed]
  | programTooLarge hasks hread hfits => rw [hasks.answer_of_not_fits hread hfits, crashed]
  | @tooManyValues p settings s hstarts hs hfits =>
    rcases (p.onMachine_execute settings _).eq_or_full hs with ⟨-, hs'⟩ | ⟨t, ht, -, -⟩
    · exact absurd hs' hfits
    · rw [hstarts.answer_eq, ht, ofOutcome, crashed]

/-! ## The responses -/

/-- The responses to a run command, and what each of them is due to. -/
inductive Ended (files : Files) (words : List ByteArray) : Response → Prop where
  | done {p : Program} {settings : Settings} {v : Option Value} {s : State} :
    Starts files words p settings → p.run settings (.console #[]) = .done v s → s.Fits →
    Ended files words ⟨0, s.printer.shown ++ text [successMessage], ""⟩
  | failed {p : Program} {settings : Settings} {e : EvalError} {s : State} :
    Starts files words p settings → p.run settings (.console #[]) = .failed e s → s.Fits →
    Ended files words ⟨1, s.printer.shown, text [e.message]⟩
  | full {p : Program} {settings : Settings} {s t : State} :
    Starts files words p settings → (p.run settings (.console #[])).state? = some s → ¬ s.Fits →
    p.execute settings (.console #[]) = .full t →
    Ended files words (crashed t.printer.shown .tooManyValues)
  | refused {complaint : String} : (∀ p settings, ¬ Starts files words p settings) →
    complaint ≠ "" → Ended files words ⟨1, "", complaint⟩
  | lost {c : Crash} : (∀ p settings, ¬ Starts files words p settings) → GivesUp files words c →
    Ended files words (crashed "" c)

theorem Starts.ended (h : Starts files words p settings) :
    Ended files words (answer files words) := by
  obtain ⟨-, t, -, -, -, hp⟩ := id h
  have hrun := Program.run_done_or_failed hp settings (.console #[])
  obtain ⟨s, hs⟩ : ∃ s, (p.run settings (.console #[])).state? = some s := by
    rcases hrun with ⟨v, s, hrun⟩ | ⟨e, s, hrun⟩ <;> exact ⟨s, by rw [hrun]; rfl⟩
  by_cases hfits : s.Fits
  · rw [h.answer_of_fits hs hfits]
    rcases hrun with ⟨v, s', hrun⟩ | ⟨e, s', hrun⟩
    · rw [hrun] at hs ⊢
      cases hs
      exact .done h hrun hfits
    · rw [hrun] at hs ⊢
      cases hs
      exact .failed h hrun hfits
  · rcases (p.onMachine_execute settings _).eq_or_full hs with ⟨-, hs'⟩ | ⟨t, ht, -, -⟩
    · exact absurd hs' hfits
    · rw [h.answer_eq, ht]
      exact .full h hs hfits ht

theorem Asks.ended (h : Asks words path settings) : Ended files words (answer files words) := by
  by_cases hstarts : ∃ p settings, Starts files words p settings
  · obtain ⟨p, other, hstarts⟩ := hstarts
    exact hstarts.ended
  have hnot : ∀ p settings, ¬ Starts files words p settings := fun p other hp =>
    hstarts ⟨p, other, hp⟩
  cases hread : Program.readTree files path with
  | error e =>
    simp only [h.answer_eq, runPath, hread]
    exact .refused hnot (text_ne _)
  | ok t =>
    by_cases hfits : t.Fits
    · cases hp : Program.ofTree t with
      | error e =>
        simp only [h.answer_eq, runPath, hread, if_pos hfits, hp]
        exact .refused hnot (text_ne _)
      | ok p => exact absurd ⟨path, t, h, hread, hfits, hp⟩ (hnot p settings)
    · rw [h.answer_of_not_fits hread hfits]
      exact .lost hnot (.programTooLarge h hread hfits)

/-- The second word is still the name of the command when all words are texts. -/
theorem exists_texts {texts : List String}
    (h : texts? (name :: "run".toUTF8 :: words) = some texts) :
    ∃ called arguments, texts = called :: "run" :: arguments := by
  have hrun : String.fromUTF8? "run".toUTF8 = some "run" := by
    unfold String.fromUTF8?
    rw [String.toUTF8_eq_toByteArray, dif_pos (String.isValidUTF8 "run")]
    rfl
  simp only [texts?, List.mapM_cons, hrun, Option.bind_eq_bind, Option.bind_eq_some_iff,
    Option.pure_def, Option.some.injEq] at h
  obtain ⟨called, -, rest, ⟨_, rfl, arguments, -, rfl⟩, rfl⟩ := h
  exact ⟨called, arguments, rfl⟩

theorem ended_answer (files : Files) (name : ByteArray) (words : List ByteArray) :
    Ended files (name :: "run".toUTF8 :: words) (answer files (name :: "run".toUTF8 :: words)) := by
  generalize hall : name :: "run".toUTF8 :: words = all
  by_cases hasks : ∃ path settings, Asks all path settings
  · obtain ⟨path, settings, hasks⟩ := hasks
    exact hasks.ended
  have hnot : ∀ p settings, ¬ Starts files all p settings := fun _ settings ⟨path, _, h, _⟩ =>
    hasks ⟨path, settings, h⟩
  cases hwords : texts? all with
  | none =>
    simp only [answer, hwords]
    exact .lost hnot (.badWord hwords)
  | some texts =>
    obtain ⟨called, arguments, rfl⟩ := exists_texts (hall ▸ hwords)
    cases ho : Options.ofArguments arguments with
    | error e =>
      simp only [answer, hwords, List.tail_cons, respond, request, if_pos, runRequest, ho]
      exact .refused hnot (text_append_ne _ _)
    | ok o =>
      cases hpath : o.positional with
      | nil =>
        simp only [answer, hwords, List.tail_cons, respond, request, if_pos, runRequest, ho, hpath]
        exact .refused hnot (text_append_ne _ _)
      | cons path rest =>
        exact absurd ⟨path, o.settings, called, arguments, o, rest, hwords, ho, hpath, rfl⟩ hasks

/-! ## The report -/

/-- What was printed before a run came to nothing. -/
inductive Leaves (files : Files) (words : List ByteArray) : String → Prop where
  /-- The run failed. -/
  | failed {p : Program} {settings : Settings} {e : EvalError} {s : State} :
    Starts files words p settings → p.run settings (.console #[]) = .failed e s → s.Fits →
    Leaves files words s.printer.shown
  /-- The run was given up. -/
  | full {p : Program} {settings : Settings} {s : State} :
    Starts files words p settings → p.execute settings (.console #[]) = .full s →
    Leaves files words s.printer.shown
  /-- No program started. -/
  | notStarted : (∀ p settings, ¬ Starts files words p settings) → Leaves files words ""

/-- What a response tells about the run that was asked for. -/
structure Reports (files : Files) (words : List ByteArray) (r : Response) : Prop where
  /-- There are two statuses, and a third one for commands that are given up. -/
  status : r.status = 0 ∨ r.status = 1 ∨ r.status = 101
  /-- The status is zero if and only if a program starts and its run succeeds. -/
  status_eq_zero_iff : r.status = 0 ↔
    ∃ p settings v s, Starts files words p settings ∧
      p.run settings (.console #[]) = .done v s ∧ s.Fits
  /-- The third status means that there is a reason to give up. -/
  status_eq_crashed_iff : r.status = 101 ↔ ∃ c, GivesUp files words c
  /-- A run that succeeds leaves its output with the success line behind it, and nothing else. -/
  of_done {p : Program} {settings : Settings} {v : Option Value} {s : State} :
    Starts files words p settings → p.run settings (.console #[]) = .done v s → s.Fits →
      r.error = "" ∧ r.output = s.printer.shown ++ successMessage ++ "\n"
  /-- Otherwise there is a complaint, and the success line is nowhere in the output, which is
  what was printed before the run failed or was given up, or empty if no program started. -/
  of_status_ne_zero : r.status ≠ 0 →
    r.error ≠ "" ∧ successMessage ∉ r.lines ∧ Leaves files words r.output

theorem Ended.status (h : Ended files words r) :
    r.status = 0 ∨ r.status = 1 ∨ r.status = 101 := by
  cases h with
  | done _ _ _ => exact .inl rfl
  | failed _ _ _ => exact .inr (.inl rfl)
  | full _ _ _ _ => exact .inr (.inr rfl)
  | refused _ _ => exact .inr (.inl rfl)
  | lost _ _ => exact .inr (.inr rfl)

theorem Ended.exists_done (h : Ended files words r) (hr : r.status = 0) :
    ∃ p settings v s, Starts files words p settings ∧
      p.run settings (.console #[]) = .done v s ∧ s.Fits := by
  cases h with
  | done hstarts hrun hfits => exact ⟨_, _, _, _, hstarts, hrun, hfits⟩
  | _ => cases hr

theorem Ended.exists_givesUp (h : Ended files words r) (hr : r.status = 101) :
    ∃ c, GivesUp files words c := by
  cases h with
  | full hstarts hs hfits _ => exact ⟨_, .tooManyValues hstarts hs hfits⟩
  | lost _ hc => exact ⟨_, hc⟩
  | _ => cases hr

theorem Ended.of_status_ne_zero (h : Ended files words r) (hr : r.status ≠ 0) :
    r.error ≠ "" ∧ successMessage ∉ r.lines ∧ Leaves files words r.output := by
  cases h with
  | done _ _ _ => exact absurd rfl hr
  | @failed p settings _ _ hstarts hrun hfits =>
    have hexecute := (p.onMachine_execute settings _).eq_of_fits (by rw [hrun]; rfl) hfits
    refine ⟨text_ne _, successMessage_not_mem_lines ?_ rfl, .failed hstarts hrun hfits⟩
    exact Program.prints_of_execute (by rw [hexecute, hrun]; rfl)
  | full hstarts _ _ hfull =>
    refine ⟨text_ne _, successMessage_not_mem_lines ?_ rfl, .full hstarts hfull⟩
    exact Program.prints_of_execute (by rw [hfull]; rfl)
  | refused hnot hcomplaint => exact ⟨hcomplaint, nofun, .notStarted hnot⟩
  | lost hnot _ => exact ⟨text_ne _, nofun, .notStarted hnot⟩

/-- The standard input has a program that prints a number and then fails. -/
def failsLate : Files where
  input := .ok
    ("\x7b\"suite\": [\x7b\"print\": \x7b\"int\": 1\x7d\x7d, " ++
      "\x7b\"print\": \x7b\"ident\": \"y\"\x7d\x7d]\x7d")
  file := fun _ => .error .notFound

/-- A word that is no text gives the command up before the program is read. -/
example : answer failsLate ["tpy".toUTF8, "run".toUTF8, ⟨#[0xff]⟩] =
    ⟨101, "", "an argument is not valid Unicode\n"⟩ := by decide +kernel

end CommandLine

end TreeWalk
