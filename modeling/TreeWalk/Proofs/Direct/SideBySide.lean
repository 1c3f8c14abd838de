import Mathlib.Data.List.Forall2
import TreeWalk.Proofs.Direct.Simulation
import TreeWalk.Proofs.Printing
import TreeWalk.Renaming

/-!
# Two direct evaluations side by side

Two programs that look alike are evaluated side by side, from states that look alike.  What
looking alike means is a `Likeness`: identifiers go by other names in the second program, the
bodies of functions are related in some way, and nothing is said about the values of identifiers
that are not *seen*.  What was printed before the two evaluations may differ; what they print is
the same.

The main statements are that whatever can be asked of states that are alike has the same answer
(`find?_eq`, `function?_rel`, `params?_eq`), that what is written into both keeps them alike, and
that pieces of evaluation that agree can be put in a row (`Agree.bind`).  A call needs to know
that bodies are entered alike, which is `EntersAlike`, and `agree_call` is the rule for it.

## What is not seen

A call that binds its result and one that does not leave states behind that differ in the name of
the function.  If that name is not seen, the states are still alike, so one evaluation may bind
results where the other does not.
-/

namespace TreeWalk

/-- How a run looks from outside, with identifiers renamed in its error. -/
def renameEnding (r : String → String) (ending : Except EvalError (Option Value) × Printer) :
    Except EvalError (Option Value) × Printer :=
  (ending.1.mapError (EvalError.rename r), ending.2)

theorem renameEnding_id (ending : Except EvalError (Option Value) × Printer) :
    renameEnding id ending = ending := by
  obtain ⟨_ | _, _⟩ := ending
  · exact Prod.ext (congrArg Except.error (EvalError.rename_id _)) rfl
  · rfl

namespace Direct

/-- In what two evaluations are alike. -/
structure Likeness where
  /-- What an identifier of the first program is called in the second. -/
  rename : String → String
  /-- Different identifiers are called differently. -/
  injective : Function.Injective rename
  /-- The identifiers that have the same values in both. -/
  seen : String → Prop
  /-- How the bodies of functions are related. -/
  body : Tree → Tree → Prop
  /-- Where the first evaluation found the printer. -/
  first : Printer
  /-- Where the second evaluation found the printer. -/
  second : Printer

namespace Likeness

variable {L : Likeness} {α β γ δ : Type} {f g : Frame} {s t : State} {x : String}

/-! ## Frames -/

/-- Two frames are alike, entry by entry. -/
structure Frames (L : Likeness) (f g : Frame) : Prop where
  /-- Values and markers of what is seen. -/
  values : ∀ x, L.seen x → g.values[L.rename x]? = f.values[x]?
  /-- Function bodies. -/
  functions : ∀ x, Option.Rel L.body f.functions[x]? g.functions[L.rename x]?
  /-- Parameter lists. -/
  params : ∀ x, g.params[L.rename x]? = f.params[x]?.map (·.map L.rename)
  /-- The value of a `return`. -/
  returned : g.returned = f.returned

/-- The names of two identifiers are the same key exactly if the identifiers are. -/
theorem compare_rename_iff (L : Likeness) (x y : String) :
    compare (L.rename x) (L.rename y) = .eq ↔ compare x y = .eq := by
  rw [Std.LawfulEqOrd.compare_eq_iff_eq, Std.LawfulEqOrd.compare_eq_iff_eq]
  exact L.injective.eq_iff

/-- What is found after an insertion under another name. -/
theorem getElem?_insert_rename (L : Likeness) (m : Std.ExtTreeMap String α) (x y : String) (a : α) :
    (m.insert (L.rename x) a)[L.rename y]? =
      if compare x y = .eq then some a else m[L.rename y]? := by
  rw [Std.ExtTreeMap.getElem?_insert]
  exact if_congr (L.compare_rename_iff x y) rfl rfl

theorem getElem?_erase_rename (L : Likeness) (m : Std.ExtTreeMap String α) (x y : String) :
    (m.erase (L.rename x))[L.rename y]? = if compare x y = .eq then none else m[L.rename y]? := by
  rw [Std.ExtTreeMap.getElem?_erase]
  exact if_congr (L.compare_rename_iff x y) rfl rfl

theorem frames_fresh (L : Likeness) : L.Frames .fresh .fresh where
  values _ _ := Std.ExtTreeMap.getElem?_empty.trans Std.ExtTreeMap.getElem?_empty.symm
  functions _ := by
    simp only [Frame.fresh, Std.ExtTreeMap.getElem?_empty]
    exact Option.Rel.none
  params _ := by simp only [Frame.fresh, Std.ExtTreeMap.getElem?_empty, Option.map_none]
  returned := rfl

/-- Writing the same entry for an identifier into both frames. -/
theorem Frames.insert (h : L.Frames f g) (x : String) (b : Binding) :
    L.Frames { f with values := f.values.insert x b }
      { g with values := g.values.insert (L.rename x) b } := by
  refine { h with values := fun y hy => ?_ }
  dsimp only
  rw [L.getElem?_insert_rename, Std.ExtTreeMap.getElem?_insert, h.values y hy]

theorem Frames.bind (h : L.Frames f g) (x : String) (v : Value) :
    L.Frames (f.bind x v) (g.bind (L.rename x) v) := h.insert x (.bound v)

theorem Frames.markUnbound (h : L.Frames f g) (x : String) :
    L.Frames (f.markUnbound x) (g.markUnbound (L.rename x)) := h.insert x .unbound

/-- What is seen is another identifier than what is not. -/
theorem compare_ne_of_seen {y : String} (hx : ¬ L.seen x) (hy : L.seen y) :
    ¬ compare x y = .eq := by
  rw [Std.LawfulEqOrd.compare_eq_iff_eq]
  rintro rfl
  exact hx hy

/-- What is not seen may be bound in the first frame alone. -/
theorem Frames.bind_left (h : L.Frames f g) (hx : ¬ L.seen x) (v : Value) :
    L.Frames (f.bind x v) g := by
  refine { h with values := fun y hy => (h.values y hy).trans ?_ }
  exact (Std.ExtTreeMap.getElem?_insert.trans (if_neg (compare_ne_of_seen hx hy))).symm

/-- What is not seen may be bound in the second frame alone. -/
theorem Frames.bind_right (h : L.Frames f g) (hx : ¬ L.seen x) (v : Value) :
    L.Frames f (g.bind (L.rename x) v) := by
  refine { h with values := fun y hy => Eq.trans ?_ (h.values y hy) }
  have hfind := L.getElem?_insert_rename g.values x y (.bound v)
  exact hfind.trans (if_neg (compare_ne_of_seen hx hy))

theorem Frames.returned_some (h : L.Frames f g) (v : Value) :
    L.Frames { f with returned := some v } { g with returned := some v } :=
  { h with returned := rfl }

/-- A definition in both frames. -/
theorem Frames.define (h : L.Frames f g) (x : String) (params : Option (List String))
    {b b' : Tree} (hb : L.body b b') :
    L.Frames (f.define x params b) (g.define (L.rename x) (params.map (·.map L.rename)) b') := by
  refine { h with functions := fun y => ?_, params := fun y => ?_ }
  · simp only [Frame.define, L.getElem?_insert_rename, Std.ExtTreeMap.getElem?_insert]
    by_cases hxy : compare x y = .eq
    · rw [if_pos hxy, if_pos hxy]
      exact Option.Rel.some hb
    · rw [if_neg hxy, if_neg hxy]
      exact h.functions y
  · cases params with
    | none =>
      simp only [Frame.define, Option.map_none, L.getElem?_erase_rename,
        Std.ExtTreeMap.getElem?_erase, h.params y]
      split <;> rfl
    | some ps =>
      simp only [Frame.define, Option.map_some, L.getElem?_insert_rename,
        Std.ExtTreeMap.getElem?_insert, h.params y]
      split <;> rfl

/-- Binding the same values one after another. -/
theorem Frames.bindAll (h : L.Frames f g) (bs : List (String × Value)) :
    L.Frames (f.bindAll bs) (g.bindAll (bs.map (Prod.map L.rename id))) := by
  induction bs generalizing f g with
  | nil => exact h
  | cons b rest ih => exact ih (h.bind b.1 b.2)

/-! ## States -/

/-- Two states are alike. -/
structure States (L : Likeness) (s t : State) : Prop where
  /-- The top frames. -/
  top : L.Frames s.top t.top
  /-- The frames below, one by one. -/
  below : List.Forall₂ L.Frames s.below t.below
  /-- The same lines were printed on top of what was there. -/
  printer : ∃ lines, s.printer = L.first.printAll lines ∧ t.printer = L.second.printAll lines

theorem states_fresh (L : Likeness) : L.States (.fresh L.first) (.fresh L.second) :=
  ⟨L.frames_fresh, .nil, [], rfl, rfl⟩

theorem States.frames (h : L.States s t) : List.Forall₂ L.Frames s.frames t.frames :=
  .cons h.top h.below

theorem States.push (h : L.States s t) (hfg : L.Frames f g) : L.States (s.push f) (t.push g) :=
  ⟨hfg, h.frames, h.printer⟩

theorem States.pop (h : L.States s t) : L.States s.pop t.pop := by
  obtain ⟨top, below, printer⟩ := s
  obtain ⟨top', below', printer'⟩ := t
  obtain ⟨htop, hbelow, hprinter⟩ := h
  cases hbelow with
  | nil => exact ⟨htop, .nil, hprinter⟩
  | cons hfg hrest => exact ⟨hfg, hrest, hprinter⟩

theorem States.println (h : L.States s t) (line : String) :
    L.States { s with printer := s.printer.println line }
      { t with printer := t.printer.println line } := by
  obtain ⟨lines, hs, ht⟩ := h.printer
  refine ⟨h.top, h.below, lines ++ [line], ?_, ?_⟩
  · rw [Printer.printAll_concat, hs]
  · rw [Printer.printAll_concat, ht]

/-- A search along frames that are alike has related results. -/
theorem findSome?_eq {look look' : Frame → Option α} {fs gs : List Frame}
    (h : List.Forall₂ L.Frames fs gs) {map : α → α}
    (hlook : ∀ f g, L.Frames f g → look' g = (look f).map map) :
    gs.findSome? look' = (fs.findSome? look).map map := by
  induction h with
  | nil => rfl
  | @cons f g _ _ hfg _ ih =>
    rw [List.findSome?_cons, List.findSome?_cons, hlook f g hfg]
    cases look f with
    | none => exact ih
    | some a => rfl

/-- What is seen is bound to the same value. -/
theorem States.find?_eq (h : L.States s t) (hx : L.seen x) :
    t.find? (L.rename x) = s.find? x := by
  have hlook (f g : Frame) (hfg : L.Frames f g) :
      g.values[L.rename x]? = f.values[x]?.map id := by
    rw [hfg.values x hx, Option.map_id_fun, id]
  have hfind : t.find? (L.rename x) = (s.find? x).map id := findSome?_eq h.frames hlook
  rwa [Option.map_id_fun, id] at hfind

/-- An identifier has related functions. -/
theorem States.function?_rel (h : L.States s t) (x : String) :
    Option.Rel L.body (s.function? x) (t.function? (L.rename x)) :=
  forall₂_findSome? (fun _ _ hfg => hfg.functions x) h.frames

/-- An identifier has the same parameters, by the names they go by. -/
theorem States.params?_eq (h : L.States s t) (x : String) :
    t.params? (L.rename x) = (s.params? x).map (·.map L.rename) :=
  findSome?_eq h.frames fun _ _ hfg => hfg.params x

/-! ## Pieces of evaluation -/

/-- Two evaluations end alike: both with related results, or both with the same error about
identifiers by the names they go by. -/
inductive Results (L : Likeness) (Q : α → β → Prop) :
    EStateM.Result EvalError State α → EStateM.Result EvalError State β → Prop where
  | ok {a : α} {b : β} {s t : State} : L.States s t → Q a b → Results L Q (.ok a s) (.ok b t)
  | error (e : EvalError) {s t : State} :
    L.States s t → Results L Q (.error e s) (.error (e.rename L.rename) t)

/-- From states that are alike, two pieces of evaluation end alike. -/
def Agree (L : Likeness) (Q : α → β → Prop) (m : Eval α) (m' : Eval β) : Prop :=
  ∀ ⦃s t⦄, L.States s t → L.Results Q (m s) (m' t)

section Pieces

variable {Q : α → β → Prop} {P : γ → δ → Prop} {m : Eval α} {m' : Eval β}

theorem agree_pure {a : α} {b : β} (h : Q a b) : L.Agree Q (pure a) (pure b) :=
  fun _ _ hst => .ok hst h

theorem agree_throw (e : EvalError) :
    L.Agree Q (throw e : Eval α) (throw (e.rename L.rename) : Eval β) := fun _ _ hst => .error e hst

/-- Pieces that agree, in a row. -/
theorem Agree.bind {f : α → Eval γ} {f' : β → Eval δ} (h : L.Agree Q m m')
    (hf : ∀ a b, Q a b → L.Agree P (f a) (f' b)) : L.Agree P (m >>= f) (m' >>= f') := by
  intro s t hst
  have hr := h hst
  generalize hs : m s = o at hr
  generalize ht : m' t = o' at hr
  cases hr with
  | ok hst' hq =>
    rw [bind_ok hs, bind_ok ht]
    exact hf _ _ hq hst'
  | error e hst' =>
    rw [bind_error hs, bind_error ht]
    exact .error e hst'

/-- Pieces with equal results, in a row. -/
theorem Agree.bind_eq {m m' : Eval α} {f : α → Eval γ} {f' : α → Eval δ}
    (h : L.Agree (· = ·) m m') (hf : ∀ a, L.Agree P (f a) (f' a)) :
    L.Agree P (m >>= f) (m' >>= f') := by
  refine h.bind fun a b hab => ?_
  obtain rfl : a = b := hab
  exact hf a

/-- Writing into the top frames. -/
theorem agree_onTop {w w' : Frame → Frame} (h : ∀ f g, L.Frames f g → L.Frames (w f) (w' g)) :
    L.Agree (· = ·) (modify (·.onTop w)) (modify (·.onTop w')) :=
  fun _ _ hst => .ok { hst with top := h _ _ hst.top } rfl

theorem agree_emit (line : String) : L.Agree (· = ·) (emit line) (emit line) :=
  fun _ _ hst => .ok (hst.println line) rfl

/-- Operations that need no state do not complain about identifiers. -/
theorem agree_ofExcept {r : Except EvalError α} (h : ∀ e, r = .error e → e.rename L.rename = e) :
    L.Agree (· = ·) (ofExcept r) (ofExcept r) := by
  cases r with
  | ok a => exact agree_pure rfl
  | error e =>
    have hthrow : L.Agree (· = ·) (throw e : Eval α) (throw (e.rename L.rename)) := agree_throw e
    rwa [h e rfl] at hthrow

theorem agree_operand (symbol : String) (flow : Flow) :
    L.Agree (· = ·) (operand symbol flow) (operand symbol flow) := by
  unfold operand
  cases flow.value? with
  | some v => exact agree_pure rfl
  | none => exact agree_throw (.typeMismatch symbol .missing)

theorem agree_required (slot : Slot) (flow : Flow) :
    L.Agree (· = ·) (required slot flow) (required (slot.rename L.rename) flow) := by
  unfold required
  cases flow.value? with
  | some v => exact agree_pure rfl
  | none => exact agree_throw (.malformedNode (.noValue slot))

theorem agree_ident (hx : L.seen x) : L.Agree (· = ·) (ident x) (ident (L.rename x)) := by
  intro s t hst
  unfold ident
  rw [get_bind, get_bind, hst.find?_eq hx]
  match s.find? x with
  | some (.bound v) => exact agree_pure rfl hst
  | some .unbound => exact agree_throw (.localVariableUnbound x) hst
  | none => exact agree_throw (.nameNotDefined x) hst

theorem agree_leave (v : Value) : L.Agree (· = ·) (leave v) (leave v) :=
  (agree_onTop fun _ _ hfg => hfg.returned_some v).bind_eq fun _ => agree_pure rfl

end Pieces

/-! ## Calls -/

/-- Bodies that are related are entered alike. -/
def EntersAlike (L : Likeness) (enter enter' : Entry) : Prop :=
  ∀ ⦃b b' : Tree⦄, L.body b b' → ∀ bs : List (String × Value),
    L.Agree (· = ·) (enter bs b) (enter' (bs.map (Prod.map L.rename id)) b')

theorem entersAlike_refuse (limit : Nat) : L.EntersAlike (refuse limit) (refuse limit) :=
  fun _ _ _ _ => agree_throw (.recursionLimitExceeded limit)

/-- Bodies that agree are entered alike in frames of their own. -/
theorem entersAlike_inFrame {m m' : Tree → Eval Flow}
    (h : ∀ ⦃b b'⦄, L.body b b' → L.Agree (· = ·) (m b) (m' b')) :
    L.EntersAlike (inFrame m) (inFrame m') := by
  intro b b' hb bs s t hst
  have hr := h hb (hst.push (L.frames_fresh.bindAll bs))
  unfold inFrame
  generalize m b _ = o at hr
  generalize m' b' _ = o' at hr
  cases hr with
  | ok hst' _ => exact .ok hst'.pop (by rw [hst'.top.returned])
  | error e hst' => exact .error e hst'.pop

variable {binding binding' : ResultBinding} {enter enter' : Entry} {callee : String}
  {args args' : Option (List Tree)}

/-- The result of a call is bound in both, or its name is not seen. -/
theorem agree_result (h : binding = binding' ∨ ¬ L.seen callee) (v : Value) :
    L.Agree (· = ·)
      (do
        if binding = .enabled then modify (·.onTop (·.bind callee v))
        return .normal (some v) : Eval Flow)
      (do
        if binding' = .enabled then modify (·.onTop (·.bind (L.rename callee) v))
        return .normal (some v)) := by
  by_cases hb : binding = .enabled <;> by_cases hb' : binding' = .enabled
  · rw [if_pos hb, if_pos hb']
    exact (agree_onTop fun _ _ hfg => hfg.bind callee v).bind_eq fun _ => agree_pure rfl
  · have hunseen := h.resolve_left fun heq => hb' (heq ▸ hb)
    rw [if_pos hb, if_neg hb']
    exact fun _ _ hst => .ok { hst with top := hst.top.bind_left hunseen v } rfl
  · have hunseen := h.resolve_left fun heq => hb (heq ▸ hb')
    rw [if_neg hb, if_pos hb']
    exact fun _ _ hst => .ok { hst with top := hst.top.bind_right hunseen v } rfl
  · rw [if_neg hb, if_neg hb']
    exact agree_pure rfl

/-- What two calls bind to their parameters. -/
theorem agree_bindings
    (hargs : L.Agree (· = ·) (evaluateArgs binding enter callee args)
      (evaluateArgs binding' enter' (L.rename callee) args')) :
    L.Agree (fun bs bs' => bs' = bs.map (Prod.map L.rename id))
      (bindings binding enter callee args) (bindings binding' enter' (L.rename callee) args') := by
  intro s t hst
  unfold bindings
  rw [get_bind, get_bind, hst.params?_eq]
  cases s.params? callee with
  | none => exact .ok hst rfl
  | some params =>
    refine hargs.bind_eq (fun values => ?_) hst
    rw [List.length_map]
    by_cases hlen : params.length = values.length
    · rw [if_pos hlen, if_pos hlen]
      refine agree_pure ?_
      rw [List.zip_map_left]
    · rw [if_neg hlen, if_neg hlen]
      exact agree_throw (.arityMismatch callee params.length values.length)

/-- **Two calls agree** if their arguments do, bodies are entered alike, and the results are
bound in both or not seen. -/
theorem agree_call (he : L.EntersAlike enter enter')
    (hbinding : binding = binding' ∨ ¬ L.seen callee)
    (hargs : L.Agree (· = ·) (evaluateArgs binding enter callee args)
      (evaluateArgs binding' enter' (L.rename callee) args')) :
    L.Agree (· = ·) (evaluate binding enter (.call callee args))
      (evaluate binding' enter' (.call (L.rename callee) args')) := by
  intro s t hst
  have hrel := hst.function?_rel callee
  rw [evaluate_call, evaluate_call, get_bind, get_bind]
  generalize s.function? callee = o at hrel
  generalize t.function? (L.rename callee) = o' at hrel
  cases hrel with
  | none => exact agree_throw (.nameNotDefined callee) hst
  | @some b b' hb =>
    have hresult : L.Agree (· = ·)
        (bindings binding enter callee args >>= fun bs => enter bs b)
        (bindings binding' enter' (L.rename callee) args' >>= fun bs => enter' bs b') := by
      refine (agree_bindings hargs).bind fun bs bs' hbs => ?_
      rw [hbs]
      exact he hb bs
    refine hresult.bind_eq (fun v => ?_) hst
    exact agree_result hbinding v

/-! ## Runs -/

/-- **Evaluations that agree make runs that look alike.**  They print the same and end with the
same value, or with an error of the one that is about the identifier of the other by its name in
the second program. -/
theorem run_eq_of_agree {t u : Tree} {settings settings' : Settings} {printer : Printer}
    (hfirst : L.first = printer) (hsecond : L.second = printer)
    (h : L.Agree (· = ·) (evaluateWithin settings settings.limit t)
      (evaluateWithin settings' settings'.limit u)) :
    run u settings' printer = renameEnding L.rename (run t settings printer) := by
  have hresults := h L.states_fresh
  have hprinter {s s' : State} (hs : L.States s s') : s'.printer = s.printer := by
    obtain ⟨lines, hs, hs'⟩ := hs.printer
    rw [hs, hs', hfirst, hsecond]
  rw [hfirst, hsecond] at hresults
  unfold run renameEnding
  generalize evaluateWithin settings settings.limit t _ = o at hresults ⊢
  generalize evaluateWithin settings' settings'.limit u _ = o' at hresults ⊢
  cases hresults with
  | ok hst heq =>
    cases heq
    exact Prod.ext rfl (hprinter hst)
  | error e hst => exact Prod.ext rfl (hprinter hst)

end Likeness

end Direct

end TreeWalk
