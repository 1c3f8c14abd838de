import TreeWalk.Direct.Eval
import TreeWalk.Proofs.Program
import TreeWalk.Proofs.Values

/-!
# States that say the same

A state of the evaluation of nodes refers to three stores: its frames bind names, which
stand for strings, to handles, which belong to values, and to nodes, which stand for
trees.  `Matches` relates it to the state of direct evaluation in which every reference is
replaced by what it refers to.  Both are asked about a string through some name for it, so
maps are compared by `MapsAgree` at each name that stands for a string, and nothing is said
about numbers that are no names.

The main statements are that what can be asked of matching states has matching answers,
and that whatever is written into both keeps them matching.
-/

namespace TreeWalk

namespace Direct

/-! ## Maps -/

section Maps

variable {α β : Type} {names : NameTable} {R R' : α → β → Prop}
  {m : Std.ExtTreeMap Name α} {m' : Std.ExtTreeMap String β} {n : Name} {s : String}

/-- A map from names and a map from strings have related entries. -/
def MapsAgree (names : NameTable) (R : α → β → Prop) (m : Std.ExtTreeMap Name α)
    (m' : Std.ExtTreeMap String β) : Prop :=
  ∀ ⦃n s⦄, names.Holds n s → Option.Rel R m[n]? m'[s]?

theorem mapsAgree_empty : MapsAgree names R ∅ ∅ := by
  intro n s _
  simp only [Std.ExtTreeMap.getElem?_empty]
  exact Option.Rel.none

theorem MapsAgree.imp (h : MapsAgree names R m m') (himp : ∀ a b, R a b → R' a b) :
    MapsAgree names R' m m' := by
  intro n s hn
  have hr := h hn
  revert hr
  generalize m[n]? = o, m'[s]? = o'
  rintro (h | _)
  · exact Option.Rel.some (himp _ _ h)
  · exact Option.Rel.none

/-- Two names are the same key exactly if their strings are. -/
theorem compare_eq_iff (hc : names.Consistent) (hn : names.Holds n s) {k : Name} {r : String}
    (hk : names.Holds k r) : compare n k = .eq ↔ compare s r = .eq := by
  rw [Std.LawfulEqOrd.compare_eq_iff_eq, Std.LawfulEqOrd.compare_eq_iff_eq]
  exact hc.eq_iff hn hk

theorem MapsAgree.insert (h : MapsAgree names R m m') (hc : names.Consistent)
    (hn : names.Holds n s) {a : α} {b : β} (hab : R a b) :
    MapsAgree names R (m.insert n a) (m'.insert s b) := by
  intro k r hk
  rw [Std.ExtTreeMap.getElem?_insert, Std.ExtTreeMap.getElem?_insert]
  by_cases hs : compare s r = .eq
  · rw [if_pos hs, if_pos ((compare_eq_iff hc hn hk).mpr hs)]
    exact Option.Rel.some hab
  · rw [if_neg hs, if_neg fun he => hs ((compare_eq_iff hc hn hk).mp he)]
    exact h hk

theorem MapsAgree.erase (h : MapsAgree names R m m') (hc : names.Consistent)
    (hn : names.Holds n s) : MapsAgree names R (m.erase n) (m'.erase s) := by
  intro k r hk
  rw [Std.ExtTreeMap.getElem?_erase, Std.ExtTreeMap.getElem?_erase]
  by_cases hs : compare s r = .eq
  · rw [if_pos hs, if_pos ((compare_eq_iff hc hn hk).mpr hs)]
    exact Option.Rel.none
  · rw [if_neg hs, if_neg fun he => hs ((compare_eq_iff hc hn hk).mp he)]
    exact h hk

end Maps

/-! ## Frames -/

/-- A handle or a marker means the same as a value or a marker. -/
def BindingMatches (vs : ValueStore) : TreeWalk.Binding → Binding → Prop
  | .bound id, .bound v => vs.Holds id v
  | .unbound, .unbound => True
  | _, _ => False

/-- Two frames say the same, entry by entry. -/
structure FrameMatches (l : Layout) (vs : ValueStore) (f : TreeWalk.Frame) (g : Frame) : Prop where
  /-- Values and markers. -/
  values : MapsAgree l.names (BindingMatches vs) f.values g.values
  /-- Function bodies. -/
  functions : MapsAgree l.names (fun id t => l.Holds t id) f.functions g.functions
  /-- Parameter lists. -/
  params : MapsAgree l.names (fun id ps => l.HoldsParams id (some ps)) f.params g.params
  /-- The value of a `return`. -/
  returned : Option.Rel vs.Holds f.returned g.returned

variable {l : Layout} {vs ws : ValueStore} {f : TreeWalk.Frame} {g : Frame} {n : Name}
  {name : String} {id : ValueId} {v : Value}

theorem BindingMatches.of_grows (h : vs.Grows ws) {b : TreeWalk.Binding} {c : Binding} :
    BindingMatches vs b c → BindingMatches ws b c := by
  intro hbc
  match b, c, hbc with
  | .bound _, .bound _, hbc => exact h hbc
  | .unbound, .unbound, _ => trivial

theorem rel_of_grows (h : vs.Grows ws) {o : Option ValueId} {p : Option Value} :
    Option.Rel vs.Holds o p → Option.Rel ws.Holds o p := by
  rintro (hv | _)
  · exact Option.Rel.some (h hv)
  · exact Option.Rel.none

/-- Frames keep matching when more values are stored. -/
theorem FrameMatches.of_grows (h : vs.Grows ws) (hf : FrameMatches l vs f g) :
    FrameMatches l ws f g where
  values := hf.values.imp fun _ _ => BindingMatches.of_grows h
  functions := hf.functions
  params := hf.params
  returned := rel_of_grows h hf.returned

theorem frameMatches_fresh : FrameMatches l vs .fresh .fresh where
  values := mapsAgree_empty
  functions := mapsAgree_empty
  params := mapsAgree_empty
  returned := Option.Rel.none

theorem FrameMatches.bind (hf : FrameMatches l vs f g) (hc : l.names.Consistent)
    (hn : l.names.Holds n name) (hv : vs.Holds id v) :
    FrameMatches l vs (f.bind n id) (g.bind name v) :=
  { hf with values := hf.values.insert hc hn hv }

theorem FrameMatches.markUnbound (hf : FrameMatches l vs f g) (hc : l.names.Consistent)
    (hn : l.names.Holds n name) : FrameMatches l vs (f.markUnbound n) (g.markUnbound name) :=
  { hf with values := hf.values.insert hc hn trivial }

theorem FrameMatches.signalReturn (hf : FrameMatches l vs f g) (hv : vs.Holds id v) :
    FrameMatches l vs (f.signalReturn id) { g with returned := some v } :=
  { hf with returned := Option.Rel.some hv }

/-- A definition with a parameter list replaces the list that was there. -/
theorem FrameMatches.defineWith (hf : FrameMatches l vs f g) (hc : l.names.Consistent)
    (hn : l.names.Holds n name) {list body : NodeId} {ps : List String} {t : Tree}
    (hp : l.HoldsParams list (some ps)) (hb : l.Holds t body) :
    FrameMatches l vs ((f.bindFunction n body).bindParams n list) (g.define name (some ps) t) :=
  { hf with
    functions := hf.functions.insert hc hn hb
    params := hf.params.insert hc hn hp }

/-- A definition without a parameter list forgets the list that was there. -/
theorem FrameMatches.defineWithout (hf : FrameMatches l vs f g) (hc : l.names.Consistent)
    (hn : l.names.Holds n name) {body : NodeId} {t : Tree} (hb : l.Holds t body) :
    FrameMatches l vs ((f.bindFunction n body).clearParams n) (g.define name none t) :=
  { hf with
    functions := hf.functions.insert hc hn hb
    params := hf.params.erase hc hn }

/-! ## States -/

/-- Two states say the same.  The limit is that of the run, and `room` is the number of
frames that it leaves. -/
structure Matches (l : Layout) (limit room : Nat) (s : TreeWalk.State) (d : State) : Prop where
  /-- `nil` has its handle. -/
  nil : s.values.Holds ValueId.nil .nil
  /-- The top frames match. -/
  top : FrameMatches l s.values s.env.top d.top
  /-- The frames below match one by one. -/
  below : List.Forall₂ (FrameMatches l s.values) s.env.below d.below
  /-- The same was printed. -/
  printer : s.printer = d.printer
  /-- The limit is that of the run. -/
  limit_eq : s.env.limit = limit
  /-- So many more frames may be pushed. -/
  depth_add : s.env.depth + room = limit

variable {limit room : Nat} {s : TreeWalk.State} {d : State}

theorem matches_fresh (printer : Printer) :
    Matches l limit limit (.fresh limit printer) (.fresh printer) where
  nil := rfl
  top := frameMatches_fresh
  below := List.Forall₂.nil
  printer := rfl
  limit_eq := rfl
  depth_add := Nat.zero_add limit

theorem Matches.frames (h : Matches l limit room s d) :
    List.Forall₂ (FrameMatches l s.values) s.env.frames d.frames :=
  List.Forall₂.cons h.top h.below

/-- Writing into both top frames keeps the states matching. -/
theorem Matches.onTop (h : Matches l limit room s d) {f : TreeWalk.Frame} {g : Frame}
    (hfg : FrameMatches l s.values f g) :
    Matches l limit room { s with env := { s.env with top := f } } { d with top := g } :=
  { h with top := hfg }

/-- Storing a value keeps the states matching. -/
theorem Matches.alloc (h : Matches l limit room s d) (v : Value) :
    Matches l limit room { s with values := (s.values.alloc v).2 } d :=
  have hgrow := s.values.grows_alloc v
  { h with
    nil := hgrow h.nil
    top := h.top.of_grows hgrow
    below := h.below.imp fun _ _ => FrameMatches.of_grows hgrow }

/-- Printing a line keeps the states matching. -/
theorem Matches.println (h : Matches l limit room s d) (line : String) :
    Matches l limit room { s with printer := s.printer.println line }
      { d with printer := d.printer.println line } :=
  { h with printer := congrArg (·.println line) h.printer }

/-! ## Resolution -/

/-- The answers of resolution for a value name. -/
def ResolutionMatches (vs : ValueStore) :
    Except ResolveError ValueId → Option Binding → Prop
  | .ok id, some (.bound v) => vs.Holds id v
  | .error .unbound, some .unbound => True
  | .error .notDefined, none => True
  | _, _ => False

/-- A search through lists of related entries has related results. -/
theorem forall₂_findSome? {α β γ δ : Type} {R : α → β → Prop} {Q : γ → δ → Prop}
    {p : α → Option γ} {q : β → Option δ} (hpq : ∀ a b, R a b → Option.Rel Q (p a) (q b))
    {xs : List α} {ys : List β} (h : List.Forall₂ R xs ys) :
    Option.Rel Q (xs.findSome? p) (ys.findSome? q) := by
  induction h with
  | nil => exact Option.Rel.none
  | @cons a b _ _ hab _ ih =>
    have hr := hpq a b hab
    rw [List.findSome?_cons, List.findSome?_cons]
    generalize p a = o at hr
    generalize q b = o' at hr
    rcases hr with hr | _
    · exact Option.Rel.some hr
    · exact ih

theorem resolutionMatches_resolveIn (hn : l.names.Holds n name) {fs : List TreeWalk.Frame}
    {gs : List Frame} (h : List.Forall₂ (FrameMatches l vs) fs gs) :
    ResolutionMatches vs (Env.resolveIn n fs) (gs.findSome? (·.values[name]?)) := by
  induction h with
  | nil => trivial
  | @cons f g _ _ hfg _ ih =>
    have hr := hfg.values hn
    rw [Env.resolveIn, List.findSome?_cons]
    generalize f.values[n]? = o at hr
    generalize g.values[name]? = o' at hr
    cases hr with
    | none => exact ih
    | @some b c hr =>
      match b, c, hr with
      | .bound _, .bound _, hr => exact hr
      | .unbound, .unbound, _ => trivial

/-- A name resolves to the same value or fails for the same reason. -/
theorem Matches.resolve (h : Matches l limit room s d) (hn : l.names.Holds n name) :
    ResolutionMatches s.values (s.env.resolve n) (d.find? name) :=
  resolutionMatches_resolveIn hn h.frames

/-- A name refers to the same function. -/
theorem Matches.resolveFunction (h : Matches l limit room s d) (hn : l.names.Holds n name) :
    Option.Rel (fun id t => l.Holds t id) (s.env.resolveFunction n) (d.function? name) :=
  forall₂_findSome? (fun _ _ hfg => hfg.functions hn) h.frames

/-- The same parameters are found for a name. -/
theorem Matches.resolveParams (h : Matches l limit room s d) (hn : l.names.Holds n name) :
    Option.Rel (fun id ps => l.HoldsParams id (some ps)) (s.env.resolveParams n)
      (d.params? name) :=
  forall₂_findSome? (fun _ _ hfg => hfg.params hn) h.frames

end Direct

end TreeWalk
