import TreeWalk.Proofs.Eval.InRange
import TreeWalk.Proofs.Eval.Underway

/-!
# Handles keep their values

A handle is a position in the store of values, and it may be held for long: by a frame that binds
it or has it in its return slot, and by whoever asked for the evaluation that has yielded it.  In
the meantime frames are popped, and evaluations fail.  The main statement,
`handles_permanent`, is that a handle always belongs to a value when it is held, and that it
belongs to this value from then on, for as long as the interpreter lives.

## Moments

What is held when, is told by the moments of a life (`Life`).  There is one when an evaluation
begins and one when it ends, for every evaluation on the way as well, and they are listed in the
order in which they come about.  So a statement about an earlier and a later moment in the list
speaks of all that can happen between them.

## Two halves

That stores only grow holds from any state, and it is read off the threads of an evaluation
(`timeline_moments`).  That whatever is held belongs to a value holds from states in which this is
so already.  Threads do not tell where handles come from, and a pace does (`Pace.backed`).
-/

namespace TreeWalk

/-! ## What is held -/

/-- A frame binds a handle, or has it in its return slot. -/
def Frame.Refers (f : Frame) (i : ValueId) : Prop :=
  f.returned = some i ∨ ∃ name : Name, f.values[name]? = some (.bound i)

/-- Some frame of an environment refers to a handle. -/
def Env.Refers (env : Env) (i : ValueId) : Prop := ∃ f ∈ env.frames, f.Refers i

namespace Frame

variable {f : Frame} {name : Name} {i j : ValueId}

theorem not_refers_fresh : ¬ Frame.fresh.Refers i := by
  rintro (h | ⟨name, h⟩)
  · cases h
  · rw [fresh, Std.ExtTreeMap.getElem?_empty] at h
    cases h

theorem refers_of_bind (h : (f.bind name j).Refers i) : f.Refers i ∨ i = j := by
  rcases h with h | ⟨n, h⟩
  · exact Or.inl (Or.inl h)
  · rw [bind, Std.ExtTreeMap.getElem?_insert] at h
    split at h
    · cases h
      exact Or.inr rfl
    · exact Or.inl (Or.inr ⟨n, h⟩)

theorem refers_of_markUnbound (h : (f.markUnbound name).Refers i) : f.Refers i := by
  rcases h with h | ⟨n, h⟩
  · exact Or.inl h
  · rw [markUnbound, Std.ExtTreeMap.getElem?_insert] at h
    split at h
    · cases h
    · exact Or.inr ⟨n, h⟩

theorem refers_of_signalReturn (h : (f.signalReturn j).Refers i) : f.Refers i ∨ i = j := by
  rcases h with h | h
  · exact Or.inr (Option.some.inj h).symm
  · exact Or.inl (Or.inr h)

end Frame

namespace Env

variable {env pushed : Env} {f : Frame} {i : ValueId}

theorem refers_iff : env.Refers i ↔ env.top.Refers i ∨ ∃ f ∈ env.below, f.Refers i := by
  unfold Refers frames
  simp

/-- Another top frame brings in no handles but its own. -/
theorem refers_of_top {p : Prop} (htop : f.Refers i → env.top.Refers i ∨ p)
    (h : Env.Refers { env with top := f } i) : env.Refers i ∨ p := by
  rcases refers_iff.mp h with h | h
  · exact (htop h).imp_left fun h => refers_iff.mpr (Or.inl h)
  · exact Or.inl (refers_iff.mpr (Or.inr h))

theorem refers_of_push (hpush : env.push = .ok pushed) (h : pushed.Refers i) : env.Refers i := by
  obtain ⟨-, rfl⟩ := push_eq_ok_iff.mp hpush
  exact (refers_iff.mp h).resolve_left Frame.not_refers_fresh

theorem refers_of_bindAll {names : List Name} {ids : List ValueId}
    (h : (env.bindAll names ids).Refers i) : env.Refers i ∨ i ∈ ids := by
  induction names generalizing env ids with
  | nil => exact Or.inl h
  | cons name rest ih =>
    cases ids with
    | nil => exact Or.inl h
    | cons j js =>
      rcases ih h with h | h
      · refine (refers_of_top Frame.refers_of_bind h).imp_right ?_
        rintro rfl
        exact List.mem_cons_self ..
      · exact Or.inr (List.mem_cons_of_mem _ h)

theorem refers_of_pop (h : env.pop.Refers i) : env.Refers i := by
  obtain ⟨f, hf, hi⟩ := h
  exact ⟨f, mem_frames_of_mem_pop hf, hi⟩

theorem refers_of_unwind (h : env.unwind.Refers i) : env.Refers i := by
  obtain ⟨f, hf, hi⟩ := h
  exact ⟨f, mem_frames_of_mem_unwind hf, hi⟩

end Env

/-- The frames of a state refer to handles of values, and `nil` has one handle.  Nothing is said of
nodes, so this needs no closed store of them. -/
structure State.Backed (s : State) : Prop where
  /-- `nil` belongs to its own handle and to no other. -/
  nilOnce : s.values.NilOnce
  /-- Handles to which frames refer belong to values. -/
  holds : ∀ i, s.env.Refers i → ∃ v, s.values.Holds i v

namespace State.Backed

variable {s t : State} {i : ValueId}

theorem fresh (limit : Nat) (printer : Printer) : (State.fresh limit printer).Backed where
  nilOnce := ValueStore.nilOnce_fresh
  holds i h := by
    rcases Env.refers_iff.mp h with h | ⟨f, hf, -⟩
    · exact absurd h Frame.not_refers_fresh
    · cases hf

/-- Frames may come to refer to handles of values. -/
theorem of_refers (hs : s.Backed) (hvalues : t.values = s.values)
    (h : ∀ i, t.env.Refers i → s.env.Refers i ∨ ∃ v, s.values.Holds i v) : t.Backed where
  nilOnce := hvalues ▸ hs.nilOnce
  holds i hi := by
    rw [hvalues]
    exact (h i hi).elim (hs.holds i) id

theorem alloc (hs : s.Backed) (v : Value) : (s.write (.alloc v)).Backed where
  nilOnce := hs.nilOnce.alloc v
  holds i hi := by
    obtain ⟨w, hw⟩ := hs.holds i hi
    exact ⟨w, s.values.grows_alloc v hw⟩

theorem of_top {f : Frame} (hs : s.Backed)
    (h : ∀ i, f.Refers i → s.env.top.Refers i ∨ ∃ v, s.values.Holds i v) :
    State.Backed { s with env := { s.env with top := f } } :=
  hs.of_refers rfl fun i => Env.refers_of_top (h i)

theorem entered {env : Env} {params : List Name} {values : List ValueId} (hs : s.Backed)
    (hpush : s.env.push = .ok env) (hvalues : ∀ i ∈ values, ∃ v, s.values.Holds i v) :
    (Eval.entered s env params values).Backed :=
  hs.of_refers rfl fun i hi =>
    (Env.refers_of_bindAll hi).imp (Env.refers_of_push hpush) (hvalues i)

theorem left (hs : s.Backed) : (Eval.left s).Backed :=
  hs.of_refers rfl fun _ hi => Or.inl (Env.refers_of_pop hi)

theorem unwind (hs : s.Backed) : State.Backed { s with env := s.env.unwind } :=
  hs.of_refers rfl fun _ hi => Or.inl (Env.refers_of_unwind hi)

end State.Backed

/-! ## The pace of a state in which handles have values -/

/-- One run from a state in which all that is held belongs to values. -/
def Pace.backed : Pace where
  rel s t := s = t ∧ t.Backed
  good i t := ∃ v, t.values.Holds i v
  moves t u := t.values.Begins u.values
  parts _ _ _ := False
  dangles := True
  stalls := True

namespace Eval

variable {ctx : Context} {rec : NodeId → Eval Flow} {s₀ s t u : State} {n : Node} {id : NodeId}
  {vs : List Visit} {fuel limit : Nat} {printer : Printer}

/-- Values are only ever appended. -/
theorem kept_begins : Kept ctx fun s t => s.values.Begins t.values :=
  kept_values .refl .trans ValueStore.begins_alloc

theorem backed_write (hs : s.Backed) {w : Write} (hw : Pace.backed.Permits ctx s w) :
    (s.write w).Backed := by
  cases w with
  | alloc v => exact hs.alloc v
  | bind name i =>
    refine hs.of_top fun j hj => (Frame.refers_of_bind hj).imp_right ?_
    rintro rfl
    exact hw
  | mark name => exact hs.of_top fun _ hj => Or.inl (Frame.refers_of_markUnbound hj)
  | defineWith name params body => exact hs.of_top fun _ => Or.inl
  | defineWithout name body => exact hs.of_top fun _ => Or.inl
  | signal i =>
    refine hs.of_top fun j hj => (Frame.refers_of_signalReturn hj).imp_right ?_
    rintro rfl
    exact hw
  | println line => exact hs.of_refers rfl fun _ => Or.inl

theorem lawful_backed : Pace.backed.Lawful ctx where
  refl _ := .refl _
  trans := .trans
  moves_write t w := by
    cases w with
    | alloc v => exact t.values.begins_alloc v
    | _ => exact .refl _
  moves_entered _ _ _ := .refl _
  moves_left _ := .refl _
  parts_left := False.elim
  good_of_moves := by
    rintro i t u ⟨v, hv⟩ hm
    exact ⟨v, hm.grows hv⟩
  values_eq h := congrArg State.values h.1
  rel_write := by
    rintro s t w ⟨rfl, hs⟩ hw
    exact ⟨rfl, backed_write hs hw⟩
  good_alloc v h := ⟨v, ValueStore.holds_alloc ((h.2.nilOnce .nil).mpr rfl) v⟩
  good_nil h := ⟨.nil, (h.2.nilOnce .nil).mpr rfl⟩
  exists_value _ hi := Or.inr hi
  resolve_eq name h := by rw [h.1]
  good_resolve := by
    rintro s t name i ⟨rfl, hs⟩ hi
    obtain ⟨f, hf, hfi⟩ := Env.exists_of_resolve hi
    exact hs.holds i ⟨f, hf, Or.inr ⟨name, hfi⟩⟩
  resolveFunction_eq name h := by rw [h.1]
  resolveParams_eq name h := by rw [h.1]
  exists_params _ _ := Or.inl trivial
  closed := Or.inl trivial

theorem enters_backed (params : List Name) (values : List ValueId) (body : Eval Flow) :
    Enters Pace.backed Pace.backed.rel params values body where
  enter := by
    rintro s t ⟨rfl, hs⟩ hvalues
    cases hpush : s.env.push with
    | error e => exact Or.inl ⟨e, rfl, rfl⟩
    | ok env => exact Or.inr (Or.inl ⟨env, env, rfl, rfl, rfl, hs.entered hpush hvalues⟩)
  leave := by
    rintro s t es et u w - - - - - ⟨rfl, hu⟩
    refine ⟨⟨rfl, hu.left⟩, rfl, fun i hi => ?_⟩
    exact hu.holds i (Env.refers_iff.mpr (Or.inl (Or.inl hi)))

/-- Evaluations keep the pace under every bound, whatever the nodes are. -/
theorem steady_backed (fuel : Nat) (id : NodeId) :
    Steady Pace.backed (fun _ => True) Pace.backed.GoodFlow (nested ctx fuel id) := by
  have hP : Pace.backed.Lawful ctx := lawful_backed
  refine steady_nested_of_inFrame (P := fun _ => Pace.backed) (fun _ => hP) (fun _ => trivial)
    (fun _ => trivial) ?_ fuel 0 id
  intro _ body hbody params values
  exact steady_inFrame hP hbody (enters_backed params values body)

/-- What an evaluation visits, it visits in states in which handles have values. -/
theorem backed_of_mem_visits (hs : s.Backed) :
    ∀ v ∈ visits ctx (nested ctx fuel) id s, v.2.Backed := by
  have hmeets : Pace.backed.Meets (visits ctx (nested ctx fuel) id s) :=
    meets_visits lawful_backed trivial (steady_backed fuel)
      (fun _ _ _ _ hs hgood hpush => ⟨rfl, hs.2.entered hpush hgood⟩) ⟨rfl, hs⟩ id
  exact fun v hv => (hmeets v hv).2

end Eval

/-! ## Moments -/

/-- A moment at which an evaluation begins or ends. -/
structure Moment where
  /-- The state at this moment. -/
  state : State
  /-- The handle that an evaluation yields at this moment, if it yields one. -/
  answer : Option ValueId

namespace Moment

/-- A handle is held by a frame, as a binding or in a return slot, or has just been yielded. -/
def Has (m : Moment) (i : ValueId) : Prop := m.state.env.Refers i ∨ m.answer = some i

/-- What is held belongs to values, and `nil` has one handle. -/
structure Backed (m : Moment) : Prop where
  state : m.state.Backed
  answer : ∀ i, m.answer = some i → ∃ v, m.state.values.Holds i v

theorem Backed.holds {m : Moment} (h : m.Backed) {i : ValueId} (hi : m.Has i) :
    ∃ v, m.state.values.Holds i v :=
  hi.elim (h.state.holds i) (h.answer i)

end Moment

namespace Eval

variable {ctx : Context} {rec : NodeId → Eval Flow} {s₀ s t u : State} {n : Node} {id : NodeId}
  {vs : List Visit} {fuel limit : Nat} {printer : Printer}

/-- The end of an evaluation, if it ends. -/
def ending : Outcome Flow → List Moment
  | .done flow s => [⟨s, flow.value?⟩]
  | .failed _ s => [⟨s, none⟩]
  | _ => []

/-- The beginning and the end of an evaluation, and of every evaluation on the way, in order. -/
def moments (ctx : Context) : Nat → NodeId → State → List Moment
  | 0, _, s => [⟨s, none⟩]
  | fuel + 1, id, s =>
    ⟨s, none⟩ :: (visits ctx (nested ctx fuel) id s).flatMap (fun v => moments ctx fuel v.1 v.2) ++
      ending (nested ctx (fuel + 1) id s)

theorem backed_ending (hs : s.Backed) (fuel : Nat) (id : NodeId) :
    ∀ m ∈ ending (nested ctx fuel id s), m.Backed := by
  have hsteady : Steady Pace.backed (fun _ => True) Pace.backed.GoodFlow (nested ctx fuel id) :=
    steady_backed fuel id
  have h := hsteady.abreast ⟨rfl, hs⟩ trivial
  intro m hm
  generalize nested ctx fuel id s = o at h hm
  cases h with
  | done hrel hgood =>
    obtain rfl := List.mem_singleton.mp hm
    exact ⟨hrel.2, hgood⟩
  | failed hrel =>
    obtain rfl := List.mem_singleton.mp hm
    exact ⟨hrel.2, nofun⟩
  | dangling => cases hm
  | exhausted => cases hm
  | full _ => cases hm
  | parted hparts => exact hparts.elim

/-- At every moment of an evaluation what is held belongs to values. -/
theorem backed_moments (hs : s.Backed) : ∀ m ∈ moments ctx fuel id s, m.Backed := by
  induction fuel generalizing id s with
  | zero =>
    intro m hm
    obtain rfl := List.mem_singleton.mp hm
    exact ⟨hs, nofun⟩
  | succ fuel ih =>
    intro m hm
    rcases List.mem_append.mp hm with hm | hm
    · rcases List.mem_cons.mp hm with rfl | hm
      · exact ⟨hs, nofun⟩
      · obtain ⟨v, hv, hmv⟩ := List.mem_flatMap.mp hm
        exact ih (backed_of_mem_visits hs v hv) m hmv
    · exact backed_ending hs (fuel + 1) id m hm

theorem backed_of_ends (hs : s.Backed) (h : (nested ctx fuel id s).state? = some t) : t.Backed := by
  have hsteady : Steady Pace.backed (fun _ => True) Pace.backed.GoodFlow (nested ctx fuel id) :=
    steady_backed fuel id
  exact ((hsteady.abreast ⟨rfl, hs⟩ trivial).rel (fun _ _ _ hp => hp) h h).2

/-! ## Stores grow -/

/-- From a store to another, stores only grow at the moments on the way. -/
structure Timeline (s : ValueStore) (ms : List Moment) (t : ValueStore) : Prop where
  begins : s.Begins t
  after : ∀ m ∈ ms, s.Begins m.state.values
  before : ∀ m ∈ ms, m.state.values.Begins t
  ordered : ms.Pairwise fun m m' => m.state.values.Begins m'.state.values

namespace Timeline

variable {s t u : ValueStore} {ms ms' : List Moment}

theorem nil (h : s.Begins t) : Timeline s [] t := ⟨h, by simp, by simp, .nil⟩

theorem single (m : Moment) : Timeline m.state.values [m] m.state.values :=
  ⟨.refl _, by simp [ValueStore.Begins.refl], by simp [ValueStore.Begins.refl],
    List.pairwise_singleton _ _⟩

theorem append (h : Timeline s ms t) (h' : Timeline t ms' u) : Timeline s (ms ++ ms') u where
  begins := h.begins.trans h'.begins
  after m hm := by
    rcases List.mem_append.mp hm with hm | hm
    · exact h.after m hm
    · exact h.begins.trans (h'.after m hm)
  before m hm := by
    rcases List.mem_append.mp hm with hm | hm
    · exact (h.before m hm).trans h'.begins
    · exact h'.before m hm
  ordered := by
    refine List.pairwise_append.mpr ⟨h.ordered, h'.ordered, fun m hm m' hm' => ?_⟩
    exact (h.before m hm).trans (h'.after m' hm')

theorem extend (h : Timeline s ms t) (ht : t.Begins u) : Timeline s ms u := by
  simpa using h.append (.nil ht)

end Timeline

/-- Stores grow along a thread if they do in the course of each visit. -/
theorem timeline_threads {moments : Visit → List Moment}
    (hrec : ∀ v ∈ vs, ∀ t, (rec v.1 v.2).state? = some t →
      Timeline v.2.values (moments v) t.values)
    (h : Threads ctx rec n s₀ s vs u) : Timeline s.values (vs.flatMap moments) u.values := by
  induction h with
  | refl s => exact .nil (.refl _)
  | change hc _ ih => exact (Timeline.nil (kept_begins.change hc)).append (ih hrec)
  | @visit s t u vs id _ hend _ ih =>
    obtain ⟨hfirst, hrest⟩ := List.forall_mem_cons.mp hrec
    exact (hfirst t hend).append (ih hrest)
  | @enter s t u vs callee args body env params values _ _ _ hend _ ih =>
    obtain ⟨hfirst, hrest⟩ := List.forall_mem_cons.mp hrec
    exact (hfirst t hend).append (ih hrest)

theorem timeline_ending {o : Outcome Flow} (h : o.state? = some t) :
    Timeline t.values (ending o) t.values := by
  cases o with
  | done flow u =>
    obtain rfl : u = t := Option.some.inj h
    exact .single ⟨u, flow.value?⟩
  | failed e u =>
    obtain rfl : u = t := Option.some.inj h
    exact .single ⟨u, none⟩
  | dangling => cases h
  | exhausted => cases h
  | full _ => cases h

/-- In the course of an evaluation that ends stores only grow. -/
theorem timeline_moments (h : (nested ctx fuel id s).state? = some t) :
    Timeline s.values (moments ctx fuel id s) t.values := by
  induction fuel generalizing id s t with
  | zero => cases h
  | succ fuel ih =>
    obtain ⟨n, hn⟩ := exists_node_of_ends h
    obtain ⟨u, hu, hclose⟩ := runs_step hn s h
    have hbegins : Kept ctx fun s t => s.values.Begins t.values := kept_begins
    have hvisits := timeline_threads (fun v _ t hend => ih hend) hu
    exact ((Timeline.single ⟨s, none⟩).append (hvisits.extend (hbegins.closes hclose h))).append
      (timeline_ending h)

/-! ## The life of an interpreter -/

/-- The moments of an interpreter from its beginning, and the state in which it is. -/
inductive Life (ctx : Context) (limit : Nat) (printer : Printer) : List Moment → State → Prop where
  | fresh : Life ctx limit printer [⟨.fresh limit printer, none⟩] (.fresh limit printer)
  | eval {ms : List Moment} {s t : State} (fuel : Nat) (id : NodeId) :
    Life ctx limit printer ms s → (nested ctx fuel id s).state? = some t →
    Life ctx limit printer (ms ++ moments ctx fuel id s) t
  /-- There is one moment more after a run, since a failed one is unwound. -/
  | run {ms : List Moment} {s t : State} (fuel : Nat) (root : NodeId) :
    Life ctx limit printer ms s → (runWithin ctx fuel root s).state? = some t →
    Life ctx limit printer (ms ++ moments ctx fuel root s ++ [⟨t, none⟩]) t

/-- Interpreters have a life, wherever they have arrived. -/
theorem exists_life (h : State.Arrived ctx limit printer s) :
    ∃ ms, Life ctx limit printer ms s := by
  induction h with
  | fresh => exact ⟨_, .fresh⟩
  | run fuel root _ hrun ih =>
    obtain ⟨ms, hms⟩ := ih
    exact ⟨_, .run fuel root hms hrun⟩
  | eval fuel id _ heval ih =>
    obtain ⟨ms, hms⟩ := ih
    exact ⟨_, .eval fuel id hms heval⟩

/-- What is known of an interpreter and the moments of its life. -/
structure Lived (ms : List Moment) (s : State) : Prop where
  /-- What is held now belongs to values. -/
  backed : s.Backed
  /-- What was held belonged to values. -/
  moments : ∀ m ∈ ms, m.Backed
  /-- Stores have only grown. -/
  timeline : Timeline .fresh ms s.values

namespace Lived

variable {ms : List Moment}

theorem fresh (limit : Nat) (printer : Printer) :
    Lived [⟨.fresh limit printer, none⟩] (.fresh limit printer) where
  backed := .fresh limit printer
  moments := List.forall_mem_singleton.mpr ⟨.fresh limit printer, nofun⟩
  timeline := .single ⟨.fresh limit printer, none⟩

theorem eval (h : Lived ms s) (hend : (nested ctx fuel id s).state? = some t) :
    Lived (ms ++ Eval.moments ctx fuel id s) t where
  backed := backed_of_ends h.backed hend
  moments := List.forall_mem_append.mpr ⟨h.moments, backed_moments h.backed⟩
  timeline := h.timeline.append (timeline_moments hend)

/-- Nothing happens to the values. -/
theorem concat (h : Lived ms s) (ht : t.Backed) (hvalues : t.values = s.values) :
    Lived (ms ++ [⟨t, none⟩]) t where
  backed := ht
  moments := List.forall_mem_append.mpr ⟨h.moments, List.forall_mem_singleton.mpr ⟨ht, nofun⟩⟩
  timeline := (hvalues ▸ h.timeline).append (.single ⟨t, none⟩)

theorem run (h : Lived ms s) (hend : (runWithin ctx fuel id s).state? = some t) :
    Lived (ms ++ Eval.moments ctx fuel id s ++ [⟨t, none⟩]) t := by
  obtain ⟨u, hu, rfl | ⟨-, rfl⟩⟩ := state?_runWithin hend
  · have hevaluated := h.eval hu
    exact hevaluated.concat hevaluated.backed rfl
  · have hevaluated := h.eval hu
    exact hevaluated.concat hevaluated.backed.unwind rfl

end Lived

theorem lived_of_life {ms : List Moment} (h : Life ctx limit printer ms s) : Lived ms s := by
  induction h with
  | fresh => exact .fresh limit printer
  | eval fuel id _ hend ih => exact ih.eval hend
  | run fuel root _ hend ih => exact ih.run hend

/-- Whatever is evaluated or run next only appends values, and the life goes on with it. -/
theorem Life.goes_on {ms : List Moment} (h : Life ctx limit printer ms s)
    (hend : (nested ctx fuel id s).state? = some t ∨ (runWithin ctx fuel id s).state? = some t) :
    s.values.Begins t.values ∧
      ∃ after, Life ctx limit printer (ms ++ moments ctx fuel id s ++ after) t := by
  have hbegins : Kept ctx fun s t => s.values.Begins t.values := kept_begins
  rcases hend with hend | hend
  · refine ⟨hbegins.nested hend, [], ?_⟩
    rw [List.append_nil]
    exact .eval fuel id h hend
  · refine ⟨?_, [⟨t, none⟩], .run fuel id h hend⟩
    obtain ⟨u, hu, ht⟩ := state?_runWithin hend
    have hgrown : s.values.Begins u.values := hbegins.nested hu
    rcases ht with rfl | ⟨-, rfl⟩
    · exact hgrown
    · exact hgrown

/-- **Handles keep their values.**  An interpreter has a life, wherever evaluations and runs have
taken it, and whether they went through or failed.  At each moment of it, and so now, the first
value is `nil` and no other one is, and what a frame binds or has in its return slot and what an
evaluation yields are handles of values.  From a moment to a later one values are only appended,
and a handle that is held at the first belongs to the same value at the second.  This goes on with
whatever is evaluated or run next. -/
theorem handles_permanent (ctx : Context) (limit : Nat) (printer : Printer) :
    (∀ s, State.Arrived ctx limit printer s → ∃ ms, Life ctx limit printer ms s) ∧
    ∀ ms s, Life ctx limit printer ms s →
      (∀ i, s.values.get? i = some .nil ↔ i = .nil) ∧
      (∀ i v, s.values.get? i = some v → (i = .nil ↔ v = .nil)) ∧
      (∀ i, s.env.Refers i → ∃ v, s.values.get? i = some v) ∧
      (∀ m ∈ ms, (∀ i, m.state.values.get? i = some .nil ↔ i = .nil) ∧
        m.state.values.Begins s.values ∧
        ∀ i, m.Has i → ∃ v, m.state.values.get? i = some v ∧ s.values.get? i = some v) ∧
      (ms.Pairwise fun m m' => m.state.values.Begins m'.state.values ∧
        ∀ i, m.Has i → ∃ v, m.state.values.get? i = some v ∧ m'.state.values.get? i = some v) ∧
      ∀ fuel id t,
        (nested ctx fuel id s).state? = some t ∨ (runWithin ctx fuel id s).state? = some t →
        s.values.Begins t.values ∧
          ∃ after, Life ctx limit printer (ms ++ moments ctx fuel id s ++ after) t := by
  refine ⟨fun s hs => exists_life hs, fun ms s h => ?_⟩
  have hlived := lived_of_life h
  have hread (m : Moment) (hm : m ∈ ms) (t : ValueStore) (ht : m.state.values.Begins t) :
      ∀ i, m.Has i → ∃ v, m.state.values.get? i = some v ∧ t.get? i = some v := by
    intro i hi
    obtain ⟨v, hv⟩ := (hlived.moments m hm).holds hi
    exact ⟨v, hv, ht.grows hv⟩
  refine ⟨hlived.backed.nilOnce, fun i v => hlived.backed.nilOnce.eq_nil_iff, hlived.backed.holds,
    fun m hm => ?_, ?_, fun fuel id t => h.goes_on⟩
  · have hm' := hlived.timeline.before m hm
    exact ⟨(hlived.moments m hm).state.nilOnce, hm', hread m hm s.values hm'⟩
  · refine hlived.timeline.ordered.imp_of_mem fun hm _ hbegins => ?_
    exact ⟨hbegins, hread _ hm _ hbegins⟩

/-- A program that assigns a variable, defines a function and calls it.  The body adds `nil` to a
number. -/
def failingSum : Context where
  names := ⟨#["", "f", "x"], ∅⟩
  nodes := ⟨#[.empty, .ident ⟨2⟩, .int 7, .assign ⟨1⟩ ⟨2⟩, .int 1, .nil, .binary .add ⟨4⟩ ⟨5⟩,
    .funcDef ⟨1⟩ ⟨0⟩ ⟨6⟩, .call ⟨1⟩ ⟨0⟩], #[]⟩
  resultBinding := .enabled

/-- The call fails after it has stored a value, and the variable keeps its own. -/
theorem handles_permanent_failingSum :
    ∃ ms m s t e, Life failingSum 1 .silent ms s ∧ m ∈ ms ∧ m.Has ⟨1⟩ ∧
      m.state.values.get? ⟨1⟩ = some (.int 7) ∧ run failingSum ⟨8⟩ s = .failed e t ∧
      t.values.size = 3 ∧ t.values.get? ⟨1⟩ = some (.int 7) := by
  obtain ⟨-, hlife⟩ := handles_permanent failingSum 1 .silent
  have hassigned : Life failingSum 1 .silent _ _ := .eval 2 ⟨3⟩ .fresh rfl
  have hdefined := Life.eval 1 ⟨7⟩ hassigned rfl
  have hcalled := Life.run (Eval.fuel failingSum 1) ⟨8⟩ hdefined rfl
  obtain ⟨-, -, -, hmoments, -⟩ := hlife _ _ hcalled
  let assigned : State := ((State.fresh 1 .silent).write (.alloc (.int 7))).write (.bind ⟨2⟩ ⟨1⟩)
  let m : Moment := ⟨assigned, some ⟨1⟩⟩
  have hm : m ∈ moments failingSum 2 ⟨3⟩ (State.fresh 1 .silent) :=
    List.mem_append_right _ (List.mem_singleton_self _)
  have hbefore := List.mem_append_left (moments failingSum 1 ⟨7⟩ m.state)
    (List.mem_append_right [⟨State.fresh 1 .silent, none⟩] hm)
  obtain ⟨-, -, hreads⟩ := hmoments m (List.mem_append_left _ (List.mem_append_left _ hbefore))
  obtain ⟨v, hv, hlater⟩ := hreads ⟨1⟩ (Or.inr rfl)
  obtain rfl : Value.int 7 = v := Option.some.inj hv
  exact ⟨_, m, _, _, _, hdefined, hbefore, Or.inr rfl, rfl, rfl, rfl, hlater⟩

end Eval

end TreeWalk
