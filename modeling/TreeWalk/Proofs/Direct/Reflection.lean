import TreeWalk.Proofs.Direct.Simulation
import TreeWalk.Proofs.Eval.InRange
import TreeWalk.Proofs.Eval.ParameterLists
import TreeWalk.Proofs.Layout.Coverage

/-!
# States that say something

A run of a program begins in a state that says the same as a state of direct evaluation, and goes
on through states that do (`follows_eval`).  But what a failure leaves behind, and what is found
in the middle of a run, is reached in another way, and here it is shown to say something as well:
every state through which an interpreter comes matches a state of direct evaluation
(`Readable.exists_matches`).

## Reading a state

A frame can be read if its handles belong to values, its bodies stand for trees, and its lists
stand for parameters.  The first is soundness.  For the rest it is enough that every node of a
program is a list or stands for something (`Layout.Covered`), since only definitions write bodies
and lists: it does not matter which node is evaluated.  A map from names is then read entry by
entry, and no two names are read as the same string.
-/

namespace TreeWalk

namespace Direct

/-! ## Maps -/

section Maps

variable {α β : Type} {names : NameTable} {R : α → β → Prop} {m : Std.ExtTreeMap Name α}

/-- Entries of names below a bound are read, and there are none for the strings of others. -/
structure ReadBelow (names : NameTable) (R : α → β → Prop) (m : Std.ExtTreeMap Name α) (k : Nat)
    (m' : Std.ExtTreeMap String β) : Prop where
  below : ∀ ⦃n s⦄, names.Holds n s → n.index < k → Option.Rel R m[n]? m'[s]?
  above : ∀ ⦃n s⦄, names.Holds n s → k ≤ n.index → m'[s]? = none

/-- One name more is read. -/
theorem ReadBelow.exists_succ (hc : names.Consistent) (hm : Entries (fun a => ∃ b, R a b) m)
    {k : Nat} {m' : Std.ExtTreeMap String β} (h : ReadBelow names R m k m') :
    ∃ m', ReadBelow names R m (k + 1) m' := by
  by_cases hk : ∃ s a, names.Holds ⟨k⟩ s ∧ m[(⟨k⟩ : Name)]? = some a
  · obtain ⟨s, a, hs, ha⟩ := hk
    obtain ⟨b, hb⟩ := hm ha
    have hget {n : Name} {r : String} (hr : names.Holds n r) :
        (m'.insert s b)[r]? = if n.index = k then some b else m'[r]? := by
      rw [Std.ExtTreeMap.getElem?_insert]
      refine if_congr ?_ rfl rfl
      rw [Std.LawfulEqOrd.compare_eq_iff_eq, ← hc.eq_iff hs hr]
      obtain ⟨i⟩ := n
      exact ⟨fun he => (congrArg Name.index he).symm, fun he => congrArg Name.mk he.symm⟩
    refine ⟨m'.insert s b, fun n r hr hlt => ?_, fun n r hr hle => ?_⟩
    · rw [hget hr]
      by_cases he : n.index = k
      · obtain rfl : n = ⟨k⟩ := congrArg Name.mk he
        rw [if_pos rfl, ha]
        exact Option.Rel.some hb
      · rw [if_neg he]
        exact h.below hr (by omega)
    · rw [hget hr, if_neg (by omega)]
      exact h.above hr (by omega)
  · refine ⟨m', fun n r hr hlt => ?_, fun n r hr hle => h.above hr (by omega)⟩
    by_cases he : n.index = k
    · obtain rfl : n = ⟨k⟩ := congrArg Name.mk he
      have hnone : m[(⟨k⟩ : Name)]? = none :=
        Option.eq_none_iff_forall_ne_some.mpr fun a ha => hk ⟨r, a, hr, ha⟩
      rw [hnone, h.above hr (Nat.le_refl k)]
      exact Option.Rel.none
    · exact h.below hr (by omega)

/-- A map from names can be read if its entries can. -/
theorem exists_mapsAgree (hc : names.Consistent) (hm : Entries (fun a => ∃ b, R a b) m) :
    ∃ m', MapsAgree names R m m' := by
  have hread (k : Nat) : ∃ m', ReadBelow names R m k m' := by
    induction k with
    | zero => exact ⟨∅, fun _ _ _ hlt => absurd hlt (Nat.not_lt_zero _),
        fun _ _ _ _ => Std.ExtTreeMap.getElem?_empty⟩
    | succ k ih =>
      obtain ⟨m', h⟩ := ih
      exact h.exists_succ hc hm
  obtain ⟨m', h⟩ := hread names.size
  exact ⟨m', fun n s hn => h.below hn hn.index_lt⟩

end Maps

/-! ## Frames -/

variable {ctx : Context} {l : Layout} {vs : ValueStore} {f : TreeWalk.Frame}

/-- The bodies of a frame stand for trees, and its lists stand for parameters. -/
structure Written (l : Layout) (f : TreeWalk.Frame) : Prop where
  functions : Entries (fun id => ∃ t, l.Holds t id) f.functions
  params : Entries (fun id => ∃ ps, l.HoldsParams id (some ps)) f.params

/-- What definitions write can be read, whatever is evaluated. -/
theorem frameInvariant_written (hl : ctx.layout.Covered) :
    Eval.FrameInvariant ctx (fun _ => True) (Written ctx.layout) where
  asked _ _ _ := trivial
  body _ _ := trivial
  fresh := ⟨entries_empty, entries_empty⟩
  bind _ _ hf := ⟨hf.functions, hf.params⟩
  markUnbound _ hf := ⟨hf.functions, hf.params⟩
  signal _ hf := ⟨hf.functions, hf.params⟩
  defineWith := by
    intro f id name list body m _ hn hlist hne hf
    obtain ⟨params, hd⟩ := Eval.exists_defines ((hl hn).resolve_left nofun) hn
    refine ⟨hf.functions.insert name hd.body, hf.params.insert name ?_⟩
    cases params with
    | none => exact absurd (Option.some.inj (hlist.symm.trans hd.params)) hne
    | some ps => exact ⟨ps, hd.params⟩
  defineWithout := by
    intro f id name list body _ hn _ hf
    obtain ⟨params, hd⟩ := Eval.exists_defines ((hl hn).resolve_left nofun) hn
    exact ⟨hf.functions.insert name hd.body, hf.params.erase name⟩

/-- A handle below the size of a store belongs to a value. -/
theorem exists_holds {i : ValueId} (hi : i.index < vs.size) : ∃ v, vs.Holds i v :=
  ⟨vs.values[i.index], Array.getElem?_eq_getElem hi⟩

/-- A frame that is sound and whose functions can be read says something. -/
theorem exists_frameMatches (hc : l.names.Consistent) (hs : f.Sound l.nodes vs.size)
    (hw : Written l f) : ∃ g, FrameMatches l vs f g := by
  obtain ⟨values, hvalues⟩ := exists_mapsAgree (R := BindingMatches vs) hc (m := f.values) <|
    hs.values.imp fun b hb => by
      cases b with
      | bound i =>
        obtain ⟨v, hv⟩ := exists_holds (hb i rfl)
        exact ⟨.bound v, hv⟩
      | unbound => exact ⟨.unbound, trivial⟩
  obtain ⟨functions, hfunctions⟩ := exists_mapsAgree hc hw.functions
  obtain ⟨params, hparams⟩ := exists_mapsAgree hc hw.params
  obtain ⟨returned, hreturned⟩ : ∃ o, Option.Rel vs.Holds f.returned o := by
    cases hr : f.returned with
    | none => exact ⟨none, .none⟩
    | some i =>
      obtain ⟨v, hv⟩ := exists_holds (hs.returned i hr)
      exact ⟨some v, .some hv⟩
  exact ⟨⟨values, functions, params, returned⟩, hvalues, hfunctions, hparams, hreturned⟩

theorem exists_framesMatch (hc : l.names.Consistent) {fs : List TreeWalk.Frame}
    (hs : ∀ f ∈ fs, f.Sound l.nodes vs.size) (hw : ∀ f ∈ fs, Written l f) :
    ∃ gs, List.Forall₂ (FrameMatches l vs) fs gs := by
  induction fs with
  | nil => exact ⟨[], .nil⟩
  | cons f rest ih =>
    obtain ⟨hsf, hsr⟩ := List.forall_mem_cons.mp hs
    obtain ⟨hwf, hwr⟩ := List.forall_mem_cons.mp hw
    obtain ⟨g, hg⟩ := exists_frameMatches hc hsf hwf
    obtain ⟨gs, hgs⟩ := ih hsr hwr
    exact ⟨g :: gs, .cons hg hgs⟩

/-! ## States -/

/-- A state within the limit in which everything can be read. -/
structure Readable (ctx : Context) (limit : Nat) (s : TreeWalk.State) : Prop where
  /-- Everything to which the state refers is there. -/
  sound : s.Sound ctx.nodes
  /-- `nil` has its handle. -/
  nil : s.values.Holds ValueId.nil .nil
  /-- The functions of every frame can be read. -/
  written : ∀ f ∈ s.env.frames, Written ctx.layout f
  /-- The limit of the state. -/
  limit_eq : s.env.limit = limit
  /-- There are at most as many frames above the global one. -/
  depth_le : s.env.depth ≤ limit

variable {limit : Nat} {s t : TreeWalk.State} {id : NodeId}

/-- What can be read says something. -/
theorem Readable.exists_matches (hc : ctx.names.Consistent) (h : Readable ctx limit s) :
    ∃ d, Matches ctx.layout limit (limit - s.env.depth) s d := by
  obtain ⟨gs, hgs⟩ := exists_framesMatch hc h.sound.frames h.written
  cases hgs with
  | @cons _ g _ gs htop hbelow =>
    exact ⟨⟨g, gs, s.printer⟩, h.nil, htop, hbelow, rfl, h.limit_eq, Nat.add_sub_of_le h.depth_le⟩

theorem readable_fresh (ctx : Context) (limit : Nat) (printer : Printer) :
    Readable ctx limit (.fresh limit printer) where
  sound := .fresh limit printer
  nil := rfl
  written f hf := by
    obtain rfl : f = .fresh := List.mem_singleton.mp hf
    exact ⟨entries_empty, entries_empty⟩
  limit_eq := rfl
  depth_le := Nat.zero_le limit

theorem Readable.inRange (h : Readable ctx limit s) (hid : ctx.nodes.Has id) :
    Eval.InRange ctx limit id s := ⟨hid, h.sound, h.limit_eq, h.depth_le⟩

end Direct

namespace Eval

variable {ctx : Context}

/-- Values are only ever stored. -/
theorem kept_grows : Kept ctx fun s t => s.values.Grows t.values :=
  kept_values .refl .trans ValueStore.grows_alloc

/-- The functions of all frames can be read, and `nil` has its handle. -/
theorem invariant_written (hl : ctx.layout.Covered) :
    Invariant ctx (fun _ => True) fun s =>
      s.values.Holds ValueId.nil .nil ∧ ∀ f ∈ s.env.frames, Direct.Written ctx.layout f where
  asked _ _ _ := trivial
  body _ _ := trivial
  change hid hn hc h := by
    refine ⟨?_, (Direct.frameInvariant_written hl).invariant.change hid hn hc h.2⟩
    cases hc with
    | alloc _ v => exact ValueStore.grows_alloc _ v h.1
    | _ => exact h.1
  println _ h := h
  signal v h := ⟨h.1, (Direct.frameInvariant_written hl).invariant.signal v h.2⟩
  enter params values hpush h :=
    ⟨h.1, (Direct.frameInvariant_written hl).invariant.enter params values hpush h.2⟩
  leave h := ⟨h.1, (Direct.frameInvariant_written hl).invariant.leave h.2⟩

end Eval

/-- The states through which an interpreter comes: those in which its runs and evaluations begin
and end, and those in which something is evaluated on the way. -/
inductive State.Met (ctx : Context) (limit : Nat) (printer : Printer) : State → Prop where
  | fresh : Met ctx limit printer (State.fresh limit printer)
  | run {s t : State} (root : NodeId) :
    Met ctx limit printer s → (Eval.run ctx root s).state? = some t → Met ctx limit printer t
  | eval {s t : State} (id : NodeId) :
    Met ctx limit printer s → (eval ctx id s).state? = some t → Met ctx limit printer t
  | visit {s : State} {v : Visit} (id : NodeId) :
    Met ctx limit printer s → v ∈ trail ctx id s → Met ctx limit printer v.2

namespace Direct

variable {ctx : Context} {limit : Nat} {printer : Printer} {s t : TreeWalk.State} {id : NodeId}

theorem Readable.eval (hl : ctx.layout.Covered) (hc : ctx.nodes.Closed) (h : Readable ctx limit s)
    (hend : (eval ctx id s).state? = some t) : Readable ctx limit t := by
  have hin := ((h.inRange (Eval.has_of_ends hend)).reads hc).left _ t hend
  obtain ⟨hnil, hwritten⟩ := (Eval.invariant_written hl).nested hend trivial ⟨h.nil, h.written⟩
  exact ⟨hin.sound, hnil, hwritten, hin.limit_eq, hin.depth_le⟩

theorem Readable.unwind (h : Readable ctx limit s) :
    Readable ctx limit { s with env := s.env.unwind } where
  sound := h.sound.of_frames fun _ => Env.mem_frames_of_mem_unwind
  nil := h.nil
  written f hf := h.written f (Env.mem_frames_of_mem_unwind hf)
  limit_eq := h.limit_eq
  depth_le := Nat.zero_le limit

/-- The trail of something that is not there is what it would be. -/
theorem eq_of_mem_trail {v : Visit} (hid : ¬ ctx.nodes.Has id) (hv : v ∈ trail ctx id s) :
    v = (id, s) := by
  have hnone : ctx.nodes.get? id = none := Option.eq_none_iff_forall_ne_some.mpr fun n hn =>
    hid ⟨n, hn⟩
  unfold trail Eval.fuel at hv
  rw [Eval.nestedTrail, Eval.visits, hnone] at hv
  exact List.mem_singleton.mp hv

theorem Readable.visit (hl : ctx.layout.Covered) (hd : ctx.nodes.Descends)
    (h : Readable ctx limit s) {v : Visit} (hv : v ∈ trail ctx id s) :
    Readable ctx limit v.2 := by
  by_cases hid : ctx.nodes.Has id
  · obtain ⟨t, ht⟩ := Eval.eval_ends hd hid h.sound
    have hin := Eval.inRange_of_mem_nestedTrail hd.closed (h.inRange hid) v hv
    obtain ⟨-, hnil, hwritten⟩ :=
      (Eval.invariant_written hl).trail ht trivial ⟨h.nil, h.written⟩ v hv
    exact ⟨hin.sound, hnil, hwritten, hin.limit_eq, hin.depth_le⟩
  · rw [eq_of_mem_trail hid hv]
    exact h

/-- **Whatever an interpreter comes through can be read.** -/
theorem readable_of_met (hl : ctx.layout.Covered) (hd : ctx.nodes.Descends)
    (h : State.Met ctx limit printer s) : Readable ctx limit s := by
  induction h with
  | fresh => exact readable_fresh ctx limit printer
  | run root _ hrun ih =>
    obtain ⟨t, ht, rfl | ⟨-, rfl⟩⟩ := Eval.state?_run hrun
    · exact ih.eval hl hd.closed ht
    · exact (ih.eval hl hd.closed ht).unwind
  | eval id _ heval ih => exact ih.eval hl hd.closed heval
  | visit id _ hv ih => exact ih.visit hl hd hv

end Direct

end TreeWalk
