import TreeWalk.Proofs.Eval.Abreast
import TreeWalk.Proofs.Eval.Frames
import TreeWalk.Proofs.Layout.Nodes

/-!
# What a state refers to is there

A frame holds handles of values, and the numbers of bodies and of parameter lists.  A state
is *sound* if all of them belong to their stores, `State.Sound`.  In a store of nodes that is
closed, evaluation never asks for something that does not exist if it begins in a sound
state, and leaves a sound state behind (`steady_nested`, and `sound_of_ends` for single
evaluations).  Interpreters begin in a sound state, so they are in one whenever they are
between two runs (`sound_of_arrived`).

## Running alone

There is one evaluation here and not two: the pace `sound` relates a state to itself, if it is
sound.  Whether something may be asked for that does not exist, and whether evaluation may
run out of its bound, are parameters.  A statement about the bound alone needs no sound
state, and a statement about soundness alone needs no order among the nodes.
-/

namespace TreeWalk

/-! ## Maps -/

section Entries

variable {α : Type} {p q : α → Prop} {m : Std.ExtTreeMap Name α}

/-- Whatever a map has for a name satisfies a condition. -/
def Entries (p : α → Prop) (m : Std.ExtTreeMap Name α) : Prop :=
  ∀ ⦃name : Name⦄ ⦃a : α⦄, m[name]? = some a → p a

theorem entries_empty : Entries p ∅ := by
  intro name a h
  rw [Std.ExtTreeMap.getElem?_empty] at h
  cases h

theorem Entries.imp (h : Entries p m) (hpq : ∀ a, p a → q a) : Entries q m :=
  fun _ a ha => hpq a (h ha)

theorem Entries.insert (h : Entries p m) (name : Name) {a : α} (ha : p a) :
    Entries p (m.insert name a) := by
  intro n b hb
  rw [Std.ExtTreeMap.getElem?_insert] at hb
  split at hb
  · cases hb
    exact ha
  · exact h hb

theorem Entries.erase (h : Entries p m) (name : Name) : Entries p (m.erase name) := by
  intro n b hb
  rw [Std.ExtTreeMap.getElem?_erase] at hb
  split at hb
  · cases hb
  · exact h hb

end Entries

/-! ## Nodes -/

namespace NodeStore

variable {ns : NodeStore}

/-- There is a node with the given number. -/
def Has (ns : NodeStore) (id : NodeId) : Prop := ∃ n, ns.get? id = some n

theorem has_iff {id : NodeId} : ns.Has id ↔ id.index < ns.size := by
  constructor
  · rintro ⟨n, hn⟩
    exact index_lt_of_get? hn
  · intro h
    exact ⟨ns.nodes[id.index], Array.getElem?_eq_getElem h⟩

/-- Whether a store is closed can be told from its nodes. -/
theorem closed_iff : ns.Closed ↔
    ∀ n ∈ ns.nodes, (∀ c ∈ n.children, c.index < ns.size) ∧
      ∀ r ∈ n.range?, ∃ ids ∈ ns.list? r, ∀ c ∈ ids, c.index < ns.size := by
  constructor
  · intro h n hn
    obtain ⟨i, hi⟩ := Array.mem_iff_getElem?.mp hn
    have hget : ns.get? ⟨i⟩ = some n := hi
    refine ⟨fun c hc => has_iff.mp (h.child hget c hc), fun r hr => ?_⟩
    obtain ⟨ids, hids, hthere⟩ := h.items hget hr
    exact ⟨ids, hids, fun c hc => has_iff.mp (hthere c hc)⟩
  · intro h
    refine ⟨fun id n hn c hc => ?_, fun id n r hn hr => ?_⟩
    · exact has_iff.mpr ((h n (Array.mem_of_getElem? hn)).1 c hc)
    · obtain ⟨ids, hids, hlt⟩ := (h n (Array.mem_of_getElem? hn)).2 r hr
      exact ⟨ids, hids, fun c hc => has_iff.mpr (hlt c hc)⟩

instance : Decidable ns.Closed := decidable_of_iff _ closed_iff.symm

end NodeStore

/-- A node for which a rule asks is a child, or an item of a list of the node or of a
child. -/
theorem mem_asked {ctx : Context} {n : Node} {c : NodeId} (h : c ∈ ctx.asked n) :
    c ∈ n.children ∨
      (∃ r ids, n.range? = some r ∧ ctx.nodes.list? r = some ids ∧ c ∈ ids) ∨
      ∃ a ∈ n.children, ∃ m r ids, ctx.nodes.get? a = some m ∧ m.range? = some r ∧
        ctx.nodes.list? r = some ids ∧ c ∈ ids := by
  cases n with
  | suite r =>
    unfold Context.asked at h
    cases hids : ctx.nodes.list? r with
    | none => simp [hids] at h
    | some ids => exact Or.inr (Or.inl ⟨r, ids, rfl, hids, by simpa [hids] using h⟩)
  | call callee args =>
    unfold Context.asked at h
    cases ha : ctx.nodes.get? args with
    | none => simp [ha] at h
    | some m =>
      cases m with
      | paramList r =>
        cases hids : ctx.nodes.list? r with
        | none => simp [ha, hids] at h
        | some ids =>
          exact Or.inr (Or.inr ⟨args, List.mem_singleton_self _, _, r, ids, ha, rfl, hids,
            by simpa [ha, hids] using h⟩)
      | _ => simp [ha] at h
  | assign target a => exact Or.inl (List.mem_cons_of_mem _ h)
  | funcDef name params body => cases h
  | _ => exact Or.inl h

/-- In a closed store a rule asks for nodes that are there. -/
theorem NodeStore.Closed.asked {ctx : Context} (hc : ctx.nodes.Closed) {id c : NodeId} {n : Node}
    (hn : ctx.nodes.get? id = some n) (h : c ∈ ctx.asked n) : ctx.nodes.Has c := by
  -- items of a list that is there are there, whichever node has the list
  have hitems {a : NodeId} {m : Node} {r : NodeRange} {ids : List NodeId}
      (ha : ctx.nodes.get? a = some m) (hr : m.range? = some r)
      (hids : ctx.nodes.list? r = some ids) (hci : c ∈ ids) : ctx.nodes.Has c := by
    obtain ⟨ids', hids', hthere⟩ := hc.items ha hr
    cases hids.symm.trans hids'
    exact hthere c hci
  rcases mem_asked h with hch | ⟨r, ids, hr, hids, hci⟩ | ⟨a, -, m, r, ids, ha, hr, hids, hci⟩
  · exact hc.child hn c hch
  · exact hitems hn hr hids hci
  · exact hitems ha hr hids hci

/-! ## Sound states -/

/-- The handle of a binding, if it has one, lies below a bound. -/
def Binding.Below (size : Nat) (b : Binding) : Prop := ∀ i, b = .bound i → i.index < size

/-- Everything to which a frame refers is there, if there are so many values. -/
structure Frame.Sound (ns : NodeStore) (size : Nat) (f : Frame) : Prop where
  /-- Values that are bound. -/
  values : Entries (Binding.Below size) f.values
  /-- Bodies of functions. -/
  functions : Entries ns.Has f.functions
  /-- Parameter lists. -/
  params : Entries ns.Has f.params
  /-- The value of a `return`. -/
  returned : ∀ i, f.returned = some i → i.index < size

/-- Everything to which a state refers is there. -/
structure State.Sound (ns : NodeStore) (s : State) : Prop where
  /-- There is `nil`. -/
  size_pos : 0 < s.values.size
  /-- Everything to which frames refer is there. -/
  frames : ∀ f ∈ s.env.frames, f.Sound ns s.values.size

namespace Frame.Sound

variable {ns : NodeStore} {size size' : Nat} {f : Frame}

theorem fresh : Frame.fresh.Sound ns size := ⟨entries_empty, entries_empty, entries_empty, nofun⟩

theorem mono (hf : f.Sound ns size) (h : size ≤ size') : f.Sound ns size' where
  values := hf.values.imp fun _ hb i hi => Nat.lt_of_lt_of_le (hb i hi) h
  functions := hf.functions
  params := hf.params
  returned i hi := Nat.lt_of_lt_of_le (hf.returned i hi) h

theorem bind (hf : f.Sound ns size) (name : Name) {i : ValueId} (hi : i.index < size) :
    (f.bind name i).Sound ns size := by
  refine { hf with values := hf.values.insert name ?_ }
  rintro j ⟨⟩
  exact hi

theorem markUnbound (hf : f.Sound ns size) (name : Name) : (f.markUnbound name).Sound ns size :=
  { hf with values := hf.values.insert name nofun }

theorem bindFunction (hf : f.Sound ns size) (name : Name) {body : NodeId} (hb : ns.Has body) :
    (f.bindFunction name body).Sound ns size :=
  { hf with functions := hf.functions.insert name hb }

theorem bindParams (hf : f.Sound ns size) (name : Name) {list : NodeId} (hl : ns.Has list) :
    (f.bindParams name list).Sound ns size :=
  { hf with params := hf.params.insert name hl }

theorem clearParams (hf : f.Sound ns size) (name : Name) : (f.clearParams name).Sound ns size :=
  { hf with params := hf.params.erase name }

theorem signalReturn (hf : f.Sound ns size) {i : ValueId} (hi : i.index < size) :
    (f.signalReturn i).Sound ns size := by
  refine { hf with returned := ?_ }
  rintro j ⟨⟩
  exact hi

end Frame.Sound

namespace Env

variable {env : Env} {f : Frame}

/-- Popping adds no frame. -/
theorem mem_frames_of_mem_pop (h : f ∈ env.pop.frames) : f ∈ env.frames := by
  unfold pop at h
  cases hb : env.below with
  | nil =>
    rw [hb] at h
    exact h
  | cons caller rest =>
    rw [hb] at h
    exact List.mem_cons_of_mem _ (hb ▸ h)

/-- Unwinding adds no frame. -/
theorem mem_frames_of_mem_unwind (h : f ∈ env.unwind.frames) : f ∈ env.frames := by
  obtain rfl : f = _ := List.mem_singleton.mp h
  exact List.getLast_mem _

/-- The value of a name is bound in some frame. -/
theorem exists_of_resolve {name : Name} {i : ValueId} (h : env.resolve name = .ok i) :
    ∃ f ∈ env.frames, f.values[name]? = some (.bound i) := by
  unfold resolve at h
  generalize env.frames = fs at h ⊢
  induction fs with
  | nil => cases h
  | cons f rest ih =>
    unfold resolveIn at h
    split at h
    · next j hj =>
      cases h
      exact ⟨f, List.mem_cons_self .., hj⟩
    · cases h
    · obtain ⟨g, hg, hgi⟩ := ih h
      exact ⟨g, List.mem_cons_of_mem _ hg, hgi⟩

end Env

namespace State.Sound

variable {ns : NodeStore} {s : State}

theorem fresh (limit : Nat) (printer : Printer) : (State.fresh limit printer).Sound ns where
  size_pos := Nat.one_pos
  frames f hf := by
    obtain rfl : f = .fresh := List.mem_singleton.mp hf
    exact .fresh

/-- A state whose frames are among those of a sound state, with the same values. -/
theorem of_frames {env : Env} (hs : s.Sound ns) (h : ∀ f ∈ env.frames, f ∈ s.env.frames) :
    State.Sound ns { s with env := env } := ⟨hs.size_pos, fun f hf => hs.frames f (h f hf)⟩

/-- A state with another top frame, which is sound. -/
theorem of_top {f : Frame} (hs : s.Sound ns) (hf : f.Sound ns s.values.size) :
    State.Sound ns { s with env := { s.env with top := f } } := by
  refine ⟨hs.size_pos, fun g hg => ?_⟩
  rcases List.mem_cons.mp hg with rfl | hg
  · exact hf
  · exact hs.frames g (List.mem_cons_of_mem _ hg)

theorem top (hs : s.Sound ns) : s.env.top.Sound ns s.values.size :=
  hs.frames _ (List.mem_cons_self ..)

/-- Storing a value keeps a state sound. -/
theorem alloc (hs : s.Sound ns) (v : Value) : (s.write (.alloc v)).Sound ns where
  size_pos := Nat.lt_of_lt_of_le hs.size_pos (s.values.size_le_alloc v)
  frames f hf := (hs.frames f hf).mono (s.values.size_le_alloc v)

/-- Binding values that are there keeps a state sound. -/
theorem bindAll (hs : s.Sound ns) (names : List Name) {ids : List ValueId}
    (hids : ∀ i ∈ ids, i.index < s.values.size) :
    State.Sound ns { s with env := s.env.bindAll names ids } := by
  induction names generalizing s ids with
  | nil => exact hs
  | cons name rest ih =>
    cases ids with
    | nil => exact hs
    | cons i is =>
      obtain ⟨hi, his⟩ := List.forall_mem_cons.mp hids
      exact ih (s := { s with env := s.env.bind name i }) (hs.of_top (hs.top.bind name hi)) his

/-- Entering a body keeps a state sound. -/
theorem entered {env : Env} {params : List Name} {values : List ValueId} (hs : s.Sound ns)
    (hpush : s.env.push = .ok env) (hvalues : ∀ i ∈ values, i.index < s.values.size) :
    (Eval.entered s env params values).Sound ns := by
  obtain ⟨-, rfl⟩ := Env.push_eq_ok_iff.mp hpush
  have hpushed : State.Sound ns
      { s with env := { s.env with top := .fresh, below := s.env.top :: s.env.below } } := by
    refine ⟨hs.size_pos, fun f hf => ?_⟩
    rcases List.mem_cons.mp hf with rfl | hf
    · exact .fresh
    · exact hs.frames f hf
  have hbound := hpushed.bindAll params hvalues
  exact ⟨hbound.size_pos, hbound.frames⟩

end State.Sound

/-! ## The pace of a sound state -/

/-- One run from a state with `depth` frames above the global one.  If it may not dangle, the
state is sound. -/
def Pace.sound (ns : NodeStore) (dangles stalls : Prop) (limit depth : Nat) : Pace where
  rel s t := s = t ∧ t.env.limit = limit ∧ t.env.depth = depth ∧ (dangles ∨ t.Sound ns)
  good i t := dangles ∨ i.index < t.values.size
  moves t u := t.values.size ≤ u.values.size
  parts _ _ _ := False
  dangles := dangles
  stalls := stalls

namespace Eval

variable {ctx : Context} {dangles stalls : Prop} {limit depth : Nat} {s t u : State} {id : NodeId}

/-- What a rule writes keeps a state sound. -/
theorem sound_write (hd : ¬ dangles) (hc : ctx.nodes.Closed) (hs : s.Sound ctx.nodes) {w : Write}
    (hw : (Pace.sound ctx.nodes dangles stalls limit depth).Permits ctx s w) :
    (s.write w).Sound ctx.nodes := by
  cases w with
  | alloc v => exact hs.alloc v
  | bind name i => exact hs.of_top (hs.top.bind name (hw.resolve_left hd))
  | mark name => exact hs.of_top (hs.top.markUnbound name)
  | defineWith name params body =>
    obtain ⟨id, hn⟩ := hw
    have hparams := hc.child hn params (List.mem_cons_self ..)
    have hbody := hc.child hn body (by simp [Node.children])
    exact hs.of_top ((hs.top.bindFunction name hbody).bindParams name hparams)
  | defineWithout name body =>
    obtain ⟨id, params, hn⟩ := hw
    have hbody := hc.child hn body (by simp [Node.children])
    exact hs.of_top ((hs.top.bindFunction name hbody).clearParams name)
  | signal i => exact hs.of_top (hs.top.signalReturn (hw.resolve_left hd))
  | println line => exact ⟨hs.size_pos, hs.frames⟩

theorem lawful_sound (hc : dangles ∨ ctx.nodes.Closed) :
    (Pace.sound ctx.nodes dangles stalls limit depth).Lawful ctx where
  refl _ := Nat.le_refl _
  trans := Nat.le_trans
  moves_write t w := by
    cases w with
    | alloc v => exact t.values.size_le_alloc v
    | _ => exact Nat.le_refl _
  moves_entered _ _ _ := Nat.le_refl _
  moves_left _ := Nat.le_refl _
  parts_left := False.elim
  good_of_moves hi hm := hi.imp_right fun hi => Nat.lt_of_lt_of_le hi hm
  values_eq h := congrArg State.values h.1
  rel_write := by
    rintro s t w ⟨rfl, hlimit, hdepth, hs⟩ hw
    refine ⟨rfl, by rw [State.limit_write, hlimit], by rw [State.depth_write, hdepth], ?_⟩
    by_cases hd : dangles
    · exact Or.inl hd
    · exact Or.inr (sound_write hd (hc.resolve_left hd) (hs.resolve_left hd) hw)
  good_alloc v h := h.2.2.2.imp_right fun hs => ValueStore.index_alloc_lt hs.size_pos v
  good_nil h := h.2.2.2.imp_right fun hs => hs.size_pos
  exists_value _ hi := hi.imp_right fun hi => ⟨_, Array.getElem?_eq_getElem hi⟩
  resolve_eq name h := by rw [h.1]
  good_resolve h hr := by
    refine h.2.2.2.imp_right fun hs => ?_
    obtain ⟨f, hf, hfi⟩ := Env.exists_of_resolve hr
    exact (hs.frames f hf).values hfi _ rfl
  resolveFunction_eq name h := by rw [h.1]
  resolveParams_eq name h := by rw [h.1]
  exists_params h hr := by
    refine h.2.2.2.imp_right fun hs => ?_
    obtain ⟨f, hf, hfl⟩ := List.exists_of_findSome?_eq_some hr
    exact (hs.frames f hf).params hfl
  closed := hc

/-- Bodies that can be called are there. -/
theorem has_of_callable {body : NodeId}
    (h : (Pace.sound ctx.nodes dangles stalls limit depth).Callable body) :
    dangles ∨ ctx.nodes.Has body := by
  obtain ⟨s, t, name, ⟨-, -, -, hs⟩, hb⟩ := h
  refine hs.imp_right fun hs => ?_
  obtain ⟨f, hf, hfb⟩ := List.exists_of_findSome?_eq_some hb
  exact (hs.frames f hf).functions hfb

/-- A body is entered with one frame more, if there may be one, and left with as many frames
as before. -/
theorem enters_sound (params : List Name) (values : List ValueId) (body : Eval Flow) :
    Enters (Pace.sound ctx.nodes dangles stalls limit depth)
      (Pace.sound ctx.nodes dangles stalls limit (depth + 1)).rel params values body where
  enter := by
    rintro s t ⟨rfl, hlimit, hdepth, hs⟩ hvalues
    cases hpush : s.env.push with
    | error e => exact Or.inl ⟨e, rfl, rfl⟩
    | ok env =>
      refine Or.inr (Or.inl ⟨env, env, rfl, rfl, rfl, ?_, ?_, ?_⟩)
      · rw [limit_entered hpush, hlimit]
      · rw [depth_entered hpush, hdepth]
      · by_cases hd : dangles
        · exact Or.inl hd
        · exact Or.inr ((hs.resolve_left hd).entered hpush fun i hi =>
            (hvalues i hi).resolve_left hd)
  leave := by
    rintro s t es et u w - - - - - ⟨rfl, hlimit, hdepth, hu⟩
    refine ⟨⟨rfl, (Env.limit_pop _).trans hlimit, ?_, ?_⟩, rfl, fun i hi => ?_⟩
    · show u.env.pop.depth = depth
      rw [Env.depth_pop, hdepth, Nat.add_sub_cancel]
    · exact hu.imp_right fun hu => hu.of_frames fun _ => Env.mem_frames_of_mem_pop
    · exact hu.imp_right fun hu => hu.top.returned i hi

end Eval

end TreeWalk
