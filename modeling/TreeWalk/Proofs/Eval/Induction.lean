import TreeWalk.Proofs.Eval.Threads

/-!
# Induction on evaluations

An evaluation asks for evaluations with a smaller bound, so what is true of every thread of
true visits is true of every evaluation that ends.  There are two kinds of such statements.

* `Kept`: a relation between the states before and after.  It has to hold of each change,
  and it has to survive a call, whose body runs in a frame of its own.
* `Invariant`: a property of states, together with a property of the nodes that are
  evaluated in them.  It has to survive each change, the way into a body and the way out of
  it, and nodes have to pass theirs on.  Then everything that is visited has it.
-/

namespace TreeWalk

namespace Eval

variable {ctx : Context} {rec : NodeId → Eval Flow} {s₀ s t u : State} {vs : List Visit}
  {id : NodeId} {n : Node} {fuel : Nat}

/-! ## Evaluations that end -/

/-- A node that is evaluated to an end is there. -/
theorem exists_node_of_ends (h : (step ctx rec id s).state? = some u) :
    ∃ n, ctx.nodes.get? id = some n := by
  cases hn : ctx.nodes.get? id with
  | some n => exact ⟨n, rfl⟩
  | none =>
    rw [step_eq] at h
    unfold node at h
    rw [hn] at h
    cases h

/-- Every visit of a thread ends. -/
theorem Threads.ends (h : Threads ctx rec n s₀ s vs u) :
    ∀ v ∈ vs, ∃ t, (rec v.1 v.2).state? = some t := by
  induction h with
  | refl s =>
    intro v hv
    cases hv
  | change _ _ ih => exact ih
  | visit _ hrec _ ih =>
    intro v hv
    rcases List.mem_cons.mp hv with rfl | hv
    · exact ⟨_, hrec⟩
    · exact ih v hv
  | enter _ _ _ hrec _ ih =>
    intro v hv
    rcases List.mem_cons.mp hv with rfl | hv
    · exact ⟨_, hrec⟩
    · exact ih v hv

/-- The visits of an evaluation that ends all end. -/
theorem visits_end (h : (step ctx rec id s).state? = some u) :
    ∀ v ∈ visits ctx rec id s, ∃ t, (rec v.1 v.2).state? = some t := by
  obtain ⟨n, hn⟩ := exists_node_of_ends h
  obtain ⟨t, ht, -⟩ := runs_step hn s h
  exact ht.ends

/-! ## Relations -/

/-- A relation between states that every evaluation keeps. -/
structure Kept (ctx : Context) (R : State → State → Prop) : Prop where
  /-- Nothing happens. -/
  refl : ∀ s, R s s
  /-- One thing happens after another. -/
  trans : ∀ {s t u}, R s t → R t u → R s u
  /-- A rule changes the state. -/
  change : ∀ {n s t}, Change ctx n s t → R s t
  /-- A line is printed. -/
  println : ∀ s line, R s { s with printer := s.printer.println line }
  /-- The value of a `return` is left. -/
  signal : ∀ s v, R s { s with env := s.env.signalReturn v }
  /-- A body runs in a frame of its own. -/
  call : ∀ {s t env params values}, s.env.push = .ok env →
    R (entered s env params values) t → R s (left t)

namespace Kept

variable {R : State → State → Prop}

theorem threads (hR : Kept ctx R)
    (hrec : ∀ v ∈ vs, ∀ t, (rec v.1 v.2).state? = some t → R v.2 t)
    (h : Threads ctx rec n s₀ s vs u) : R s u := by
  induction h with
  | refl s => exact hR.refl s
  | change hc _ ih => exact hR.trans (hR.change hc) (ih hrec)
  | @visit s t u vs id _ hend _ ih =>
    have hfirst : R s t := hrec (id, s) (List.mem_cons_self ..) t hend
    exact hR.trans hfirst (ih fun v hv => hrec v (List.mem_cons_of_mem _ hv))
  | @enter s t u vs callee args body env params values _ _ hpush hend _ ih =>
    have hbody : R (entered s env params values) t :=
      hrec (body, entered s env params values) (List.mem_cons_self ..) t hend
    exact hR.trans (hR.call hpush hbody) (ih fun v hv => hrec v (List.mem_cons_of_mem _ hv))

theorem closes (hR : Kept ctx R) {o : Outcome Flow} (h : Closes n t o) (hu : o.state? = some u) :
    R t u := by
  cases h with
  | same _ _ =>
    obtain rfl : t = u := Option.some.inj hu
    exact hR.refl t
  | failed e =>
    obtain rfl : t = u := Option.some.inj hu
    exact hR.refl t
  | print line =>
    obtain rfl := Option.some.inj hu
    exact hR.println t line
  | ret v =>
    obtain rfl := Option.some.inj hu
    exact hR.signal t v

/-- A relation that is kept relates the states before and after an evaluation. -/
theorem nested (hR : Kept ctx R) (h : (nested ctx fuel id s).state? = some u) : R s u := by
  induction fuel generalizing id s u with
  | zero => cases h
  | succ fuel ih =>
    obtain ⟨n, hn⟩ := exists_node_of_ends h
    obtain ⟨t, ht, hclose⟩ := runs_step hn s h
    exact hR.trans (hR.threads (fun v _ t hend => ih hend) ht) (hR.closes hclose h)

theorem eval (hR : Kept ctx R) (h : (eval ctx id s).state? = some u) : R s u := hR.nested h

end Kept

/-- A relation between stores of values is kept, if storing a value keeps it. -/
theorem kept_values {R : ValueStore → ValueStore → Prop} (hrefl : ∀ s, R s s)
    (htrans : ∀ {s t u}, R s t → R t u → R s u) (halloc : ∀ s v, R s (s.alloc v).2) :
    Kept ctx fun s t => R s.values t.values where
  refl s := hrefl s.values
  trans := htrans
  change h := by
    cases h with
    | alloc _ v => exact halloc _ v
    | _ => exact hrefl _
  println s _ := hrefl s.values
  signal s _ := hrefl s.values
  call _ h := h

/-- Evaluation does not shrink the store of values. -/
theorem kept_size : Kept ctx fun s t => s.values.size ≤ t.values.size :=
  kept_values (R := fun s t => s.size ≤ t.size) (fun _ => Nat.le_refl _) Nat.le_trans
    ValueStore.size_le_alloc

/-- What is kept between stores is kept from the end of each visit on. -/
theorem values_of_mem_threads {R : ValueStore → ValueStore → Prop}
    (hR : Kept ctx fun s t => R s.values t.values)
    (hrec : ∀ v ∈ vs, ∀ t, (rec v.1 v.2).state? = some t → R v.2.values t.values)
    (h : Threads ctx rec n s₀ s vs u) :
    ∀ v ∈ vs, ∀ t, (rec v.1 v.2).state? = some t → R t.values u.values := by
  induction h with
  | refl s =>
    intro v hv
    cases hv
  | change _ _ ih => exact ih hrec
  | @visit s t u vs id _ hend hrest ih =>
    obtain ⟨-, hvs⟩ := List.forall_mem_cons.mp hrec
    refine List.forall_mem_cons.mpr ⟨fun t' ht' => ?_, ih hvs⟩
    obtain rfl : t = t' := Option.some.inj (hend.symm.trans ht')
    exact hR.threads hvs hrest
  | @enter s t u vs callee args body env params values _ _ _ hend hrest ih =>
    obtain ⟨-, hvs⟩ := List.forall_mem_cons.mp hrec
    refine List.forall_mem_cons.mpr ⟨fun t' ht' => ?_, ih hvs⟩
    obtain rfl : t = t' := Option.some.inj (hend.symm.trans ht')
    have hleft : R (left t).values u.values := hR.threads hvs hrest
    exact hleft

/-! ## Invariants -/

/-- A property of the nodes that are evaluated and a property of the states in which they
are, which every evaluation preserves. -/
structure Invariant (ctx : Context) (P : NodeId → Prop) (I : State → Prop) : Prop where
  /-- A node passes its property on to the nodes for which it asks. -/
  asked : ∀ {id n c}, P id → ctx.nodes.get? id = some n → c ∈ ctx.asked n → P c
  /-- The body of a function has the property. -/
  body : ∀ {s name body}, I s → s.env.resolveFunction name = some body → P body
  /-- A rule changes the state. -/
  change : ∀ {id n s t}, P id → ctx.nodes.get? id = some n → Change ctx n s t → I s → I t
  /-- A line is printed. -/
  println : ∀ {s} line, I s → I { s with printer := s.printer.println line }
  /-- The value of a `return` is left. -/
  signal : ∀ {s} v, I s → I { s with env := s.env.signalReturn v }
  /-- A body is entered. -/
  enter : ∀ {s env} params values, s.env.push = .ok env → I s → I (entered s env params values)
  /-- A body is left. -/
  leave : ∀ {s}, I s → I (left s)

namespace Invariant

variable {P : NodeId → Prop} {I : State → Prop}

theorem threads (hI : Invariant ctx P I) (hid : P id) (hn : ctx.nodes.get? id = some n)
    (h₀ : I s₀)
    (hrec : ∀ v ∈ vs, P v.1 → I v.2 → ∀ t, (rec v.1 v.2).state? = some t → I t)
    (h : Threads ctx rec n s₀ s vs u) (hs : I s) : I u ∧ ∀ v ∈ vs, P v.1 ∧ I v.2 := by
  induction h with
  | refl s => exact ⟨hs, by simp⟩
  | change hc _ ih => exact ih hrec (hI.change hid hn hc hs)
  | @visit s t u vs c hasked hend _ ih =>
    have hc : P c := hI.asked hid hn hasked
    have ht : I t := hrec (c, s) (List.mem_cons_self ..) hc hs t hend
    obtain ⟨hu, hvs⟩ := ih (fun v hv => hrec v (List.mem_cons_of_mem _ hv)) ht
    exact ⟨hu, List.forall_mem_cons.mpr ⟨⟨hc, hs⟩, hvs⟩⟩
  | @enter s t u vs callee args body env params values _ hbody hpush hend _ ih =>
    have hb : P body := hI.body h₀ hbody
    have hin : I (entered s env params values) := hI.enter params values hpush hs
    have ht : I t :=
      hrec (body, entered s env params values) (List.mem_cons_self ..) hb hin t hend
    obtain ⟨hu, hvs⟩ := ih (fun v hv => hrec v (List.mem_cons_of_mem _ hv)) (hI.leave ht)
    exact ⟨hu, List.forall_mem_cons.mpr ⟨⟨hb, hin⟩, hvs⟩⟩

theorem closes (hI : Invariant ctx P I) {o : Outcome Flow} (h : Closes n t o)
    (hu : o.state? = some u) (ht : I t) : I u := by
  cases h with
  | same _ _ =>
    obtain rfl : t = u := Option.some.inj hu
    exact ht
  | failed e =>
    obtain rfl : t = u := Option.some.inj hu
    exact ht
  | print line =>
    obtain rfl := Option.some.inj hu
    exact hI.println line ht
  | ret v =>
    obtain rfl := Option.some.inj hu
    exact hI.signal v ht

/-- An evaluation that ends preserves an invariant. -/
theorem nested (hI : Invariant ctx P I) (h : (nested ctx fuel id s).state? = some u) (hid : P id)
    (hs : I s) : I u := by
  induction fuel generalizing id s u with
  | zero => cases h
  | succ fuel ih =>
    obtain ⟨n, hn⟩ := exists_node_of_ends h
    obtain ⟨t, ht, hclose⟩ := runs_step hn s h
    obtain ⟨hinv, -⟩ := hI.threads hid hn hs (fun v _ hv hvs t hend => ih hend hv hvs) ht hs
    exact hI.closes hclose h hinv

/-- The visits of an evaluation that ends have the invariant. -/
theorem visits (hI : Invariant ctx P I) (h : (step ctx rec id s).state? = some u) (hid : P id)
    (hs : I s) (hrec : ∀ v ∈ visits ctx rec id s, P v.1 → I v.2 →
      ∀ t, (rec v.1 v.2).state? = some t → I t) :
    ∀ v ∈ visits ctx rec id s, P v.1 ∧ I v.2 := by
  obtain ⟨n, hn⟩ := exists_node_of_ends h
  obtain ⟨t, ht, -⟩ := runs_step hn s h
  exact (hI.threads hid hn hs hrec ht hs).2

end Invariant

/-! ## Invariants of frames -/

/-- A property of nodes and a property of frames, which every evaluation preserves. -/
structure FrameInvariant (ctx : Context) (P : NodeId → Prop) (J : Frame → Prop) : Prop where
  /-- A node passes its property on to the nodes for which it asks. -/
  asked : ∀ {id n c}, P id → ctx.nodes.get? id = some n → c ∈ ctx.asked n → P c
  /-- The body of a function has the property. -/
  body : ∀ {f} {name : Name} {body}, J f → f.functions[name]? = some body → P body
  /-- Frames begin without bindings. -/
  fresh : J .fresh
  /-- A name is bound. -/
  bind : ∀ {f} name i, J f → J (f.bind name i)
  /-- A name is marked as unbound. -/
  markUnbound : ∀ {f} name, J f → J (f.markUnbound name)
  /-- The value of a `return` is left. -/
  signal : ∀ {f} v, J f → J (f.signalReturn v)
  /-- A function with a parameter list is defined. -/
  defineWith : ∀ {f id name params body m}, P id →
    ctx.nodes.get? id = some (.funcDef name params body) → ctx.nodes.get? params = some m →
    m ≠ .empty → J f → J ((f.bindFunction name body).bindParams name params)
  /-- A function without a parameter list is defined. -/
  defineWithout : ∀ {f id name params body}, P id →
    ctx.nodes.get? id = some (.funcDef name params body) →
    ctx.nodes.get? params = some .empty → J f → J ((f.bindFunction name body).clearParams name)

namespace FrameInvariant

variable {P : NodeId → Prop} {J : Frame → Prop} {env : Env}

theorem forall_frames_iff : (∀ f ∈ env.frames, J f) ↔ J env.top ∧ ∀ f ∈ env.below, J f :=
  List.forall_mem_cons

theorem bindAll (hJ : FrameInvariant ctx P J) (names : List Name) (ids : List ValueId)
    (h : ∀ f ∈ env.frames, J f) : ∀ f ∈ (env.bindAll names ids).frames, J f := by
  induction names generalizing env ids with
  | nil => exact h
  | cons name rest ih =>
    cases ids with
    | nil => exact h
    | cons i is =>
      obtain ⟨htop, hbelow⟩ := forall_frames_iff.mp h
      exact ih is (forall_frames_iff.mpr ⟨hJ.bind name i htop, hbelow⟩)

/-- What every frame of a state has is an invariant of states. -/
theorem invariant (hJ : FrameInvariant ctx P J) :
    Invariant ctx P fun s => ∀ f ∈ s.env.frames, J f where
  asked := hJ.asked
  body h hb := by
    obtain ⟨f, hf, hfb⟩ := List.exists_of_findSome?_eq_some hb
    exact hJ.body (h f hf) hfb
  change hid hn hc h := by
    obtain ⟨htop, hbelow⟩ := forall_frames_iff.mp h
    cases hc with
    | alloc _ v => exact h
    | assign _ i _ => exact forall_frames_iff.mpr ⟨hJ.bind _ i htop, hbelow⟩
    | result _ i _ => exact forall_frames_iff.mpr ⟨hJ.bind _ i htop, hbelow⟩
    | mark _ _ _ _ _ => exact forall_frames_iff.mpr ⟨hJ.markUnbound _ htop, hbelow⟩
    | defineWith _ hp hne =>
      exact forall_frames_iff.mpr ⟨hJ.defineWith hid hn hp hne htop, hbelow⟩
    | defineWithout _ hp => exact forall_frames_iff.mpr ⟨hJ.defineWithout hid hn hp htop, hbelow⟩
  println _ h := h
  signal v h := by
    obtain ⟨htop, hbelow⟩ := forall_frames_iff.mp h
    exact forall_frames_iff.mpr ⟨hJ.signal v htop, hbelow⟩
  enter {s env} params values hpush h := by
    refine hJ.bindAll params values ?_
    unfold Env.push at hpush
    by_cases hlt : s.env.depth < s.env.limit
    · rw [if_pos hlt] at hpush
      cases hpush
      exact forall_frames_iff.mpr ⟨hJ.fresh, h⟩
    · rw [if_neg hlt] at hpush
      cases hpush
  leave {s} h := by
    show ∀ f ∈ s.env.pop.frames, J f
    unfold Env.pop
    cases hb : s.env.below with
    | nil => exact h
    | cons caller rest =>
      have hbelow := (forall_frames_iff.mp h).2
      rw [hb] at hbelow
      exact hbelow

end FrameInvariant

end Eval

end TreeWalk
