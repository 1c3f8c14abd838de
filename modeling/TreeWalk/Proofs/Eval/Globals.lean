import TreeWalk.Proofs.Eval.Frames
import TreeWalk.Proofs.Eval.Marking

/-!
# What becomes of a bound name

A name that is bound in a frame stays mentioned there, but it need not stay bound: a block that
assigns it marks it as unbound before its first statement, and may be stopped before the
assignment, by a failure or by a return.  Such a block is *cut short* (`CutShort`), and nothing
else takes a value away from a name (`bound_or_lost`).

For the global frame this means that a global is still bound after a run, whatever the run
comes to, unless a block that was evaluated in the global frame promised to assign it and was
cut short (`globals_survive`).  Nothing is assumed of the store, so a block may have itself below
it, and runs may nest as deeply as they please.

## Blocks inside blocks

An assignment that a block has completed does not settle the matter, because a block inside
it may mark the name again.  So the argument is about all blocks of a frame at once: it goes
along the visits of an evaluation, and a name that is lost in the course of a visit is lost in
the course of the evaluation.
-/

namespace TreeWalk

namespace Eval

variable {ctx : Context} {fuel : Nat} {s₀ s t u : State} {vs : List Visit} {id : NodeId} {n : Node}
  {x : Name}

/-- A name is bound to a value in the top frame. -/
def Bound (x : Name) (s : State) : Prop := ∃ i, s.env.local? x = some (.bound i)

/-- A block that assigns a name was stopped by a return or a failure, and none of its own
assignments to the name was evaluated to its end.  Below the block at most `fuel` evaluations
nest. -/
structure CutShort (ctx : Context) (fuel : Nat) (x : Name) (v : Visit) : Prop where
  /-- The block promises an assignment. -/
  assigns : BlockAssigns ctx v.1 x
  /-- The block came to an end. -/
  ends : ∃ t, (nested ctx (fuel + 1) v.1 v.2).state? = some t
  /-- The block did not go through. -/
  stopped : ∀ value t, nested ctx (fuel + 1) v.1 v.2 ≠ .done (.normal value) t
  /-- The promise was not kept. -/
  unassigned : ∀ w ∈ visits ctx (nested ctx fuel) v.1 v.2, Assigns ctx w.1 x →
    ∀ flow t, nested ctx fuel w.1 w.2 ≠ .done flow t

/-- In the course of an evaluation a block was cut short that promised to assign a name in the
frame of the evaluation. -/
def Lost (ctx : Context) (fuel : Nat) (x : Name) (v : Visit) : Prop :=
  ∃ w ∈ nestedTrail ctx fuel v.1 v.2, w.2.env.depth = v.2.env.depth ∧ ∃ n, CutShort ctx n x w

/-! ## Changes -/

/-- What the top frame knows of a name is as it was before, or the name is bound now. -/
def KeptOrBound (x : Name) (s t : State) : Prop := t.env.local? x = s.env.local? x ∨ Bound x t

theorem bound_of_keptOrBound (h : KeptOrBound x s t) (hs : Bound x s) : Bound x t := by
  rcases h with h | h
  · unfold Bound
    rw [h]
    exact hs
  · exact h

/-- A change that does not mark a name keeps what is known of it, or binds it. -/
theorem keptOrBound_of_change (h : Change ctx n s t)
    (hmark : ∀ r ids, n = .suite r → ctx.nodes.list? r = some ids → ∀ i ∈ ids, ¬ Assigns ctx i x) :
    KeptOrBound x s t := by
  have hbind (name : Name) (i : ValueId) :
      KeptOrBound x s { s with env := s.env.bind name i } := by
    by_cases hname : name = x
    · exact Or.inr ⟨i, hname ▸ Std.ExtTreeMap.getElem?_insert_self⟩
    · refine Or.inl (Std.ExtTreeMap.getElem?_insert.trans (if_neg ?_))
      rwa [Std.LawfulEqOrd.compare_eq_iff_eq]
  cases h with
  | alloc _ _ => exact Or.inl rfl
  | assign _ i _ => exact hbind _ i
  | result _ i _ => exact hbind _ i
  | @mark _ r ids i target a name hids hi hn ht =>
    refine Or.inl (Std.ExtTreeMap.getElem?_insert.trans (if_neg ?_))
    rw [Std.LawfulEqOrd.compare_eq_iff_eq]
    rintro rfl
    exact hmark r ids rfl hids i hi ⟨target, a, hn, ht⟩
  | defineWith _ _ _ => exact Or.inl rfl
  | defineWithout _ _ => exact Or.inl rfl

theorem Closes.local?_eq {o : Outcome Flow} (h : Closes n t o) (hu : o.state? = some u) :
    u.env.local? x = t.env.local? x := by
  cases h <;> cases hu <;> rfl

/-- An assignment that is done has bound its name. -/
theorem bound_of_assigns {flow : Flow} (hx : Assigns ctx id x)
    (h : nested ctx fuel id s = .done flow t) : Bound x t ∧ ∃ i, flow = .normal (some i) := by
  obtain ⟨target, a, hn, ht⟩ := hx
  cases fuel with
  | zero => cases h
  | succ fuel =>
    have hassign : assign ctx (nested ctx fuel) target a s = .done flow t := by
      rw [← h, nested, step_of_get? hn]
      rfl
    unfold assign at hassign
    rw [node_of_get? ht, pure_bind] at hassign
    obtain ⟨v, u, -, hrest⟩ := done_bind hassign
    cases hrest
    exact ⟨⟨v, Std.ExtTreeMap.getElem?_insert_self⟩, v, rfl⟩

/-! ## Visits -/

/-- What is lost in the course of a visit in the same frame is lost in the course of the
evaluation. -/
theorem lost_of_visit {v : Visit} (hv : v ∈ visits ctx (nested ctx fuel) id s)
    (hdepth : v.2.env.depth = s.env.depth) (hlost : Lost ctx fuel x v) :
    Lost ctx (fuel + 1) x (id, s) := by
  obtain ⟨w, hw, hwdepth, hcut⟩ := hlost
  refine ⟨w, ?_, hwdepth.trans hdepth, hcut⟩
  exact List.mem_append_left _ (List.mem_flatMap.mpr ⟨v, hv, hw⟩)

/-- Let something be true of a name that stays true while what is known of it is kept, and
when it is bound.  Along a thread it stays true, unless the name is lost in the course of a
visit in the same frame. -/
theorem Threads.or_lost {B : State → Prop} (hB : ∀ {s t}, KeptOrBound x s t → B s → B t)
    (h : Threads ctx (nested ctx fuel) n s₀ s vs u)
    (hmark : ∀ r ids, n = .suite r → ctx.nodes.list? r = some ids → ∀ i ∈ ids, ¬ Assigns ctx i x)
    (hrec : ∀ v ∈ vs, ∀ t, (nested ctx fuel v.1 v.2).state? = some t →
      B v.2 → B t ∨ Lost ctx fuel x v)
    (hs : B s) : B u ∨ ∃ v ∈ vs, v.2.env.depth = s.env.depth ∧ Lost ctx fuel x v := by
  induction h with
  | refl s => exact Or.inl hs
  | change hc _ ih =>
    rw [(keepsFrames_change hc).depth_eq] at ih
    exact ih hrec (hB (keptOrBound_of_change hc hmark) hs)
  | @visit s t u vs c _ hend _ ih =>
    rcases hrec (c, s) (List.mem_cons_self ..) t hend hs with ht | hlost
    · rw [(kept_keepsFrames.nested hend).depth_eq] at ih
      exact (ih (fun v hv => hrec v (List.mem_cons_of_mem _ hv)) ht).imp_right
        List.exists_mem_cons_of_exists
    · exact Or.inr ⟨_, List.mem_cons_self .., rfl, hlost⟩
  | @enter s t u vs callee args body env params values _ _ hpush hend _ ih =>
    -- the body has a frame of its own, and the caller's is back when it ends
    have hback : (left t).env = s.env := left_env_eq hpush (kept_keepsFrames.nested hend)
    have hleft : B (left t) := hB (Or.inl (by rw [hback])) hs
    rw [hback] at ih
    exact (ih (fun v hv => hrec v (List.mem_cons_of_mem _ hv)) hleft).imp_right
      List.exists_mem_cons_of_exists

/-! ## Blocks -/

/-- A list of statements stops at the first, or goes on to the others. -/
theorem statements_cons (rec : NodeId → Eval Flow) (id : NodeId) (rest : List NodeId)
    (s : State) :
    (statements rec (id :: rest) s = rec id s ∧ statementVisits rec (id :: rest) s = [(id, s)] ∧
      ∀ value t, rec id s ≠ .done (.normal value) t) ∨
    ∃ value t, rec id s = .done (.normal value) t ∧
      statements rec (id :: rest) s = statements rec rest t ∧
      statementVisits rec (id :: rest) s = (id, s) :: statementVisits rec rest t := by
  rw [statements, bind_apply, statementVisits]
  cases rec id s with
  | done flow t =>
    cases flow with
    | ret v => exact Or.inl ⟨rfl, rfl, fun _ _ h => by cases h⟩
    | normal value => exact Or.inr ⟨value, t, rfl, rfl, rfl⟩
  | failed e t => exact Or.inl ⟨rfl, rfl, fun _ _ h => by cases h⟩
  | dangling => exact Or.inl ⟨rfl, rfl, fun _ _ h => by cases h⟩
  | exhausted => exact Or.inl ⟨rfl, rfl, fun _ _ h => by cases h⟩
  | full _ => exact Or.inl ⟨rfl, rfl, fun _ _ h => by cases h⟩

/-- In the course of statements a bound name stays bound, unless it is lost. -/
theorem bound_or_lost_statements {ids : List NodeId}
    (h : (statements (nested ctx fuel) ids s).state? = some u)
    (hrec : ∀ v ∈ statementVisits (nested ctx fuel) ids s, ∀ t,
      (nested ctx fuel v.1 v.2).state? = some t → Bound x v.2 → Bound x t ∨ Lost ctx fuel x v)
    (hs : Bound x s) : Bound x u ∨ ∃ v ∈ statementVisits (nested ctx fuel) ids s,
      v.2.env.depth = s.env.depth ∧ Lost ctx fuel x v := by
  induction ids generalizing s with
  | nil =>
    cases h
    exact Or.inl hs
  | cons id rest ih =>
    rcases statements_cons (nested ctx fuel) id rest s with
      ⟨heq, hvisits, -⟩ | ⟨value, t, hdone, heq, hvisits⟩
    · rw [heq] at h
      rw [hvisits] at hrec ⊢
      exact (hrec (id, s) (List.mem_cons_self ..) u h hs).imp_right fun hlost =>
        ⟨_, List.mem_cons_self .., rfl, hlost⟩
    · rw [heq] at h
      rw [hvisits] at hrec ⊢
      have hend := state?_of_done hdone
      rcases hrec (id, s) (List.mem_cons_self ..) t hend hs with ht | hlost
      · have hrest := ih h (fun v hv => hrec v (List.mem_cons_of_mem _ hv)) ht
        rw [(kept_keepsFrames.nested hend).depth_eq] at hrest
        exact hrest.imp_right List.exists_mem_cons_of_exists
      · exact Or.inr ⟨_, List.mem_cons_self .., rfl, hlost⟩

/-- In the course of statements that assign a name it becomes bound, unless it is lost or the
statements stop before an assignment of the name is done. -/
theorem bound_or_stopped_statements {ids : List NodeId}
    (h : (statements (nested ctx fuel) ids s).state? = some u)
    (hrec : ∀ v ∈ statementVisits (nested ctx fuel) ids s, ∀ t,
      (nested ctx fuel v.1 v.2).state? = some t → Bound x v.2 → Bound x t ∨ Lost ctx fuel x v) :
    Bound x u ∨
      (∃ v ∈ statementVisits (nested ctx fuel) ids s,
        v.2.env.depth = s.env.depth ∧ Lost ctx fuel x v) ∨
      (∀ v ∈ statementVisits (nested ctx fuel) ids s, Assigns ctx v.1 x →
        ∀ flow t, nested ctx fuel v.1 v.2 ≠ .done flow t) ∧
      ((∃ i ∈ ids, Assigns ctx i x) →
        ∀ value t, statements (nested ctx fuel) ids s ≠ .done (.normal value) t) := by
  induction ids generalizing s with
  | nil => exact Or.inr (Or.inr ⟨by simp [statementVisits], by simp⟩)
  | cons id rest ih =>
    rcases statements_cons (nested ctx fuel) id rest s with
      ⟨heq, hvisits, hstop⟩ | ⟨value, t, hdone, heq, hvisits⟩
    · rw [heq, hvisits]
      refine Or.inr (Or.inr ⟨fun v hv hassigns flow t hdone => ?_, fun _ => hstop⟩)
      obtain rfl := List.mem_singleton.mp hv
      obtain ⟨-, i, rfl⟩ := bound_of_assigns hassigns hdone
      exact hstop _ _ hdone
    · rw [heq] at h ⊢
      rw [hvisits] at hrec ⊢
      have hdepth : t.env.depth = s.env.depth :=
        (kept_keepsFrames.nested (state?_of_done hdone)).depth_eq
      have hrest := fun v hv => hrec v (List.mem_cons_of_mem _ hv)
      by_cases hassigns : Assigns ctx id x
      · have hbound := bound_or_lost_statements h hrest (bound_of_assigns hassigns hdone).1
        rw [hdepth] at hbound
        exact hbound.imp_right fun hlost => Or.inl (List.exists_mem_cons_of_exists hlost)
      · have hstopped := ih h hrest
        rw [hdepth] at hstopped
        refine hstopped.imp_right (Or.imp List.exists_mem_cons_of_exists ?_)
        rintro ⟨hvs, hstop⟩
        refine ⟨List.forall_mem_cons.mpr ⟨fun h => absurd h hassigns, hvs⟩, fun hex => ?_⟩
        exact hstop ((List.exists_mem_cons_iff ..).mp hex |>.resolve_left hassigns)

/-- A block marks its names and goes through its statements. -/
theorem nested_block {r : NodeRange} {ids : List NodeId} (hn : ctx.nodes.get? id = some (.suite r))
    (hids : ctx.nodes.list? r = some ids) (h : (nested ctx (fuel + 1) id s).state? = some t) :
    ∃ names, nested ctx (fuel + 1) id s =
        statements (nested ctx fuel) ids { s with env := s.env.markAll names } ∧
      visits ctx (nested ctx fuel) id s =
        statementVisits (nested ctx fuel) ids { s with env := s.env.markAll names } := by
  have hsuite : nested ctx (fuel + 1) id s =
      (do markAssigned ctx ids; statements (nested ctx fuel) ids) s := by
    rw [nested, step_of_get? hn]
    unfold rule suite
    dsimp only
    rw [items_of_list? hids, pure_bind]
  rcases markAssigned_eq ctx ids with ⟨-, heq⟩ | ⟨names, -, heq⟩
  · rw [hsuite, heq] at h
    cases h
  · refine ⟨names, by rw [hsuite, heq]; rfl, ?_⟩
    unfold visits
    rw [hn]
    dsimp only
    rw [items_of_list? hids, pure_bind, heq]
    rfl

/-- A block that assigns a name leaves it bound, unless the name is lost. -/
theorem bound_or_lost_block (hblock : BlockAssigns ctx id x)
    (h : (nested ctx (fuel + 1) id s).state? = some t)
    (hrec : ∀ v ∈ visits ctx (nested ctx fuel) id s, ∀ t,
      (nested ctx fuel v.1 v.2).state? = some t → Bound x v.2 → Bound x t ∨ Lost ctx fuel x v) :
    Bound x t ∨ Lost ctx (fuel + 1) x (id, s) := by
  have hassigns := hblock
  obtain ⟨r, ids, hn, hids, hex⟩ := hassigns
  obtain ⟨names, heval, hvisits⟩ := nested_block hn hids h
  have hstatements := h
  rw [heval] at hstatements
  have hvisited := hrec
  rw [hvisits] at hvisited
  have hdepth : ({ s with env := s.env.markAll names } : State).env.depth = s.env.depth := by
    unfold Env.depth
    rw [Env.below_markAll]
  rcases bound_or_stopped_statements hstatements hvisited with hbound | hlost | ⟨hvs, hstop⟩
  · exact Or.inl hbound
  · obtain ⟨v, hv, hvdepth, hlost⟩ := hlost
    exact Or.inr (lost_of_visit (hvisits ▸ hv) (hvdepth.trans hdepth) hlost)
  · refine Or.inr ⟨(id, s), ?_, rfl, fuel, hblock, ⟨t, h⟩, ?_, ?_⟩
    · exact List.mem_append_right _ (List.mem_singleton_self _)
    · rw [heval]
      exact hstop hex
    · rw [hvisits]
      exact hvs

/-- What is true of a name through its visits is true of it through an evaluation that is no
block which assigns the name, unless the name is lost. -/
theorem or_lost_of_not_blockAssigns {B : State → Prop}
    (hB : ∀ {s t}, KeptOrBound x s t → B s → B t) (hblock : ¬ BlockAssigns ctx id x)
    (h : (nested ctx (fuel + 1) id s).state? = some t)
    (hrec : ∀ v ∈ visits ctx (nested ctx fuel) id s, ∀ t,
      (nested ctx fuel v.1 v.2).state? = some t → B v.2 → B t ∨ Lost ctx fuel x v)
    (hs : B s) : B t ∨ Lost ctx (fuel + 1) x (id, s) := by
  have hstep : (step ctx (nested ctx fuel) id s).state? = some t := h
  obtain ⟨n, hn⟩ := exists_node_of_ends hstep
  obtain ⟨u, hu, hclose⟩ := runs_step hn s hstep
  have hmark : ∀ r ids, n = .suite r → ctx.nodes.list? r = some ids →
      ∀ i ∈ ids, ¬ Assigns ctx i x := by
    rintro r ids rfl hids i hi hassigns
    exact hblock ⟨r, ids, hn, hids, i, hi, hassigns⟩
  rcases hu.or_lost hB hmark hrec hs with hkept | ⟨v, hv, hdepth, hlost⟩
  · exact Or.inl (hB (Or.inl (hclose.local?_eq h)) hkept)
  · exact Or.inr (lost_of_visit hv hdepth hlost)

/-- **What becomes of a bound name.**  A name that is bound before an evaluation is bound after
it, unless a block that promised to assign it in the same frame was cut short on the way. -/
theorem bound_or_lost (h : (nested ctx fuel id s).state? = some t) (hs : Bound x s) :
    Bound x t ∨ Lost ctx fuel x (id, s) := by
  induction fuel generalizing id s t with
  | zero => cases h
  | succ fuel ih =>
    by_cases hblock : BlockAssigns ctx id x
    · exact bound_or_lost_block hblock h fun _ _ _ => ih
    · exact or_lost_of_not_blockAssigns bound_of_keptOrBound hblock h (fun _ _ _ => ih) hs

/-! ## The global frame -/

/-- **Globals survive runs, up to blocks that are cut short.**  Let a name be bound in the
global frame before a run.  Whatever the run comes to, the global frame mentions the name
afterwards.  The name is bound there to some value, unless it is marked as unbound, and then a
block that was evaluated in the global frame assigns the name, and it was stopped by a return
or a failure before one of its own assignments to the name was done. -/
theorem globals_survive {limit : Nat} {printer : Printer} {root : NodeId}
    (hs : State.Arrived ctx limit printer s) (hx : ∃ i, s.env.local? x = some (.bound i))
    (h : (runWithin ctx fuel root s).state? = some t) :
    (∃ i, t.env.local? x = some (.bound i)) ∨
      t.env.local? x = some .unbound ∧
        ∃ v ∈ nestedTrail ctx fuel root s, v.2.env.depth = 0 ∧ ∃ n, CutShort ctx n x v := by
  have hdepth : s.env.depth = 0 := depth_of_arrived hs
  obtain ⟨u, hu, hlocal⟩ : ∃ u, (nested ctx fuel root s).state? = some u ∧
      t.env.local? x = u.env.local? x := by
    obtain ⟨u, hu, rfl | ⟨-, rfl⟩⟩ := state?_runWithin h
    · exact ⟨t, hu, rfl⟩
    · refine ⟨u, hu, ?_⟩
      rw [Env.unwind_of_depth_eq_zero (depth_of_arrived (.eval fuel root hs hu))]
  have hkept := kept_keepsFrames.nested hu
  rw [hlocal]
  cases hb : u.env.local? x with
  | none =>
    obtain ⟨i, hi⟩ := hx
    have hmem : x ∈ s.env.top.values :=
      Std.ExtTreeMap.mem_iff_isSome_getElem?.mpr (Option.isSome_of_eq_some hi)
    have hmem' := Std.ExtTreeMap.mem_iff_isSome_getElem?.mp (hkept.values x hmem)
    rw [show u.env.top.values[x]? = none from hb] at hmem'
    cases hmem'
  | some b =>
    cases b with
    | bound i => exact Or.inl ⟨i, rfl⟩
    | unbound =>
      refine Or.inr ⟨rfl, ?_⟩
      rcases bound_or_lost hu hx with ⟨i, hi⟩ | ⟨v, hv, hvdepth, hcut⟩
      · cases hb.symm.trans hi
      · exact ⟨v, hv, hvdepth.trans hdepth, hcut⟩

/-- Two blocks.  The first, which is the node with index 4, assigns a variable.  The second,
with index 9, reads another one, which is nowhere bound, and would then assign the same. -/
def lostGlobal : Context where
  names := ⟨#["", "x", "y"], ∅⟩
  nodes := ⟨#[.empty, .int 1, .ident ⟨1⟩, .assign ⟨2⟩ ⟨1⟩, .suite ⟨0, 1⟩, .ident ⟨2⟩, .int 2,
    .ident ⟨1⟩, .assign ⟨7⟩ ⟨6⟩, .suite ⟨1, 2⟩], #[⟨3⟩, ⟨5⟩, ⟨8⟩]⟩
  resultBinding := .enabled

/-- The second block is what takes the value away. -/
theorem globals_survive_lostGlobal :
    ∃ s t, State.Arrived lostGlobal 1 .silent s ∧ s.env.local? ⟨1⟩ = some (.bound ⟨1⟩) ∧
      (runWithin lostGlobal 3 ⟨9⟩ s).state? = some t ∧ t.env.local? ⟨1⟩ = some .unbound ∧
      ∃ v ∈ nestedTrail lostGlobal 3 ⟨9⟩ s, v.2.env.depth = 0 ∧
        ∃ n, CutShort lostGlobal n ⟨1⟩ v := by
  obtain ⟨s, t, hs, hx, ht, hy⟩ : ∃ s t, State.Arrived lostGlobal 1 .silent s ∧
      s.env.local? ⟨1⟩ = some (.bound ⟨1⟩) ∧
      (runWithin lostGlobal 3 ⟨9⟩ s).state? = some t ∧ t.env.local? ⟨1⟩ = some .unbound :=
    ⟨_, _, .run 3 ⟨4⟩ .fresh rfl, rfl, rfl, rfl⟩
  rcases globals_survive hs ⟨_, hx⟩ ht with ⟨i, hi⟩ | ⟨-, hcut⟩
  · cases hy.symm.trans hi
  · exact ⟨s, t, hs, hx, ht, hy, hcut⟩

/-- The variable is bound before the second run and marked as unbound after it. -/
theorem lostGlobal_unbound :
    ∃ s t, State.Reached lostGlobal 1 .silent s ∧ s.env.local? ⟨1⟩ = some (.bound ⟨1⟩) ∧
      run lostGlobal ⟨9⟩ s = .failed (.nameNotDefined "y") t ∧
      t.env.local? ⟨1⟩ = some .unbound :=
  ⟨_, _, .run ⟨4⟩ .fresh rfl, rfl, rfl, rfl⟩

end Eval

end TreeWalk
