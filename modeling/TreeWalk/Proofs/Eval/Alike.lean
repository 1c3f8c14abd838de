import Mathlib.Data.List.Forall2
import TreeWalk.Proofs.Eval.Abreast
import TreeWalk.Proofs.Eval.Frames

/-!
# Differences that are not noticed

Two runs may begin in different states and still come to the same, because evaluation never
looks at what is different.  `Unnoticed` is what a relation between states has to satisfy for
that.  It is a family of relations, one for each number of frames that were pushed since the two
runs began: what lies in the frames of the callers may be different in another way than what
lies in a frame that both runs have pushed.

If a relation is unnoticed, evaluations from related states end in the same way, with the same
result or the same error, in related states (`Unnoticed.nested`), and so do runs
(`Unnoticed.runWithin`).
-/

namespace TreeWalk

/-- Two evaluations end in the same way, with the same result or the same error, in related
states. -/
inductive Outcome.Alike {α : Type} (R : State → State → Prop) : Outcome α → Outcome α → Prop where
  | done {a : α} {s t : State} : R s t → Alike R (.done a s) (.done a t)
  | failed {e : EvalError} {s t : State} : R s t → Alike R (.failed e s) (.failed e t)
  | dangling : Alike R .dangling .dangling
  | exhausted : Alike R .exhausted .exhausted

theorem Outcome.Alike.imp {α : Type} {R S : State → State → Prop} {o o' : Outcome α}
    (h : o.Alike R o') (hRS : ∀ s t, R s t → S s t) : o.Alike S o' := by
  cases h with
  | done hr => exact .done (hRS _ _ hr)
  | failed hr => exact .failed (hRS _ _ hr)
  | dangling => exact .dangling
  | exhausted => exact .exhausted

/-- The pace of two runs that are to stay abreast to their end. -/
def Pace.alike (R : State → State → Prop) : Pace where
  rel := R
  good _ _ := True
  moves _ _ := True
  parts _ _ _ := False
  dangles := True
  stalls := True

namespace State

/-- The state with a frame more, in which nothing is bound yet. -/
def pushed (s : State) : State :=
  { s with
    env := { s.env with top := .fresh, below := s.env.frames }
    peak := max s.peak (s.env.depth + 1) }

end State

/-- A difference between states that evaluation does not notice, when so many frames were
pushed on both. -/
structure Unnoticed (R : Nat → State → State → Prop) : Prop where
  depth_eq : ∀ {k s t}, R k s t → s.env.depth = t.env.depth
  limit_eq : ∀ {k s t}, R k s t → s.env.limit = t.env.limit
  values_eq : ∀ {k s t}, R k s t → s.values = t.values
  /-- Variables mean the same. -/
  resolve_eq : ∀ {k s t} name, R k s t → s.env.resolve name = t.env.resolve name
  /-- Functions mean the same. -/
  resolveFunction_eq : ∀ {k s t} name, R k s t →
    s.env.resolveFunction name = t.env.resolveFunction name
  /-- Parameter lists mean the same. -/
  resolveParams_eq : ∀ {k s t} name, R k s t →
    s.env.resolveParams name = t.env.resolveParams name
  /-- What is written into both states keeps them related. -/
  write : ∀ {k s t} w, R k s t → R k (s.write w) (t.write w)
  /-- A frame is pushed on both. -/
  push : ∀ {k s t}, R k s t → R (k + 1) s.pushed t.pushed
  /-- A frame that was pushed on both has the same value of a `return`. -/
  returned_eq : ∀ {k s t}, R (k + 1) s t → s.env.top.returned = t.env.top.returned
  /-- A frame that was pushed on both is popped from both. -/
  pop : ∀ {k s t}, R (k + 1) s t → R k (Eval.left s) (Eval.left t)

namespace Eval

variable {α : Type} {ctx : Context} {R : State → State → Prop} {s t u : State}

/-- Runs that stay abreast to their end come to the same. -/
theorem Abreast.alike {post : α → State → Prop} {o o' : Outcome α}
    (h : Abreast (Pace.alike R) post o o') : o.Alike R o' := by
  cases h with
  | done hr _ => exact .done hr
  | failed hr => exact .failed hr
  | dangling _ => exact .dangling
  | exhausted _ => exact .exhausted
  | full hfills => exact hfills.elim
  | parted hparts _ => exact hparts.elim

/-- A body is entered in a frame that was pushed, in which its parameters are bound. -/
theorem entered_eq {env : Env} (h : s.env.push = .ok env) (params : List Name)
    (values : List ValueId) :
    entered s env params values = { s.pushed with env := s.pushed.env.bindAll params values } := by
  obtain ⟨-, rfl⟩ := Env.push_eq_ok_iff.mp h
  rfl

end Eval

/-- What is searched for in frames that agree on it is found in the same place. -/
theorem Env.findSome?_congr {β : Type} {R : Frame → Frame → Prop} {look : Frame → Option β}
    {fs gs : List Frame} (h : List.Forall₂ R fs gs) (hlook : ∀ f g, R f g → look f = look g) :
    fs.findSome? look = gs.findSome? look := by
  induction h with
  | nil => rfl
  | cons hfg _ ih => rw [List.findSome?_cons, List.findSome?_cons, hlook _ _ hfg, ih]

namespace Unnoticed

open Eval

variable {ctx : Context} {R : Nat → State → State → Prop} {s t : State} {k : Nat}

theorem lawful (hR : Unnoticed R) (k : Nat) : (Pace.alike (R k)).Lawful ctx where
  refl _ := trivial
  trans _ _ := trivial
  moves_write _ _ := trivial
  moves_entered _ _ _ := trivial
  moves_left _ := trivial
  parts_left := False.elim
  good_of_moves _ _ := trivial
  values_eq := hR.values_eq
  rel_write h _ := hR.write _ h
  good_alloc _ _ := trivial
  good_nil _ := trivial
  exists_value _ _ := Or.inl trivial
  resolve_eq := hR.resolve_eq
  good_resolve _ _ := trivial
  resolveFunction_eq := hR.resolveFunction_eq
  resolveParams_eq := hR.resolveParams_eq
  exists_params _ _ := Or.inl trivial
  closed := Or.inl trivial

/-- Binding the same values keeps states related. -/
theorem bindAll (hR : Unnoticed R) (h : R k s t) (names : List Name) (ids : List ValueId) :
    R k { s with env := s.env.bindAll names ids } { t with env := t.env.bindAll names ids } := by
  induction names generalizing s t ids with
  | nil => exact h
  | cons n rest ih =>
    cases ids with
    | nil => exact h
    | cons i is => exact ih (hR.write (.bind n i) h) is

/-- A body is entered in both states or in none of them, and left again. -/
theorem enters (hR : Unnoticed R) (params : List Name) (values : List ValueId)
    (body : Eval Flow) : Enters (Pace.alike (R k)) (R (k + 1)) params values body where
  enter {s t} h _ := by
    rcases Nat.lt_or_ge s.env.depth s.env.limit with hlt | hle
    · have hs := Env.push_eq_ok_iff.mpr ⟨hlt, rfl⟩
      have ht := Env.push_eq_ok_iff.mpr ⟨hR.limit_eq h ▸ hR.depth_eq h ▸ hlt, rfl⟩
      refine Or.inr (Or.inl ⟨_, _, hs, ht, ?_⟩)
      rw [entered_eq hs, entered_eq ht]
      exact hR.bindAll (hR.push h) params values
    · refine Or.inl ⟨_, Env.push_of_le hle, ?_⟩
      rw [Env.push_of_le (hR.limit_eq h ▸ hR.depth_eq h ▸ hle), hR.limit_eq h]
  leave _ _ _ _ _ h := ⟨hR.pop h, hR.returned_eq h, fun _ _ => trivial⟩

theorem steady (hR : Unnoticed R) (fuel k : Nat) (id : NodeId) :
    Steady (Pace.alike (R k)) (fun _ => True) (Pace.alike (R k)).GoodFlow
      (Eval.nested ctx fuel id) := by
  refine steady_nested_of_inFrame (P := fun k => Pace.alike (R k)) hR.lawful (fun _ => trivial)
    (fun _ => trivial) ?_ fuel k id
  intro k body hbody params values
  have hlawful : (Pace.alike (R k)).Lawful ctx := hR.lawful k
  exact steady_inFrame hlawful hbody (hR.enters params values body)

/-- **What is not noticed has no effect.**  Evaluations from related states end in the same way,
with the same flow or the same error, in related states. -/
theorem nested (hR : Unnoticed R) (h : R k s t) (fuel : Nat) (id : NodeId) :
    (Eval.nested ctx fuel id s).Alike (R k) (Eval.nested ctx fuel id t) :=
  ((hR.steady fuel k id).abreast h trivial).alike

theorem result (hR : Unnoticed R) (h : R k s t) (flow : Flow) :
    (Eval.result flow s).Alike (R k) (Eval.result flow t) := by
  unfold Eval.result
  cases flow.value? with
  | none => exact .done h
  | some i =>
    dsimp only
    rw [bind_apply, bind_apply]
    unfold value
    rw [hR.values_eq h]
    cases t.values.get? i with
    | none => exact .dangling
    | some v => exact .done h

/-- Runs from related states end in the same way too, if unwinding keeps states related. -/
theorem runWithin (hR : Unnoticed R)
    (hunwind : ∀ {s t}, R k s t →
      R k { s with env := s.env.unwind } { t with env := t.env.unwind })
    (h : R k s t) (fuel : Nat) (root : NodeId) :
    (Eval.runWithin ctx fuel root s).Alike (R k) (Eval.runWithin ctx fuel root t) := by
  have hroot : (Eval.nested ctx fuel root s).Alike (R k) (Eval.nested ctx fuel root t) :=
    hR.nested h fuel root
  unfold Eval.runWithin
  generalize Eval.nested ctx fuel root s = o at hroot
  generalize Eval.nested ctx fuel root t = o' at hroot
  cases hroot with
  | done hr => exact hR.result hr _
  | failed hr => exact .failed (hunwind hr)
  | dangling => exact .dangling
  | exhausted => exact .exhausted

end Unnoticed

end TreeWalk
