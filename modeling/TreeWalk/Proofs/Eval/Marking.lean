import Mathlib.Data.List.Basic
import TreeWalk.Proofs.Eval.Rules

/-!
# Marking the names of a block

A block marks the names that its own statements assign before the first of them runs.
Whatever the statements are, that is one change of the environment, which marks a list of
names (`markAssigned_eq`): the names are those for which some statement is an assignment,
`Assigns`.

What a frame knows of a name afterwards does not depend on the order in which names are
marked, nor on what it knew before if the name is among them (`values_markAll`).
-/

namespace TreeWalk

namespace Env

/-- Mark several names as unbound in the top frame. -/
def markAll (env : Env) (names : List Name) : Env := names.foldl markUnbound env

variable {env : Env} {names : List Name} {n : Name}

@[simp] theorem markAll_cons (env : Env) (n : Name) (names : List Name) :
    env.markAll (n :: names) = (env.markUnbound n).markAll names := rfl

@[simp] theorem below_markAll (env : Env) (names : List Name) :
    (env.markAll names).below = env.below := by
  induction names generalizing env with
  | nil => rfl
  | cons n rest ih => exact ih (env.markUnbound n)

@[simp] theorem limit_markAll (env : Env) (names : List Name) :
    (env.markAll names).limit = env.limit := by
  induction names generalizing env with
  | nil => rfl
  | cons n rest ih => exact ih (env.markUnbound n)

/-- Marking leaves everything else in the top frame alone. -/
theorem top_markAll (env : Env) (names : List Name) :
    (env.markAll names).top = { env.top with values := (env.markAll names).top.values } := by
  induction names generalizing env with
  | nil => rfl
  | cons n rest ih => exact ih (env.markUnbound n)

/-- What the top frame knows of a name after several were marked. -/
theorem values_markAll (env : Env) (names : List Name) (n : Name) :
    (env.markAll names).top.values[n]? =
      if n ∈ names then some .unbound else env.top.values[n]? := by
  induction names generalizing env with
  | nil => rfl
  | cons m rest ih =>
    have hmark : (env.markUnbound m).top.values[n]? =
        if m = n then some .unbound else env.top.values[n]? := by
      simp only [markUnbound, Frame.markUnbound, Std.ExtTreeMap.getElem?_insert,
        Std.LawfulEqOrd.compare_eq_iff_eq]
    rw [markAll_cons, ih, hmark]
    by_cases hr : n ∈ rest
    · rw [if_pos hr, if_pos (List.mem_cons_of_mem m hr)]
    · rw [if_neg hr]
      by_cases hm : m = n
      · rw [if_pos hm, if_pos (hm ▸ List.mem_cons_self ..)]
      · rw [if_neg hm, if_neg (by simp [hr, Ne.symm hm])]

end Env

namespace Eval

variable {ctx : Context} {x : Name}

/-- A node is an assignment to a variable. -/
def Assigns (ctx : Context) (id : NodeId) (x : Name) : Prop :=
  ∃ target a, ctx.nodes.get? id = some (.assign target a) ∧
    ctx.nodes.get? target = some (.ident x)

/-- A node is a block, and a statement of its own assigns a variable. -/
def BlockAssigns (ctx : Context) (id : NodeId) (x : Name) : Prop :=
  ∃ r ids, ctx.nodes.get? id = some (.suite r) ∧ ctx.nodes.list? r = some ids ∧
    ∃ i ∈ ids, Assigns ctx i x

theorem Assigns.eq {id : NodeId} {x y : Name} (h : Assigns ctx id x) (h' : Assigns ctx id y) :
    x = y := by
  obtain ⟨target, a, hn, hx⟩ := h
  obtain ⟨target', a', hn', hy⟩ := h'
  cases hn.symm.trans hn'
  cases hx.symm.trans hy
  rfl

theorem not_assigns_of_ne {id : NodeId} {n : Node} (h : ctx.nodes.get? id = some n)
    (hk : n.kind ≠ .assignment) : ¬ Assigns ctx id x := by
  rintro ⟨target, a, hn, -⟩
  cases h.symm.trans hn
  exact hk rfl

/-- A statement is not there, or is an assignment whose target is not there. -/
def Unmarkable (ctx : Context) (id : NodeId) : Prop :=
  ctx.nodes.get? id = none ∨
    ∃ target a, ctx.nodes.get? id = some (.assign target a) ∧ ctx.nodes.get? target = none

theorem node_of_get?_eq_none {id : NodeId} (h : ctx.nodes.get? id = none) :
    node ctx id = dangling := by
  unfold node
  rw [h]

/-- What one statement adds to the marking for the others. -/
theorem markAssigned_cons (ctx : Context) (id : NodeId) (rest : List NodeId) :
    (Unmarkable ctx id ∧ markAssigned ctx (id :: rest) = dangling) ∨
      ∃ names, (∀ x, x ∈ names ↔ Assigns ctx id x) ∧
        markAssigned ctx (id :: rest) =
          modifyEnv (·.markAll names) >>= fun _ => markAssigned ctx rest := by
  cases hn : ctx.nodes.get? id with
  | none =>
    refine Or.inl ⟨Or.inl hn, ?_⟩
    rw [markAssigned, node_of_get?_eq_none hn]
    rfl
  | some n =>
    by_cases hk : n.kind = .assignment
    · cases n with
      | assign target a =>
        cases ht : ctx.nodes.get? target with
        | none =>
          refine Or.inl ⟨Or.inr ⟨target, a, hn, ht⟩, ?_⟩
          rw [markAssigned, node_of_get? hn, pure_bind]
          simp only [node_of_get?_eq_none ht]
          rfl
        | some m =>
          by_cases hm : ∃ x, m = .ident x
          · obtain ⟨x, rfl⟩ := hm
            have hx : Assigns ctx id x := ⟨target, a, hn, ht⟩
            refine Or.inr ⟨[x], fun y => ?_, markAssigned_cons_assign hn ht rest⟩
            rw [List.mem_singleton]
            exact ⟨fun h => h ▸ hx, fun h => h.eq hx⟩
          · refine Or.inr ⟨[], fun y => ?_, ?_⟩
            · simp only [List.not_mem_nil, false_iff]
              rintro ⟨target', a', hn', hy⟩
              cases hn.symm.trans hn'
              exact hm ⟨y, Option.some.inj (ht.symm.trans hy)⟩
            · rw [markAssigned, node_of_get? hn, pure_bind]
              simp only [node_of_get? ht, pure_bind]
              cases m with
              | ident x => exact absurd ⟨x, rfl⟩ hm
              | _ => rfl
      | _ => cases hk
    · refine Or.inr ⟨[], fun y => ?_, markAssigned_cons_of_ne hn hk rest⟩
      simp only [List.not_mem_nil, false_iff]
      exact not_assigns_of_ne hn hk

/-- **The names that a block marks.**  Marking for a list of statements asks for a node that
does not exist, or it marks exactly the names that some of the statements assign. -/
theorem markAssigned_eq (ctx : Context) (ids : List NodeId) :
    ((∃ i ∈ ids, Unmarkable ctx i) ∧ markAssigned ctx ids = dangling) ∨
      ∃ names, (∀ x, x ∈ names ↔ ∃ i ∈ ids, Assigns ctx i x) ∧
        markAssigned ctx ids = modifyEnv (·.markAll names) := by
  induction ids with
  | nil => exact Or.inr ⟨[], by simp, rfl⟩
  | cons id rest ih =>
    rcases markAssigned_cons ctx id rest with ⟨hmiss, heq⟩ | ⟨names, hnames, heq⟩
    · exact Or.inl ⟨⟨id, List.mem_cons_self .., hmiss⟩, heq⟩
    rcases ih with ⟨⟨i, hi, hmiss⟩, hrest⟩ | ⟨others, hothers, hrest⟩
    · refine Or.inl ⟨⟨i, List.mem_cons_of_mem _ hi, hmiss⟩, ?_⟩
      rw [heq, hrest]
      rfl
    · refine Or.inr ⟨names ++ others, fun x => ?_, ?_⟩
      · rw [List.mem_append, hnames, hothers, List.exists_mem_cons_iff]
      · rw [heq, hrest]
        simp only [Env.markAll, List.foldl_append]
        rfl

end Eval

end TreeWalk
