import TreeWalk.EvalError
import TreeWalk.Tree

/-!
# Renaming identifiers

A renaming replaces every identifier of a tree: variables, targets of assignments, names
of functions, parameters, and callees.  In an error it replaces the identifier that the
error is about, which a complaint about an argument names too.
-/

namespace TreeWalk

namespace Tree

mutual

/-- Replace every identifier. -/
def rename (r : String → String) : Tree → Tree
  | ident name => ident (r name)
  | int n => int n
  | float x => float x
  | nil => nil
  | unary op operand => unary op (operand.rename r)
  | binary op left right => binary op (left.rename r) (right.rename r)
  | assign target value => assign (r target) (value.rename r)
  | print argument => print (renameOption r argument)
  | cond test thenBranch elseBranch =>
    cond (test.rename r) (thenBranch.rename r) (renameOption r elseBranch)
  | suite statements => suite (renameList r statements)
  | funcDef name params body => funcDef (r name) (params.map (·.map r)) (body.rename r)
  | call callee args => call (r callee) (renameArgs r args)
  | ret value => ret (renameOption r value)

/-- Rename in a child that may be absent. -/
def renameOption (r : String → String) : Option Tree → Option Tree
  | none => none
  | some t => some (t.rename r)

/-- Rename in all trees of a list. -/
def renameList (r : String → String) : List Tree → List Tree
  | [] => []
  | t :: rest => t.rename r :: renameList r rest

/-- Rename in arguments that may be absent. -/
def renameArgs (r : String → String) : Option (List Tree) → Option (List Tree)
  | none => none
  | some ts => some (renameList r ts)

end

mutual

/-- A tree whose identifiers stay what they are. -/
theorem rename_id : ∀ t : Tree, t.rename id = t
  | ident _ | int _ | float _ | nil => rfl
  | unary op a => by rw [rename, rename_id a]
  | binary op a b => by rw [rename, rename_id a, rename_id b]
  | assign target value => by rw [rename, rename_id value, id]
  | print a => by rw [rename, renameOption_id a]
  | cond c a b => by rw [rename, rename_id c, rename_id a, renameOption_id b]
  | suite ts => by rw [rename, renameList_id ts]
  | funcDef name params body => by
    rw [rename, rename_id body, List.map_id_fun, Option.map_id_fun, id, id]
  | call callee args => by rw [rename, renameArgs_id args, id]
  | ret value => by rw [rename, renameOption_id value]

theorem renameOption_id : ∀ o : Option Tree, renameOption id o = o
  | none => rfl
  | some t => by rw [renameOption, rename_id t]

theorem renameList_id : ∀ ts : List Tree, renameList id ts = ts
  | [] => rfl
  | t :: rest => by rw [renameList, rename_id t, renameList_id rest]

theorem renameArgs_id : ∀ args : Option (List Tree), renameArgs id args = args
  | none => rfl
  | some ts => by rw [renameArgs, renameList_id ts]

end

end Tree

/-- Replace the identifier in the name of a place. -/
def Slot.rename (r : String → String) : Slot → Slot
  | argument position callee => argument position (r callee)
  | slot => slot

/-- Replace the identifier in a complaint. -/
def Defect.rename (r : String → String) : Defect → Defect
  | emptySlot slot => emptySlot (slot.rename r)
  | noValue slot => noValue (slot.rename r)
  | defect => defect

/-- Replace the identifier that an error is about. -/
def EvalError.rename (r : String → String) : EvalError → EvalError
  | nameNotDefined name => nameNotDefined (r name)
  | localVariableUnbound name => localVariableUnbound (r name)
  | arityMismatch name expected got => arityMismatch (r name) expected got
  | malformedNode defect => malformedNode (defect.rename r)
  | e => e

theorem Slot.rename_id (slot : Slot) : slot.rename id = slot := by
  cases slot <;> rfl

theorem Defect.rename_id (defect : Defect) : defect.rename id = defect := by
  cases defect with
  | emptySlot slot => rw [rename, slot.rename_id]
  | noValue slot => rw [rename, slot.rename_id]
  | _ => rfl

theorem EvalError.rename_id (e : EvalError) : e.rename id = e := by
  cases e with
  | malformedNode defect => rw [rename, defect.rename_id]
  | _ => rfl

end TreeWalk
