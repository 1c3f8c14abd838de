import TreeWalk.Proofs.Program
import TreeWalk.Tree.Subtree

/-!
# Every node of a program stands for something

Lowering answers with a node that stands for the tree (`holds_lower`).  It also leaves nothing
else behind: apart from the lists of parameters and arguments, every node of the layout is the
empty node or stands for a tree, and that tree is a part of what was lowered or an identifier,
such as the target of an assignment (`coveredBy_lower`).  So whoever evaluates a node of a
program that is no list evaluates a part of the program, even if the number of the node was made
up.
-/

namespace TreeWalk

namespace Layout

variable {l : Layout} {n : Name} {s : String} {id : NodeId} {node : Node} {o : Option Tree}
  {P : Tree → Prop}

/-- Every node is a list or stands for a tree or for an absent child. -/
def Covered (l : Layout) : Prop :=
  ∀ ⦃id node⦄, l.nodes.get? id = some node → node.kind = .parameterList ∨ ∃ o, l.HoldsOption o id

/-- Every node is a list, or stands for a tree with some property or for an absent child. -/
def CoveredBy (P : Tree → Prop) (l : Layout) : Prop :=
  ∀ ⦃id node⦄, l.nodes.get? id = some node →
    node.kind = .parameterList ∨ ∃ o, l.HoldsOption o id ∧ ∀ t ∈ o, P t

theorem CoveredBy.covered (h : l.CoveredBy P) : l.Covered :=
  fun _ _ hn => (h hn).imp_right fun ⟨o, ho, _⟩ => ⟨o, ho⟩

theorem coveredBy_fresh : fresh.CoveredBy P := by
  rintro ⟨i⟩ node h
  rcases i with _ | i
  · exact Or.inr ⟨none, rfl, nofun⟩
  · cases h

/-- What stands for something goes on doing so, as long as no nodes are added. -/
theorem CoveredBy.of_grows {m : Layout} (h : l.CoveredBy P) (hg : l.Grows m)
    (hget : ∀ id, m.nodes.get? id = l.nodes.get? id) : m.CoveredBy P := by
  intro id node hn
  rw [hget] at hn
  refine (h hn).imp_right ?_
  rintro ⟨o, ho, hP⟩
  exact ⟨o, ho.of_grows hg, hP⟩

theorem CoveredBy.intern (h : l.CoveredBy P) (s : String) : (l.intern s).2.CoveredBy P :=
  h.of_grows (Tree.grows_intern l s) fun _ => rfl

theorem CoveredBy.internParams (h : l.CoveredBy P) (params : Option (List String)) :
    (l.internParams params).2.CoveredBy P := by
  refine h.of_grows (Lays.internParams l params []).grows fun _ => ?_
  cases params <;> rfl

/-- A layout in which another list is stored. -/
def addList (l : Layout) (ids : List NodeId) : Layout := ⟨l.names, (l.nodes.addList ids).2⟩

theorem CoveredBy.addList (h : l.CoveredBy P) (ids : List NodeId) : (l.addList ids).CoveredBy P :=
  h.of_grows ⟨.refl _, l.nodes.grows_addList ids⟩ fun _ => rfl

/-- A node is added that is a list or stands for something. -/
theorem CoveredBy.add (h : l.CoveredBy P)
    (hnew : node.kind = .parameterList ∨
      ∃ o, (l.build (·.add node)).2.HoldsOption o (l.build (·.add node)).1 ∧ ∀ t ∈ o, P t) :
    (l.build (·.add node)).2.CoveredBy P := by
  intro id m hget
  rcases NodeStore.get?_add_iff.mp hget with ⟨hid, rfl⟩ | hget
  · have hnumber : id = (l.build (·.add node)).1 := congrArg NodeId.mk hid
    rw [hnumber]
    exact hnew
  · refine (h hget).imp_right ?_
    rintro ⟨o, ho, hP⟩
    exact ⟨o, ho.of_grows (Tree.grows_add l node), hP⟩

/-- A node is added that stands for a tree. -/
theorem CoveredBy.addTree (h : l.CoveredBy P) {t : Tree} (ht : P t)
    (hnew : (l.build (·.add node)).2.Holds t (l.build (·.add node)).1) :
    (l.build (·.add node)).2.CoveredBy P :=
  h.add (Or.inr ⟨some t, hnew, fun _ hu => Option.some.inj hu ▸ ht⟩)

theorem CoveredBy.addIdent (hident : ∀ s, P (.ident s)) (hn : l.names.Holds n s)
    (h : l.CoveredBy P) : (l.build (·.add (.ident n))).2.CoveredBy P :=
  h.addTree (hident s) ⟨n, NodeStore.get?_add_self _ _, hn⟩

/-- A layout in which an identifier is added for each of some names. -/
def addIdents (l : Layout) (ns : List Name) : Layout :=
  ⟨l.names, (l.nodes.addAll (ns.map .ident)).2⟩

theorem CoveredBy.addIdents (hident : ∀ s, P (.ident s)) {ns : List Name} {ss : List String}
    (hns : List.Forall₂ l.names.Holds ns ss) (h : l.CoveredBy P) :
    (l.addIdents ns).CoveredBy P := by
  obtain ⟨names, nodes⟩ := l
  change List.Forall₂ names.Holds ns ss at hns
  induction hns generalizing nodes with
  | nil => exact h
  | cons hn _ ih => exact ih _ (h.addIdent hident hn)

theorem CoveredBy.addParamList (h : l.CoveredBy P) (ids : List NodeId) :
    (l.build (·.addParamList ids)).2.CoveredBy P := (h.addList ids).add (Or.inl rfl)

end Layout

namespace Tree

open Layout

variable {P : Tree → Prop}

/-! ## Lowering -/

mutual

/-- Lowering adds lists and nodes that stand for parts of the tree or for identifiers. -/
theorem coveredBy_lower (hident : ∀ s, P (.ident s)) :
    ∀ (t : Tree) {l : Layout}, l.Sound → (∀ u ∈ t.subtrees, P u) → l.CoveredBy P →
      (t.lower l).2.CoveredBy P
  | ident s, _, hs, _, h => (h.intern s).addTree (hident s) (holds_lower (ident s) hs)
  | int n, _, hs, hP, h => h.addTree (hP _ (self_mem_subtrees _)) (holds_lower (int n) hs)
  | float x, _, hs, hP, h => h.addTree (hP _ (self_mem_subtrees _)) (holds_lower (float x) hs)
  | nil, _, hs, hP, h => h.addTree (hP _ (self_mem_subtrees _)) (holds_lower nil hs)
  | unary op a, _, hs, hP, h => by
    obtain ⟨hself, ha⟩ := List.forall_mem_cons.mp hP
    exact (coveredBy_lower hident a hs ha h).addTree hself (holds_lower (unary op a) hs)
  | binary op a b, l, hs, hP, h => by
    obtain ⟨hself, hchildren⟩ := List.forall_mem_cons.mp hP
    obtain ⟨ha, hb⟩ := List.forall_mem_append.mp hchildren
    have hleft := coveredBy_lower hident a hs ha h
    have hright := coveredBy_lower hident b ((lays_lower a l).sound hs) hb hleft
    exact hright.addTree hself (holds_lower (binary op a b) hs)
  | assign target value, l, hs, hP, h => by
    obtain ⟨hself, hvalue⟩ := List.forall_mem_cons.mp hP
    have hv := coveredBy_lower hident value hs hvalue h
    have hn := NameTable.holds_intern ((lays_lower value l).sound hs).names target
    exact ((hv.intern target).addIdent hident hn).addTree hself
      (holds_lower (assign target value) hs)
  | print argument, _, hs, hP, h => by
    obtain ⟨hself, hargument⟩ := List.forall_mem_cons.mp hP
    exact (coveredBy_lowerOption hident argument hs hargument h).addTree hself
      (holds_lower (print argument) hs)
  | cond test thenBranch elseBranch, l, hs, hP, h => by
    obtain ⟨hself, hchildren⟩ := List.forall_mem_cons.mp hP
    obtain ⟨hchildren, helse⟩ := List.forall_mem_append.mp hchildren
    obtain ⟨htest, hthen⟩ := List.forall_mem_append.mp hchildren
    have ht := (lays_lower test l).sound hs
    have hb := (lays_lower thenBranch (test.lower l).2).sound ht
    have hbranch := coveredBy_lower hident thenBranch ht hthen
      (coveredBy_lower hident test hs htest h)
    exact (coveredBy_lowerOption hident elseBranch hb helse hbranch).addTree hself
      (holds_lower (cond test thenBranch elseBranch) hs)
  | suite ts, _, hs, hP, h => by
    obtain ⟨hself, hstatements⟩ := List.forall_mem_cons.mp hP
    exact ((coveredBy_lowerList hident ts hs hstatements h).addList _).addTree hself
      (holds_lower (suite ts) hs)
  | funcDef name none body, _, hs, hP, h => by
    obtain ⟨hself, hbody⟩ := List.forall_mem_cons.mp hP
    exact ((coveredBy_lower hident body hs hbody h).intern name).addTree hself
      (holds_lower (funcDef name none body) hs)
  | funcDef name (some ps) body, l, hs, hP, h => by
    obtain ⟨hself, hbody⟩ := List.forall_mem_cons.mp hP
    have hb := (coveredBy_lower hident body hs hbody h).internParams (some ps)
    have hnames := NameTable.holds_internAll ((lays_lower body l).sound hs).names ps
    have hgrow := grows_intern ((body.lower l).2.internParams (some ps)).2 name
    have hidents :=
      (hb.intern name).addIdents hident (hnames.imp fun _ _ hn => hgrow.names hn)
    exact (hidents.addParamList _).addTree hself (holds_lower (funcDef name (some ps) body) hs)
  | call callee none, _, hs, hP, h =>
    (h.intern callee).addTree (hP _ (self_mem_subtrees _)) (holds_lower (call callee none) hs)
  | call callee (some ts), _, hs, hP, h => by
    obtain ⟨hself, hargs⟩ := List.forall_mem_cons.mp hP
    exact (((coveredBy_lowerList hident ts hs hargs h).intern callee).addParamList _).addTree hself
      (holds_lower (call callee (some ts)) hs)
  | ret value, _, hs, hP, h => by
    obtain ⟨hself, hvalue⟩ := List.forall_mem_cons.mp hP
    exact (coveredBy_lowerOption hident value hs hvalue h).addTree hself
      (holds_lower (ret value) hs)

theorem coveredBy_lowerOption (hident : ∀ s, P (.ident s)) :
    ∀ (o : Option Tree) {l : Layout}, l.Sound → (∀ u ∈ subtreesOption o, P u) →
      l.CoveredBy P → (lowerOption o l).2.CoveredBy P
  | none, _, _, _, h => h
  | some t, _, hs, hP, h => coveredBy_lower hident t hs hP h

theorem coveredBy_lowerList (hident : ∀ s, P (.ident s)) :
    ∀ (ts : List Tree) {l : Layout}, l.Sound → (∀ u ∈ subtreesList ts, P u) →
      l.CoveredBy P → (lowerList ts l).2.CoveredBy P
  | [], _, _, _, h => h
  | t :: ts, l, hs, hP, h => by
    obtain ⟨hfirst, hrest⟩ := List.forall_mem_append.mp hP
    exact coveredBy_lowerList hident ts ((lays_lower t l).sound hs) hrest
      (coveredBy_lower hident t hs hfirst h)

end

end Tree

namespace Program

variable {t : Tree} {p : Program}

/-- **Every node of a program is a list or stands for a part of it.**  What all identifiers and
all parts of the tree have in common is common to all trees for which nodes stand. -/
theorem coveredBy_of_ofTree {P : Tree → Prop} (h : ofTree t = .ok p) (hident : ∀ s, P (.ident s))
    (hP : ∀ u ∈ t.subtrees, P u) : p.layout.CoveredBy P := by
  obtain ⟨-, -, hlayout⟩ := ofTree_eq_ok_iff.mp h
  rw [hlayout]
  exact Tree.coveredBy_lower hident t Layout.sound_fresh hP Layout.coveredBy_fresh

theorem covered_of_ofTree (h : ofTree t = .ok p) : p.layout.Covered :=
  (coveredBy_of_ofTree (P := fun _ => True) h (fun _ => trivial) fun _ _ => trivial).covered

end Program

end TreeWalk
