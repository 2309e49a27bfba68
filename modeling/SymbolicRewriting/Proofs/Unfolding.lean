import SymbolicRewriting.Proofs.Verdict

/-!
The tree of a search unfolds its initial state. Every node is reached from the root by steps, and
its status says what was found out about its state.
-/

namespace SymbolicRewriting

open Relation

variable {σ : Type}

/-- What a step leads to, in the order in which it is added to a tree. -/
def SymbolicStep.children (step : SymbolicStep) : List (Justification × ConstrainedTerm) :=
  step.successors.map (fun successor => (.rule successor.rule, successor.state)) ++
    step.remainder.toList.map fun state => (.remainder, state)

theorem SymbolicStep.length_children (step : SymbolicStep) :
    step.children.length = step.successors.length + step.remainder.toList.length := by
  simp [children]

theorem SymbolicStep.mem_children_iff {step : SymbolicStep}
    {child : Justification × ConstrainedTerm} :
    child ∈ step.children ↔
      (∃ successor ∈ step.successors, child = (.rule successor.rule, successor.state)) ∨
        ∃ state, step.remainder = some state ∧ child = (.remainder, state) := by
  simp only [children, List.mem_append, List.mem_map, Option.mem_toList, eq_comm]

theorem SymbolicStep.ne_circularity_of_mem (step : SymbolicStep)
    {child : Justification × ConstrainedTerm} (hmem : child ∈ step.children) :
    child.1 ≠ .circularity := by
  rcases mem_children_iff.1 hmem with ⟨successor, -, rfl⟩ | ⟨state, -, rfl⟩ <;> simp

namespace ProofTree

def addChild (parent : NodeId) (depth : Nat) (tree : ProofTree)
    (child : Justification × ConstrainedTerm) : ProofTree :=
  match child with
  | (.remainder, state) =>
      (tree.addRemainder parent state depth).addTransition parent tree.size .remainder
  | (justification, state) =>
      (tree.addNode state depth).addTransition parent tree.size justification

def addChildren (parent : NodeId) (depth : Nat) (children : List (Justification × ConstrainedTerm))
    (tree : ProofTree) : ProofTree :=
  children.foldl (addChild parent depth) tree

theorem addStep_eq (tree : ProofTree) (parent : NodeId) (depth : Nat) (step : SymbolicStep) :
    tree.addStep parent depth step = addChildren parent depth step.children tree := by
  have hsuccessors : ∀ (successors : List Successor) (tree : ProofTree),
      addSuccessors parent depth successors tree = addChildren parent depth
        (successors.map fun successor => (.rule successor.rule, successor.state)) tree := by
    intro successors
    induction successors with
    | nil => exact fun _ => rfl
    | cons successor successors ih => exact fun tree => ih _
  unfold addStep SymbolicStep.children
  rw [hsuccessors]
  unfold addChildren addRemainderOf
  rw [List.foldl_append]
  cases step.remainder <;> rfl

theorem exists_addChild (parent : NodeId) (depth : Nat) (tree : ProofTree)
    (justification : Justification) (state : ConstrainedTerm) :
    ∃ base, addChild parent depth tree (justification, state) =
      (tree.push state depth base).addTransition parent tree.size justification := by
  cases justification <;> exact ⟨_, rfl⟩

theorem grows_addChildren (parent : NodeId) (depth : Nat)
    (children : List (Justification × ConstrainedTerm)) (tree : ProofTree) :
    tree.Grows (addChildren parent depth children tree) := by
  induction children generalizing tree with
  | nil => exact .refl tree
  | cons child children ih =>
      obtain ⟨base, hchild⟩ := exists_addChild parent depth tree child.1 child.2
      refine Grows.trans ?_ (ih (addChild parent depth tree child))
      rw [hchild]
      exact (tree.grows_push _ _ _).addTransition _ _ _

/-- The base of a child: a remainder shares that of its parent. -/
def childBase (base id : NodeId) (justification : Justification) : NodeId :=
  match justification with
  | .remainder => base
  | _ => id

theorem addChild_eq {parent : NodeId} {node : ProofNode} {tree : ProofTree}
    (hparent : tree.node? parent = some node) (depth : Nat)
    (child : Justification × ConstrainedTerm) :
    addChild parent depth tree child =
      (tree.push child.2 depth (childBase node.base tree.size child.1)).addTransition parent
        tree.size child.1 := by
  obtain ⟨justification, state⟩ := child
  cases justification with
  | remainder => simp [addChild, addRemainder, hparent, childBase]
  | rule | circularity => rfl

/-- The children of a node are added one after another. -/
theorem node?_addChildren {parent : NodeId} {node : ProofNode} {tree : ProofTree}
    (hparent : tree.node? parent = some node) (depth : Nat)
    {children : List (Justification × ConstrainedTerm)} {index : Nat}
    {child : Justification × ConstrainedTerm} (hindex : children[index]? = some child) :
    (addChildren parent depth children tree).node? (tree.size + index) =
      some ⟨tree.size + index, child.2, depth, childBase node.base (tree.size + index) child.1,
        .unexamined⟩ := by
  induction children generalizing tree index with
  | nil => simp at hindex
  | cons first children ih =>
      have hfirst := addChild_eq hparent depth first
      cases index with
      | zero =>
          obtain rfl : first = child := by simpa using hindex
          refine (grows_addChildren parent depth children _).node?_eq _ _ ?_
          rw [hfirst, node?_addTransition, node?_push, Nat.add_zero, if_pos rfl]
      | succ index =>
          have hkept : (addChild parent depth tree first).node? parent = some node := by
            rw [hfirst, node?_addTransition]
            exact node?_push_of_node? hparent _ _ _
          have hlater := ih hkept (by simpa using hindex)
          rw [hfirst, size_addTransition, size_push, Nat.add_assoc, Nat.add_comm 1] at hlater
          rw [← hfirst] at hlater
          exact hlater

/-- The transitions to the children of a node, the first of which has the given identity. -/
def childTransitions (parent first : NodeId) (children : List (Justification × ConstrainedTerm)) :
    List ProofTransition :=
  (children.zipIdx first).map fun (child, id) => ⟨parent, id, child.1⟩

theorem mem_childTransitions_iff {parent first : NodeId}
    {children : List (Justification × ConstrainedTerm)} {transition : ProofTransition} :
    transition ∈ childTransitions parent first children ↔
      ∃ index child, children[index]? = some child ∧
        transition = ⟨parent, first + index, child.1⟩ := by
  rw [childTransitions, List.mem_map]
  constructor
  · rintro ⟨⟨child, id⟩, hmem, rfl⟩
    obtain ⟨hle, hchild⟩ := List.mk_mem_zipIdx_iff_le_and_getElem?_sub.1 hmem
    exact ⟨id - first, child, hchild, by rw [Nat.add_sub_cancel' hle]⟩
  · rintro ⟨index, child, hindex, rfl⟩
    refine ⟨(child, first + index), List.mk_mem_zipIdx_iff_le_and_getElem?_sub.2 ?_, rfl⟩
    exact ⟨Nat.le_add_right _ _, by rwa [Nat.add_sub_cancel_left]⟩

theorem transitions_addChildren (parent : NodeId) (depth : Nat)
    (children : List (Justification × ConstrainedTerm)) (tree : ProofTree) :
    (addChildren parent depth children tree).transitions.toList =
      tree.transitions.toList ++ childTransitions parent tree.size children := by
  induction children generalizing tree with
  | nil => simp [addChildren, childTransitions]
  | cons first children ih =>
      obtain ⟨base, hfirst⟩ := exists_addChild parent depth tree first.1 first.2
      have hnew : (addChild parent depth tree first).transitions.toList =
          tree.transitions.toList ++ [⟨parent, tree.size, first.1⟩] := by
        rw [hfirst]
        exact Array.toList_push
      have hsize : (addChild parent depth tree first).size = tree.size + 1 := by
        rw [hfirst, size_addTransition, size_push]
      refine (ih (addChild parent depth tree first)).trans ?_
      rw [hnew, hsize, List.append_assoc]
      rfl

/-- The later tree has the same nodes, and only those that were open may have another status. -/
structure Evolves (tree later : ProofTree) : Prop where
  node : ∀ id node, tree.node? id = some node → ∃ status : NodeStatus,
    later.node? id = some { node with status } ∧ (node.status ≠ .unexamined → status = node.status)
  transition : ∀ transition ∈ tree.transitions, transition ∈ later.transitions

end ProofTree

/-- What searches find out about states. -/
structure Evidence where
  /-- The second state has been found to be an instance of the first. -/
  covers : ConstrainedTerm → ConstrainedTerm → Prop
  /-- The second state has not been found to be an instance of the first. -/
  misses : ConstrainedTerm → ConstrainedTerm → Prop
  steps : ConstrainedTerm → SymbolicStep → Prop

def Prover.evidence (prover : Prover σ) : Evidence where
  covers pattern state := ∃ start next, prover.covers pattern state start = .ok true next
  misses pattern state := ∃ start next, prover.covers pattern state start = .ok false next
  steps state step := ∃ start next, prover.machine.stepSymbolic state start = .ok step next

structure Evidence.Within (evidence wider : Evidence) : Prop where
  covers : ∀ pattern state, evidence.covers pattern state → wider.covers pattern state
  misses : ∀ pattern state, evidence.misses pattern state → wider.misses pattern state
  steps : ∀ state step, evidence.steps state step → wider.steps state step

theorem Evidence.within_refl (evidence : Evidence) : evidence.Within evidence where
  covers _ _ hcovers := hcovers
  misses _ _ hmisses := hmisses
  steps _ _ hsteps := hsteps

namespace ProofTree

/-- The node has a child of the given kind. -/
def HasChild (tree : ProofTree) (parent : NodeId) (child : Justification × ConstrainedTerm) :
    Prop :=
  ∃ node, ⟨parent, node.id, child.1⟩ ∈ tree.transitions ∧ tree.node? node.id = some node ∧
    node.state = child.2

/-- The status of the node says what was found out about its state. -/
def Supports (evidence : Evidence) (target : ConstrainedTerm) (tree : ProofTree)
    (node : ProofNode) : Prop :=
  match node.status with
  | .unexamined => True
  | .target => evidence.covers target node.state
  | .circular earlier => ∃ other, tree.node? earlier = some other ∧
      other.status.isExpanded = true ∧ evidence.covers other.state node.state
  | status => evidence.misses target node.state ∧ ∃ step, evidence.steps node.state step ∧
      step.status = status ∧
        (step.successors ≠ [] → ∀ child ∈ step.children, tree.HasChild node.id child)

/-- The transition is a part of a step of its source. -/
def Follows (evidence : Evidence) (target : ConstrainedTerm) (tree : ProofTree)
    (transition : ProofTransition) : Prop :=
  ∃ parent child step, tree.node? transition.source = some parent ∧
    tree.node? transition.target = some child ∧ transition.source < transition.target ∧
    evidence.misses target parent.state ∧ evidence.steps parent.state step ∧
    parent.status.isExpanded = true ∧ (transition.justification, child.state) ∈ step.children

structure Unfolds (evidence : Evidence) (initial target : ConstrainedTerm) (tree : ProofTree) :
    Prop where
  root : ∃ node, tree.node? 0 = some node ∧ node.state = initial
  exists_parent : ∀ id node, tree.node? id = some node → id ≠ 0 →
    ∃ transition ∈ tree.transitions, transition.target = id ∧ transition.justification ≠ .circularity
  follows : ∀ transition ∈ tree.transitions, transition.justification ≠ .circularity →
    tree.Follows evidence target transition
  supports : ∀ id node, tree.node? id = some node → tree.Supports evidence target node

variable {evidence : Evidence} {initial target : ConstrainedTerm} {tree later : ProofTree}

theorem Evolves.hasChild (hevolves : tree.Evolves later) {parent : NodeId}
    {child : Justification × ConstrainedTerm} (hchild : tree.HasChild parent child) :
    later.HasChild parent child := by
  obtain ⟨node, hmem, hnode, hstate⟩ := hchild
  obtain ⟨status, hlater, -⟩ := hevolves.node _ _ hnode
  exact ⟨{ node with status }, hevolves.transition _ hmem, hlater, hstate⟩

theorem Evolves.isExpanded (hevolves : tree.Evolves later) {id : NodeId} {node : ProofNode}
    (hnode : tree.node? id = some node) (hexpanded : node.status.isExpanded = true) :
    later.node? id = some node := by
  obtain ⟨status, hlater, hsame⟩ := hevolves.node id node hnode
  rw [hlater, hsame (by rintro hunexamined; rw [hunexamined] at hexpanded; cases hexpanded)]

theorem Evolves.supports (hevolves : tree.Evolves later) {node : ProofNode}
    (hsupports : tree.Supports evidence target node) : later.Supports evidence target node := by
  unfold Supports at hsupports ⊢
  split at hsupports
  · trivial
  · exact hsupports
  · obtain ⟨other, hother, hexpanded, hcovers⟩ := hsupports
    exact ⟨other, hevolves.isExpanded hother hexpanded, hexpanded, hcovers⟩
  · obtain ⟨hmisses, step, hstep, hstatus, hchildren⟩ := hsupports
    exact ⟨hmisses, step, hstep, hstatus, fun hsome child hmem =>
      hevolves.hasChild (hchildren hsome child hmem)⟩

theorem Evolves.follows (hevolves : tree.Evolves later) {transition : ProofTransition}
    (hfollows : tree.Follows evidence target transition) :
    later.Follows evidence target transition := by
  obtain ⟨parent, child, step, hparent, hchild, hlt, hmisses, hstep, hexpanded, hmem⟩ := hfollows
  obtain ⟨status, hlater, -⟩ := hevolves.node _ _ hchild
  exact ⟨parent, { child with status }, step, hevolves.isExpanded hparent hexpanded, hlater, hlt,
    hmisses, hstep, hexpanded, hmem⟩

theorem evolves_setStatus {leaf : ProofNode} (hopen : tree.IsOpen leaf) (status : NodeStatus) :
    tree.Evolves (tree.setStatus leaf.id status) where
  node id node hnode := by
    by_cases hid : id = leaf.id
    · rw [hid, hopen.1, Option.some.injEq] at hnode
      subst hnode
      exact ⟨status, hid ▸ node?_setStatus_self hopen status, fun hne => absurd hopen.2 hne⟩
    · exact ⟨node.status, tree.keepsBut_setStatus leaf.id status id node hid hnode, fun _ => rfl⟩
  transition _ hmem := hmem

theorem supports_of_step {node : ProofNode} {step : SymbolicStep}
    (hmisses : evidence.misses target node.state) (hstep : evidence.steps node.state step)
    (hstatus : step.status = node.status)
    (hchildren : step.successors ≠ [] → ∀ child ∈ step.children, tree.HasChild node.id child) :
    tree.Supports evidence target node := by
  unfold Supports
  split
  · trivial
  · rename_i htarget
    rw [htarget] at hstatus
    exact absurd hstatus (by unfold SymbolicStep.status; split <;> simp)
  · rename_i earlier hcircular
    rw [hcircular] at hstatus
    exact absurd hstatus (by unfold SymbolicStep.status; split <;> simp)
  · exact ⟨hmisses, step, hstep, hstatus, hchildren⟩

/-- What has to be shown where a leaf is settled. -/
theorem Unfolds.of_evolves (hunfolds : tree.Unfolds evidence initial target)
    (hevolves : tree.Evolves later)
    (hnodes : ∀ id node, tree.node? id = none → later.node? id = some node →
      node.status = .unexamined ∧ ∃ transition ∈ later.transitions,
        transition.target = id ∧ transition.justification ≠ .circularity)
    (hfollows : ∀ transition ∈ later.transitions, transition ∉ tree.transitions →
      transition.justification ≠ .circularity → later.Follows evidence target transition)
    (hleaf : ∀ id node status, tree.node? id = some node → node.status = .unexamined →
      later.node? id = some { node with status } → later.Supports evidence target { node with status }) :
    later.Unfolds evidence initial target where
  root := by
    obtain ⟨node, hnode, hstate⟩ := hunfolds.root
    obtain ⟨status, hlater, -⟩ := hevolves.node 0 node hnode
    exact ⟨_, hlater, hstate⟩
  exists_parent id node hnode hroot := by
    cases hold : tree.node? id with
    | none => exact (hnodes id node hold hnode).2
    | some old =>
        obtain ⟨transition, hmem, htarget⟩ := hunfolds.exists_parent id old hold hroot
        exact ⟨transition, hevolves.transition _ hmem, htarget⟩
  follows transition hmem hjustified := by
    by_cases hold : transition ∈ tree.transitions
    · exact hevolves.follows (hunfolds.follows transition hold hjustified)
    · exact hfollows transition hmem hold hjustified
  supports id node hnode := by
    cases hold : tree.node? id with
    | none =>
        unfold Supports
        rw [(hnodes id node hold hnode).1]
        trivial
    | some old =>
        obtain ⟨status, hlater, hsame⟩ := hevolves.node id old hold
        obtain rfl : node = { old with status } := Option.some.inj (hnode.symm.trans hlater)
        by_cases hunexamined : old.status = .unexamined
        · exact hleaf id old status hold hunexamined hlater
        · rw [hsame hunexamined]
          exact hevolves.supports (hunfolds.supports id old hold)

/-- Only a leaf changes, and no transition but a circularity is added. -/
theorem Unfolds.settle (hunfolds : tree.Unfolds evidence initial target) {leaf : ProofNode}
    (hopen : tree.IsOpen leaf) {status : NodeStatus}
    (hnodes : later.nodes = (tree.setStatus leaf.id status).nodes)
    (htransitions : ∀ transition ∈ tree.transitions, transition ∈ later.transitions)
    (hcircularity : ∀ transition ∈ later.transitions, transition ∉ tree.transitions →
      transition.justification = .circularity)
    (hleaf : later.Supports evidence target { leaf with status }) :
    later.Unfolds evidence initial target := by
  have hnode? : ∀ id, later.node? id = (tree.setStatus leaf.id status).node? id := by
    intro id
    unfold node?
    rw [hnodes]
  have hevolves : tree.Evolves later := by
    refine ⟨fun id node hnode => ?_, htransitions⟩
    rw [hnode?]
    exact (evolves_setStatus hopen status).node id node hnode
  refine hunfolds.of_evolves hevolves ?_ ?_ ?_
  · intro id node hnone hnode
    rw [hnode?, node?_setStatus, hnone] at hnode
    split at hnode <;> cases hnode
  · intro transition hmem hnew hjustified
    exact absurd (hcircularity transition hmem hnew) hjustified
  · intro id node last hnode hunexamined hlater
    by_cases hid : id = leaf.id
    · rw [hid, hopen.1, Option.some.injEq] at hnode
      subst hnode
      rw [hnode?, hid, node?_setStatus_self hopen, Option.some.injEq] at hlater
      exact hlater ▸ hleaf
    · rw [hnode?, tree.keepsBut_setStatus leaf.id status id node hid hnode,
        Option.some.injEq] at hlater
      unfold Supports
      rw [← hlater, hunexamined]
      trivial

/-- A leaf is expanded, and all that the step leads to is added. -/
structure ExpandedBy (tree : ProofTree) (leaf : ProofNode) (step : SymbolicStep)
    (later : ProofTree) : Prop where
  parent : later.node? leaf.id = some { leaf with status := step.status }
  others : ∀ id node, id ≠ leaf.id → tree.node? id = some node → later.node? id = some node
  child : ∀ index child, step.children[index]? = some child →
    later.node? (tree.size + index) =
      some ⟨tree.size + index, child.2, leaf.depth + 1,
        childBase leaf.base (tree.size + index) child.1, .unexamined⟩
  exists_child : ∀ id node, tree.node? id = none → later.node? id = some node →
    ∃ index child, step.children[index]? = some child ∧ id = tree.size + index
  transitions : later.transitions.toList =
    tree.transitions.toList ++ childTransitions leaf.id tree.size step.children

theorem ExpandedBy.transition {leaf : ProofNode} {step : SymbolicStep}
    (hexpanded : tree.ExpandedBy leaf step later) (transition : ProofTransition) :
    transition ∈ later.transitions ↔
      transition ∈ tree.transitions ∨ ∃ index child, step.children[index]? = some child ∧
        transition = ⟨leaf.id, tree.size + index, child.1⟩ := by
  rw [← Array.mem_toList_iff, hexpanded.transitions, List.mem_append, Array.mem_toList_iff,
    mem_childTransitions_iff]

theorem expandedBy_addStep {leaf : ProofNode} (hopen : tree.IsOpen leaf) (step : SymbolicStep) :
    tree.ExpandedBy leaf step
      ((tree.setStatus leaf.id step.status).addStep leaf.id (leaf.depth + 1) step) := by
  have hsize : (tree.setStatus leaf.id step.status).size = tree.size := tree.size_setStatus _ _
  have hgrows := (tree.setStatus leaf.id step.status).grows_addStep leaf.id (leaf.depth + 1) step
  refine ⟨hgrows.node?_eq _ _ (node?_setStatus_self hopen step.status), ?_, ?_, ?_, ?_⟩
  · intro id node hne hnode
    exact hgrows.node?_eq id node (tree.keepsBut_setStatus leaf.id _ id node hne hnode)
  · intro index child hindex
    rw [addStep_eq, ← hsize]
    exact node?_addChildren (node?_setStatus_self hopen step.status) _ hindex
  · intro id node hnone hnode
    have hstart : tree.size ≤ id := by
      simpa [node?, size] using hnone
    have hend := lt_size_of_node? hnode
    rw [size_addStep, hsize, growth, ← SymbolicStep.length_children] at hend
    have hindex : id - tree.size < step.children.length := Nat.sub_lt_left_of_lt_add hstart hend
    exact ⟨id - tree.size, _, List.getElem?_eq_getElem hindex, (Nat.add_sub_cancel' hstart).symm⟩
  · rw [addStep_eq, transitions_addChildren, hsize]
    rfl

theorem ExpandedBy.evolves {leaf : ProofNode} {step : SymbolicStep}
    (hexpanded : tree.ExpandedBy leaf step later) (hopen : tree.IsOpen leaf) :
    tree.Evolves later where
  node id node hnode := by
    by_cases hid : id = leaf.id
    · rw [hid, hopen.1, Option.some.injEq] at hnode
      subst hnode
      exact ⟨step.status, hid ▸ hexpanded.parent, fun hne => absurd hopen.2 hne⟩
    · exact ⟨node.status, hexpanded.others id node hid hnode, fun _ => rfl⟩
  transition transition hmem := (hexpanded.transition transition).2 (.inl hmem)

theorem Unfolds.expand (hunfolds : tree.Unfolds evidence initial target) {leaf : ProofNode}
    (hopen : tree.IsOpen leaf) {step : SymbolicStep} (hexpanded : tree.ExpandedBy leaf step later)
    (hsome : step.successors ≠ []) (hmisses : evidence.misses target leaf.state)
    (hstep : evidence.steps leaf.state step) : later.Unfolds evidence initial target := by
  refine hunfolds.of_evolves (hexpanded.evolves hopen) ?_ ?_ ?_
  · intro id node hnone hnode
    obtain ⟨index, child, hindex, rfl⟩ := hexpanded.exists_child id node hnone hnode
    have hchild := hexpanded.child index child hindex
    obtain rfl := Option.some.inj (hnode.symm.trans hchild)
    refine ⟨rfl, ⟨leaf.id, tree.size + index, child.1⟩, ?_, rfl, ?_⟩
    · exact (hexpanded.transition _).2 (.inr ⟨index, child, hindex, rfl⟩)
    · exact step.ne_circularity_of_mem (List.mem_of_getElem? hindex)
  · intro transition hmem hnew hjustified
    rcases (hexpanded.transition transition).1 hmem with hold | ⟨index, child, hindex, rfl⟩
    · exact absurd hold hnew
    · have hchild := hexpanded.child index child hindex
      have hlt : leaf.id < tree.size + index :=
        Nat.lt_of_lt_of_le (lt_size_of_node? hopen.1) (Nat.le_add_right _ _)
      exact ⟨_, _, step, hexpanded.parent, hchild, hlt, hmisses, hstep,
        step.isExpanded_status_iff.2 hsome, List.mem_of_getElem? hindex⟩
  · intro id node status hnode hunexamined hlater
    by_cases hid : id = leaf.id
    · subst hid
      obtain rfl : leaf = node := Option.some.inj (hopen.1.symm.trans hnode)
      rw [Option.some.inj (hlater.symm.trans hexpanded.parent)]
      refine supports_of_step hmisses hstep rfl fun _ child hmem => ?_
      obtain ⟨index, hindex⟩ := List.mem_iff_getElem?.1 hmem
      have hchild := hexpanded.child index child hindex
      refine ⟨⟨tree.size + index, child.2, leaf.depth + 1, _, .unexamined⟩, ?_, hchild, rfl⟩
      exact (hexpanded.transition _).2 (.inr ⟨index, child, hindex, rfl⟩)
    · rw [hexpanded.others id node hid hnode, Option.some.injEq] at hlater
      unfold Supports
      rw [← hlater, hunexamined]
      trivial

theorem Unfolds.settles {prover : Prover σ} (hwithin : prover.evidence.Within evidence)
    (hunfolds : tree.Unfolds evidence initial target) (hsettles : prover.Settles target tree later) :
    later.Unfolds evidence initial target := by
  cases hsettles with
  | @target leaf hopen hfinds =>
      cases hfinds with
      | target hcovers =>
          exact hunfolds.settle hopen rfl (fun _ hmem => hmem) (fun _ hmem hnew => absurd hmem hnew)
            (hwithin.covers _ _ ⟨_, _, hcovers⟩)
  | @circular leaf earlier hopen hfinds =>
      cases hfinds with
      | @circular earlier start next hexpanded _ hcovers =>
          refine hunfolds.settle hopen rfl ?_ ?_ ?_
          · exact fun _ hmem => Array.mem_push_of_mem _ hmem
          · intro transition hmem hnew
            rcases Array.mem_push.1 hmem with hold | rfl
            · exact absurd hold hnew
            · rfl
          · have hne := hexpanded.ne_of_isOpen hopen
            obtain ⟨status, hnode, hstatus⟩ := hexpanded
            refine ⟨{ earlier with status }, ?_, hstatus, hwithin.covers _ _ ⟨_, _, hcovers⟩⟩
            rw [node?_addTransition]
            exact tree.keepsBut_setStatus leaf.id _ earlier.id _ hne hnode
  | @ended leaf step hopen hfinds hnone =>
      cases hfinds with
      | stepped hcovers hstep =>
          refine hunfolds.settle hopen rfl (fun _ hmem => hmem)
            (fun _ hmem hnew => absurd hmem hnew) ?_
          exact supports_of_step (hwithin.misses _ _ ⟨_, _, hcovers⟩)
            (hwithin.steps _ _ ⟨_, _, hstep⟩) rfl fun hsome => absurd hnone hsome
  | @expanded leaf step hopen hfinds hsome =>
      cases hfinds with
      | stepped hcovers hstep =>
          exact hunfolds.expand hopen (expandedBy_addStep hopen step) hsome
            (hwithin.misses _ _ ⟨_, _, hcovers⟩) (hwithin.steps _ _ ⟨_, _, hstep⟩)

theorem unfolds_start (evidence : Evidence) (initial target : ConstrainedTerm) :
    (Goal.start initial target).tree.Unfolds evidence initial target := by
  have hnode : ∀ id node, (Goal.start initial target).tree.node? id = some node →
      id = 0 ∧ node = ⟨0, initial, 0, 0, .unexamined⟩ := by
    intro id node hnode
    unfold Goal.start addNode at hnode
    rw [node?_push] at hnode
    split at hnode
    · exact ⟨by assumption, (Option.some.inj hnode).symm⟩
    · simp [node?, empty] at hnode
  refine ⟨⟨_, rfl, rfl⟩, ?_, ?_, ?_⟩
  · intro id node hid hroot
    exact absurd (hnode id node hid).1 hroot
  · intro transition hmem
    simp [Goal.start, addNode, ProofTree.push, empty] at hmem
  · intro id node hid
    obtain ⟨-, rfl⟩ := hnode id node hid
    trivial

end ProofTree

namespace Goal

theorem after_calls_append (goal : Goal) (calls more : List Prover.Call) :
    goal.after (calls ++ more) = (goal.after calls).after more := by
  induction calls generalizing goal with
  | nil => rfl
  | cons call calls ih => exact ih _

/-- What every leaf that is settled preserves holds after all calls. -/
theorem after_induction {motive : ProofTree → Prop} {goal : Goal} (hwell : goal.tree.WellFormed)
    {calls : List Prover.Call}
    (hstep : ∀ call ∈ calls, ∀ tree later, call.prover.Settles goal.target tree later →
      motive tree → motive later)
    (hgoal : motive goal.tree) : motive (goal.after calls).tree := by
  induction calls generalizing goal with
  | nil => exact hgoal
  | cons call calls ih =>
      obtain ⟨hcall, hothers⟩ := List.forall_mem_cons.1 hstep
      refine ih (call.prover.wellFormed_prove hwell call.state) ?_ ?_
      · rwa [ask, call.prover.target_prove goal call.state]
      · have hrun (tree later : ProofTree)
            (hsettles : ReflTransGen (call.prover.Settles goal.target) tree later) :
            motive tree → motive later := by
          induction hsettles with
          | refl => exact id
          | tail _ hsettled ih => exact fun htree => hcall _ _ hsettled (ih htree)
        exact hrun _ _ (call.prover.settles_prove hwell call.state) hgoal

/-- Whatever calls a goal has been through, its tree unfolds its initial state. -/
theorem unfolds_after {evidence : Evidence} (initial target : ConstrainedTerm)
    {calls : List Prover.Call} (hcalls : ∀ call ∈ calls, call.prover.evidence.Within evidence) :
    ((start initial target).after calls).tree.Unfolds evidence initial target := by
  refine after_induction (.start initial) (fun call hcall tree later hsettles hunfolds => ?_)
    (ProofTree.unfolds_start evidence initial target)
  exact hunfolds.settles (hcalls call hcall) hsettles

end Goal

end SymbolicRewriting
