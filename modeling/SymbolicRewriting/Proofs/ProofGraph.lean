import SymbolicRewriting.Proof.Merge

/-!
What holds of the graph of every proof search. The nodes that descend from one base through
remainders form a chain, of which only the last node is not expanded, and a leaf that is closed by a
circularity is closed by an expanded node of another base.
-/

namespace SymbolicRewriting.ProofTree

def HasRemainder (tree : ProofTree) (parent child : NodeId) : Prop :=
  ⟨parent, child, .remainder⟩ ∈ tree.transitions

/-- The transition from a leaf to the node that it is an instance of. -/
def HasCircularity (tree : ProofTree) (leaf earlier : NodeId) : Prop :=
  ⟨leaf, earlier, .circularity⟩ ∈ tree.transitions

def IsOpen (tree : ProofTree) (node : ProofNode) : Prop :=
  tree.node? node.id = some node ∧ node.status = .unexamined

def IsExpanded (tree : ProofTree) (id base : NodeId) : Prop :=
  ∃ node, tree.node? id = some node ∧ node.base = base ∧ node.status.isExpanded = true

/-- The leaf is closed by the node `earlier`. -/
def IsCircular (tree : ProofTree) (leaf base earlier : NodeId) : Prop :=
  ∃ node, tree.node? leaf = some node ∧ node.base = base ∧ node.status = .circular earlier

/-- The nodes of one base form a chain of remainders. -/
structure Chained (tree : ProofTree) : Prop where
  id_eq : ∀ id node, tree.node? id = some node → node.id = id
  exists_parent : ∀ id node, tree.node? id = some node → node.base ≠ id →
    ∃ parent, tree.HasRemainder parent id
  remainder : ∀ parent child, tree.HasRemainder parent child →
    parent < child ∧ ∃ node, tree.node? child = some node ∧ tree.IsExpanded parent node.base
  remainder_unique : ∀ parent child other, tree.HasRemainder parent child →
    tree.HasRemainder parent other → child = other

structure WellFormed (tree : ProofTree) : Prop extends tree.Chained where
  circularity : ∀ leaf earlier, tree.HasCircularity leaf earlier →
    ∃ base other, tree.IsCircular leaf base earlier ∧ tree.IsExpanded earlier other ∧ base ≠ other
  circular : ∀ leaf base earlier, tree.IsCircular leaf base earlier →
    tree.HasCircularity leaf earlier

/-! How the operations change the nodes and the transitions. -/

section Views

variable (tree : ProofTree)

theorem node?_push (state : ConstrainedTerm) (depth : Nat) (base id : NodeId) :
    (tree.push state depth base).node? id =
      if id = tree.size then some ⟨tree.size, state, depth, base, .unexamined⟩
      else tree.node? id :=
  Array.getElem?_push

theorem lt_size_of_node? {tree : ProofTree} {id : NodeId} {node : ProofNode}
    (hnode : tree.node? id = some node) : id < tree.size :=
  (Array.getElem?_eq_some_iff.1 hnode).1

theorem node?_push_of_node? {tree : ProofTree} {id : NodeId} {node : ProofNode}
    (hnode : tree.node? id = some node) (state : ConstrainedTerm) (depth : Nat) (base : NodeId) :
    (tree.push state depth base).node? id = some node := by
  rw [node?_push, if_neg (Nat.ne_of_lt (lt_size_of_node? hnode)), hnode]

theorem node?_setStatus (id : NodeId) (status : NodeStatus) (other : NodeId) :
    (tree.setStatus id status).node? other =
      if id = other then (tree.node? other).map fun node => { node with status }
      else tree.node? other :=
  Array.getElem?_modify

theorem node?_setStatus_of_ne {id other : NodeId} (status : NodeStatus) (hne : other ≠ id) :
    (tree.setStatus id status).node? other = tree.node? other := by
  rw [node?_setStatus, if_neg hne.symm]

@[simp]
theorem node?_addTransition (source target : NodeId) (justification : Justification)
    (id : NodeId) : (tree.addTransition source target justification).node? id = tree.node? id :=
  rfl

theorem hasRemainder_addTransition {source target : NodeId} {justification : Justification}
    (hother : justification ≠ .remainder) (parent child : NodeId) :
    (tree.addTransition source target justification).HasRemainder parent child ↔
      tree.HasRemainder parent child := by
  simp [HasRemainder, addTransition, hother.symm]

theorem hasCircularity_addTransition {source target : NodeId} {justification : Justification}
    (hother : justification ≠ .circularity) (leaf earlier : NodeId) :
    (tree.addTransition source target justification).HasCircularity leaf earlier ↔
      tree.HasCircularity leaf earlier := by
  simp [HasCircularity, addTransition, hother.symm]

theorem hasRemainder_addTransition_remainder (source target parent child : NodeId) :
    (tree.addTransition source target .remainder).HasRemainder parent child ↔
      tree.HasRemainder parent child ∨ parent = source ∧ child = target := by
  simp [HasRemainder, addTransition]

theorem hasCircularity_addTransition_circularity (source target leaf earlier : NodeId) :
    (tree.addTransition source target .circularity).HasCircularity leaf earlier ↔
      tree.HasCircularity leaf earlier ∨ leaf = source ∧ earlier = target := by
  simp [HasCircularity, addTransition]

variable {tree}

theorem IsExpanded.push {id base : NodeId} (hexpanded : tree.IsExpanded id base)
    (state : ConstrainedTerm) (depth : Nat) (other : NodeId) :
    (tree.push state depth other).IsExpanded id base := by
  obtain ⟨node, hnode, hbase, hstatus⟩ := hexpanded
  exact ⟨node, node?_push_of_node? hnode state depth other, hbase, hstatus⟩

theorem isCircular_push {state : ConstrainedTerm} {depth : Nat} {other leaf base earlier : NodeId} :
    (tree.push state depth other).IsCircular leaf base earlier ↔
      tree.IsCircular leaf base earlier := by
  constructor
  · rintro ⟨node, hnode, hbase, hstatus⟩
    rw [node?_push] at hnode
    split at hnode
    · cases hnode
      cases hstatus
    · exact ⟨node, hnode, hbase, hstatus⟩
  · rintro ⟨node, hnode, hbase, hstatus⟩
    exact ⟨node, node?_push_of_node? hnode state depth other, hbase, hstatus⟩

theorem IsOpen.ne_of_status {node other : ProofNode} {id : NodeId} (hopen : tree.IsOpen node)
    (hother : tree.node? id = some other) (hstatus : other.status ≠ .unexamined) : id ≠ node.id := by
  rintro rfl
  rw [hopen.1, Option.some.injEq] at hother
  exact hstatus (hother ▸ hopen.2)

theorem IsOpen.ne_of_isExpanded {node : ProofNode} {id base : NodeId} (hopen : tree.IsOpen node)
    (hexpanded : tree.IsExpanded id base) : id ≠ node.id := by
  obtain ⟨other, hother, -, hstatus⟩ := hexpanded
  apply hopen.ne_of_status hother
  intro hunexamined
  rw [hunexamined] at hstatus
  cases hstatus

theorem IsOpen.ne_of_isCircular {node : ProofNode} {leaf base earlier : NodeId}
    (hopen : tree.IsOpen node) (hcircular : tree.IsCircular leaf base earlier) :
    leaf ≠ node.id := by
  obtain ⟨other, hother, -, hstatus⟩ := hcircular
  apply hopen.ne_of_status hother
  intro hunexamined
  rw [hunexamined] at hstatus
  cases hstatus

theorem IsExpanded.setStatus {node : ProofNode} {id base : NodeId}
    (hexpanded : tree.IsExpanded id base) (hopen : tree.IsOpen node) (status : NodeStatus) :
    (tree.setStatus node.id status).IsExpanded id base := by
  have hne := hopen.ne_of_isExpanded hexpanded
  obtain ⟨other, hother, hbase, hstatus⟩ := hexpanded
  refine ⟨other, ?_, hbase, hstatus⟩
  rw [node?_setStatus_of_ne _ _ hne, hother]

theorem node?_setStatus_self {node : ProofNode} (hopen : tree.IsOpen node) (status : NodeStatus) :
    (tree.setStatus node.id status).node? node.id = some { node with status } := by
  rw [node?_setStatus, if_pos rfl, hopen.1, Option.map_some]

/-- The status of an open node is all that changes. -/
theorem isCircular_setStatus {node : ProofNode} (hopen : tree.IsOpen node) (status : NodeStatus)
    {leaf base earlier : NodeId} :
    (tree.setStatus node.id status).IsCircular leaf base earlier ↔
      tree.IsCircular leaf base earlier ∨
        leaf = node.id ∧ base = node.base ∧ status = .circular earlier := by
  constructor
  · rintro ⟨other, hother, hbase, hstatus⟩
    by_cases hleaf : leaf = node.id
    · rw [hleaf, node?_setStatus_self hopen, Option.some.injEq] at hother
      subst hother
      exact .inr ⟨hleaf, hbase.symm, hstatus⟩
    · rw [node?_setStatus_of_ne _ _ hleaf] at hother
      exact .inl ⟨other, hother, hbase, hstatus⟩
  · rintro (hcircular | ⟨rfl, rfl, hstatus⟩)
    · have hne := hopen.ne_of_isCircular hcircular
      obtain ⟨other, hother, hbase, hstatus⟩ := hcircular
      refine ⟨other, ?_, hbase, hstatus⟩
      rw [node?_setStatus_of_ne _ _ hne, hother]
    · exact ⟨_, node?_setStatus_self hopen status, rfl, hstatus⟩

end Views

namespace Chained

variable {tree : ProofTree}

theorem addTransition (hchained : tree.Chained) {justification : Justification}
    (hother : justification ≠ .remainder) (source target : NodeId) :
    (tree.addTransition source target justification).Chained where
  id_eq := hchained.id_eq
  exists_parent id node hnode hbase := by
    obtain ⟨parent, hparent⟩ := hchained.exists_parent id node hnode hbase
    exact ⟨parent, (tree.hasRemainder_addTransition hother _ _).2 hparent⟩
  remainder parent child hremainder :=
    hchained.remainder parent child ((tree.hasRemainder_addTransition hother _ _).1 hremainder)
  remainder_unique parent child other hchild hsecond :=
    hchained.remainder_unique parent child other
      ((tree.hasRemainder_addTransition hother _ _).1 hchild)
      ((tree.hasRemainder_addTransition hother _ _).1 hsecond)

theorem id_eq_push (hchained : tree.Chained) {state : ConstrainedTerm} {depth : Nat}
    {base id : NodeId} {node : ProofNode}
    (hnode : (tree.push state depth base).node? id = some node) : node.id = id := by
  rw [node?_push] at hnode
  split at hnode
  · rename_i hid
    cases hnode
    exact hid.symm
  · exact hchained.id_eq id node hnode

theorem remainder_push (hchained : tree.Chained) (state : ConstrainedTerm) (depth : Nat)
    (base : NodeId) {parent child : NodeId} (hremainder : tree.HasRemainder parent child) :
    parent < child ∧ ∃ node, (tree.push state depth base).node? child = some node ∧
      (tree.push state depth base).IsExpanded parent node.base := by
  obtain ⟨hlt, node, hnode, hexpanded⟩ := hchained.remainder parent child hremainder
  exact ⟨hlt, node, node?_push_of_node? hnode _ _ _, hexpanded.push _ _ _⟩

theorem setStatus (hchained : tree.Chained) {node : ProofNode} (hopen : tree.IsOpen node)
    (status : NodeStatus) : (tree.setStatus node.id status).Chained where
  id_eq id other hother := by
    by_cases hid : id = node.id
    · rw [hid, node?_setStatus_self hopen, Option.some.injEq] at hother
      rw [← hother, hid]
    · rw [node?_setStatus_of_ne _ _ hid] at hother
      exact hchained.id_eq id other hother
  exists_parent id other hother hbase := by
    by_cases hid : id = node.id
    · rw [hid, node?_setStatus_self hopen, Option.some.injEq] at hother
      subst hother
      exact hchained.exists_parent id node (hid ▸ hopen.1) hbase
    · rw [node?_setStatus_of_ne _ _ hid] at hother
      exact hchained.exists_parent id other hother hbase
  remainder parent child hremainder := by
    obtain ⟨hlt, other, hother, hexpanded⟩ := hchained.remainder parent child hremainder
    refine ⟨hlt, ?_⟩
    by_cases hid : child = node.id
    · rw [hid, hopen.1, Option.some.injEq] at hother
      subst hother
      exact ⟨{ node with status }, hid ▸ node?_setStatus_self hopen status,
        hexpanded.setStatus hopen status⟩
    · refine ⟨other, ?_, hexpanded.setStatus hopen status⟩
      rw [node?_setStatus_of_ne _ _ hid, hother]
  remainder_unique := hchained.remainder_unique

end Chained

namespace WellFormed

variable {tree : ProofTree}

theorem start (state : ConstrainedTerm) : (ProofTree.empty.addNode state 0).WellFormed := by
  have hnode : ∀ id node, (ProofTree.empty.addNode state 0).node? id = some node →
      id = 0 ∧ node = ⟨0, state, 0, 0, .unexamined⟩ := by
    intro id node hnode
    unfold addNode at hnode
    rw [node?_push] at hnode
    split at hnode
    · exact ⟨by assumption, (Option.some.inj hnode).symm⟩
    · simp [node?, empty] at hnode
  have htransition : ∀ transition, transition ∉ (ProofTree.empty.addNode state 0).transitions := by
    intro transition hmem
    simp [addNode, ProofTree.push, empty] at hmem
  refine ⟨⟨?_, ?_, fun _ _ hmem => absurd hmem (htransition _),
    fun _ _ _ hmem => absurd hmem (htransition _)⟩, fun _ _ hmem => absurd hmem (htransition _), ?_⟩
  · intro id node hid
    obtain ⟨rfl, rfl⟩ := hnode id node hid
    rfl
  · intro id node hid hbase
    obtain ⟨rfl, rfl⟩ := hnode id node hid
    exact absurd rfl hbase
  · rintro leaf base earlier ⟨node, hleaf, -, hstatus⟩
    obtain ⟨rfl, rfl⟩ := hnode leaf node hleaf
    cases hstatus

theorem circularity_push (hwell : tree.WellFormed) (state : ConstrainedTerm) (depth : Nat)
    (base : NodeId) {leaf earlier : NodeId} (hcircularity : tree.HasCircularity leaf earlier) :
    ∃ leafBase other, (tree.push state depth base).IsCircular leaf leafBase earlier ∧
      (tree.push state depth base).IsExpanded earlier other ∧ leafBase ≠ other := by
  obtain ⟨leafBase, other, hcircular, hexpanded, hne⟩ := hwell.circularity leaf earlier hcircularity
  exact ⟨leafBase, other, isCircular_push.2 hcircular, hexpanded.push _ _ _, hne⟩

/-- A node that is its own base can be added anywhere. -/
theorem addNode (hwell : tree.WellFormed) (state : ConstrainedTerm) (depth : Nat) :
    (tree.addNode state depth).WellFormed where
  id_eq _ _ hnode := hwell.id_eq_push hnode
  exists_parent id node hnode hbase := by
    unfold ProofTree.addNode at hnode
    rw [node?_push] at hnode
    split at hnode
    · rename_i hid
      cases hnode
      exact absurd hid.symm hbase
    · exact hwell.exists_parent id node hnode hbase
  remainder _ _ hremainder := hwell.remainder_push state depth tree.size hremainder
  remainder_unique := hwell.remainder_unique
  circularity _ _ hcircularity := hwell.circularity_push state depth tree.size hcircularity
  circular leaf base earlier hcircular :=
    hwell.circular leaf base earlier (isCircular_push.1 hcircular)

theorem addRule (hwell : tree.WellFormed) (source target : NodeId) (rule : RuleId) :
    (tree.addTransition source target (.rule rule)).WellFormed where
  toChained := hwell.toChained.addTransition (by simp) source target
  circularity leaf earlier hcircularity :=
    hwell.circularity leaf earlier
      ((tree.hasCircularity_addTransition (by simp) _ _).1 hcircularity)
  circular leaf base earlier hcircular :=
    (tree.hasCircularity_addTransition (by simp) _ _).2 (hwell.circular leaf base earlier hcircular)

/-- An expanded node that has no remainder yet can be given one. -/
theorem addRemainder (hwell : tree.WellFormed) {parent base : NodeId}
    (hparent : tree.IsExpanded parent base) (hnone : ∀ child, ¬tree.HasRemainder parent child)
    (state : ConstrainedTerm) (depth : Nat) :
    ((tree.addRemainder parent state depth).addTransition parent tree.size
      .remainder).WellFormed := by
  have hpush : tree.addRemainder parent state depth = tree.push state depth base := by
    obtain ⟨node, hnode, hbase, -⟩ := hparent
    simp [ProofTree.addRemainder, hnode, hbase]
  have hlt : parent < tree.size := by
    obtain ⟨node, hnode, -⟩ := hparent
    exact lt_size_of_node? hnode
  have hhas : ∀ source target,
      ((tree.push state depth base).addTransition parent tree.size .remainder).HasRemainder
        source target ↔
      tree.HasRemainder source target ∨ source = parent ∧ target = tree.size :=
    (tree.push state depth base).hasRemainder_addTransition_remainder parent tree.size
  rw [hpush]
  refine ⟨⟨fun _ _ hnode => hwell.id_eq_push hnode, ?_, ?_, ?_⟩, ?_, ?_⟩
  · intro id node hnode hbase
    rw [node?_addTransition, node?_push] at hnode
    split at hnode
    · rename_i hid
      exact ⟨parent, (hhas parent id).2 (.inr ⟨rfl, hid⟩)⟩
    · obtain ⟨other, hother⟩ := hwell.exists_parent id node hnode hbase
      exact ⟨other, (hhas other id).2 (.inl hother)⟩
  · intro source target hremainder
    rcases (hhas source target).1 hremainder with hold | ⟨rfl, rfl⟩
    · exact hwell.remainder_push state depth base hold
    · refine ⟨hlt, ⟨tree.size, state, depth, base, .unexamined⟩, ?_, hparent.push _ _ _⟩
      rw [node?_addTransition, node?_push, if_pos rfl]
  · intro source target other htarget hother
    rcases (hhas source target).1 htarget with hold | ⟨rfl, rfl⟩
    · rcases (hhas source other).1 hother with hold' | ⟨rfl, rfl⟩
      · exact hwell.remainder_unique source target other hold hold'
      · exact absurd hold (hnone target)
    · rcases (hhas source other).1 hother with hold' | ⟨-, rfl⟩
      · exact absurd hold' (hnone other)
      · rfl
  · intro leaf earlier hcircularity
    have hold : tree.HasCircularity leaf earlier :=
      ((tree.push state depth base).hasCircularity_addTransition (by simp) _ _).1 hcircularity
    exact hwell.circularity_push state depth base hold
  · intro leaf leafBase earlier hcircular
    refine ((tree.push state depth base).hasCircularity_addTransition (by simp) _ _).2 ?_
    exact hwell.circular leaf leafBase earlier (isCircular_push.1 hcircular)

/-- An open leaf can be given any status but that of a circularity. -/
theorem setStatus (hwell : tree.WellFormed) {node : ProofNode} (hopen : tree.IsOpen node)
    {status : NodeStatus} (hstatus : ∀ earlier, status ≠ .circular earlier) :
    (tree.setStatus node.id status).WellFormed where
  toChained := hwell.toChained.setStatus hopen status
  circularity leaf earlier hcircularity := by
    obtain ⟨base, other, hcircular, hexpanded, hne⟩ := hwell.circularity leaf earlier hcircularity
    exact ⟨base, other, (isCircular_setStatus hopen status).2 (.inl hcircular),
      hexpanded.setStatus hopen status, hne⟩
  circular leaf base earlier hcircular := by
    rcases (isCircular_setStatus hopen status).1 hcircular with hold | ⟨-, -, hnew⟩
    · exact hwell.circular leaf base earlier hold
    · exact absurd hnew (hstatus earlier)

/-- An open leaf can be closed by an expanded node of another base. -/
theorem close (hwell : tree.WellFormed) {node : ProofNode} (hopen : tree.IsOpen node)
    {earlier other : NodeId} (hearlier : tree.IsExpanded earlier other) (hne : node.base ≠ other) :
    ((tree.setStatus node.id (.circular earlier)).addTransition node.id earlier
      .circularity).WellFormed where
  toChained := (hwell.toChained.setStatus hopen _).addTransition (by simp) _ _
  circularity leaf closed hcircularity := by
    rcases ((tree.setStatus node.id _).hasCircularity_addTransition_circularity _ _ _ _).1
      hcircularity with hold | ⟨rfl, rfl⟩
    · obtain ⟨base, second, hcircular, hexpanded, hbase⟩ := hwell.circularity leaf closed hold
      exact ⟨base, second, (isCircular_setStatus hopen _).2 (.inl hcircular),
        hexpanded.setStatus hopen _, hbase⟩
    · exact ⟨node.base, other, (isCircular_setStatus hopen _).2 (.inr ⟨rfl, rfl, rfl⟩),
        hearlier.setStatus hopen _, hne⟩
  circular leaf base closed hcircular := by
    refine ((tree.setStatus node.id _).hasCircularity_addTransition_circularity _ _ _ _).2 ?_
    rcases (isCircular_setStatus hopen _).1 hcircular with hold | ⟨rfl, -, hstatus⟩
    · exact .inl (hwell.circular leaf base closed hold)
    · cases hstatus
      exact .inr ⟨rfl, rfl⟩

end WellFormed

end SymbolicRewriting.ProofTree
