import Mathlib.Logic.Relation
import SymbolicRewriting.Proof.Prover
import SymbolicRewriting.Proofs.ProofGraph

/-!
What one leaf makes of a proof tree. A leaf is settled by what its examination finds; it is the only
node that changes, and what was there before stays.
-/

namespace SymbolicRewriting

open Relation

variable {σ : Type}

namespace ProofTree

/-- The later tree has the same nodes, and open ones. -/
structure Grows (tree later : ProofTree) : Prop where
  node?_eq : ∀ id node, tree.node? id = some node → later.node? id = some node
  unexamined : ∀ id node, tree.node? id = none → later.node? id = some node →
    node.status = .unexamined

theorem Grows.refl (tree : ProofTree) : tree.Grows tree where
  node?_eq _ _ hnode := hnode
  unexamined _ _ hnone hnode := by
    rw [hnone] at hnode
    cases hnode

theorem Grows.trans {tree middle later : ProofTree} (hfirst : tree.Grows middle)
    (hsecond : middle.Grows later) : tree.Grows later where
  node?_eq id node hnode := hsecond.node?_eq id node (hfirst.node?_eq id node hnode)
  unexamined id node hnone hnode := by
    cases hmiddle : middle.node? id with
    | none => exact hsecond.unexamined id node hmiddle hnode
    | some other =>
        rw [hsecond.node?_eq id other hmiddle, Option.some.injEq] at hnode
        exact hnode ▸ hfirst.unexamined id other hnone hmiddle

theorem grows_push (tree : ProofTree) (state : ConstrainedTerm) (depth : Nat) (base : NodeId) :
    tree.Grows (tree.push state depth base) where
  node?_eq id node hnode := node?_push_of_node? hnode state depth base
  unexamined id node hnone hnode := by
    rw [node?_push] at hnode
    split at hnode
    · cases hnode
      rfl
    · rw [hnone] at hnode
      cases hnode

theorem Grows.addTransition {tree later : ProofTree} (hgrows : tree.Grows later)
    (source target : NodeId) (justification : Justification) :
    tree.Grows (later.addTransition source target justification) :=
  ⟨hgrows.node?_eq, hgrows.unexamined⟩

theorem Grows.isExpanded {tree later : ProofTree} (hgrows : tree.Grows later) {id base : NodeId}
    (hexpanded : tree.IsExpanded id base) : later.IsExpanded id base := by
  obtain ⟨node, hnode, hrest⟩ := hexpanded
  exact ⟨node, hgrows.node?_eq id node hnode, hrest⟩

theorem grows_addSuccessors (parent : NodeId) (depth : Nat) (successors : List Successor)
    (tree : ProofTree) : tree.Grows (addSuccessors parent depth successors tree) := by
  induction successors generalizing tree with
  | nil => exact .refl tree
  | cons successor successors ih =>
      exact ((tree.grows_push successor.state depth tree.size).addTransition _ _ _).trans (ih _)

theorem hasRemainder_addSuccessors (parent : NodeId) (depth : Nat) (successors : List Successor)
    (tree : ProofTree) (source target : NodeId) :
    (addSuccessors parent depth successors tree).HasRemainder source target ↔
      tree.HasRemainder source target := by
  induction successors generalizing tree with
  | nil => rfl
  | cons successor successors ih =>
      refine (ih _).trans ?_
      exact (tree.addNode successor.state depth).hasRemainder_addTransition (by simp) _ _

theorem WellFormed.addSuccessors {tree : ProofTree} (hwell : tree.WellFormed) (parent : NodeId)
    (depth : Nat) (successors : List Successor) :
    (addSuccessors parent depth successors tree).WellFormed := by
  induction successors generalizing tree with
  | nil => exact hwell
  | cons successor successors ih =>
      exact ih ((hwell.addNode successor.state depth).addRule parent tree.size successor.rule)

theorem grows_addStep (tree : ProofTree) (parent : NodeId) (depth : Nat) (step : SymbolicStep) :
    tree.Grows (tree.addStep parent depth step) := by
  have hsuccessors := grows_addSuccessors parent depth step.successors tree
  unfold addStep addRemainderOf
  split
  · exact hsuccessors
  · exact hsuccessors.trans ((grows_push _ _ _ _).addTransition _ _ _)

theorem WellFormed.addStep {tree : ProofTree} (hwell : tree.WellFormed) {parent base : NodeId}
    (hparent : tree.IsExpanded parent base) (hnone : ∀ child, ¬tree.HasRemainder parent child)
    (depth : Nat) (step : SymbolicStep) : (tree.addStep parent depth step).WellFormed := by
  have hadded := hwell.addSuccessors parent depth step.successors
  unfold ProofTree.addStep addRemainderOf
  split
  · exact hadded
  · refine hadded.addRemainder ((grows_addSuccessors _ _ _ _).isExpanded hparent) ?_ _ _
    intro child hremainder
    exact hnone child ((hasRemainder_addSuccessors _ _ _ _ _ _).1 hremainder)

theorem WellFormed.not_hasRemainder {tree : ProofTree} (hwell : tree.WellFormed) {node : ProofNode}
    (hopen : tree.IsOpen node) (child : NodeId) : ¬tree.HasRemainder node.id child := by
  intro hremainder
  obtain ⟨-, _, -, hexpanded⟩ := hwell.remainder node.id child hremainder
  exact hopen.ne_of_isExpanded hexpanded rfl

/-- All nodes but the given one are in the later tree as they are. -/
def KeepsBut (id : NodeId) (tree later : ProofTree) : Prop :=
  ∀ other node, other ≠ id → tree.node? other = some node → later.node? other = some node

theorem keepsBut_setStatus (tree : ProofTree) (id : NodeId) (status : NodeStatus) :
    tree.KeepsBut id (tree.setStatus id status) := by
  intro other node hne hnode
  rw [node?_setStatus_of_ne _ _ hne, hnode]

theorem KeepsBut.isOpen {tree later : ProofTree} {id : NodeId} (hkeeps : tree.KeepsBut id later)
    {node : ProofNode} (hne : node.id ≠ id) (hopen : tree.IsOpen node) : later.IsOpen node :=
  ⟨hkeeps node.id node hne hopen.1, hopen.2⟩

end ProofTree

namespace ProofTree

/-- The node has been expanded since it was as given. -/
def HasExpanded (tree : ProofTree) (node : ProofNode) : Prop :=
  ∃ status : NodeStatus, tree.node? node.id = some { node with status } ∧ status.isExpanded = true

theorem HasExpanded.isExpanded {tree : ProofTree} {node : ProofNode}
    (hexpanded : tree.HasExpanded node) : tree.IsExpanded node.id node.base := by
  obtain ⟨status, hnode, hstatus⟩ := hexpanded
  exact ⟨_, hnode, rfl, hstatus⟩

theorem HasExpanded.ne_of_isOpen {tree : ProofTree} {node leaf : ProofNode}
    (hexpanded : tree.HasExpanded node) (hopen : tree.IsOpen leaf) : node.id ≠ leaf.id :=
  hopen.ne_of_isExpanded hexpanded.isExpanded

theorem KeepsBut.hasExpanded {tree later : ProofTree} {leaf node : ProofNode}
    (hkeeps : tree.KeepsBut leaf.id later) (hopen : tree.IsOpen leaf)
    (hexpanded : tree.HasExpanded node) : later.HasExpanded node := by
  have hne := hexpanded.ne_of_isOpen hopen
  obtain ⟨status, hnode, hstatus⟩ := hexpanded
  exact ⟨status, hkeeps node.id _ hne hnode, hstatus⟩

/-- The node stands in the way of a proof. -/
def IsOutstanding (tree : ProofTree) (id : NodeId) : Prop :=
  ∃ node, tree.node? id = some node ∧
    (node.status == .expanded || node.status.isClosed) = false

def Fails (tree : ProofTree) (id : NodeId) : Prop :=
  ∃ node, tree.node? id = some node ∧ node.status = .failed

theorem isComplete_iff {tree : ProofTree} :
    tree.isComplete = true ↔ ∀ id, ¬tree.IsOutstanding id := by
  unfold isComplete
  rw [Array.all_eq_true]
  constructor
  · rintro hall id ⟨node, hnode, hstatus⟩
    obtain ⟨hlt, hget⟩ := Array.getElem?_eq_some_iff.1 hnode
    have hsettled := hall id hlt
    rw [hget, hstatus] at hsettled
    cases hsettled
  · intro hnone id hlt
    cases hstatus : tree.nodes[id].status == .expanded || tree.nodes[id].status.isClosed with
    | true => rfl
    | false => exact absurd ⟨_, Array.getElem?_eq_getElem hlt, hstatus⟩ (hnone id)

theorem IsOutstanding.lt_size {tree : ProofTree} {id : NodeId}
    (houtstanding : tree.IsOutstanding id) : id < tree.size := by
  obtain ⟨node, hnode, -⟩ := houtstanding
  exact lt_size_of_node? hnode

theorem Fails.isOutstanding {tree : ProofTree} {id : NodeId} (hfails : tree.Fails id) :
    tree.IsOutstanding id := by
  obtain ⟨node, hnode, hstatus⟩ := hfails
  exact ⟨node, hnode, by rw [hstatus]; rfl⟩

theorem IsOpen.isOutstanding {tree : ProofTree} {node : ProofNode} (hopen : tree.IsOpen node) :
    tree.IsOutstanding node.id :=
  ⟨node, hopen.1, by rw [hopen.2]; rfl⟩

theorem KeepsBut.fails {tree later : ProofTree} {leaf : ProofNode} {id : NodeId}
    (hkeeps : tree.KeepsBut leaf.id later) (hopen : tree.IsOpen leaf) (hfails : tree.Fails id) :
    later.Fails id := by
  obtain ⟨node, hnode, hstatus⟩ := hfails
  have hne : id ≠ leaf.id := hopen.ne_of_status hnode (by rw [hstatus]; simp)
  exact ⟨node, hkeeps id node hne hnode, hstatus⟩

theorem KeepsBut.isOutstanding {tree later : ProofTree} {id other : NodeId}
    (hkeeps : tree.KeepsBut id later) (hne : other ≠ id) (houtstanding : tree.IsOutstanding other) :
    later.IsOutstanding other := by
  obtain ⟨node, hnode, hstatus⟩ := houtstanding
  exact ⟨node, hkeeps other node hne hnode, hstatus⟩

end ProofTree

/-- The status of a leaf from which the step was taken. -/
def SymbolicStep.status (step : SymbolicStep) : NodeStatus :=
  match step.successors.isEmpty, decide (step.undecided > 0) with
  | true, true => .undecided
  | true, false => .failed
  | false, true => .partlyExpanded
  | false, false => .expanded

theorem SymbolicStep.isExpanded_status_iff (step : SymbolicStep) :
    step.status.isExpanded = true ↔ step.successors ≠ [] := by
  rw [ne_eq, ← List.isEmpty_iff]
  unfold status
  cases step.successors.isEmpty <;> cases decide (step.undecided > 0) <;>
    simp [NodeStatus.isExpanded]

namespace Prover

/-- What the examination of a leaf may find while the tree has the nodes that could close it. -/
inductive Finds (prover : Prover σ) (target : ConstrainedTerm) (tree : ProofTree)
    (leaf : ProofNode) : Examination → Prop
  | skipped : Finds prover target tree leaf .skipped
  | target {start next : RunState σ} (hcovers : prover.covers target leaf.state start = .ok true next) :
      Finds prover target tree leaf .target
  | circular {earlier : ProofNode} {start next : RunState σ} (hexpanded : tree.HasExpanded earlier)
      (hbase : earlier.base ≠ leaf.base)
      (hcovers : prover.covers earlier.state leaf.state start = .ok true next) :
      Finds prover target tree leaf (.circular earlier.id)
  | stepped {step : SymbolicStep} {start between first next : RunState σ}
      (hcovers : prover.covers target leaf.state start = .ok false between)
      (hstep : prover.machine.stepSymbolic leaf.state first = .ok step next) :
      Finds prover target tree leaf (.stepped step)

/-- A leaf of the tree is settled by what its examination found. -/
inductive Settles (prover : Prover σ) (target : ConstrainedTerm) (tree : ProofTree) :
    ProofTree → Prop
  | target {leaf : ProofNode} (hopen : tree.IsOpen leaf)
      (hfound : prover.Finds target tree leaf .target) :
      Settles prover target tree (tree.setStatus leaf.id .target)
  | circular {leaf : ProofNode} {earlier : NodeId} (hopen : tree.IsOpen leaf)
      (hfound : prover.Finds target tree leaf (.circular earlier)) :
      Settles prover target tree
        ((tree.setStatus leaf.id (.circular earlier)).addTransition leaf.id earlier .circularity)
  | ended {leaf : ProofNode} {step : SymbolicStep} (hopen : tree.IsOpen leaf)
      (hfound : prover.Finds target tree leaf (.stepped step)) (hnone : step.successors = []) :
      Settles prover target tree (tree.setStatus leaf.id step.status)
  | expanded {leaf : ProofNode} {step : SymbolicStep} (hopen : tree.IsOpen leaf)
      (hfound : prover.Finds target tree leaf (.stepped step)) (hsome : step.successors ≠ []) :
      Settles prover target tree
        ((tree.setStatus leaf.id step.status).addStep leaf.id (leaf.depth + 1) step)

variable {prover : Prover σ} {target : ConstrainedTerm} {tree later : ProofTree}

theorem Finds.keepsBut {leaf other : ProofNode} {examination : Examination}
    (hfinds : prover.Finds target tree other examination) (hkeeps : tree.KeepsBut leaf.id later)
    (hopen : tree.IsOpen leaf) : prover.Finds target later other examination := by
  cases hfinds with
  | skipped => exact .skipped
  | target hcovers => exact .target hcovers
  | circular hexpanded hbase hcovers =>
      exact .circular (hkeeps.hasExpanded hopen hexpanded) hbase hcovers
  | stepped hcovers hstep => exact .stepped hcovers hstep

/-- A settled leaf was open, all other nodes stay, and what is added is open. -/
theorem Settles.exists_keepsBut (hsettles : prover.Settles target tree later) :
    ∃ leaf, tree.IsOpen leaf ∧ tree.KeepsBut leaf.id later ∧
      (∃ status, later.node? leaf.id = some { leaf with status }) ∧
      ∀ id node, tree.node? id = none → later.node? id = some node → node.status = .unexamined := by
  have hnew : ∀ leaf status id node, tree.node? id = none →
      (tree.setStatus leaf status).node? id = some node → node.status = .unexamined := by
    intro leaf status id node hnone hnode
    rw [ProofTree.node?_setStatus, hnone] at hnode
    split at hnode <;> cases hnode
  cases hsettles with
  | @target leaf hopen _ =>
      exact ⟨leaf, hopen, tree.keepsBut_setStatus _ _,
        ⟨_, ProofTree.node?_setStatus_self hopen _⟩, hnew _ _⟩
  | @circular leaf earlier hopen _ =>
      exact ⟨leaf, hopen, tree.keepsBut_setStatus _ _,
        ⟨_, ProofTree.node?_setStatus_self hopen _⟩, hnew _ _⟩
  | @ended leaf step hopen _ _ =>
      exact ⟨leaf, hopen, tree.keepsBut_setStatus _ _,
        ⟨_, ProofTree.node?_setStatus_self hopen _⟩, hnew _ _⟩
  | @expanded leaf step hopen _ _ =>
      have hgrows := (tree.setStatus leaf.id step.status).grows_addStep leaf.id (leaf.depth + 1) step
      refine ⟨leaf, hopen, ?_,
        ⟨_, hgrows.node?_eq _ _ (ProofTree.node?_setStatus_self hopen _)⟩, ?_⟩
      · intro other node hne hnode
        exact hgrows.node?_eq other node (tree.keepsBut_setStatus leaf.id _ other node hne hnode)
      · intro id node hnone hnode
        cases hmiddle : (tree.setStatus leaf.id step.status).node? id with
        | none => exact hgrows.unexamined id node hmiddle hnode
        | some middle =>
            rw [hgrows.node?_eq id middle hmiddle, Option.some.injEq] at hnode
            exact hnode ▸ hnew leaf.id _ id middle hnone hmiddle

theorem Settles.wellFormed (hsettles : prover.Settles target tree later)
    (hwell : tree.WellFormed) : later.WellFormed := by
  have hstatus : ∀ (step : SymbolicStep) earlier, step.status ≠ .circular earlier := by
    intro step earlier
    unfold SymbolicStep.status
    split <;> simp
  cases hsettles with
  | target hopen _ => exact hwell.setStatus hopen (by simp)
  | circular hopen hfinds =>
      cases hfinds with
      | circular hexpanded hbase _ => exact hwell.close hopen hexpanded.isExpanded hbase.symm
  | @ended leaf step hopen _ _ => exact hwell.setStatus hopen (hstatus step)
  | @expanded leaf step hopen _ hsome =>
      have hself : (tree.setStatus leaf.id step.status).IsExpanded leaf.id leaf.base := by
        refine ⟨_, ProofTree.node?_setStatus_self hopen step.status, rfl, ?_⟩
        exact step.isExpanded_status_iff.2 hsome
      refine (hwell.setStatus hopen (hstatus step)).addStep hself ?_ _ step
      exact fun child hremainder => hwell.not_hasRemainder hopen child hremainder

/-- A node that is not open stays as it is. -/
theorem node?_of_settles (hsettles : ReflTransGen (prover.Settles target) tree later) {id : NodeId}
    {node : ProofNode} (hnode : tree.node? id = some node) (hstatus : node.status ≠ .unexamined) :
    later.node? id = some node := by
  induction hsettles with
  | refl => exact hnode
  | tail _ hstep ih =>
      obtain ⟨leaf, hopen, hkeeps, -⟩ := hstep.exists_keepsBut
      exact hkeeps id node (hopen.ne_of_status ih hstatus) ih

theorem fails_of_settles (hsettles : ReflTransGen (prover.Settles target) tree later) {id : NodeId}
    (hfails : tree.Fails id) : later.Fails id := by
  obtain ⟨node, hnode, hstatus⟩ := hfails
  exact ⟨node, node?_of_settles hsettles hnode (by rw [hstatus]; simp), hstatus⟩

theorem wellFormed_of_settles (hsettles : ReflTransGen (prover.Settles target) tree later)
    (hwell : tree.WellFormed) : later.WellFormed := by
  induction hsettles with
  | refl => exact hwell
  | tail _ hstep ih => exact hstep.wellFormed ih

end Prover

end SymbolicRewriting
