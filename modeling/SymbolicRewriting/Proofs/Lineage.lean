import SymbolicRewriting.Proofs.Congruence
import SymbolicRewriting.Proofs.Coverage
import SymbolicRewriting.Proofs.Unfolding

/-!
Where the nodes of a proof tree come from, and what their transitions say. A node is settled once,
while it is open: it is closed, or ends a branch, or is expanded by a step. Each node but the first
is a child that some step has added, and every transition from a node is a part of what settled it.
-/

namespace SymbolicRewriting

open Relation

variable {σ : Type}

namespace Machine

variable {machine : Machine σ} {state : ConstrainedTerm} {start next : RunState σ}
  {step : SymbolicStep}

theorem prefix_of_child (hrun : machine.stepSymbolic state start = .ok step next) :
    ∀ child ∈ step.children, state.condition.conjuncts <+: child.2.condition.conjuncts := by
  obtain ⟨guarded, between, hguarded, hcomplete⟩ := Run.bind_eq_ok.1 hrun
  have hunder : guarded.Under state.condition :=
    machine.symbolicRules_under state _ (by simp [Guarded.All]) _ _ _ hguarded
  obtain ⟨hsuccessors, hcompletion⟩ := completion_of_completeStep hcomplete
  intro child hmem
  rcases SymbolicStep.mem_children_iff.1 hmem with ⟨successor, htook, rfl⟩ | ⟨remainder, hsome, rfl⟩
  · obtain ⟨guard, -, hcondition⟩ := hunder.exists_guard (hsuccessors ▸ htook)
    rw [hcondition]
    exact state.condition.prefix_assumeAll _
  · rw [(hcompletion.condition_of_remainder hsome).2]
    exact state.condition.prefix_assumeAll _

theorem remainder_of_step (hrun : machine.stepSymbolic state start = .ok step next)
    {remainder : ConstrainedTerm} (hsome : step.remainder = some remainder) :
    remainder.term = state.term ∧
      state.condition.conjuncts.length < remainder.condition.conjuncts.length := by
  have hprefix := prefix_of_child hrun (.remainder, remainder)
    (SymbolicStep.mem_children_iff.2 (.inr ⟨remainder, hsome, rfl⟩))
  obtain ⟨guarded, between, hguarded, hcomplete⟩ := Run.bind_eq_ok.1 hrun
  obtain ⟨-, hcompletion⟩ := completion_of_completeStep hcomplete
  cases hcompletion with
  | covered _ hnone | refuted _ hnone _ | inseparable _ hnone => simp [hnone] at hsome
  | split _ hremainder _ _ hnew =>
      obtain rfl := Option.some.inj (hremainder.symm.trans hsome)
      refine ⟨rfl, Nat.lt_of_le_of_ne hprefix.length_le fun hlength => ?_⟩
      -- a condition that has not grown is the one of the state
      have hequal : (state.condition.uncovered guarded.guards == state.condition) = true := by
        change (_ == _ && _ == _) = true
        rw [Bool.and_eq_true, beq_iff_eq, Term.list_beq_iff]
        refine ⟨hlength.symm, ?_⟩
        rw [← hprefix.eq_of_length hlength]
        exact List.forall₂_same.2 fun term _ => term.beq_refl
      rw [hnew] at hequal
      cases hequal

end Machine

/-- The node as it was when it was added. -/
def ProofNode.reopened (node : ProofNode) : ProofNode := { node with status := .unexamined }

namespace ProofTree

/-- A leaf is settled by what its examination has found. -/
inductive SettledBy (tree : ProofTree) (leaf : ProofNode) : Examination → ProofTree → Prop
  | target : SettledBy tree leaf .target (tree.setStatus leaf.id .target)
  | circular {earlier : NodeId} (hearlier : earlier < tree.size) :
      SettledBy tree leaf (.circular earlier)
        ((tree.setStatus leaf.id (.circular earlier)).addTransition leaf.id earlier .circularity)
  | ended {step : SymbolicStep} (hnone : step.successors = []) :
      SettledBy tree leaf (.stepped step) (tree.setStatus leaf.id step.status)
  | expanded {step : SymbolicStep} (hsome : step.successors ≠ []) :
      SettledBy tree leaf (.stepped step)
        ((tree.setStatus leaf.id step.status).addStep leaf.id (leaf.depth + 1) step)

/-- The transitions to a node by which it has been added, not those that close other nodes. -/
def incoming (tree : ProofTree) (id : NodeId) : List ProofTransition :=
  tree.transitions.toList.filter fun transition =>
    transition.target == id && transition.justification != .circularity

/-- The transitions from a node lead to the given children, in order. -/
def LeadsTo (tree : ProofTree) (id : NodeId) (children : List (Justification × ConstrainedTerm)) :
    Prop :=
  List.Forall₂ (fun transition child => transition.source = id ∧
      transition.justification = child.1 ∧
      ∃ node, tree.node? transition.target = some node ∧ node.state = child.2)
    (tree.outgoing id) children

/-- The examination that the status of the node speaks of is warranted, and the transitions from
the node are the part of it that the tree records. -/
def Accounts (warrants : ProofNode → Examination → Prop) (tree : ProofTree) (node : ProofNode) :
    Prop :=
  match node.status with
  | .unexamined => tree.outgoing node.id = []
  | .target => warrants node.reopened .target ∧ tree.outgoing node.id = []
  | .circular earlier => warrants node.reopened (.circular earlier) ∧
      tree.outgoing node.id = [⟨node.id, earlier, .circularity⟩]
  | .failed | .undecided =>
      (∃ step, warrants node.reopened (.stepped step) ∧ step.status = node.status) ∧
        tree.outgoing node.id = []
  | .expanded | .partlyExpanded =>
      ∃ step, warrants node.reopened (.stepped step) ∧ step.status = node.status ∧
        tree.LeadsTo node.id step.children

/-- The only transition to the child, apart from circularities, is from the node by whose step it
has been added. -/
def HasParent (warrants : ProofNode → Examination → Prop) (tree : ProofTree) (child : ProofNode) :
    Prop :=
  ∃ parent justification step, tree.incoming child.id = [⟨parent.id, child.id, justification⟩] ∧
    tree.node? parent.id = some parent ∧ parent.id < child.id ∧
    parent.status.isExpanded = true ∧ warrants parent.reopened (.stepped step) ∧
    (justification, child.state) ∈ step.children ∧ child.depth = parent.depth + 1 ∧
    child.base = childBase parent.base child.id justification

structure Documented (warrants : ProofNode → Examination → Prop) (initial : ConstrainedTerm)
    (tree : ProofTree) : Prop where
  id_eq : ∀ id node, tree.node? id = some node → node.id = id
  root : ∃ node, tree.node? 0 = some node ∧ node.state = initial ∧ node.depth = 0
  within : ∀ transition ∈ tree.transitions,
    transition.source < tree.size ∧ transition.target < tree.size
  parent : ∀ id node, tree.node? id = some node → id ≠ 0 → tree.HasParent warrants node
  accounts : ∀ id node, tree.node? id = some node → tree.Accounts warrants node

theorem outgoing_eq (tree : ProofTree) (id : NodeId) :
    tree.outgoing id = tree.transitions.toList.filter fun transition => transition.source == id := by
  rw [outgoing, Array.toList_filter]

section

variable {warrants : ProofNode → Examination → Prop} {initial : ConstrainedTerm}
  {tree later : ProofTree} {leaf : ProofNode}

theorem Documented.outgoing_eq_nil (hdocumented : tree.Documented warrants initial) {id : NodeId}
    (hid : tree.size ≤ id) : tree.outgoing id = [] := by
  rw [outgoing_eq, List.filter_eq_nil_iff]
  intro transition hmem hsource
  have := (hdocumented.within transition (Array.mem_toList_iff.1 hmem)).1
  rw [beq_iff_eq.1 hsource] at this
  exact absurd this (Nat.not_lt_of_ge hid)

theorem Documented.incoming_eq_nil (hdocumented : tree.Documented warrants initial) {id : NodeId}
    (hid : tree.size ≤ id) : tree.incoming id = [] := by
  rw [incoming, List.filter_eq_nil_iff]
  intro transition hmem htarget
  have := (hdocumented.within transition (Array.mem_toList_iff.1 hmem)).2
  rw [Bool.and_eq_true, beq_iff_eq] at htarget
  rw [htarget.1] at this
  exact absurd this (Nat.not_lt_of_ge hid)

theorem LeadsTo.evolves {id : NodeId} {children : List (Justification × ConstrainedTerm)}
    (hleads : tree.LeadsTo id children) (hevolves : tree.Evolves later)
    (houtgoing : later.outgoing id = tree.outgoing id) : later.LeadsTo id children := by
  unfold LeadsTo at hleads ⊢
  rw [houtgoing]
  refine hleads.imp ?_
  rintro transition child ⟨hsource, hjustification, node, hnode, hstate⟩
  obtain ⟨status, hlater, -⟩ := hevolves.node _ node hnode
  exact ⟨hsource, hjustification, _, hlater, hstate⟩

theorem LeadsTo.justification_ne {id : NodeId} {step : SymbolicStep}
    (hleads : tree.LeadsTo id step.children) {transition : ProofTransition}
    (hmem : transition ∈ tree.outgoing id) : transition.justification ≠ .circularity := by
  obtain ⟨child, hchild, -, hjustification, -⟩ := exists_mem_of_forall₂ hleads.flip hmem
  rw [hjustification]
  exact step.ne_circularity_of_mem hchild

theorem Accounts.evolves {node : ProofNode} (haccounts : tree.Accounts warrants node)
    (hevolves : tree.Evolves later) (houtgoing : later.outgoing node.id = tree.outgoing node.id) :
    later.Accounts warrants node := by
  unfold Accounts at haccounts ⊢
  split at haccounts
  · exact houtgoing.trans haccounts
  · exact ⟨haccounts.1, houtgoing.trans haccounts.2⟩
  · exact ⟨haccounts.1, houtgoing.trans haccounts.2⟩
  · exact ⟨haccounts.1, houtgoing.trans haccounts.2⟩
  · exact ⟨haccounts.1, houtgoing.trans haccounts.2⟩
  · obtain ⟨step, hwarrants, hstatus, hleads⟩ := haccounts
    exact ⟨step, hwarrants, hstatus, hleads.evolves hevolves houtgoing⟩
  · obtain ⟨step, hwarrants, hstatus, hleads⟩ := haccounts
    exact ⟨step, hwarrants, hstatus, hleads.evolves hevolves houtgoing⟩

theorem HasParent.evolves {child : ProofNode} (hparent : tree.HasParent warrants child)
    (hevolves : tree.Evolves later) (hincoming : later.incoming child.id = tree.incoming child.id)
    (status : NodeStatus) : later.HasParent warrants { child with status } := by
  obtain ⟨parent, justification, step, hsingle, hnode, hlt, hexpanded, hrest⟩ := hparent
  exact ⟨parent, justification, step, hincoming.trans hsingle, hevolves.isExpanded hnode hexpanded,
    hlt, hexpanded, hrest⟩

theorem Accounts.mono {wider : ProofNode → Examination → Prop} {node : ProofNode}
    (haccounts : tree.Accounts warrants node)
    (hwider : ∀ leaf examination, warrants leaf examination → wider leaf examination) :
    tree.Accounts wider node := by
  unfold Accounts at haccounts ⊢
  split at haccounts
  · exact haccounts
  · exact ⟨hwider _ _ haccounts.1, haccounts.2⟩
  · exact ⟨hwider _ _ haccounts.1, haccounts.2⟩
  · exact haccounts.imp_left fun ⟨step, hwarrants, hstatus⟩ => ⟨step, hwider _ _ hwarrants, hstatus⟩
  · exact haccounts.imp_left fun ⟨step, hwarrants, hstatus⟩ => ⟨step, hwider _ _ hwarrants, hstatus⟩
  · exact haccounts.imp fun step hstep => hstep.imp_left (hwider _ _)
  · exact haccounts.imp fun step hstep => hstep.imp_left (hwider _ _)

theorem Documented.mono {wider : ProofNode → Examination → Prop}
    (hdocumented : tree.Documented warrants initial)
    (hwider : ∀ leaf examination, warrants leaf examination → wider leaf examination) :
    tree.Documented wider initial where
  id_eq := hdocumented.id_eq
  root := hdocumented.root
  within := hdocumented.within
  parent id node hnode hroot := by
    obtain ⟨parent, justification, step, hsingle, hparent, hlt, hexpanded, hwarrants, hrest⟩ :=
      hdocumented.parent id node hnode hroot
    exact ⟨parent, justification, step, hsingle, hparent, hlt, hexpanded, hwider _ _ hwarrants, hrest⟩
  accounts id node hnode := (hdocumented.accounts id node hnode).mono hwider

/-- What has to be shown where a leaf is settled. -/
theorem Documented.of_evolves (hdocumented : tree.Documented warrants initial)
    (hevolves : tree.Evolves later) {status : NodeStatus}
    (hwithin : ∀ transition ∈ later.transitions,
      transition.source < later.size ∧ transition.target < later.size)
    (hincoming : ∀ id < tree.size, later.incoming id = tree.incoming id)
    (houtgoing : ∀ id < tree.size, id ≠ leaf.id → later.outgoing id = tree.outgoing id)
    (hleaf : later.node? leaf.id = some { leaf with status } ∧
      later.Accounts warrants { leaf with status })
    (hothers : ∀ id node, id ≠ leaf.id → tree.node? id = some node → later.node? id = some node)
    (hnew : ∀ id node, tree.node? id = none → later.node? id = some node →
      node.id = id ∧ later.HasParent warrants node ∧ later.Accounts warrants node) :
    later.Documented warrants initial where
  id_eq id node hnode := by
    cases hold : tree.node? id with
    | none => exact (hnew id node hold hnode).1
    | some old =>
        obtain ⟨status, hlater, -⟩ := hevolves.node id old hold
        obtain rfl := Option.some.inj (hnode.symm.trans hlater)
        exact hdocumented.id_eq id old hold
  root := by
    obtain ⟨node, hnode, hstate, hdepth⟩ := hdocumented.root
    obtain ⟨status, hlater, -⟩ := hevolves.node 0 node hnode
    exact ⟨_, hlater, hstate, hdepth⟩
  within := hwithin
  parent id node hnode hroot := by
    cases hold : tree.node? id with
    | none => exact (hnew id node hold hnode).2.1
    | some old =>
        obtain ⟨status, hlater, -⟩ := hevolves.node id old hold
        obtain rfl := Option.some.inj (hnode.symm.trans hlater)
        refine (hdocumented.parent id old hold hroot).evolves hevolves ?_ status
        rw [hdocumented.id_eq id old hold]
        exact hincoming id (lt_size_of_node? hold)
  accounts id node hnode := by
    cases hold : tree.node? id with
    | none => exact (hnew id node hold hnode).2.2
    | some old =>
        by_cases hid : id = leaf.id
        · rw [hid] at hnode
          rw [Option.some.inj (hnode.symm.trans hleaf.1)]
          exact hleaf.2
        · obtain rfl := Option.some.inj (hnode.symm.trans (hothers id old hid hold))
          have hsame := hdocumented.id_eq id node hold
          refine (hdocumented.accounts id node hold).evolves hevolves ?_
          rw [hsame]
          exact houtgoing id (lt_size_of_node? hold) hid

/-- A leaf that is not expanded gets at most a circularity. -/
theorem Documented.settle (hdocumented : tree.Documented warrants initial)
    (hopen : tree.IsOpen leaf) {status : NodeStatus}
    (hnodes : later.nodes = (tree.setStatus leaf.id status).nodes)
    {added : List ProofTransition}
    (htransitions : later.transitions.toList = tree.transitions.toList ++ added)
    (hadded : ∀ transition ∈ added, transition.source = leaf.id ∧
      transition.target < tree.size ∧ transition.justification = .circularity)
    (hleaf : later.Accounts warrants { leaf with status }) :
    later.Documented warrants initial := by
  have hnode? (id : NodeId) : later.node? id = (tree.setStatus leaf.id status).node? id := by
    unfold node?
    rw [hnodes]
  have hsize : later.size = tree.size := by
    rw [size, hnodes]
    exact tree.size_setStatus leaf.id status
  have hlt : leaf.id < tree.size := lt_size_of_node? hopen.1
  have hself : later.node? leaf.id = some { leaf with status } := by
    rw [hnode?, node?_setStatus_self hopen]
  have hothers : ∀ id node, id ≠ leaf.id → tree.node? id = some node →
      later.node? id = some node := by
    intro id node hne hnode
    rw [hnode?]
    exact tree.keepsBut_setStatus leaf.id status id node hne hnode
  have hevolves : tree.Evolves later := by
    refine ⟨fun id node hnode => ?_, fun transition hmem => ?_⟩
    · rw [hnode?]
      exact (evolves_setStatus hopen status).node id node hnode
    · rw [← Array.mem_toList_iff, htransitions]
      exact List.mem_append_left _ (Array.mem_toList_iff.2 hmem)
  refine hdocumented.of_evolves hevolves ?_ ?_ ?_ ⟨hself, hleaf⟩ hothers ?_
  · intro transition hmem
    rw [← Array.mem_toList_iff, htransitions, List.mem_append] at hmem
    rw [hsize]
    rcases hmem with hold | hnew
    · exact hdocumented.within transition (Array.mem_toList_iff.1 hold)
    · obtain ⟨hsource, htarget, -⟩ := hadded transition hnew
      exact ⟨hsource ▸ hlt, htarget⟩
  · intro id _
    have hnone : (added.filter fun transition =>
        transition.target == id && transition.justification != .circularity) = [] := by
      refine List.filter_eq_nil_iff.2 fun transition hmem => ?_
      simp [(hadded transition hmem).2.2]
    rw [incoming, incoming, htransitions, List.filter_append, hnone, List.append_nil]
  · intro id _ hne
    have hnone : (added.filter fun transition => transition.source == id) = [] := by
      refine List.filter_eq_nil_iff.2 fun transition hmem => ?_
      simpa [(hadded transition hmem).1] using hne.symm
    rw [outgoing_eq, outgoing_eq, htransitions, List.filter_append, hnone, List.append_nil]
  · intro id node hnone hnode
    rw [hnode?, node?_setStatus, hnone] at hnode
    split at hnode <;> cases hnode

theorem forall₂_childTransitions {relates : ProofTransition → Justification × ConstrainedTerm → Prop}
    {parent first : NodeId} {children : List (Justification × ConstrainedTerm)}
    (hchildren : ∀ index child, children[index]? = some child →
      relates ⟨parent, first + index, child.1⟩ child) :
    List.Forall₂ relates (childTransitions parent first children) children := by
  induction children generalizing first with
  | nil => exact .nil
  | cons child children ih =>
      refine .cons (hchildren 0 child rfl) (ih fun index other hother => ?_)
      have hlater := hchildren (index + 1) other (by simpa using hother)
      rwa [Nat.add_comm index, ← Nat.add_assoc] at hlater

/-- Each child has one transition that leads to it. -/
theorem filter_childTransitions {parent first index : NodeId}
    {children : List (Justification × ConstrainedTerm)} {child : Justification × ConstrainedTerm}
    (hindex : children[index]? = some child) :
    ((childTransitions parent first children).filter fun transition =>
      transition.target == first + index) = [⟨parent, first + index, child.1⟩] := by
  induction children generalizing first index with
  | nil => simp at hindex
  | cons other children ih =>
      change List.filter _ (⟨parent, first, other.1⟩ :: childTransitions parent (first + 1) children)
        = _
      cases index with
      | zero =>
          obtain rfl : other = child := by simpa using hindex
          have hnone : ((childTransitions parent (first + 1) children).filter fun transition =>
              transition.target == first + 0) = [] := by
            refine List.filter_eq_nil_iff.2 fun transition hmem => ?_
            obtain ⟨index, child, -, rfl⟩ := mem_childTransitions_iff.1 hmem
            intro hfirst
            have hlt : first < first + 1 + index := Nat.lt_add_right index (Nat.lt_add_one first)
            exact absurd (beq_iff_eq.1 hfirst) (Nat.ne_of_gt hlt)
          rw [List.filter_cons_of_pos (by simp), hnone]
          rfl
      | succ index =>
          have hlater := @ih (first + 1) index (by simpa using hindex)
          have hsame : first + 1 + index = first + (index + 1) := Nat.add_right_comm first 1 index
          rw [hsame] at hlater
          rw [List.filter_cons_of_neg (by simp)]
          exact hlater

theorem IsOpen.reopened_eq (hopen : tree.IsOpen leaf) (status : NodeStatus) :
    ({ leaf with status } : ProofNode).reopened = leaf := by
  simp only [ProofNode.reopened, ← hopen.2]

theorem Documented.outgoing_of_isOpen (hdocumented : tree.Documented warrants initial)
    (hopen : tree.IsOpen leaf) : tree.outgoing leaf.id = [] := by
  have haccounts := hdocumented.accounts leaf.id leaf hopen.1
  unfold Accounts at haccounts
  rwa [hopen.2] at haccounts

theorem Evolves.lt_size (hevolves : tree.Evolves later) {id : NodeId} (hlt : id < tree.size) :
    id < later.size := by
  obtain ⟨status, hlater, -⟩ := hevolves.node id _ (Array.getElem?_eq_getElem hlt)
  exact lt_size_of_node? hlater

section

variable {step : SymbolicStep} (hexpanded : tree.ExpandedBy leaf step later)
include hexpanded

theorem ExpandedBy.incoming_eq (id : NodeId) :
    later.incoming id = tree.incoming id ++
      (childTransitions leaf.id tree.size step.children).filter fun transition =>
        transition.target == id := by
  have hchildren : ((childTransitions leaf.id tree.size step.children).filter fun transition =>
      transition.target == id && transition.justification != .circularity) =
      (childTransitions leaf.id tree.size step.children).filter fun transition =>
        transition.target == id := by
    refine List.filter_congr fun transition hmem => ?_
    obtain ⟨index, child, hindex, rfl⟩ := mem_childTransitions_iff.1 hmem
    simp [step.ne_circularity_of_mem (List.mem_of_getElem? hindex)]
  rw [incoming, hexpanded.transitions, List.filter_append, hchildren, incoming]

theorem ExpandedBy.outgoing_eq_of_ne {id : NodeId} (hne : id ≠ leaf.id) :
    later.outgoing id = tree.outgoing id := by
  have hnone : ((childTransitions leaf.id tree.size step.children).filter fun transition =>
      transition.source == id) = [] := by
    refine List.filter_eq_nil_iff.2 fun transition hmem => ?_
    obtain ⟨index, child, -, rfl⟩ := mem_childTransitions_iff.1 hmem
    simpa using hne.symm
  rw [outgoing_eq, outgoing_eq, hexpanded.transitions, List.filter_append, hnone, List.append_nil]

theorem ExpandedBy.outgoing_self :
    later.outgoing leaf.id =
      tree.outgoing leaf.id ++ childTransitions leaf.id tree.size step.children := by
  have hall : ((childTransitions leaf.id tree.size step.children).filter fun transition =>
      transition.source == leaf.id) = childTransitions leaf.id tree.size step.children := by
    refine List.filter_eq_self.2 fun transition hmem => ?_
    obtain ⟨index, child, -, rfl⟩ := mem_childTransitions_iff.1 hmem
    simp
  rw [outgoing_eq, outgoing_eq, hexpanded.transitions, List.filter_append, hall]

theorem ExpandedBy.leadsTo (hnone : tree.outgoing leaf.id = []) :
    later.LeadsTo leaf.id step.children := by
  unfold LeadsTo
  rw [hexpanded.outgoing_self, hnone, List.nil_append]
  refine forall₂_childTransitions fun index child hindex => ⟨rfl, rfl, ?_⟩
  exact ⟨_, hexpanded.child index child hindex, rfl⟩

/-- A leaf is expanded by a step that is warranted. -/
theorem Documented.expand (hdocumented : tree.Documented warrants initial)
    (hopen : tree.IsOpen leaf) (hsome : step.successors ≠ [])
    (hwarrants : warrants leaf (.stepped step)) : later.Documented warrants initial := by
  have hevolves := hexpanded.evolves hopen
  have hlt : leaf.id < tree.size := lt_size_of_node? hopen.1
  have hreopened := hopen.reopened_eq step.status
  have hstatus : step.status.isExpanded = true := step.isExpanded_status_iff.2 hsome
  refine hdocumented.of_evolves hevolves ?_ ?_ ?_ ⟨hexpanded.parent, ?_⟩ hexpanded.others ?_
  · intro transition hmem
    rcases (hexpanded.transition transition).1 hmem with hold | ⟨index, child, hindex, rfl⟩
    · obtain ⟨hsource, htarget⟩ := hdocumented.within transition hold
      exact ⟨hevolves.lt_size hsource, hevolves.lt_size htarget⟩
    · exact ⟨hevolves.lt_size hlt, lt_size_of_node? (hexpanded.child index child hindex)⟩
  · intro id hid
    have hnone : ((childTransitions leaf.id tree.size step.children).filter fun transition =>
        transition.target == id) = [] := by
      refine List.filter_eq_nil_iff.2 fun transition hmem => ?_
      obtain ⟨index, child, -, rfl⟩ := mem_childTransitions_iff.1 hmem
      simpa using Nat.ne_of_gt (Nat.lt_of_lt_of_le hid (Nat.le_add_right _ index))
    rw [hexpanded.incoming_eq, hnone, List.append_nil]
  · exact fun id _ hne => hexpanded.outgoing_eq_of_ne hne
  · have hleads := hexpanded.leadsTo (hdocumented.outgoing_of_isOpen hopen)
    have hrecorded : ∃ other, warrants ({ leaf with status := step.status } : ProofNode).reopened
        (.stepped other) ∧ other.status = step.status ∧ later.LeadsTo leaf.id other.children :=
      ⟨step, hreopened.symm ▸ hwarrants, rfl, hleads⟩
    unfold Accounts
    cases hcase : step.status <;> rw [hcase] at hstatus hrecorded <;> first
      | exact hrecorded
      | cases hstatus
  · intro id node hnone hnode
    obtain ⟨index, child, hindex, rfl⟩ := hexpanded.exists_child id node hnone hnode
    obtain rfl := Option.some.inj (hnode.symm.trans (hexpanded.child index child hindex))
    refine ⟨rfl, ?_, ?_⟩
    · refine ⟨{ leaf with status := step.status }, child.1, step, ?_, hexpanded.parent,
        Nat.lt_of_lt_of_le hlt (Nat.le_add_right _ _), hstatus, hreopened.symm ▸ hwarrants,
        List.mem_of_getElem? hindex, rfl, rfl⟩
      rw [hexpanded.incoming_eq, hdocumented.incoming_eq_nil (Nat.le_add_right _ _),
        filter_childTransitions hindex]
      rfl
    · have hne : tree.size + index ≠ leaf.id :=
        Nat.ne_of_gt (Nat.lt_of_lt_of_le hlt (Nat.le_add_right _ _))
      exact (hexpanded.outgoing_eq_of_ne hne).trans
        (hdocumented.outgoing_eq_nil (Nat.le_add_right _ _))

end

/-- What was found out about a leaf is recorded with it, and nothing else changes. -/
theorem Documented.settledBy (hdocumented : tree.Documented warrants initial)
    (hopen : tree.IsOpen leaf) {examination : Examination} (hwarrants : warrants leaf examination)
    (hsettled : tree.SettledBy leaf examination later) : later.Documented warrants initial := by
  have hnone := hdocumented.outgoing_of_isOpen hopen
  cases hsettled with
  | target =>
      refine hdocumented.settle hopen rfl (List.append_nil _).symm (by simp) ⟨?_, hnone⟩
      rwa [hopen.reopened_eq]
  | @circular earlier hearlier =>
      refine hdocumented.settle hopen rfl Array.toList_push ?_ ⟨?_, ?_⟩
      · intro transition hmem
        rw [List.mem_singleton.1 hmem]
        exact ⟨rfl, hearlier, rfl⟩
      · rwa [hopen.reopened_eq]
      · have hpush : (((tree.setStatus leaf.id (.circular earlier)).addTransition leaf.id earlier
            .circularity).transitions).toList =
            tree.transitions.toList ++ [⟨leaf.id, earlier, .circularity⟩] := Array.toList_push
        rw [outgoing_eq] at hnone
        rw [outgoing_eq, hpush, List.filter_append, hnone]
        simp
  | @ended step hnosuccessor =>
      refine hdocumented.settle hopen rfl (List.append_nil _).symm (by simp) ?_
      have hended : (∃ other, warrants ({ leaf with status := step.status } : ProofNode).reopened
          (.stepped other) ∧ other.status = step.status) ∧ tree.outgoing leaf.id = [] :=
        ⟨⟨step, (hopen.reopened_eq step.status).symm ▸ hwarrants, rfl⟩, hnone⟩
      have hstatus : step.status = .failed ∨ step.status = .undecided := by
        simp only [SymbolicStep.status, hnosuccessor, List.isEmpty_nil]
        cases decide (step.undecided > 0) <;> simp
      unfold Accounts
      rcases hstatus with hcase | hcase <;> rw [hcase] at hended ⊢ <;> exact hended
  | expanded hsome =>
      exact hdocumented.expand (expandedBy_addStep hopen _) hopen hsome hwarrants

theorem documented_start (warrants : ProofNode → Examination → Prop)
    (initial target : ConstrainedTerm) :
    (Goal.start initial target).tree.Documented warrants initial := by
  have hnode : ∀ id node, (Goal.start initial target).tree.node? id = some node →
      id = 0 ∧ node = ⟨0, initial, 0, 0, .unexamined⟩ := by
    intro id node hnode
    unfold Goal.start addNode at hnode
    rw [node?_push] at hnode
    split at hnode
    · exact ⟨by assumption, (Option.some.inj hnode).symm⟩
    · simp [node?, empty] at hnode
  refine ⟨?_, ⟨_, rfl, rfl, rfl⟩, ?_, ?_, ?_⟩
  · intro id node hid
    obtain ⟨rfl, rfl⟩ := hnode id node hid
    rfl
  · intro transition hmem
    simp [Goal.start, addNode, ProofTree.push, empty] at hmem
  · intro id node hid hroot
    exact absurd (hnode id node hid).1 hroot
  · intro id node hid
    obtain ⟨rfl, rfl⟩ := hnode id node hid
    rfl

end

end ProofTree

/-- A settled leaf was open, and its examination has found what settles it. -/
theorem Prover.Settles.exists_settledBy {prover : Prover σ} {target : ConstrainedTerm}
    {tree later : ProofTree} (hsettles : prover.Settles target tree later) :
    ∃ leaf examination, tree.IsOpen leaf ∧ prover.Finds target tree leaf examination ∧
      tree.SettledBy leaf examination later := by
  cases hsettles with
  | target hopen hfinds => exact ⟨_, _, hopen, hfinds, .target⟩
  | circular hopen hfinds =>
      refine ⟨_, _, hopen, hfinds, .circular ?_⟩
      cases hfinds with
      | circular hexpanded _ _ =>
          obtain ⟨_, hnode, -⟩ := hexpanded
          exact ProofTree.lt_size_of_node? hnode
  | ended hopen hfinds hnone => exact ⟨_, _, hopen, hfinds, .ended hnone⟩
  | expanded hopen hfinds hsome => exact ⟨_, _, hopen, hfinds, .expanded hsome⟩

theorem ProofTree.SettledBy.evolves {tree later : ProofTree} {leaf : ProofNode}
    {examination : Examination} (hsettled : tree.SettledBy leaf examination later)
    (hopen : tree.IsOpen leaf) : tree.Evolves later := by
  cases hsettled with
  | target | ended _ => exact evolves_setStatus hopen _
  | circular _ =>
      refine ⟨(evolves_setStatus hopen _).node, fun transition hmem => ?_⟩
      exact Array.mem_push_of_mem _ hmem
  | expanded _ => exact (expandedBy_addStep hopen _).evolves hopen

theorem ProofTree.Evolves.refl (tree : ProofTree) : tree.Evolves tree where
  node _ node hnode := ⟨node.status, hnode, fun _ => rfl⟩
  transition _ hmem := hmem

theorem ProofTree.Evolves.trans {tree middle later : ProofTree} (hfirst : tree.Evolves middle)
    (hsecond : middle.Evolves later) : tree.Evolves later where
  node id node hnode := by
    obtain ⟨status, hmiddle, hsame⟩ := hfirst.node id node hnode
    obtain ⟨last, hlater, hkept⟩ := hsecond.node id _ hmiddle
    refine ⟨last, hlater, fun hsettled => ?_⟩
    have hstatus := hsame hsettled
    exact (hkept (hstatus ▸ hsettled)).trans hstatus
  transition transition hmem := hsecond.transition _ (hfirst.transition _ hmem)

/-- An open leaf is settled by an examination of which something is known. -/
def ProofTree.SettlesLeaf (known : ProofNode → Examination → Prop) (tree later : ProofTree) : Prop :=
  ∃ leaf examination, known leaf examination ∧ tree.IsOpen leaf ∧
    tree.SettledBy leaf examination later

theorem ProofTree.evolves_of_settlesLeaf {known : ProofNode → Examination → Prop}
    {tree later : ProofTree} (hsettles : ReflTransGen (SettlesLeaf known) tree later) :
    tree.Evolves later := by
  induction hsettles with
  | refl => exact .refl tree
  | tail _ hstep ih =>
      obtain ⟨leaf, examination, -, hopen, hsettled⟩ := hstep
      exact ih.trans (hsettled.evolves hopen)

namespace Goal

theorem documented_after {warrants : ProofNode → Examination → Prop}
    (initial target : ConstrainedTerm) {calls : List Prover.Call}
    (hcalls : ∀ call ∈ calls, ∀ tree leaf examination,
      call.prover.Finds target tree leaf examination → warrants leaf examination) :
    ((start initial target).after calls).tree.Documented warrants initial := by
  refine after_induction (.start initial) (fun call hcall tree later hsettles hdocumented => ?_)
    (ProofTree.documented_start warrants initial target)
  obtain ⟨leaf, examination, hopen, hfinds, hsettled⟩ := hsettles.exists_settledBy
  exact hdocumented.settledBy hopen (hcalls call hcall tree leaf examination hfinds) hsettled

end Goal

namespace ProofTree

/-- How the state and the base of a child continue those of its parent. -/
def Continues (parent child : ProofNode) (justification : Justification) : Prop :=
  match justification with
  | .rule _ => child.base = child.id ∧
      parent.state.condition.conjuncts <+: child.state.condition.conjuncts
  | .remainder => child.state.term = parent.state.term ∧ child.base = parent.base ∧
      parent.state.condition.conjuncts <+: child.state.condition.conjuncts ∧
      parent.state.condition.conjuncts.length < child.state.condition.conjuncts.length
  | .circularity => False

structure Regular (initial : ConstrainedTerm) (tree : ProofTree) : Prop where
  id_eq : ∀ id node, tree.node? id = some node → node.id = id
  root : ∃ node, tree.node? 0 = some node ∧ node.state = initial ∧ node.depth = 0
  incoming : ∀ id node, tree.node? id = some node → id ≠ 0 → ∃ parent justification,
    tree.incoming id = [⟨parent.id, id, justification⟩] ∧ tree.node? parent.id = some parent ∧
      parent.id < id ∧ parent.status.isExpanded = true ∧ node.depth = parent.depth + 1 ∧
      Continues parent node justification
  remainder_unique : ∀ parent child other, tree.HasRemainder parent child →
    tree.HasRemainder parent other → child = other
  outgoing : ∀ id node, tree.node? id = some node →
    match node.status with
    | .unexamined | .target | .failed | .undecided => tree.outgoing id = []
    | .circular earlier => tree.outgoing id = [⟨id, earlier, .circularity⟩] ∧
        ∃ other, tree.node? earlier = some other ∧ other.status.isExpanded = true ∧
          other.base ≠ node.base
    | .expanded | .partlyExpanded =>
        ∀ transition ∈ tree.outgoing id, transition.justification ≠ .circularity

/-- The examination has taken a symbolic step from the leaf, if any. -/
def Stepped (leaf : ProofNode) (examination : Examination) : Prop :=
  ∀ step, examination = .stepped step → ∃ (σ : Type) (machine : Machine σ) (start next : RunState σ),
    machine.stepSymbolic leaf.state start = .ok step next

theorem Stepped.continues {parent child : ProofNode} {step : SymbolicStep}
    {justification : Justification} (hstepped : Stepped parent.reopened (.stepped step))
    (hmem : (justification, child.state) ∈ step.children)
    (hbase : child.base = childBase parent.base child.id justification) :
    Continues parent child justification := by
  obtain ⟨σ, machine, start, next, hrun⟩ := hstepped step rfl
  have hprefix := Machine.prefix_of_child hrun _ hmem
  cases justification with
  | rule rule => exact ⟨hbase, hprefix⟩
  | remainder =>
      have hsome : step.remainder = some child.state := by
        rcases SymbolicStep.mem_children_iff.1 hmem with ⟨_, -, hother⟩ | ⟨_, hsome, hsame⟩
        · cases hother
        · rw [hsome, (Prod.mk.inj hsame).2]
      obtain ⟨hterm, hlength⟩ := Machine.remainder_of_step hrun hsome
      exact ⟨hterm, hbase, hprefix, hlength⟩
  | circularity => exact absurd rfl (step.ne_circularity_of_mem hmem)

theorem Documented.regular {initial : ConstrainedTerm} {tree : ProofTree}
    (hdocumented : tree.Documented Stepped initial) (hwell : tree.WellFormed) :
    tree.Regular initial where
  id_eq := hdocumented.id_eq
  root := hdocumented.root
  incoming id node hnode hroot := by
    obtain ⟨parent, justification, step, hsingle, hparent, hlt, hexpanded, hstepped, hmem, hdepth,
      hbase⟩ := hdocumented.parent id node hnode hroot
    obtain rfl := hdocumented.id_eq id node hnode
    exact ⟨parent, justification, hsingle, hparent, hlt, hexpanded, hdepth,
      hstepped.continues hmem hbase⟩
  remainder_unique := hwell.remainder_unique
  outgoing id node hnode := by
    obtain rfl := hdocumented.id_eq id node hnode
    have haccounts := hdocumented.accounts node.id node hnode
    unfold Accounts at haccounts
    cases hstatus : node.status with
    | unexamined =>
        rw [hstatus] at haccounts
        exact haccounts
    | target | failed | undecided =>
        rw [hstatus] at haccounts
        exact haccounts.2
    | circular earlier =>
        rw [hstatus] at haccounts
        obtain ⟨base, other, hcircular, hexpanded, hne⟩ := hwell.circularity node.id earlier
          (hwell.circular node.id node.base earlier ⟨node, hnode, rfl, hstatus⟩)
        obtain ⟨_, hsame, rfl, -⟩ := hcircular
        obtain rfl := Option.some.inj (hnode.symm.trans hsame)
        obtain ⟨expanded, hearlier, rfl, hisExpanded⟩ := hexpanded
        exact ⟨haccounts.2, expanded, hearlier, hisExpanded, hne.symm⟩
    | expanded | partlyExpanded =>
        rw [hstatus] at haccounts
        obtain ⟨step, -, -, hleads⟩ := haccounts
        exact fun transition hmem => hleads.justification_ne hmem

end ProofTree

namespace Goal

/-- Whatever calls a goal has been through, its tree is regular. Further calls keep its nodes and
their order, settle open leaves one at a time, and never touch the status of a settled one. -/
theorem regular_after (initial target : ConstrainedTerm) (calls more : List Prover.Call) :
    let tree := ((start initial target).after calls).tree
    let later := ((start initial target).after (calls ++ more)).tree
    tree.Regular initial ∧
      (∀ id node, tree.node? id = some node → ∃ status : NodeStatus,
        later.node? id = some { node with status } ∧
          (node.status ≠ .unexamined → status = node.status)) ∧
      ReflTransGen (ProofTree.SettlesLeaf fun _ _ => True) tree later := by
  intro tree later
  have hdocumented : tree.Documented ProofTree.Stepped initial := by
    refine documented_after initial target fun call _ tree leaf examination hfinds => ?_
    rintro step rfl
    cases hfinds with
    | stepped _ hstep => exact ⟨_, _, _, _, hstep⟩
  have hwell : tree.WellFormed := ((Searched.start initial target).after calls).wellFormed
  have hlater : later = (((start initial target).after calls).after more).tree := by
    rw [← after_calls_append]
  have hsettled : ReflTransGen (ProofTree.SettlesLeaf fun _ _ => True) tree later := by
    rw [hlater]
    refine after_induction hwell (fun call _ before after hsettles hbefore => ?_) .refl
    obtain ⟨leaf, examination, hopen, -, hsettled⟩ := hsettles.exists_settledBy
    exact hbefore.tail ⟨leaf, examination, True.intro, hopen, hsettled⟩
  exact ⟨hdocumented.regular hwell, (ProofTree.evolves_of_settlesLeaf hsettled).node, hsettled⟩

end Goal

end SymbolicRewriting
