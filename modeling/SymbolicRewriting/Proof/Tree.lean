import SymbolicRewriting.Machine.Symbolic

/-!
Proof trees: the states that a search has come to, and how it came from one to another. Nodes and
transitions are only ever added, and the identity of a node is its position.
-/

namespace SymbolicRewriting

/-- The place of a node in its tree. Identifiers are 32-bit words, so a tree has at most `2 ^ 32` nodes,
which a search ensures by a budget of nodes that is no greater. -/
abbrev NodeId := Nat

inductive NodeStatus where
  | unexamined
  | expanded
  /-- Expanded, although some rule could be neither applied nor ruled out. -/
  | partlyExpanded
  | target
  /-- Closed: an instance of the given expanded node. -/
  | circular (earlier : NodeId)
  /-- Not an instance of the target, and without successors. -/
  | failed
  /-- Without successors, although some rule could not be ruled out. -/
  | undecided
deriving DecidableEq, Repr

namespace NodeStatus

def isClosed (status : NodeStatus) : Bool :=
  match status with
  | target => true
  | circular _ => true
  | _ => false

def isExpanded (status : NodeStatus) : Bool :=
  match status with
  | expanded => true
  | partlyExpanded => true
  | _ => false

end NodeStatus

structure ProofNode where
  id : NodeId
  state : ConstrainedTerm
  depth : Nat
  /-- The node that this one descends from through remainders alone; itself, if through none. -/
  base : NodeId
  status : NodeStatus

inductive Justification where
  | rule (rule : RuleId)
  /-- The source is an instance of the target. -/
  | circularity
  /-- The target is the source under the negation of the guards of its rule transitions. -/
  | remainder
deriving DecidableEq, Repr

structure ProofTransition where
  source : NodeId
  target : NodeId
  justification : Justification
deriving DecidableEq, Repr

structure ProofTree where
  nodes : Array ProofNode := #[]
  transitions : Array ProofTransition := #[]

namespace ProofTree

def empty : ProofTree := {}

def size (tree : ProofTree) : Nat := tree.nodes.size

def node? (tree : ProofTree) (id : NodeId) : Option ProofNode := tree.nodes[id]?

def push (tree : ProofTree) (state : ConstrainedTerm) (depth : Nat) (base : NodeId) : ProofTree :=
  { tree with
    nodes := tree.nodes.push ⟨tree.nodes.size, state, depth, base, .unexamined⟩ }

/-- Adds a node that is its own base. -/
def addNode (tree : ProofTree) (state : ConstrainedTerm) (depth : Nat) : ProofTree :=
  tree.push state depth tree.size

/-- Adds the remainder of `parent`, which has the same base. -/
def addRemainder (tree : ProofTree) (parent : NodeId) (state : ConstrainedTerm) (depth : Nat) :
    ProofTree :=
  tree.push state depth (((tree.node? parent).map ProofNode.base).getD tree.size)

def addTransition (tree : ProofTree) (source target : NodeId) (justification : Justification) :
    ProofTree :=
  { tree with transitions := tree.transitions.push ⟨source, target, justification⟩ }

def setStatus (tree : ProofTree) (id : NodeId) (status : NodeStatus) : ProofTree :=
  { tree with nodes := tree.nodes.modify id fun node => { node with status } }

def outgoing (tree : ProofTree) (id : NodeId) : List ProofTransition :=
  (tree.transitions.filter fun transition => transition.source == id).toList

def leaves (tree : ProofTree) : List ProofNode :=
  tree.nodes.toList.filter fun node => !node.status.isExpanded

def openLeaves (tree : ProofTree) : List ProofNode :=
  tree.nodes.toList.filter fun node => node.status == .unexamined

def expandedNodes (tree : ProofTree) : List ProofNode :=
  tree.nodes.toList.filter fun node => node.status.isExpanded

def closedNodes (tree : ProofTree) : List ProofNode :=
  tree.nodes.toList.filter fun node => node.status.isClosed

def isComplete (tree : ProofTree) : Bool :=
  tree.nodes.all fun node => node.status == .expanded || node.status.isClosed

@[simp]
theorem size_push (tree : ProofTree) (state : ConstrainedTerm) (depth : Nat) (base : NodeId) :
    (tree.push state depth base).size = tree.size + 1 := by
  simp [push, size]

@[simp]
theorem size_addNode (tree : ProofTree) (state : ConstrainedTerm) (depth : Nat) :
    (tree.addNode state depth).size = tree.size + 1 :=
  tree.size_push state depth _

@[simp]
theorem size_addRemainder (tree : ProofTree) (parent : NodeId) (state : ConstrainedTerm)
    (depth : Nat) : (tree.addRemainder parent state depth).size = tree.size + 1 :=
  tree.size_push state depth _

@[simp]
theorem size_addTransition (tree : ProofTree) (source target : NodeId)
    (justification : Justification) :
    (tree.addTransition source target justification).size = tree.size :=
  rfl

@[simp]
theorem size_setStatus (tree : ProofTree) (id : NodeId) (status : NodeStatus) :
    (tree.setStatus id status).size = tree.size := by
  simp [setStatus, size]

def addSuccessors (parent : NodeId) (depth : Nat) : List Successor → ProofTree → ProofTree
  | [], tree => tree
  | successor :: successors, tree =>
      let id := tree.size
      addSuccessors parent depth successors
        ((tree.addNode successor.state depth).addTransition parent id (.rule successor.rule))

def addRemainderOf (parent : NodeId) (depth : Nat) (remainder : Option ConstrainedTerm)
    (tree : ProofTree) : ProofTree :=
  match remainder with
  | none => tree
  | some state =>
      let id := tree.size
      (tree.addRemainder parent state depth).addTransition parent id .remainder

def growth (step : SymbolicStep) : Nat :=
  step.successors.length + step.remainder.toList.length

def addStep (tree : ProofTree) (parent : NodeId) (depth : Nat) (step : SymbolicStep) : ProofTree :=
  addRemainderOf parent depth step.remainder
    (addSuccessors parent depth step.successors tree)

theorem size_addSuccessors (parent : NodeId) (depth : Nat) (successors : List Successor)
    (tree : ProofTree) :
    (addSuccessors parent depth successors tree).size = tree.size + successors.length := by
  induction successors generalizing tree with
  | nil => rfl
  | cons successor successors ih =>
      simp only [addSuccessors, ih, size_addTransition, size_addNode, List.length_cons]
      omega

@[simp]
theorem size_addStep (tree : ProofTree) (parent : NodeId) (depth : Nat) (step : SymbolicStep) :
    (tree.addStep parent depth step).size = tree.size + growth step := by
  cases hremainder : step.remainder <;>
    simp only [addStep, addRemainderOf, growth, hremainder, size_addTransition, size_addRemainder,
      size_addSuccessors, Option.toList_none, Option.toList_some, List.length_nil,
      List.length_singleton] <;> omega

end ProofTree

end SymbolicRewriting
