import SymbolicRewriting.Proof.Tree
import SymbolicRewriting.Term.Format

/-!
What is shown of a proof tree: its nodes, with their states as texts, and its transitions.
-/

namespace SymbolicRewriting

structure NodeSnapshot where
  id : NodeId
  depth : Nat
  status : NodeStatus
  term : String
  condition : List String
deriving DecidableEq, Repr

structure ProofTreeSnapshot where
  nodes : List NodeSnapshot
  edges : List ProofTransition
deriving DecidableEq, Repr

def ProofNode.snapshot (node : ProofNode) : NodeSnapshot where
  id := node.id
  depth := node.depth
  status := node.status
  term := node.state.term.format
  condition := node.state.condition.conjuncts.map Term.format

def ProofTree.snapshot (tree : ProofTree) : ProofTreeSnapshot where
  nodes := tree.nodes.toList.map ProofNode.snapshot
  edges := tree.transitions.toList

end SymbolicRewriting
