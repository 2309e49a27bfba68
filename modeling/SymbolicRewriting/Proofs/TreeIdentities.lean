import SymbolicRewriting.Proof.Snapshot
import SymbolicRewriting.Proofs.StepRepeatability

/-!
Proof trees up to the identities of cells. Merging looks at the states of nodes nowhere, so results
that differ in identities alone make trees that differ in identities alone. Such trees are shown alike,
as the text of a term leaves identities out.
-/

namespace SymbolicRewriting

namespace Term

mutual

theorem write_withoutIds (text : String) :
    (term : Term) → term.withoutIds.write text = term.write text
  | token _ _ | var _ => rfl
  | app label args => by
      simp only [withoutIds, write, writeAll_withoutIds]
      cases args <;> rfl
  | sequence op items => by
      simp only [withoutIds, write, writeAll_withoutIds]
      cases items <;> rfl
  | collection cells frame => by
      simp only [withoutIds, write, writeCells_withoutIds]
      cases cells <;> rfl

theorem writeAll_withoutIds (separator lead text : String) :
    (terms : List Term) →
      writeAll separator lead text (withoutIdsAll terms) = writeAll separator lead text terms
  | [] => rfl
  | term :: terms => by
      simp only [withoutIdsAll, writeAll, write_withoutIds _ term,
        writeAll_withoutIds separator separator _ terms]

theorem writeCells_withoutIds (lead text : String) :
    (cells : List (Cell Term)) →
      writeCells lead text (withoutIdsCells cells) = writeCells lead text cells
  | [] => rfl
  | ⟨_, name, content⟩ :: cells => by
      simp only [withoutIdsCells, writeCells, write_withoutIds _ content,
        writeCells_withoutIds " " _ cells]

end

theorem format_withoutIds (term : Term) : term.withoutIds.format = term.format :=
  term.write_withoutIds ""

end Term

def ProofNode.withoutIds (node : ProofNode) : ProofNode :=
  { node with state := node.state.withoutIds }

def ProofTree.withoutIds (tree : ProofTree) : ProofTree :=
  { tree with nodes := tree.nodes.map ProofNode.withoutIds }

theorem SymbolicStep.children_withoutIds (step : SymbolicStep) :
    step.withoutIds.children = step.children.map fun child => (child.1, child.2.withoutIds) := by
  obtain ⟨successors, undecided, remainder⟩ := step
  cases remainder <;>
    simp [children, SymbolicStep.withoutIds, Successor.withoutIds, Function.comp_def]

namespace ProofTree

@[simp]
theorem size_withoutIds (tree : ProofTree) : tree.withoutIds.size = tree.size :=
  Array.size_map

theorem node?_withoutIds (tree : ProofTree) (id : NodeId) :
    tree.withoutIds.node? id = (tree.node? id).map ProofNode.withoutIds :=
  Array.getElem?_map

theorem withoutIds_push (tree : ProofTree) (state : ConstrainedTerm) (depth : Nat) (base : NodeId) :
    (tree.push state depth base).withoutIds =
      tree.withoutIds.push state.withoutIds depth base := by
  simp [push, withoutIds, ProofNode.withoutIds]

theorem withoutIds_addTransition (tree : ProofTree) (source target : NodeId)
    (justification : Justification) :
    (tree.addTransition source target justification).withoutIds =
      tree.withoutIds.addTransition source target justification :=
  rfl

theorem withoutIds_setStatus (tree : ProofTree) (id : NodeId) (status : NodeStatus) :
    (tree.setStatus id status).withoutIds = tree.withoutIds.setStatus id status := by
  have hnodes : (tree.nodes.modify id fun node => { node with status }).map ProofNode.withoutIds =
      (tree.nodes.map ProofNode.withoutIds).modify id fun node => { node with status } := by
    refine Array.ext_getElem? fun index => ?_
    rw [Array.getElem?_map, Array.getElem?_modify, Array.getElem?_modify, Array.getElem?_map]
    split
    · cases tree.nodes[index]? <;> rfl
    · rfl
  unfold setStatus withoutIds
  rw [hnodes]

theorem withoutIds_addChild (parent : NodeId) (depth : Nat) (tree : ProofTree)
    (child : Justification × ConstrainedTerm) :
    (addChild parent depth tree child).withoutIds =
      addChild parent depth tree.withoutIds (child.1, child.2.withoutIds) := by
  have hbase : (tree.withoutIds.node? parent).map ProofNode.base =
      (tree.node? parent).map ProofNode.base := by
    rw [node?_withoutIds, Option.map_map]
    rfl
  obtain ⟨justification, state⟩ := child
  cases justification with
  | rule _ | circularity =>
      simp [addChild, addNode, withoutIds_addTransition, withoutIds_push]
  | remainder =>
      simp [addChild, addRemainder, withoutIds_addTransition, withoutIds_push, hbase]

theorem withoutIds_addStep (tree : ProofTree) (parent : NodeId) (depth : Nat)
    (step : SymbolicStep) :
    (tree.addStep parent depth step).withoutIds =
      tree.withoutIds.addStep parent depth step.withoutIds := by
  have hchildren : ∀ (children : List (Justification × ConstrainedTerm)) (tree : ProofTree),
      (addChildren parent depth children tree).withoutIds =
        addChildren parent depth (children.map fun child => (child.1, child.2.withoutIds))
          tree.withoutIds := by
    intro children
    induction children with
    | nil => exact fun _ => rfl
    | cons child children ih =>
        intro tree
        have hlater := ih (addChild parent depth tree child)
        rw [withoutIds_addChild] at hlater
        exact hlater
  rw [addStep_eq, addStep_eq, hchildren, SymbolicStep.children_withoutIds]

theorem growth_withoutIds (step : SymbolicStep) : growth step.withoutIds = growth step := by
  rw [growth, growth, ← SymbolicStep.length_children, ← SymbolicStep.length_children,
    SymbolicStep.children_withoutIds, List.length_map]

theorem snapshot_withoutIds (tree : ProofTree) : tree.withoutIds.snapshot = tree.snapshot := by
  have hnode : ∀ node : ProofNode, node.withoutIds.snapshot = node.snapshot := by
    intro node
    simp only [ProofNode.snapshot, ProofNode.withoutIds, ConstrainedTerm.withoutIds,
      PathCondition.withoutIds, Term.format_withoutIds, List.map_map, Function.comp_def]
  simp only [snapshot, withoutIds, Array.toList_map, List.map_map, Function.comp_def, hnode]

theorem isComplete_withoutIds (tree : ProofTree) : tree.withoutIds.isComplete = tree.isComplete := by
  simp [isComplete, withoutIds, ProofNode.withoutIds, Function.comp_def]

end ProofTree

def resultWithoutIds (result : Option (Except RewriteError Examination)) :
    Option (Except RewriteError Examination) :=
  result.map (Except.map Examination.withoutIds)

namespace Merge

def withoutIds (merge : Merge) : Merge :=
  { merge with
    tree := merge.tree.withoutIds
    expanded := merge.expanded.map ProofNode.withoutIds }

theorem withoutIds_endBranch (merge : Merge) (leaf : ProofNode) (step : SymbolicStep) :
    (merge.endBranch leaf step).withoutIds =
      merge.withoutIds.endBranch leaf.withoutIds step.withoutIds := by
  have hundecided : step.withoutIds.undecided = step.undecided := rfl
  unfold endBranch
  rw [hundecided]
  split <;> simp [withoutIds, ProofTree.withoutIds_setStatus, ProofNode.withoutIds]

theorem withoutIds_markExpanded (merge : Merge) (leaf : ProofNode) (step : SymbolicStep) :
    (merge.markExpanded leaf step).withoutIds =
      merge.withoutIds.markExpanded leaf.withoutIds step.withoutIds := by
  have hundecided : step.withoutIds.undecided = step.undecided := rfl
  unfold markExpanded
  rw [hundecided]
  split <;> simp [withoutIds, ProofTree.withoutIds_setStatus, ProofNode.withoutIds]

theorem withoutIds_expand (merge : Merge) (maxNodes : Nat) (leaf : ProofNode)
    (step : SymbolicStep) :
    (merge.expand maxNodes leaf step).withoutIds =
      merge.withoutIds.expand maxNodes leaf.withoutIds step.withoutIds := by
  have hsize : merge.withoutIds.tree.size = merge.tree.size := merge.tree.size_withoutIds
  unfold expand
  rw [hsize, ProofTree.growth_withoutIds]
  split
  · rfl
  · rw [← withoutIds_markExpanded]
    simp [withoutIds, ProofTree.withoutIds_addStep, ProofNode.withoutIds]

theorem withoutIds_add (merge : Merge) (maxNodes : Nat) (leaf : ProofNode)
    (examination : Examination) :
    (merge.add maxNodes leaf examination).withoutIds =
      merge.withoutIds.add maxNodes leaf.withoutIds examination.withoutIds := by
  cases examination with
  | skipped => rfl
  | target =>
      simp [add, closeByTarget, withoutIds, ProofTree.withoutIds_setStatus, Examination.withoutIds,
        ProofNode.withoutIds]
  | circular earlier =>
      simp [add, closeByCircularity, withoutIds, ProofTree.withoutIds_setStatus,
        ProofTree.withoutIds_addTransition, Examination.withoutIds, ProofNode.withoutIds]
  | stepped step =>
      have hempty : step.withoutIds.successors.isEmpty = step.successors.isEmpty := by
        simp [SymbolicStep.withoutIds]
      simp only [add, Examination.withoutIds, hempty]
      split
      · exact merge.withoutIds_endBranch leaf step
      · exact merge.withoutIds_expand maxNodes leaf step

theorem withoutIds_addAll (maxNodes : Nat)
    (results : List (ProofNode × Option (Except RewriteError Examination))) (merge : Merge) :
    ((addAll maxNodes results merge).1.withoutIds, (addAll maxNodes results merge).2) =
      addAll maxNodes (results.map (Prod.map ProofNode.withoutIds resultWithoutIds))
        merge.withoutIds := by
  induction results generalizing merge with
  | nil => rfl
  | cons entry results ih =>
      obtain ⟨leaf, result⟩ := entry
      rw [List.map_cons]
      cases result with
      | none => exact ih (merge.add maxNodes leaf .skipped)
      | some result =>
          cases result with
          | error error => rfl
          | ok examination =>
              have hlater := ih (merge.add maxNodes leaf examination)
              rw [withoutIds_add] at hlater
              exact hlater

end Merge

end SymbolicRewriting
