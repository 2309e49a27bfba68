import SymbolicRewriting.Proof.Tree

/-!
What the examination of leaves makes of a proof tree. The results of one level are merged in the
order of the nodes, so the tree does not show in which order the leaves were examined.
-/

namespace SymbolicRewriting

structure ProverStats where
  levels : Nat := 0
  expanded : Nat := 0
  closedByTarget : Nat := 0
  closedByCircularity : Nat := 0
  failures : Nat := 0
  undecided : Nat := 0
  nodes : Nat := 0
deriving DecidableEq, Repr

inductive Examination where
  | skipped
  | target
  | circular (earlier : NodeId)
  | stepped (step : SymbolicStep)

/-- The tree while the results of a level are merged into it. -/
structure Merge where
  tree : ProofTree
  stats : ProverStats := {}
  incomplete : Bool := false
  failed : Bool := false
  /-- The nodes added on this level, which make up the next one. -/
  added : Array NodeId := #[]
  expanded : Array ProofNode := #[]

namespace Merge

def closeByTarget (merge : Merge) (node : ProofNode) : Merge :=
  { merge with
    tree := merge.tree.setStatus node.id .target
    stats := { merge.stats with closedByTarget := merge.stats.closedByTarget + 1 } }

def closeByCircularity (merge : Merge) (node : ProofNode) (earlier : NodeId) : Merge :=
  { merge with
    tree := (merge.tree.setStatus node.id (.circular earlier)).addTransition node.id earlier
      .circularity
    stats := { merge.stats with closedByCircularity := merge.stats.closedByCircularity + 1 } }

/-- A leaf without successors refutes the goal only if every rule was ruled out. -/
def endBranch (merge : Merge) (node : ProofNode) (step : SymbolicStep) : Merge :=
  if step.undecided > 0 then
    { merge with
      tree := merge.tree.setStatus node.id .undecided
      stats := { merge.stats with undecided := merge.stats.undecided + 1 }
      incomplete := true }
  else
    { merge with
      tree := merge.tree.setStatus node.id .failed
      stats := { merge.stats with failures := merge.stats.failures + 1 }
      failed := true }

def markExpanded (merge : Merge) (node : ProofNode) (step : SymbolicStep) : Merge :=
  if step.undecided > 0 then
    { merge with
      tree := merge.tree.setStatus node.id .partlyExpanded
      stats :=
        { merge.stats with
          undecided := merge.stats.undecided + 1
          expanded := merge.stats.expanded + 1 }
      incomplete := true }
  else
    { merge with
      tree := merge.tree.setStatus node.id .expanded
      stats := { merge.stats with expanded := merge.stats.expanded + 1 } }

/-- Either everything that a step leads to is added, or nothing if it does not fit; then the node
stays open for a search with more room. -/
def expand (maxNodes : Nat) (merge : Merge) (node : ProofNode) (step : SymbolicStep) : Merge :=
  if merge.tree.size + ProofTree.growth step > maxNodes then { merge with incomplete := true }
  else
    let marked := merge.markExpanded node step
    { marked with
      tree := marked.tree.addStep node.id (node.depth + 1) step
      added := marked.added ++ Array.range' marked.tree.size (ProofTree.growth step)
      expanded := marked.expanded.push node }

def add (maxNodes : Nat) (merge : Merge) (node : ProofNode) (examination : Examination) : Merge :=
  match examination with
  | .skipped => { merge with incomplete := true }
  | .target => merge.closeByTarget node
  | .circular earlier => merge.closeByCircularity node earlier
  | .stepped step =>
      if step.successors.isEmpty then merge.endBranch node step
      else merge.expand maxNodes node step

/-- Merges the results in the order of the nodes. An error ends it at its node, and what was merged
before stays; a leaf without a result was skipped. -/
def addAll (maxNodes : Nat) :
    List (ProofNode × Option (Except RewriteError Examination)) → Merge →
      Merge × Option RewriteError
  | [], merge => (merge, none)
  | (node, result) :: rest, merge =>
      match result with
      | none => addAll maxNodes rest (merge.add maxNodes node .skipped)
      | some (.ok examination) => addAll maxNodes rest (merge.add maxNodes node examination)
      | some (.error error) => (merge, some error)

/-! The nodes that are added count against the room that the limit leaves. -/

/-- The tree has grown by the added nodes, and only within the limit. -/
def GrownFrom (maxNodes start : Nat) (merge : Merge) : Prop :=
  merge.tree.size = start + merge.added.size ∧
    (merge.added ≠ #[] → merge.tree.size ≤ maxNodes)

theorem grownFrom_of_eq {maxNodes start : Nat} {merge later : Merge}
    (hgrown : merge.GrownFrom maxNodes start) (hsize : later.tree.size = merge.tree.size)
    (hadded : later.added = merge.added) : later.GrownFrom maxNodes start := by
  unfold GrownFrom
  rw [hsize, hadded]
  exact hgrown

theorem size_markExpanded (merge : Merge) (node : ProofNode) (step : SymbolicStep) :
    (merge.markExpanded node step).tree.size = merge.tree.size := by
  unfold markExpanded
  split <;> exact ProofTree.size_setStatus _ _ _

theorem added_markExpanded (merge : Merge) (node : ProofNode) (step : SymbolicStep) :
    (merge.markExpanded node step).added = merge.added := by
  unfold markExpanded
  split <;> rfl

theorem grownFrom_expand {maxNodes start : Nat} {merge : Merge}
    (hgrown : merge.GrownFrom maxNodes start) (node : ProofNode) (step : SymbolicStep) :
    (merge.expand maxNodes node step).GrownFrom maxNodes start := by
  unfold expand
  split
  · exact grownFrom_of_eq hgrown rfl rfl
  · rename_i hroom
    obtain ⟨hsize, -⟩ := hgrown
    have hmarked := merge.size_markExpanded node step
    have hadded := merge.added_markExpanded node step
    constructor
    · simp only [ProofTree.size_addStep, Array.size_append, Array.size_range', hmarked, hadded]
      omega
    · intro _
      simp only [ProofTree.size_addStep, hmarked]
      omega

theorem grownFrom_add {maxNodes start : Nat} {merge : Merge}
    (hgrown : merge.GrownFrom maxNodes start) (node : ProofNode) (examination : Examination) :
    (merge.add maxNodes node examination).GrownFrom maxNodes start := by
  cases examination with
  | skipped => exact grownFrom_of_eq hgrown rfl rfl
  | target => exact grownFrom_of_eq hgrown (ProofTree.size_setStatus _ _ _) rfl
  | circular earlier =>
      refine grownFrom_of_eq hgrown ?_ rfl
      simp [add, closeByCircularity]
  | stepped step =>
      simp only [add]
      split
      · unfold endBranch
        split <;> exact grownFrom_of_eq hgrown (ProofTree.size_setStatus _ _ _) rfl
      · exact grownFrom_expand hgrown node step

theorem grownFrom_addAll {maxNodes start : Nat}
    {results : List (ProofNode × Option (Except RewriteError Examination))} {merge : Merge}
    (hgrown : merge.GrownFrom maxNodes start) :
    (addAll maxNodes results merge).1.GrownFrom maxNodes start := by
  induction results generalizing merge with
  | nil => exact hgrown
  | cons entry rest ih =>
      obtain ⟨node, result⟩ := entry
      simp only [addAll]
      split
      · exact ih (grownFrom_add hgrown node _)
      · exact ih (grownFrom_add hgrown node _)
      · exact hgrown

end Merge

end SymbolicRewriting
