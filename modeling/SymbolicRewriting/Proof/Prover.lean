import SymbolicRewriting.Pool
import SymbolicRewriting.Proof.Merge

/-!
Proof search: does every path of rewriting from the initial state reach the target? The tree grows
level by level. An open leaf is closed if it is an instance of the target or of a node that has
been expanded before, and otherwise it is expanded by a symbolic step; a leaf without successors
refutes the goal. All leaves of a level are examined before any result is merged.
-/

namespace SymbolicRewriting

variable {σ : Type}

/-- A reachability obligation, with the tree that searches have made of it. -/
structure Goal where
  initial : ConstrainedTerm
  target : ConstrainedTerm
  proved : Bool := false
  tree : ProofTree

namespace Goal

def start (initial target : ConstrainedTerm) : Goal :=
  { initial, target, tree := ProofTree.empty.addNode initial 0 }

end Goal

inductive ProofStatus where
  | proved
  | disproved
  | inconclusive
deriving DecidableEq, Repr

structure ProofReport where
  status : ProofStatus
  stats : ProverStats
deriving DecidableEq, Repr

structure ProverConfig where
  maxNodes : Nat := 10000
  /-- Leaves at a greater depth stay open. -/
  maxDepth : Nat := 256
  workers : Nat := 1
  /-- Levels with fewer leaves are examined by one worker. -/
  parallelThreshold : Nat := 4

structure Prover (σ : Type) where
  machine : Machine σ
  config : ProverConfig := {}
  stopSource : σ → Bool × σ
  schedule : Nat → Schedule := fun _ => .inTurn

structure SearchState where
  tree : ProofTree
  /-- The expanded nodes that a leaf may be an instance of. -/
  visited : List ProofNode
  frontier : List ProofNode
  stats : ProverStats := {}
  incomplete : Bool := false
  failed : Bool := false

namespace Prover

def stopped (prover : Prover σ) : Run σ Bool :=
  Run.pollCancelled prover.stopSource

/-- What the state has to satisfy to be the instance of a pattern that a match gives. -/
def obligation (pattern : ConstrainedTerm) (found : StructuralMatch) : PathCondition :=
  (pattern.condition.applySubst found.subst).and found.constraints

/-- Is the state, by one of the matches, an instance of the pattern whose condition it implies? A
search that has been told to stop does not ask the oracle any more. -/
def coversBy (prover : Prover σ) (pattern state : ConstrainedTerm) :
    List StructuralMatch → Run σ Bool
  | [] => pure false
  | found :: others => do
      let needed := obligation pattern found
      if needed.isTrivial then pure true
      else if ← prover.stopped then pure false
      else
        Run.record Metrics.recordOracleCall
        match ← prover.machine.implies state.condition needed with
        | .holds => pure true
        | _ => coversBy prover pattern state others

def covers (prover : Prover σ) (pattern state : ConstrainedTerm) : Run σ Bool :=
  prover.coversBy pattern state
    (prover.machine.definition.matchPattern pattern.term state.term).found.toList

def coveringNode (prover : Prover σ) (state : ConstrainedTerm) :
    List ProofNode → Run σ (Option NodeId)
  | [] => pure none
  | earlier :: others => do
      if ← prover.covers earlier.state state then pure (some earlier.id)
      else coveringNode prover state others

/-- The visited nodes that may close a leaf: since those of its own base, no rule was applied. -/
def closing (visited : List ProofNode) (node : ProofNode) : List ProofNode :=
  visited.filter fun earlier => earlier.base != node.base

def examine (prover : Prover σ) (target : ConstrainedTerm) (visited : List ProofNode)
    (node : ProofNode) : Run σ Examination := do
  if ← prover.stopped then return .skipped
  if ← prover.covers target node.state then return .target
  match ← prover.coveringNode node.state (closing visited node) with
  | some earlier => return .circular earlier
  | none =>
      if ← prover.stopped then return .skipped
      return .stepped (← prover.machine.stepSymbolic node.state)

/-- Polling does not fail. -/
def pollStopped (prover : Prover σ) (state : RunState σ) : Bool × RunState σ :=
  match prover.stopped state with
  | .ok stop next => (stop, next)
  | .error _ next => (true, next)

def examineAll (prover : Prover σ) (target : ConstrainedTerm) (visited : List ProofNode)
    (level : Nat) (leaves : List ProofNode) (state : RunState σ) :
    List (Option (Except RewriteError Examination)) × RunState σ :=
  let examineOne := fun node => (prover.examine target visited node).attempt
  let threads :=
    if leaves.length ≥ prover.config.parallelThreshold then prover.config.workers else 1
  let (mapped, last) :=
    Pool.mapItems threads (prover.schedule level) prover.pollStopped examineOne leaves state
  (mapped.results, last)

/-- Examines the leaves that are not too deep and merges what was found. -/
def searchLevel (prover : Prover σ) (target : ConstrainedTerm) (search : SearchState)
    (state : RunState σ) : (Merge × Option RewriteError) × RunState σ :=
  let (within, beyond) := search.frontier.partition fun node => node.depth ≤ prover.config.maxDepth
  let stats := { search.stats with levels := search.stats.levels + 1 }
  let (results, last) := prover.examineAll target search.visited stats.levels within state
  let merge : Merge :=
    { tree := search.tree, stats, incomplete := search.incomplete || !beyond.isEmpty }
  (merge.addAll prover.config.maxNodes (within.zip results), last)

def nextSearch (search : SearchState) (merge : Merge) : SearchState :=
  { tree := merge.tree
    visited := search.visited ++ merge.expanded.toList
    frontier := merge.added.toList.filterMap merge.tree.node?
    stats := merge.stats
    incomplete := merge.incomplete
    failed := merge.failed }

theorem grownFrom_searchLevel (prover : Prover σ) (target : ConstrainedTerm)
    (search : SearchState) (state : RunState σ) :
    (prover.searchLevel target search state).1.1.GrownFrom prover.config.maxNodes
      search.tree.size := by
  unfold searchLevel
  refine Merge.grownFrom_addAll ⟨by simp, ?_⟩
  simp

/-- Searches level by level until no leaf is left, a leaf fails, or the search is told to stop. -/
def searchLevels (prover : Prover σ) (target : ConstrainedTerm) (search : SearchState)
    (state : RunState σ) : (SearchState × Option RewriteError) × RunState σ :=
  if search.frontier.isEmpty then ((search, none), state)
  else
    match prover.pollStopped state with
    | (true, last) => (({ search with incomplete := true }, none), last)
    | (false, polled) =>
        match _hlevel : prover.searchLevel target search polled with
        | ((merge, some error), last) => ((nextSearch search merge, some error), last)
        | ((merge, none), last) =>
            if merge.failed || merge.added.isEmpty then ((nextSearch search merge, none), last)
            else prover.searchLevels target (nextSearch search merge) last
termination_by prover.config.maxNodes - search.tree.size
decreasing_by
  have hgrown := prover.grownFrom_searchLevel target search polled
  rw [_hlevel] at hgrown
  obtain ⟨hsize, hlimit⟩ := hgrown
  dsimp only at hsize hlimit
  have hadded : merge.added ≠ #[] := by
    rintro hnone
    simp_all
  have hlength := Array.size_pos_iff.2 hadded
  have := hlimit hadded
  simp only [nextSearch]
  omega

def verdict (search : SearchState) : ProofStatus :=
  if search.failed then .disproved
  else if search.incomplete || !search.tree.isComplete then .inconclusive
  else .proved

/-- Searches for a proof of the goal, going on from the tree that it has. A goal that is proved
stays so. On an error the tree keeps what was merged before it. -/
def prove (prover : Prover σ) (goal : Goal) (state : RunState σ) :
    (Except RewriteError ProofReport × Goal) × RunState σ :=
  if goal.proved then ((.ok ⟨.proved, { nodes := goal.tree.size }⟩, goal), state)
  else
    let search : SearchState :=
      { tree := goal.tree, visited := goal.tree.expandedNodes, frontier := goal.tree.openLeaves }
    match prover.searchLevels goal.target search { state with cancelled := false } with
    | ((last, some error), next) => ((.error error, { goal with tree := last.tree }), next)
    | ((last, none), next) =>
        let status := verdict last
        let report := ⟨status, { last.stats with nodes := last.tree.size }⟩
        ((.ok report, { goal with tree := last.tree, proved := status == .proved }), next)

end Prover

end SymbolicRewriting
