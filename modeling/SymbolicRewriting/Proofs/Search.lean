import SymbolicRewriting.Oracle.Syntactic
import SymbolicRewriting.Proofs.PoolResults
import SymbolicRewriting.Proofs.Progress
import SymbolicRewriting.Proofs.Run
import SymbolicRewriting.Proofs.Settlement

/-!
Every proof search settles one leaf after another, whatever it is resumed with, so its tree stays
well-formed. While a level is merged, the leaves that are still to come are open, and what closes
them has been expanded on an earlier level, so it stays as it is.
-/

namespace SymbolicRewriting

open Relation

variable {σ : Type} {prover : Prover σ} {target : ConstrainedTerm}

namespace Merge

/-- A leaf and what was found out about it, which still has to be merged. -/
structure Fits (prover : Prover σ) (target : ConstrainedTerm) (tree : ProofTree) (leaf : ProofNode)
    (result : Option (Except RewriteError Examination)) : Prop where
  isOpen : tree.IsOpen leaf
  finds : ∀ examination, result = some (.ok examination) →
    prover.Finds target tree leaf examination

theorem Fits.keepsBut {tree later : ProofTree} {node other : ProofNode}
    {result : Option (Except RewriteError Examination)}
    (hfits : Fits prover target tree other result) (hkeeps : tree.KeepsBut node.id later)
    (hopen : tree.IsOpen node) (hne : other.id ≠ node.id) :
    Fits prover target later other result where
  isOpen := hkeeps.isOpen hne hfits.isOpen
  finds examination hresult := (hfits.finds examination hresult).keepsBut hkeeps hopen

/-- The tree when the rest of the results of a level, which began with the tree `before`, is still
to come. -/
structure Sound (prover : Prover σ) (target : ConstrainedTerm) (before : ProofTree)
    (rest : List (ProofNode × Option (Except RewriteError Examination))) (merge : Merge) : Prop where
  settles : ReflTransGen (prover.Settles target) before merge.tree
  wellFormed : merge.tree.WellFormed
  size : merge.tree.size = before.size + merge.added.size
  added : merge.added.toList = List.range' before.size merge.added.size
  unexamined : ∀ id node, before.size ≤ id → merge.tree.node? id = some node → node.status = .unexamined
  expanded : ∀ node ∈ merge.expanded.toList, merge.tree.HasExpanded node
  fits : ∀ entry ∈ rest, entry.1.id < before.size ∧ Fits prover target merge.tree entry.1 entry.2
  distinct : (rest.map fun entry => entry.1.id).Nodup
  failed : merge.failed = true ↔ ∃ id, merge.tree.Fails id ∧ ¬before.Fails id
  incomplete : merge.incomplete = true →
    ∃ id, id < before.size ∧ merge.tree.IsOutstanding id ∧ ∀ entry ∈ rest, entry.1.id ≠ id

/-- What merging a leaf does. -/
structure Settled (prover : Prover σ) (target : ConstrainedTerm) (before : ProofTree) (leaf : ProofNode)
    (merge later : Merge) : Prop where
  settles : later.tree = merge.tree ∨ prover.Settles target merge.tree later.tree
  keeps : merge.tree.KeepsBut leaf.id later.tree
  size : later.tree.size = before.size + later.added.size
  added : later.added.toList = List.range' before.size later.added.size
  expanded : ∀ node ∈ later.expanded.toList,
    node ∈ merge.expanded.toList ∨ later.tree.HasExpanded node
  status : ∃ status : NodeStatus, later.tree.node? leaf.id = some { leaf with status } ∧
    (later.failed = true ↔ merge.failed = true ∨ status = .failed) ∧
    (later.incomplete = true →
      merge.incomplete = true ∨ (status == .expanded || status.isClosed) = false)

theorem Sound.next {before : ProofTree} {leaf : ProofNode}
    {result : Option (Except RewriteError Examination)}
    {rest : List (ProofNode × Option (Except RewriteError Examination))} {merge later : Merge}
    (hsound : merge.Sound prover target before ((leaf, result) :: rest))
    (hsettled : Settled prover target before leaf merge later) :
    later.Sound prover target before rest := by
  obtain ⟨⟨hbefore, hfits⟩, hothers⟩ := List.forall_mem_cons.1 hsound.fits
  obtain ⟨hnew, hdistinct⟩ := List.nodup_cons.1 hsound.distinct
  have hne : ∀ entry ∈ rest, entry.1.id ≠ leaf.id :=
    fun entry hmem hsame => hnew (List.mem_map.2 ⟨entry, hmem, hsame⟩)
  obtain ⟨status, hleaf, hfailed, hincomplete⟩ := hsettled.status
  have hkeeps := hsettled.keeps
  have hopen := hfits.isOpen
  have hadded : ∀ id node, merge.tree.node? id = none → later.tree.node? id = some node →
      node.status = .unexamined := by
    intro id node hnone hnode
    rcases hsettled.settles with hsame | hsettles
    · rw [hsame, hnone] at hnode
      cases hnode
    · obtain ⟨-, -, -, -, hunexamined⟩ := hsettles.exists_keepsBut
      exact hunexamined id node hnone hnode
  refine ⟨?_, ?_, hsettled.size, hsettled.added, ?_, ?_, ?_, hdistinct, ?_, ?_⟩
  · rcases hsettled.settles with hsame | hsettles
    · rw [hsame]
      exact hsound.settles
    · exact hsound.settles.tail hsettles
  · rcases hsettled.settles with hsame | hsettles
    · rw [hsame]
      exact hsound.wellFormed
    · exact hsettles.wellFormed hsound.wellFormed
  · intro id node hstart hnode
    cases hold : merge.tree.node? id with
    | none => exact hadded id node hold hnode
    | some old =>
        have hsame := hkeeps id old (Nat.ne_of_gt (Nat.lt_of_lt_of_le hbefore hstart)) hold
        rw [hnode, Option.some.injEq] at hsame
        exact hsame ▸ hsound.unexamined id old hstart hold
  · intro node hmem
    rcases hsettled.expanded node hmem with hold | hexpanded
    · exact hkeeps.hasExpanded hopen (hsound.expanded node hold)
    · exact hexpanded
  · intro entry hmem
    obtain ⟨hless, hentry⟩ := hothers entry hmem
    exact ⟨hless, hentry.keepsBut hkeeps hopen (hne entry hmem)⟩
  · rw [hfailed, hsound.failed]
    constructor
    · rintro (⟨id, hfails, hbefore'⟩ | rfl)
      · exact ⟨id, hkeeps.fails hopen hfails, hbefore'⟩
      · refine ⟨leaf.id, ⟨_, hleaf, rfl⟩, fun hbefore' => ?_⟩
        -- a leaf that had failed before would not be open
        obtain ⟨node, hnode, hstatus⟩ :=
          Prover.fails_of_settles hsound.settles hbefore'
        exact hopen.ne_of_status hnode (by rw [hstatus]; simp) rfl
    · rintro ⟨id, ⟨node, hnode, hstatus⟩, hbefore'⟩
      by_cases hid : id = leaf.id
      · rw [hid, hleaf, Option.some.injEq] at hnode
        subst hnode
        exact .inr hstatus
      · cases hold : merge.tree.node? id with
        | none =>
            rw [hadded id node hold hnode] at hstatus
            cases hstatus
        | some old =>
            have hsame := hkeeps id old hid hold
            rw [hnode, Option.some.injEq] at hsame
            exact .inl ⟨id, ⟨old, hold, hsame ▸ hstatus⟩, hbefore'⟩
  · intro hnow
    rcases hincomplete hnow with hearlier | hstatus
    · obtain ⟨id, hless, houtstanding, hpending⟩ := hsound.incomplete hearlier
      obtain ⟨hother, hrest⟩ := List.forall_mem_cons.1 hpending
      exact ⟨id, hless, hkeeps.isOutstanding (Ne.symm hother) houtstanding, hrest⟩
    · exact ⟨leaf.id, hbefore, ⟨_, hleaf, hstatus⟩, hne⟩

/-- Nothing is found out about a leaf, or there is no room for it. -/
theorem settled_skip {before : ProofTree} {leaf : ProofNode}
    {rest : List (ProofNode × Option (Except RewriteError Examination))} {merge : Merge}
    (hsound : merge.Sound prover target before rest) (hopen : merge.tree.IsOpen leaf) :
    Settled prover target before leaf merge { merge with incomplete := true } where
  settles := .inl rfl
  keeps _ _ _ hnode := hnode
  size := hsound.size
  added := hsound.added
  expanded _ hmem := .inl hmem
  status := by
    refine ⟨.unexamined, ?_, by simp, fun _ => .inr rfl⟩
    rw [← hopen.2]
    exact hopen.1

/-- Nothing but the status of a leaf changes, and perhaps a transition is added. -/
theorem settled_of_status {before : ProofTree} {leaf : ProofNode}
    {rest : List (ProofNode × Option (Except RewriteError Examination))} {merge later : Merge}
    (hsound : merge.Sound prover target before rest) (hopen : merge.tree.IsOpen leaf)
    {status : NodeStatus} (hsettles : prover.Settles target merge.tree later.tree)
    (hnodes : later.tree.nodes = (merge.tree.setStatus leaf.id status).nodes)
    (hadded : later.added = merge.added) (hexpanded : later.expanded = merge.expanded)
    (hfailed : later.failed = true ↔ merge.failed = true ∨ status = .failed)
    (hincomplete : later.incomplete = true →
      merge.incomplete = true ∨ (status == .expanded || status.isClosed) = false) :
    Settled prover target before leaf merge later := by
  have hnode? : ∀ id, later.tree.node? id = (merge.tree.setStatus leaf.id status).node? id := by
    intro id
    unfold ProofTree.node?
    rw [hnodes]
  have hsize : later.tree.size = merge.tree.size := by
    rw [← merge.tree.size_setStatus leaf.id status]
    unfold ProofTree.size
    rw [hnodes]
  refine ⟨.inr hsettles, ?_, ?_, ?_, ?_, status, ?_, hfailed, hincomplete⟩
  · intro id node hne hnode
    rw [hnode?]
    exact merge.tree.keepsBut_setStatus leaf.id status id node hne hnode
  · rw [hsize, hadded, hsound.size]
  · rw [hadded, hsound.added]
  · rw [hexpanded]
    exact fun node hmem => .inl hmem
  · rw [hnode?]
    exact ProofTree.node?_setStatus_self hopen status

theorem markExpanded_eq (merge : Merge) (leaf : ProofNode) {step : SymbolicStep}
    (hsome : step.successors ≠ []) :
    (merge.markExpanded leaf step).tree = merge.tree.setStatus leaf.id step.status ∧
      (merge.markExpanded leaf step).added = merge.added ∧
      (merge.markExpanded leaf step).expanded = merge.expanded ∧
      (merge.markExpanded leaf step).failed = merge.failed ∧
      ((merge.markExpanded leaf step).incomplete = true →
        merge.incomplete = true ∨
          (step.status == .expanded || step.status.isClosed) = false) := by
  have hnonempty : step.successors.isEmpty = false := by simpa using hsome
  unfold markExpanded SymbolicStep.status
  rw [hnonempty]
  split
  · rename_i hundecided
    rw [decide_eq_true hundecided]
    exact ⟨rfl, rfl, rfl, rfl, fun _ => .inr rfl⟩
  · rename_i hundecided
    rw [decide_eq_false hundecided]
    exact ⟨rfl, rfl, rfl, rfl, .inl⟩

theorem settled_expand {before : ProofTree} {leaf : ProofNode}
    {rest : List (ProofNode × Option (Except RewriteError Examination))} {merge : Merge}
    (hsound : merge.Sound prover target before rest) (hopen : merge.tree.IsOpen leaf)
    (maxNodes : Nat) {step : SymbolicStep}
    (hfinds : prover.Finds target merge.tree leaf (.stepped step)) (hsome : step.successors ≠ []) :
    Settled prover target before leaf merge (merge.expand maxNodes leaf step) := by
  unfold Merge.expand
  split
  · exact settled_skip hsound hopen
  · dsimp only
    obtain ⟨htree, hadded, hexpanded, hfailed, hincomplete⟩ := merge.markExpanded_eq leaf hsome
    rw [htree, hadded, hexpanded]
    have hgrows :=
      (merge.tree.setStatus leaf.id step.status).grows_addStep leaf.id (leaf.depth + 1) step
    have hself := hgrows.node?_eq _ _ (ProofTree.node?_setStatus_self hopen step.status)
    refine ⟨.inr (.expanded hopen hfinds hsome), ?_, ?_, ?_, ?_, step.status, hself, ?_, hincomplete⟩
    · intro id node hne hnode
      exact hgrows.node?_eq id node (merge.tree.keepsBut_setStatus leaf.id _ id node hne hnode)
    · simp only [ProofTree.size_addStep, ProofTree.size_setStatus, Array.size_append,
        Array.size_range', hsound.size]
      omega
    · simp only [Array.toList_append, Array.toList_range', Array.size_append, Array.size_range',
        ProofTree.size_setStatus, hsound.added, hsound.size, List.range'_append_1]
    · intro node hmem
      rw [Array.toList_push, List.mem_append, List.mem_singleton] at hmem
      rcases hmem with hmem | rfl
      · exact .inl hmem
      · exact .inr ⟨step.status, hself, step.isExpanded_status_iff.2 hsome⟩
    · rw [hfailed]
      constructor
      · exact .inl
      · rintro (hold | hstatus)
        · exact hold
        · have hexpanded := step.isExpanded_status_iff.2 hsome
          rw [hstatus] at hexpanded
          cases hexpanded

theorem settled_endBranch {before : ProofTree} {leaf : ProofNode}
    {rest : List (ProofNode × Option (Except RewriteError Examination))} {merge : Merge}
    (hsound : merge.Sound prover target before rest) (hopen : merge.tree.IsOpen leaf)
    {step : SymbolicStep} (hfinds : prover.Finds target merge.tree leaf (.stepped step))
    (hnone : step.successors = []) :
    Settled prover target before leaf merge (merge.endBranch leaf step) := by
  have hsettles := Prover.Settles.ended hopen hfinds hnone
  have hempty : step.successors.isEmpty = true := by simp [hnone]
  unfold SymbolicStep.status at hsettles
  rw [hempty] at hsettles
  unfold endBranch
  split
  · rename_i hundecided
    rw [decide_eq_true hundecided] at hsettles
    exact settled_of_status hsound hopen hsettles rfl rfl rfl (by simp) fun _ => .inr rfl
  · rename_i hundecided
    rw [decide_eq_false hundecided] at hsettles
    exact settled_of_status hsound hopen hsettles rfl rfl rfl (by simp) .inl

theorem settled_add {before : ProofTree} {leaf : ProofNode}
    {rest : List (ProofNode × Option (Except RewriteError Examination))} {merge : Merge}
    (hsound : merge.Sound prover target before rest) (maxNodes : Nat)
    {examination : Examination}
    (hfits : Fits prover target merge.tree leaf (some (.ok examination))) :
    Settled prover target before leaf merge (merge.add maxNodes leaf examination) := by
  have hopen := hfits.isOpen
  have hfinds := hfits.finds examination rfl
  cases examination with
  | skipped => exact settled_skip hsound hopen
  | target =>
      exact settled_of_status hsound hopen (.target hopen hfinds) rfl rfl rfl
        (by simp [Merge.add, closeByTarget]) .inl
  | circular earlier =>
      exact settled_of_status hsound hopen (.circular hopen hfinds) rfl rfl rfl
        (by simp [Merge.add, closeByCircularity]) .inl
  | stepped step =>
      simp only [Merge.add]
      split
      · rename_i hempty
        exact settled_endBranch hsound hopen hfinds (by simpa using hempty)
      · rename_i hnonempty
        exact settled_expand hsound hopen maxNodes hfinds (by simpa using hnonempty)

/-- Merging the results of a level; an error leaves the rest of them out. -/
theorem Sound.addAll {before : ProofTree} (maxNodes : Nat)
    {results : List (ProofNode × Option (Except RewriteError Examination))} {merge : Merge}
    (hsound : merge.Sound prover target before results) :
    ∃ rest, (Merge.addAll maxNodes results merge).1.Sound prover target before rest := by
  induction results generalizing merge with
  | nil => exact ⟨[], hsound⟩
  | cons entry rest ih =>
      obtain ⟨leaf, result⟩ := entry
      have hfits := (List.forall_mem_cons.1 hsound.fits).1.2
      simp only [Merge.addAll]
      split
      · exact ih (hsound.next (settled_skip hsound hfits.isOpen))
      · exact ih (hsound.next (settled_add hsound maxNodes hfits))
      · exact ⟨_, hsound⟩

end Merge

namespace Prover

/-- A node that is found to cover a state is one of those given. -/
theorem coveringNode_covers (prover : Prover σ) (state : ConstrainedTerm) (nodes : List ProofNode) :
    (prover.coveringNode state nodes).Ensures fun found =>
      ∀ earlier, found = some earlier → ∃ node ∈ nodes, node.id = earlier ∧
        ∃ start next, prover.covers node.state state start = .ok true next := by
  induction nodes with
  | nil => exact Run.Ensures.of_pure fun _ hnone => by cases hnone
  | cons node nodes ih =>
      intro start found next hrun
      obtain ⟨covered, between, hcovers, hrest⟩ := Run.bind_eq_ok.1 hrun
      cases covered with
      | true =>
          obtain ⟨rfl, -⟩ := Run.pure_eq_ok.1 hrest
          rintro earlier ⟨⟩
          exact ⟨node, List.mem_cons_self, rfl, start, between, hcovers⟩
      | false =>
          intro earlier hearlier
          obtain ⟨other, hmem, hother⟩ := ih between found next hrest earlier hearlier
          exact ⟨other, List.mem_cons_of_mem _ hmem, hother⟩

theorem examine_finds (prover : Prover σ) (target : ConstrainedTerm) {tree : ProofTree}
    {visited : List ProofNode} (hvisited : ∀ node ∈ visited, tree.HasExpanded node)
    (leaf : ProofNode) : (prover.examine target visited leaf).Ensures
      (prover.Finds target tree leaf) := by
  intro start examination next hrun
  obtain ⟨stop, polled, -, hrun⟩ := Run.bind_eq_ok.1 hrun
  cases stop with
  | true =>
      obtain ⟨rfl, -⟩ := Run.pure_eq_ok.1 hrun
      exact .skipped
  | false =>
      obtain ⟨covered, compared, hcovers, hrun⟩ := Run.bind_eq_ok.1 hrun
      cases covered with
      | true =>
          obtain ⟨rfl, -⟩ := Run.pure_eq_ok.1 hrun
          exact .target hcovers
      | false =>
          obtain ⟨found, searched, hsearch, hrun⟩ := Run.bind_eq_ok.1 hrun
          cases found with
          | some earlier =>
              obtain ⟨rfl, -⟩ := Run.pure_eq_ok.1 hrun
              obtain ⟨node, hmem, rfl, first, last, hnode⟩ :=
                prover.coveringNode_covers _ _ _ _ _ hsearch earlier rfl
              obtain ⟨hmem, hbase⟩ := List.mem_filter.1 hmem
              exact .circular (hvisited node hmem) (by simpa using hbase) hnode
          | none =>
              obtain ⟨stop, polled, -, hrun⟩ := Run.bind_eq_ok.1 hrun
              cases stop with
              | true =>
                  obtain ⟨rfl, -⟩ := Run.pure_eq_ok.1 hrun
                  exact .skipped
              | false =>
                  obtain ⟨step, stepped, hstep, hrun⟩ := Run.bind_eq_ok.1 hrun
                  obtain ⟨rfl, -⟩ := Run.pure_eq_ok.1 hrun
                  exact .stepped hcovers hstep

/-- What is found out about a leaf is the answer of an examination. -/
theorem exists_examine_of_mem (prover : Prover σ) (target : ConstrainedTerm)
    (visited : List ProofNode) (level : Nat) (leaves : List ProofNode) (state : RunState σ) :
    ∀ leaf examination,
      (leaf, some (.ok examination)) ∈
        leaves.zip (prover.examineAll target visited level leaves state).1 →
      ∃ start next, prover.examine target visited leaf start = .ok examination next := by
  intro leaf examination hmem
  let meets (leaf : ProofNode) (result : Except RewriteError Examination) : Prop :=
    ∀ examination, result = .ok examination →
      ∃ start next, prover.examine target visited leaf start = .ok examination next
  refine Pool.mapItems_meets meets _ _ _ ?_ leaves state leaf _ hmem examination rfl
  intro leaf start examination hexamination
  unfold Run.attempt at hexamination
  split at hexamination
  · rename_i found next hrun
    cases hexamination
    exact ⟨start, next, hrun⟩
  · cases hexamination

theorem nodup_ids_zip {leaves : List ProofNode} (hdistinct : (leaves.map ProofNode.id).Nodup)
    {β : Type} (results : List β) :
    ((leaves.zip results).map fun entry => entry.1.id).Nodup := by
  have hfirst : ((leaves.zip results).map Prod.fst).Sublist leaves := by
    rw [List.zip_eq_zip_take_min, List.map_fst_zip (by simp)]
    exact List.take_sublist _ _
  have hids : (leaves.zip results).map (fun entry => entry.1.id) =
      ((leaves.zip results).map Prod.fst).map ProofNode.id := by
    rw [List.map_map]
    rfl
  rw [hids]
  exact hdistinct.sublist (hfirst.map ProofNode.id)

/-- The state of a search between two levels, when it began with the tree `first`. -/
structure Sound (prover : Prover σ) (target : ConstrainedTerm) (first : ProofTree)
    (search : SearchState) : Prop where
  settles : ReflTransGen (prover.Settles target) first search.tree
  wellFormed : search.tree.WellFormed
  visited : ∀ node ∈ search.visited, search.tree.HasExpanded node
  frontier : ∀ leaf ∈ search.frontier, search.tree.IsOpen leaf
  distinct : (search.frontier.map ProofNode.id).Nodup
  failed : search.failed = true ↔ ∃ id, search.tree.Fails id ∧ ¬first.Fails id
  incomplete : search.incomplete = true →
    ∃ id, search.tree.IsOutstanding id ∧ ∀ leaf ∈ search.frontier, leaf.id ≠ id

theorem hasExpanded_of_settles {tree later : ProofTree} {node : ProofNode}
    (hsettles : ReflTransGen (prover.Settles target) tree later)
    (hexpanded : tree.HasExpanded node) : later.HasExpanded node := by
  obtain ⟨status, hnode, hstatus⟩ := hexpanded
  refine ⟨status, node?_of_settles hsettles hnode ?_, hstatus⟩
  rintro rfl
  cases hstatus

/-- The leaves that are not too deep. -/
def reached (prover : Prover σ) (search : SearchState) : List ProofNode :=
  search.frontier.filter fun node => node.depth ≤ prover.config.maxDepth

/-- The tree before the results of a level are merged into it. -/
def startLevel (prover : Prover σ) (search : SearchState) : Merge where
  tree := search.tree
  stats := { search.stats with levels := search.stats.levels + 1 }
  incomplete := search.incomplete ||
    !(search.frontier.filter fun node => !decide (node.depth ≤ prover.config.maxDepth)).isEmpty

/-- The leaves of a level, with what their examinations find. -/
def levelResults (prover : Prover σ) (target : ConstrainedTerm) (search : SearchState)
    (state : RunState σ) : List (ProofNode × Option (Except RewriteError Examination)) :=
  (prover.reached search).zip
    (prover.examineAll target search.visited (search.stats.levels + 1) (prover.reached search)
      state).1

theorem searchLevel_eq (prover : Prover σ) (target : ConstrainedTerm) (search : SearchState)
    (state : RunState σ) :
    prover.searchLevel target search state =
      ((prover.startLevel search).addAll prover.config.maxNodes
        (prover.levelResults target search state),
        (prover.examineAll target search.visited (search.stats.levels + 1) (prover.reached search)
          state).2) := by
  unfold searchLevel
  rw [List.partition_eq_filter_filter]
  rfl

theorem searchLevel_fst (prover : Prover σ) (target : ConstrainedTerm) (search : SearchState)
    (state : RunState σ) :
    (prover.searchLevel target search state).1 =
      (prover.startLevel search).addAll prover.config.maxNodes
        (prover.levelResults target search state) :=
  congrArg Prod.fst (prover.searchLevel_eq target search state)

section LevelResults

variable {search : SearchState} {state : RunState σ}

theorem mem_reached_of_mem_levelResults
    {entry : ProofNode × Option (Except RewriteError Examination)}
    (hmem : entry ∈ prover.levelResults target search state) : entry.1 ∈ prover.reached search :=
  (List.of_mem_zip hmem).1

theorem mem_frontier_of_mem_levelResults
    {entry : ProofNode × Option (Except RewriteError Examination)}
    (hmem : entry ∈ prover.levelResults target search state) : entry.1 ∈ search.frontier :=
  List.mem_of_mem_filter (mem_reached_of_mem_levelResults hmem)

theorem nodup_levelResults (hdistinct : (search.frontier.map ProofNode.id).Nodup) :
    ((prover.levelResults target search state).map fun entry => entry.1.id).Nodup :=
  nodup_ids_zip (hdistinct.sublist (List.filter_sublist.map ProofNode.id)) _

theorem finds_of_mem_levelResults {tree : ProofTree}
    (hvisited : ∀ node ∈ search.visited, tree.HasExpanded node) {leaf : ProofNode}
    {examination : Examination}
    (hmem : (leaf, some (.ok examination)) ∈ prover.levelResults target search state) :
    prover.Finds target tree leaf examination := by
  obtain ⟨start, next, hrun⟩ := prover.exists_examine_of_mem target _ _ _ state leaf _ hmem
  exact prover.examine_finds target hvisited leaf start _ next hrun

theorem lt_size_of_circular {tree : ProofTree}
    (hvisited : ∀ node ∈ search.visited, tree.HasExpanded node) {leaf : ProofNode}
    {earlier : NodeId}
    (hmem : (leaf, some (.ok (.circular earlier))) ∈ prover.levelResults target search state) :
    earlier < tree.size := by
  cases finds_of_mem_levelResults hvisited hmem with
  | circular hexpanded _ _ =>
      obtain ⟨_, hnode, -⟩ := hexpanded
      exact ProofTree.lt_size_of_node? hnode

end LevelResults

theorem sound_searchLevel {first : ProofTree} {search : SearchState}
    (hsound : Sound prover target first search) (state : RunState σ) :
    ∃ rest, (prover.searchLevel target search state).1.1.Sound prover target search.tree rest := by
  rw [searchLevel_fst]
  refine Merge.Sound.addAll _ ⟨.refl, hsound.wellFormed, rfl, rfl, ?_, by simp [startLevel], ?_,
    nodup_levelResults hsound.distinct, by simp [startLevel], ?_⟩
  · intro id node hstart hnode
    exact absurd (ProofTree.lt_size_of_node? hnode) (Nat.not_lt_of_ge hstart)
  · rintro ⟨leaf, result⟩ hmem
    have hopen := hsound.frontier leaf (mem_frontier_of_mem_levelResults hmem)
    refine ⟨ProofTree.lt_size_of_node? hopen.1, hopen, ?_⟩
    rintro examination rfl
    exact finds_of_mem_levelResults hsound.visited hmem
  · intro hincomplete
    rcases Bool.or_eq_true_iff.1 hincomplete with hearlier | hbeyond
    · obtain ⟨id, houtstanding, hothers⟩ := hsound.incomplete hearlier
      exact ⟨id, houtstanding.lt_size, houtstanding,
        fun entry hmem => hothers entry.1 (mem_frontier_of_mem_levelResults hmem)⟩
    · -- a leaf that is too deep is not examined
      obtain ⟨leaf, hmem, hdeep⟩ :
          ∃ leaf ∈ search.frontier, prover.config.maxDepth < leaf.depth := by
        simpa using hbeyond
      have hopen := hsound.frontier leaf hmem
      refine ⟨leaf.id, ProofTree.lt_size_of_node? hopen.1, hopen.isOutstanding, ?_⟩
      rintro ⟨other, result⟩ hother hsame
      obtain ⟨hmem', hshallow⟩ := List.mem_filter.1 (mem_reached_of_mem_levelResults hother)
      obtain rfl : other = leaf := by
        have hnode := (hsound.frontier other hmem').1
        rw [hsame, hopen.1, Option.some.injEq] at hnode
        exact hnode.symm
      exact Nat.not_le_of_gt hdeep (of_decide_eq_true hshallow)

theorem sound_nextSearch {first : ProofTree} {search : SearchState} {merge : Merge}
    {rest : List (ProofNode × Option (Except RewriteError Examination))}
    (hsound : Sound prover target first search) (hfailed : search.failed = false)
    (hmerge : merge.Sound prover target search.tree rest) :
    Sound prover target first (nextSearch search merge) where
  settles := hsound.settles.trans hmerge.settles
  wellFormed := hmerge.wellFormed
  visited node hmem := by
    rcases List.mem_append.1 hmem with hold | hnew
    · exact hasExpanded_of_settles hmerge.settles (hsound.visited node hold)
    · exact hmerge.expanded node hnew
  frontier leaf hmem := by
    obtain ⟨id, hadded, hleaf⟩ := List.mem_filterMap.1 hmem
    rw [hmerge.added] at hadded
    have hid := hmerge.wellFormed.id_eq id leaf hleaf
    have hstart := (List.mem_range'_1.1 hadded).1
    exact ⟨hid ▸ hleaf, hmerge.unexamined id leaf hstart hleaf⟩
  distinct := by
    have hadded : merge.added.toList.Nodup := by
      rw [hmerge.added]
      exact List.nodup_range'
    refine List.pairwise_map.2 (List.Pairwise.filterMap _ ?_ hadded)
    intro first second hne node hnode other hother
    rw [hmerge.wellFormed.id_eq first node hnode, hmerge.wellFormed.id_eq second other hother]
    exact hne
  failed := by
    have hsame : ∀ id, search.tree.Fails id ↔ first.Fails id := by
      intro id
      refine ⟨fun hfails => ?_, fails_of_settles hsound.settles⟩
      refine Classical.byContradiction fun hfirst => ?_
      rw [hsound.failed.2 ⟨id, hfails, hfirst⟩] at hfailed
      cases hfailed
    refine hmerge.failed.trans ?_
    simp only [nextSearch, hsame]
  incomplete hincomplete := by
    obtain ⟨id, hless, houtstanding, -⟩ := hmerge.incomplete hincomplete
    refine ⟨id, houtstanding, fun leaf hmem => ?_⟩
    obtain ⟨other, hadded, hleaf⟩ := List.mem_filterMap.1 hmem
    rw [hmerge.added] at hadded
    have hstart := (List.mem_range'_1.1 hadded).1
    rw [hmerge.wellFormed.id_eq other leaf hleaf]
    exact Nat.ne_of_gt (Nat.lt_of_lt_of_le hless hstart)

/-- What is left when a search that began with the tree `first` ends. -/
structure Ended (prover : Prover σ) (target : ConstrainedTerm) (first : ProofTree)
    (search : SearchState) : Prop where
  settles : ReflTransGen (prover.Settles target) first search.tree
  failed : search.failed = true ↔ ∃ id, search.tree.Fails id ∧ ¬first.Fails id
  incomplete : search.incomplete = true → ∃ id, search.tree.IsOutstanding id

theorem Sound.ended {first : ProofTree} {search : SearchState}
    (hsound : Sound prover target first search) : Ended prover target first search where
  settles := hsound.settles
  failed := hsound.failed
  incomplete hincomplete := by
    obtain ⟨id, houtstanding, -⟩ := hsound.incomplete hincomplete
    exact ⟨id, houtstanding⟩

theorem ended_searchLevels {first : ProofTree} {search : SearchState}
    (hsound : Sound prover target first search) (hfailed : search.failed = false)
    (state : RunState σ) :
    Ended prover target first (prover.searchLevels target search state).1.1 := by
  have hnext : ∀ search polled merge error last, Sound prover target first search →
      search.failed = false → prover.searchLevel target search polled = ((merge, error), last) →
      Sound prover target first (nextSearch search merge) := by
    intro search polled merge error last hsound hfailed hlevel
    obtain ⟨rest, hmerge⟩ := sound_searchLevel hsound polled
    rw [hlevel] at hmerge
    exact sound_nextSearch hsound hfailed hmerge
  fun_induction prover.searchLevels target search state with
  | case1 search state hempty => exact hsound.ended
  | case2 search state hempty last hpoll =>
      refine ⟨hsound.settles, hsound.failed, fun _ => ?_⟩
      obtain ⟨leaf, hmem⟩ := List.exists_mem_of_ne_nil search.frontier (by simpa using hempty)
      exact ⟨leaf.id, (hsound.frontier leaf hmem).isOutstanding⟩
  | case3 search state hempty polled hpoll merge error last hlevel =>
      exact (hnext _ _ _ _ _ hsound hfailed hlevel).ended
  | case4 search state hempty polled hpoll merge last hlevel hlast =>
      exact (hnext _ _ _ _ _ hsound hfailed hlevel).ended
  | case5 search state hempty polled hpoll merge last hlevel hmore ih =>
      obtain ⟨hgoing, -⟩ := not_or.1 (mt Bool.or_eq_true_iff.2 hmore)
      exact ih (hnext _ _ _ _ _ hsound hfailed hlevel) (Bool.eq_false_iff.2 hgoing)

/-- A search can be resumed with every well-formed tree. -/
theorem sound_resume {tree : ProofTree} (hwell : tree.WellFormed) :
    Sound prover target tree
      { tree, visited := tree.expandedNodes, frontier := tree.openLeaves } := by
  have hnode : ∀ node ∈ tree.nodes.toList, tree.node? node.id = some node := by
    intro node hmem
    obtain ⟨id, hid⟩ := List.mem_iff_getElem?.1 hmem
    rw [Array.getElem?_toList] at hid
    rw [hwell.id_eq id node hid]
    exact hid
  have hdistinct : (tree.nodes.toList.map ProofNode.id).Nodup := by
    refine List.pairwise_map.2 (List.pairwise_iff_getElem.2 ?_)
    intro first second hfirst hsecond hlt
    rw [Array.getElem_toList, Array.getElem_toList, hwell.id_eq first _ (Array.getElem?_eq_getElem hfirst),
      hwell.id_eq second _ (Array.getElem?_eq_getElem hsecond)]
    exact Nat.ne_of_lt hlt
  refine ⟨.refl, hwell, ?_, ?_, ?_, by simp, by simp⟩
  · intro node hmem
    obtain ⟨hnodes, hstatus⟩ := List.mem_filter.1 hmem
    exact ⟨node.status, hnode node hnodes, hstatus⟩
  · intro leaf hmem
    obtain ⟨hnodes, hstatus⟩ := List.mem_filter.1 hmem
    exact ⟨hnode leaf hnodes, by simpa using hstatus⟩
  · exact hdistinct.sublist (List.filter_sublist.map ProofNode.id)

theorem ended_resume (prover : Prover σ) (target : ConstrainedTerm) {tree : ProofTree}
    (hwell : tree.WellFormed) (state : RunState σ) :
    Ended prover target tree
      (prover.searchLevels target
        { tree, visited := tree.expandedNodes, frontier := tree.openLeaves } state).1.1 :=
  ended_searchLevels (sound_resume hwell) rfl state

/-- A call settles one leaf of the goal's tree after another. -/
theorem settles_prove (prover : Prover σ) {goal : Goal} (hwell : goal.tree.WellFormed)
    (state : RunState σ) :
    ReflTransGen (prover.Settles goal.target) goal.tree (prover.prove goal state).1.2.tree := by
  have hended := prover.ended_resume goal.target hwell { state with cancelled := false }
  unfold prove
  split
  · exact .refl
  · dsimp only
    split
    · rename_i last error next hsearch
      rw [hsearch] at hended
      exact hended.settles
    · rename_i last next hsearch
      rw [hsearch] at hended
      exact hended.settles

theorem target_prove (prover : Prover σ) (goal : Goal) (state : RunState σ) :
    (prover.prove goal state).1.2.target = goal.target := by
  unfold prove
  split
  · rfl
  · dsimp only
    split <;> rfl

theorem wellFormed_prove (prover : Prover σ) {goal : Goal} (hwell : goal.tree.WellFormed)
    (state : RunState σ) : (prover.prove goal state).1.2.tree.WellFormed :=
  wellFormed_of_settles (prover.settles_prove hwell state) hwell

end Prover

/-- A goal that searches may have left behind, one after another, by any provers. -/
inductive Goal.Searched : Goal → Prop
  | start (initial target : ConstrainedTerm) : Searched (.start initial target)
  | prove {σ : Type} (prover : Prover σ) {goal : Goal} (state : RunState σ)
      (hgoal : Searched goal) : Searched (prover.prove goal state).1.2

theorem Goal.Searched.wellFormed {goal : Goal} (hsearched : goal.Searched) :
    goal.tree.WellFormed := by
  induction hsearched with
  | start initial target => exact .start initial
  | prove prover state _ ih => exact prover.wellFormed_prove ih state

namespace Prover

/-- Whatever a search ends with, every cycle of its tree contains a rule exactly if no bases are
closed against each other in a circle. -/
theorem prove_progresses_iff (prover : Prover σ) {goal : Goal} (hgoal : goal.Searched)
    (state : RunState σ) :
    (prover.prove goal state).1.2.tree.Progresses ↔
      ∀ base, ¬TransGen (prover.prove goal state).1.2.tree.ClosedAgainst base base :=
  (hgoal.prove prover state).wellFormed.progresses_iff

/-- Two rules lead to the same loop, which ends under a condition that cannot be decided. -/
def looping : Prover Unit where
  machine :=
    { definition := .assemble
        [.rule { lhs := .app "init" [], rhs := .app "loop" [.var ⟨"X", Symbol.int, .plain⟩] },
          .rule { lhs := .app "init" [], rhs := .app "loop" [.var ⟨"X", Symbol.int, .plain⟩] },
          .rule
            { lhs := .app "loop" [.var ⟨"N", Symbol.int, .plain⟩]
              rhs := .app "done" []
              requires := some (.app "small" [.var ⟨"N", Symbol.int, .plain⟩]) }]
      oracle := DecisionProcedure.syntactic.toOracle Unit }
  stopSource environment := (false, environment)

def loopingGoal : Goal := .start ⟨.app "init" [], .trivial⟩ ⟨.app "done" [], .trivial⟩

/-- The remainders of the two loops close each other. -/
theorem idles_looping :
    TransGen (looping.prove loopingGoal { environment := () }).1.2.tree.Idles 1 1 := by
  have hclosed : ∀ transition ∈
      [(⟨1, 4, .remainder⟩ : ProofTransition), ⟨4, 2, .circularity⟩, ⟨2, 6, .remainder⟩,
        ⟨6, 1, .circularity⟩],
      transition ∈ (looping.prove loopingGoal { environment := () }).1.2.tree.transitions := by
    decide +kernel
  simp only [List.forall_mem_cons] at hclosed
  obtain ⟨hfirst, hsecond, hthird, hfourth, -⟩ := hclosed
  exact .head ⟨_, hfirst, rfl⟩ (.head ⟨_, hsecond, rfl⟩
    (.head ⟨_, hthird, rfl⟩ (.single ⟨_, hfourth, rfl⟩)))

theorem prove_progresses_iff_looping :
    loopingGoal.Searched ∧
      ∃ base, TransGen
        (looping.prove loopingGoal { environment := () }).1.2.tree.ClosedAgainst base base := by
  have hgoal : loopingGoal.Searched := .start _ _
  refine ⟨hgoal, Classical.byContradiction fun hnone => ?_⟩
  have hprogresses := (prove_progresses_iff looping hgoal { environment := () }).2
    fun base hcircle => hnone ⟨base, hcircle⟩
  exact ProofTree.progresses_iff_not_idles.1 hprogresses 1 idles_looping

/-- A goal can be proved by a cycle without a rule. -/
theorem proved_and_not_progresses_looping :
    loopingGoal.Searched ∧
      (∃ report, (looping.prove loopingGoal { environment := () }).1.1 = .ok report ∧
        report.status = .proved) ∧
      ¬(looping.prove loopingGoal { environment := () }).1.2.tree.Progresses := by
  refine ⟨.start _ _, ?_, fun hprogresses =>
    ProofTree.progresses_iff_not_idles.1 hprogresses 1 idles_looping⟩
  have hproved : (match (looping.prove loopingGoal { environment := () }).1.1 with
      | .ok report => report.status == .proved
      | .error _ => false) = true := by
    decide +kernel
  split at hproved
  · rename_i report hreport
    exact ⟨report, hreport, by simpa using hproved⟩
  · cases hproved

end Prover

end SymbolicRewriting
