import SymbolicRewriting.Proofs.BlindOracles
import SymbolicRewriting.Proofs.TreeIdentities

/-!
Proof search does not depend on the order in which leaves are examined. The examinations share a
counter of cell identities, the metrics and the surroundings of the oracle, but nothing of that shows
in what they find, apart from identities. Whoever examines the leaves of a level, and when, the
results are merged in the order of the leaves.
-/

namespace SymbolicRewriting

open List

variable {σ : Type}

theorem Run.RepeatedBy.attempt_alike {run other : Run σ Examination}
    (hrepeated : run.RepeatedBy .undisturbed Examination.Alike other) {start start' : RunState σ}
    (hstart : start.cancelled = false) (hstart' : start'.cancelled = false) :
    Except.map Examination.withoutIds (run.attempt start).1 =
      Except.map Examination.withoutIds (other.attempt start').1 := by
  unfold Run.attempt
  cases hrun : run start with
  | ok examination next =>
      obtain ⟨examination', next', hother, halike, -⟩ :=
        hrepeated.value start start' hstart hstart' examination next hrun
      rw [hother]
      exact congrArg Except.ok halike
  | error error next =>
      obtain ⟨next', hother, -⟩ :=
        hrepeated.error True.intro start start' hstart hstart' error next hrun
      rw [hother]

theorem Run.RepeatedBy.keeps_attempt {α : Type} {same : α → α → Prop} {run : Run σ α}
    (hrepeated : run.RepeatedBy .undisturbed same run) {start : RunState σ}
    (hstart : start.cancelled = false) : (run.attempt start).2.cancelled = false := by
  unfold Run.attempt
  cases hrun : run start with
  | ok value next =>
      obtain ⟨_, _, -, -, hnext, -⟩ := hrepeated.value start start hstart hstart value next hrun
      exact hnext
  | error error next =>
      obtain ⟨_, -, hnext, -⟩ :=
        hrepeated.error True.intro start start hstart hstart error next hrun
      exact hnext

def SearchState.withoutIds (search : SearchState) : SearchState :=
  { search with
    tree := search.tree.withoutIds
    visited := search.visited.map ProofNode.withoutIds
    frontier := search.frontier.map ProofNode.withoutIds }

def Goal.withoutIds (goal : Goal) : Goal :=
  { goal with tree := goal.tree.withoutIds }

namespace Prover

variable {prover : Prover σ} {procedure : DecisionProcedure}

theorem stopped_repeatedBy (hquiet : prover.Quiet) :
    prover.stopped.RepeatedBy .undisturbed (fun stop stop' => stop = false ∧ stop' = false)
      prover.stopped where
  value start start' hstart hstart' stop next hrun := by
    obtain ⟨stop, next, hpoll, hnext, -, hgoing⟩ := prover.stopped_spec start
    obtain ⟨stop', next', hpoll', hnext', -, hgoing'⟩ := prover.stopped_spec start'
    obtain rfl := hgoing hquiet hstart
    obtain rfl := hgoing' hquiet hstart'
    rw [hpoll] at hrun
    cases hrun
    exact ⟨false, next', hpoll', ⟨rfl, rfl⟩, hnext, hnext'⟩
  error _ start start' _ _ error next hrun := by
    obtain ⟨stop, next, hpoll, -⟩ := prover.stopped_spec start
    rw [hpoll] at hrun
    cases hrun

theorem pollStopped_of_quiet (hquiet : prover.Quiet) {state : RunState σ}
    (hstate : state.cancelled = false) :
    (prover.pollStopped state).1 = false ∧ (prover.pollStopped state).2.cancelled = false := by
  obtain ⟨stop, next, hpoll, hnext, -, hgoing⟩ := prover.stopped_spec state
  obtain rfl := hgoing hquiet hstate
  unfold pollStopped
  rw [hpoll]
  exact ⟨rfl, hnext⟩

theorem withoutIds_obligation (pattern : ConstrainedTerm) (found : StructuralMatch) :
    (obligation pattern found).withoutIds = obligation pattern.withoutIds found.withoutIds := by
  simp only [obligation, PathCondition.withoutIds_and, PathCondition.withoutIds_applySubst]
  rfl

/-- The same questions get the same answers, no rule draws anything fresh, and nobody tells the search
to stop. -/
structure Steady (prover : Prover σ) (procedure : DecisionProcedure) : Prop where
  answers : prover.machine.oracle.AnswersBy procedure
  blind : procedure.Blind
  quiet : prover.Quiet
  repeatable : prover.machine.definition.Repeatable
  rewriteRules : ∀ rule ∈ prover.machine.definition.rewriteRules, rule.freshVars = []

section Examinations

variable (hsteady : prover.Steady procedure)
include hsteady

theorem coversBy_repeatedBy {pattern pattern' state state' : ConstrainedTerm}
    (hpattern : pattern.Alike pattern') (hstate : state.Alike state')
    {founds founds' : List StructuralMatch}
    (hfounds : founds.map StructuralMatch.withoutIds = founds'.map StructuralMatch.withoutIds) :
    (prover.coversBy pattern state founds).RepeatedBy .undisturbed Eq
      (prover.coversBy pattern' state' founds') := by
  obtain ⟨-, hcondition⟩ := ConstrainedTerm.alike_iff.1 hstate
  induction founds generalizing founds' with
  | nil =>
      obtain rfl : founds' = [] := List.map_eq_nil_iff.1 hfounds.symm
      exact .of_pure rfl
  | cons found others ih =>
      obtain ⟨found', others', rfl, hfound, hothers⟩ := List.map_eq_cons_iff.1 hfounds.symm
      have hneeded : (obligation pattern found).Alike (obligation pattern' found') := by
        unfold PathCondition.Alike
        rw [withoutIds_obligation, withoutIds_obligation, hpattern, hfound]
      unfold coversBy
      dsimp only
      rw [← hneeded.isTrivial_eq]
      split
      · exact .of_pure rfl
      · refine (stopped_repeatedBy hsteady.quiet).bind fun stop stop' hgoing => ?_
        obtain ⟨rfl, rfl⟩ := hgoing
        refine (Run.RepeatedBy.record _).bind fun _ _ _ => ?_
        refine (Machine.implies_repeatedBy hsteady.answers hsteady.blind hcondition hneeded).bind
          fun answer answer' hanswer => ?_
        subst hanswer
        cases answer with
        | holds => exact .of_pure rfl
        | fails | unknown => exact ih hothers.symm

theorem covers_repeatedBy {pattern pattern' state state' : ConstrainedTerm}
    (hpattern : pattern.Alike pattern') (hstate : state.Alike state') :
    (prover.covers pattern state).RepeatedBy .undisturbed Eq (prover.covers pattern' state') := by
  obtain ⟨hfounds, -⟩ := prover.machine.definition.matchPattern_alike
    (ConstrainedTerm.alike_iff.1 hpattern).1 (ConstrainedTerm.alike_iff.1 hstate).1
  exact coversBy_repeatedBy hsteady hpattern hstate hfounds

theorem coveringNode_repeatedBy {state state' : ConstrainedTerm} (hstate : state.Alike state')
    {nodes nodes' : List ProofNode}
    (hnodes : nodes.map ProofNode.withoutIds = nodes'.map ProofNode.withoutIds) :
    (prover.coveringNode state nodes).RepeatedBy .undisturbed Eq
      (prover.coveringNode state' nodes') := by
  induction nodes generalizing nodes' with
  | nil =>
      obtain rfl : nodes' = [] := List.map_eq_nil_iff.1 hnodes.symm
      exact .of_pure rfl
  | cons node nodes ih =>
      obtain ⟨node', rest', rfl, hnode, hrest⟩ := List.map_eq_cons_iff.1 hnodes.symm
      have hid : node.withoutIds.id = node'.withoutIds.id := congrArg ProofNode.id hnode.symm
      have hearlier : node.state.Alike node'.state := congrArg ProofNode.state hnode.symm
      refine (covers_repeatedBy hsteady hearlier hstate).bind
        fun answer answer' hanswer => ?_
      subst hanswer
      cases answer with
      | true => exact .of_pure (congrArg some hid)
      | false => exact ih hrest.symm

theorem examine_repeatedBy (target : ConstrainedTerm) {visited visited' : List ProofNode}
    (hvisited : visited.map ProofNode.withoutIds = visited'.map ProofNode.withoutIds)
    {leaf leaf' : ProofNode} (hleaf : leaf.withoutIds = leaf'.withoutIds) :
    (prover.examine target visited leaf).RepeatedBy .undisturbed Examination.Alike
      (prover.examine target visited' leaf') := by
  have hstate : leaf.state.Alike leaf'.state := congrArg ProofNode.state hleaf
  have hclosing : (closing visited leaf).map ProofNode.withoutIds =
      (closing visited' leaf').map ProofNode.withoutIds := by
    have hnatural : ∀ (visited : List ProofNode) (leaf : ProofNode),
        (closing visited leaf).map ProofNode.withoutIds =
          closing (visited.map ProofNode.withoutIds) leaf.withoutIds := by
      intro visited leaf
      rw [closing, closing, List.filter_map]
      rfl
    rw [hnatural, hnatural, hvisited, hleaf]
  refine (stopped_repeatedBy hsteady.quiet).bind fun stop stop' hgoing => ?_
  obtain ⟨rfl, rfl⟩ := hgoing
  refine (covers_repeatedBy hsteady rfl hstate).bind fun answer answer' hanswer => ?_
  subst hanswer
  cases answer with
  | true => exact .of_pure rfl
  | false =>
      refine (coveringNode_repeatedBy hsteady hstate hclosing).bind
        fun found found' hfound => ?_
      subst hfound
      cases found with
      | some earlier => exact .of_pure rfl
      | none =>
          refine (stopped_repeatedBy hsteady.quiet).bind fun stop stop' hgoing => ?_
          obtain ⟨rfl, rfl⟩ := hgoing
          refine (Machine.stepSymbolic_repeatedBy hsteady.answers hsteady.blind
            hsteady.repeatable hstate hsteady.rewriteRules).bind fun step step' hstep => ?_
          exact .of_pure (congrArg Examination.stepped hstep)

end Examinations

/-- Each leaf has been examined, in whatever order: an examination may start from any state in which
nobody has told the search to stop. -/
def Examines (prover : Prover σ) (target : ConstrainedTerm) (visited leaves : List ProofNode)
    (results : List (Option (Except RewriteError Examination))) : Prop :=
  Forall₂ (fun leaf result => ∃ start : RunState σ, start.cancelled = false ∧
    result = some ((prover.examine target visited leaf).attempt start).1) leaves results

def mergeLevel (prover : Prover σ) (search : SearchState)
    (results : List (Option (Except RewriteError Examination))) : Merge × Option RewriteError :=
  (prover.startLevel search).addAll prover.config.maxNodes ((prover.reached search).zip results)

def isLast (merged : Merge × Option RewriteError) : Bool :=
  merged.2.isSome || (merged.1.failed || merged.1.added.isEmpty)

/-- A search on whose levels the leaves are examined in any order. -/
inductive Searches (prover : Prover σ) (target : ConstrainedTerm) :
    SearchState → SearchState × Option RewriteError → Prop
  | finished {search : SearchState} (hempty : search.frontier.isEmpty = true) :
      Searches prover target search (search, none)
  | last {search : SearchState} {results : List (Option (Except RewriteError Examination))}
      (hleaves : search.frontier.isEmpty = false)
      (hresults : prover.Examines target search.visited (prover.reached search) results)
      (hlast : isLast (prover.mergeLevel search results) = true) :
      Searches prover target search
        (nextSearch search (prover.mergeLevel search results).1,
          (prover.mergeLevel search results).2)
  | next {search : SearchState} {results : List (Option (Except RewriteError Examination))}
      {found : SearchState × Option RewriteError} (hleaves : search.frontier.isEmpty = false)
      (hresults : prover.Examines target search.visited (prover.reached search) results)
      (hmore : isLast (prover.mergeLevel search results) = false)
      (hrest : Searches prover target (nextSearch search (prover.mergeLevel search results).1) found) :
      Searches prover target search found

/-- The same search, whose leaves are examined by other workers. -/
def scheduled (prover : Prover σ) (workers parallelThreshold : Nat) (schedule : Nat → Schedule) :
    Prover σ :=
  { prover with config := { prover.config with workers, parallelThreshold }, schedule }

section Scheduled

variable (prover : Prover σ) (workers parallelThreshold : Nat) (schedule : Nat → Schedule)

theorem coversBy_scheduled (pattern state : ConstrainedTerm) (founds : List StructuralMatch) :
    (prover.scheduled workers parallelThreshold schedule).coversBy pattern state founds =
      prover.coversBy pattern state founds := by
  induction founds with
  | nil => rfl
  | cons found others ih =>
      unfold coversBy
      rw [ih]
      rfl

theorem coveringNode_scheduled (state : ConstrainedTerm) (nodes : List ProofNode) :
    (prover.scheduled workers parallelThreshold schedule).coveringNode state nodes =
      prover.coveringNode state nodes := by
  induction nodes with
  | nil => rfl
  | cons node nodes ih =>
      unfold coveringNode covers
      rw [ih, coversBy_scheduled]
      rfl

theorem examine_scheduled (target : ConstrainedTerm) (visited : List ProofNode)
    (leaf : ProofNode) :
    (prover.scheduled workers parallelThreshold schedule).examine target visited leaf =
      prover.examine target visited leaf := by
  unfold examine covers
  rw [coversBy_scheduled, coveringNode_scheduled]
  rfl

end Scheduled

/-- The answer to a goal and what becomes of it after a search. -/
def conclusion (goal : Goal) (found : SearchState × Option RewriteError) :
    Except RewriteError ProofReport × Goal :=
  match found with
  | (last, some error) => (.error error, { goal with tree := last.tree })
  | (last, none) =>
      (.ok ⟨verdict last, { last.stats with nodes := last.tree.size }⟩,
        { goal with tree := last.tree, proved := verdict last == .proved })

/-- A call on whose levels the leaves are examined in any order. -/
inductive Concludes (prover : Prover σ) (goal : Goal) :
    Except RewriteError ProofReport × Goal → Prop
  | proved (hproved : goal.proved = true) :
      Concludes prover goal (.ok ⟨.proved, { nodes := goal.tree.size }⟩, goal)
  | searched {found : SearchState × Option RewriteError} (hopen : ¬goal.proved = true)
      (hsearches : prover.Searches goal.target goal.resumed found) :
      Concludes prover goal (conclusion goal found)

/-! The outcome is the same for all orders. -/

theorem startLevel_withoutIds (prover : Prover σ) (search : SearchState) :
    prover.startLevel search.withoutIds = (prover.startLevel search).withoutIds := by
  have hbeyond : (search.withoutIds.frontier.filter fun node =>
        !decide (node.depth ≤ prover.config.maxDepth)).isEmpty =
      (search.frontier.filter fun node =>
        !decide (node.depth ≤ prover.config.maxDepth)).isEmpty := by
    rw [SearchState.withoutIds, List.filter_map, List.isEmpty_map]
    rfl
  unfold startLevel
  rw [hbeyond]
  simp [Merge.withoutIds, SearchState.withoutIds]

theorem reached_withoutIds (prover : Prover σ) (search : SearchState) :
    prover.reached search.withoutIds = (prover.reached search).map ProofNode.withoutIds := by
  rw [reached, reached, SearchState.withoutIds, List.filter_map]
  rfl

theorem isEmpty_frontier_of_alike {search search' : SearchState}
    (hsearch : search.withoutIds = search'.withoutIds) :
    search.frontier.isEmpty = search'.frontier.isEmpty := by
  have hfrontier := congrArg (fun search => search.frontier.isEmpty) hsearch
  simpa [SearchState.withoutIds] using hfrontier

theorem mergeLevel_withoutIds (prover : Prover σ) (search : SearchState)
    (results : List (Option (Except RewriteError Examination))) :
    prover.mergeLevel search.withoutIds (results.map resultWithoutIds) =
      ((prover.mergeLevel search results).1.withoutIds, (prover.mergeLevel search results).2) := by
  unfold mergeLevel
  rw [reached_withoutIds, List.zip_map, startLevel_withoutIds, Merge.withoutIds_addAll]

theorem nextSearch_withoutIds (search : SearchState) (merge : Merge) :
    (nextSearch search merge).withoutIds = nextSearch search.withoutIds merge.withoutIds := by
  have hfrontier : (merge.added.toList.filterMap merge.tree.node?).map ProofNode.withoutIds =
      merge.added.toList.filterMap merge.tree.withoutIds.node? := by
    rw [List.map_filterMap]
    exact congrArg (List.filterMap · _) (funext fun id => (merge.tree.node?_withoutIds id).symm)
  simp [nextSearch, SearchState.withoutIds, Merge.withoutIds, hfrontier]

theorem verdict_withoutIds (search : SearchState) :
    verdict search.withoutIds = verdict search := by
  have hcomplete : search.withoutIds.tree.isComplete = search.tree.isComplete :=
    search.tree.isComplete_withoutIds
  unfold verdict
  rw [hcomplete]
  rfl

theorem nextSearch_alike {search search' : SearchState} {merge merge' : Merge}
    (hsearch : search.withoutIds = search'.withoutIds)
    (hmerge : merge.withoutIds = merge'.withoutIds) :
    (nextSearch search merge).withoutIds = (nextSearch search' merge').withoutIds := by
  rw [nextSearch_withoutIds, nextSearch_withoutIds, hsearch, hmerge]

theorem isLast_of_alike {merged merged' : Merge × Option RewriteError}
    (hmerge : merged.1.withoutIds = merged'.1.withoutIds) (herror : merged.2 = merged'.2) :
    isLast merged = isLast merged' := by
  have hends := congrArg (fun merge : Merge => merge.failed || merge.added.isEmpty) hmerge
  rw [isLast, isLast, herror]
  exact congrArg (merged'.2.isSome || ·) hends

theorem conclusion_alike (goal : Goal) {found found' : SearchState × Option RewriteError}
    (hfound : found.1.withoutIds = found'.1.withoutIds ∧ found.2 = found'.2) :
    (conclusion goal found).1 = (conclusion goal found').1 ∧
      (conclusion goal found).2.withoutIds = (conclusion goal found').2.withoutIds := by
  obtain ⟨search, error⟩ := found
  obtain ⟨search', error'⟩ := found'
  obtain ⟨hsearch, rfl⟩ : search.withoutIds = search'.withoutIds ∧ error = error' := hfound
  have htree : search.tree.withoutIds = search'.tree.withoutIds :=
    congrArg SearchState.tree hsearch
  have hsize : search.tree.size = search'.tree.size := by
    rw [← search.tree.size_withoutIds, htree, search'.tree.size_withoutIds]
  have hstats : search.withoutIds.stats = search'.withoutIds.stats :=
    congrArg SearchState.stats hsearch
  change search.stats = search'.stats at hstats
  have hverdict : verdict search = verdict search' := by
    rw [← verdict_withoutIds, hsearch, verdict_withoutIds]
  cases error with
  | some error => exact ⟨rfl, by simp [conclusion, Goal.withoutIds, htree]⟩
  | none =>
      simp [conclusion, hsize, hstats, hverdict, Goal.withoutIds, htree]

section Orders

variable (hsteady : prover.Steady procedure) {target : ConstrainedTerm} {search search' : SearchState}
include hsteady

theorem Examines.alike {visited visited' leaves leaves' : List ProofNode}
    (hvisited : visited.map ProofNode.withoutIds = visited'.map ProofNode.withoutIds)
    (hleaves : leaves.map ProofNode.withoutIds = leaves'.map ProofNode.withoutIds)
    {results results' : List (Option (Except RewriteError Examination))}
    (hresults : prover.Examines target visited leaves results)
    (hresults' : prover.Examines target visited' leaves' results') :
    results.map resultWithoutIds = results'.map resultWithoutIds := by
  unfold Examines at hresults hresults'
  induction hresults generalizing leaves' results' with
  | nil =>
      obtain rfl : leaves' = [] := List.map_eq_nil_iff.1 hleaves.symm
      cases hresults'
      rfl
  | @cons leaf result leaves results hfirst _ ih =>
      obtain ⟨leaf', rest', rfl, hleaf, hrest⟩ := List.map_eq_cons_iff.1 hleaves.symm
      obtain ⟨result', later', hfirst', hlater', rfl⟩ := List.forall₂_cons_left_iff.1 hresults'
      obtain ⟨start, hstart, rfl⟩ := hfirst
      obtain ⟨start', hstart', rfl⟩ := hfirst'
      have hexamines := examine_repeatedBy hsteady target hvisited hleaf.symm
      rw [List.map_cons, List.map_cons, ih hrest.symm hlater']
      exact congrArg (· :: _) (congrArg some (hexamines.attempt_alike hstart hstart'))

theorem mergeLevel_alike (hsearch : search.withoutIds = search'.withoutIds)
    {results results' : List (Option (Except RewriteError Examination))}
    (hresults : prover.Examines target search.visited (prover.reached search) results)
    (hresults' : prover.Examines target search'.visited (prover.reached search') results') :
    (prover.mergeLevel search results).1.withoutIds =
        (prover.mergeLevel search' results').1.withoutIds ∧
      (prover.mergeLevel search results).2 = (prover.mergeLevel search' results').2 := by
  have hvisited := congrArg SearchState.visited hsearch
  have hreached := congrArg prover.reached hsearch
  rw [reached_withoutIds, reached_withoutIds] at hreached
  have halike := hresults.alike hsteady hvisited hreached hresults'
  have hmerged := prover.mergeLevel_withoutIds search results
  rw [halike, hsearch, mergeLevel_withoutIds] at hmerged
  obtain ⟨hmerge, herror⟩ := Prod.mk.inj hmerged
  exact ⟨hmerge.symm, herror.symm⟩

/-- Searches that begin alike end alike, whatever the order of the leaves is on their levels. -/
theorem Searches.alike {found found' : SearchState × Option RewriteError}
    (hsearches : prover.Searches target search found)
    (hsearches' : prover.Searches target search' found')
    (hsearch : search.withoutIds = search'.withoutIds) :
    found.1.withoutIds = found'.1.withoutIds ∧ found.2 = found'.2 := by
  induction hsearches generalizing search' found' with
  | finished hempty =>
      cases hsearches' with
      | finished _ => exact ⟨hsearch, rfl⟩
      | last hleaves _ _ | next hleaves _ _ _ =>
          rw [isEmpty_frontier_of_alike hsearch, hleaves] at hempty
          cases hempty
  | last hleaves hresults hlast =>
      cases hsearches' with
      | finished hempty =>
          rw [isEmpty_frontier_of_alike hsearch, hempty] at hleaves
          cases hleaves
      | last _ hresults' _ =>
          obtain ⟨hmerge, herror⟩ := mergeLevel_alike hsteady hsearch hresults hresults'
          exact ⟨nextSearch_alike hsearch hmerge, herror⟩
      | next _ hresults' hmore _ =>
          obtain ⟨hmerge, herror⟩ := mergeLevel_alike hsteady hsearch hresults hresults'
          rw [isLast_of_alike hmerge herror, hmore] at hlast
          cases hlast
  | next hleaves hresults hmore _ ih =>
      cases hsearches' with
      | finished hempty =>
          rw [isEmpty_frontier_of_alike hsearch, hempty] at hleaves
          cases hleaves
      | last _ hresults' hlast =>
          obtain ⟨hmerge, herror⟩ := mergeLevel_alike hsteady hsearch hresults hresults'
          rw [isLast_of_alike hmerge herror, hlast] at hmore
          cases hmore
      | next _ hresults' _ hrest =>
          obtain ⟨hmerge, -⟩ := mergeLevel_alike hsteady hsearch hresults hresults'
          exact ih hrest (nextSearch_alike hsearch hmerge)

theorem Concludes.alike {goal : Goal} {outcome outcome' : Except RewriteError ProofReport × Goal}
    (hconcludes : prover.Concludes goal outcome) (hconcludes' : prover.Concludes goal outcome') :
    outcome.1 = outcome'.1 ∧ outcome.2.withoutIds = outcome'.2.withoutIds := by
  cases hconcludes with
  | proved hproved =>
      cases hconcludes' with
      | proved _ => exact ⟨rfl, rfl⟩
      | searched hopen _ => exact absurd hproved hopen
  | searched hopen hsearches =>
      cases hconcludes' with
      | proved hproved => exact absurd hproved hopen
      | searched _ hsearches' =>
          exact conclusion_alike goal (hsearches.alike hsteady hsearches' rfl)

/-- What is shown of the tree does not depend on the order at all. -/
theorem Concludes.snapshot_eq {goal : Goal} {outcome outcome' : Except RewriteError ProofReport × Goal}
    (hconcludes : prover.Concludes goal outcome) (hconcludes' : prover.Concludes goal outcome') :
    outcome.2.tree.snapshot = outcome'.2.tree.snapshot := by
  have htree : outcome.2.tree.withoutIds = outcome'.2.tree.withoutIds :=
    congrArg Goal.tree (hconcludes.alike hsteady hconcludes').2
  rw [← outcome.2.tree.snapshot_withoutIds, htree, ProofTree.snapshot_withoutIds]

/-! Whatever the workers and their schedule are, they examine the leaves in one of the orders. -/

section Workers

variable (workers parallelThreshold : Nat) (schedule : Nat → Schedule) {state last : RunState σ}
  (hstate : state.cancelled = false)
include hstate

theorem examines_examineAll (visited : List ProofNode) (level : Nat) (leaves : List ProofNode) :
    let examined := (prover.scheduled workers parallelThreshold schedule).examineAll target visited
      level leaves state
    prover.Examines target visited leaves examined.1 ∧ examined.2.cancelled = false := by
  let fine (state : RunState σ) : Prop := state.cancelled = false
  let scheduled := prover.scheduled workers parallelThreshold schedule
  let examineOne (leaf : ProofNode) := (scheduled.examine target visited leaf).attempt
  have hpoll : ∀ state, fine state →
      (scheduled.pollStopped state).1 = false ∧ fine (scheduled.pollStopped state).2 :=
    fun state hstate => pollStopped_of_quiet hsteady.quiet hstate
  have hexamine : ∀ leaf state, fine state → fine (examineOne leaf state).2 := by
    intro leaf state hstate
    have hrepeated := @examine_repeatedBy σ prover procedure hsteady target visited visited rfl
      leaf leaf rfl
    change ((scheduled.examine target visited leaf).attempt state).2.cancelled = false
    rw [examine_scheduled]
    exact hrepeated.keeps_attempt hstate
  obtain ⟨hlast, hresults⟩ := Pool.mapItems_relies hpoll hexamine
    (if leaves.length ≥ parallelThreshold then workers else 1) (schedule level) leaves hstate
  refine ⟨hresults.imp fun leaf result hresult => ?_, hlast⟩
  obtain ⟨before, hbefore, rfl⟩ := hresult
  refine ⟨before, hbefore, ?_⟩
  rw [← prover.examine_scheduled workers parallelThreshold schedule]

theorem mergeLevel_of_searchLevel {polled : RunState σ} {merged : Merge × Option RewriteError}
    (hpoll : (prover.scheduled workers parallelThreshold schedule).pollStopped state =
      (false, polled))
    (hlevel : (prover.scheduled workers parallelThreshold schedule).searchLevel target search
      polled = (merged, last)) :
    last.cancelled = false ∧ ∃ results,
      prover.Examines target search.visited (prover.reached search) results ∧
        prover.mergeLevel search results = merged := by
  have hquiet : (prover.scheduled workers parallelThreshold schedule).Quiet := hsteady.quiet
  have hpolled := (pollStopped_of_quiet hquiet hstate).2
  rw [hpoll] at hpolled
  obtain ⟨hresults, hlast⟩ := @examines_examineAll σ prover procedure hsteady target workers
    parallelThreshold schedule polled hpolled search.visited (search.stats.levels + 1)
    (prover.reached search)
  rw [searchLevel_eq] at hlevel
  obtain ⟨hmerged, rfl⟩ := Prod.mk.inj hlevel
  exact ⟨hlast, _, hresults, hmerged⟩

theorem searches_searchLevels :
    prover.Searches target search
      ((prover.scheduled workers parallelThreshold schedule).searchLevels target search state).1 := by
  fun_induction (prover.scheduled workers parallelThreshold schedule).searchLevels target search
    state with
  | case1 search state hempty => exact .finished hempty
  | case2 search state hleaves last hpoll =>
      have hquiet : (prover.scheduled workers parallelThreshold schedule).Quiet := hsteady.quiet
      have hgoing := (pollStopped_of_quiet hquiet hstate).1
      rw [hpoll] at hgoing
      cases hgoing
  | case3 search state hleaves polled hpoll merge error last hlevel =>
      obtain ⟨-, results, hresults, hmerge⟩ := mergeLevel_of_searchLevel hsteady workers
        parallelThreshold schedule hstate hpoll hlevel
      have hsearches : prover.Searches target search _ :=
        .last (Bool.eq_false_iff.2 hleaves) hresults (by rw [hmerge]; rfl)
      rwa [hmerge] at hsearches
  | case4 search state hleaves polled hpoll merge last hlevel hlast =>
      obtain ⟨-, results, hresults, hmerge⟩ := mergeLevel_of_searchLevel hsteady workers
        parallelThreshold schedule hstate hpoll hlevel
      have hsearches : prover.Searches target search _ :=
        .last (Bool.eq_false_iff.2 hleaves) hresults (by rw [hmerge]; exact hlast)
      rwa [hmerge] at hsearches
  | case5 search state hleaves polled hpoll merge last hlevel hmore ih =>
      obtain ⟨hlast, results, hresults, hmerge⟩ := mergeLevel_of_searchLevel hsteady workers
        parallelThreshold schedule hstate hpoll hlevel
      refine .next (Bool.eq_false_iff.2 hleaves) hresults ?_ ?_
      · rw [hmerge]
        exact Bool.eq_false_iff.2 hmore
      · rw [hmerge]
        exact ih hlast

end Workers

theorem concludes_prove (workers parallelThreshold : Nat) (schedule : Nat → Schedule) (goal : Goal)
    (state : RunState σ) :
    prover.Concludes goal
      ((prover.scheduled workers parallelThreshold schedule).prove goal state).1 := by
  unfold prove
  split
  · rename_i hproved
    exact .proved hproved
  · rename_i hopen
    have hstate : ({ state with cancelled := false } : RunState σ).cancelled = false := rfl
    have hsearches := @searches_searchLevels σ prover procedure hsteady goal.target goal.resumed
      workers parallelThreshold schedule _ hstate
    have hconcludes := Concludes.searched hopen hsearches
    dsimp only
    split
    · rename_i last error next hsearch
      change (prover.scheduled workers parallelThreshold schedule).searchLevels goal.target
        goal.resumed _ = _ at hsearch
      rwa [hsearch] at hconcludes
    · rename_i last next hsearch
      change (prover.scheduled workers parallelThreshold schedule).searchLevels goal.target
        goal.resumed _ = _ at hsearch
      rwa [hsearch] at hconcludes

end Orders

/-- However many workers examine the leaves of each level, by whatever schedule and from whatever
state, the search is one that examines them in some order; and whatever the orders are, the answer is
the same, and so is the tree up to the identities of cells. -/
theorem prove_any_order (prover : Prover σ) (hanswers : prover.machine.oracle.AnswersBy procedure)
    (hblind : procedure.Blind) (hquiet : prover.Quiet)
    (hfresh : prover.machine.definition.WithoutFresh)
    (hhooks : prover.machine.definition.EveryHook Hook.IgnoresIds)
    (hrules : ∀ rule ∈ prover.machine.definition.rewriteRules, rule.freshVars = []) (goal : Goal) :
    (∀ workers parallelThreshold schedule state, prover.Concludes goal
      ((prover.scheduled workers parallelThreshold schedule).prove goal state).1) ∧
      ∀ outcome outcome', prover.Concludes goal outcome → prover.Concludes goal outcome' →
        outcome.1 = outcome'.1 ∧ outcome.2.withoutIds = outcome'.2.withoutIds := by
  have hsteady : prover.Steady procedure := ⟨hanswers, hblind, hquiet, ⟨hfresh, hhooks⟩, hrules⟩
  constructor
  · intro workers parallelThreshold schedule state
    exact concludes_prove hsteady workers parallelThreshold schedule goal state
  · intro outcome outcome' hconcludes hconcludes'
    exact hconcludes.alike hsteady hconcludes'

end Prover

namespace Branching

def content : Variable := ⟨"X", Symbol.int, .plain⟩

def input : Cell Term := ⟨0, "input", .var content⟩

def output : Cell Term := ⟨1, "output", .var content⟩

def fork (target : Label) : RuleBody where
  lhs := .app "start" [.var content]
  rhs := .app target [.collection [input] none]

def finish (source : Label) : RuleBody where
  lhs := .app source [.collection [input] none]
  rhs := .app "done" [.collection [input, output] none]

/-- Each of the two leaves of the second level draws the identity of a new cell. -/
def prover : Prover Unit where
  machine :=
    { definition := .assemble
        [.rule (fork "left"), .rule (fork "right"), .rule (finish "left"), .rule (finish "right")]
      oracle := DecisionProcedure.syntactic.toOracle Unit }
  stopSource environment := (false, environment)

def goal : Goal :=
  .start ⟨.app "start" [.int 1], .trivial⟩
    ⟨.app "done" [.collection [input, output] none], .trivial⟩

theorem prove_any_order_branching :
    (∃ report, (prover.prove goal { environment := () }).1.1 = .ok report ∧
      report.status = .proved) ∧
    ∀ workers parallelThreshold schedule state,
      let outcome := ((prover.scheduled workers parallelThreshold schedule).prove goal state).1
      let alone := (prover.prove goal { environment := () }).1
      outcome.1 = alone.1 ∧ outcome.2.withoutIds = alone.2.withoutIds := by
  obtain ⟨hconcludes, hunique⟩ := prover.prove_any_order
    (DecisionProcedure.syntactic.answersBy_toOracle Unit) DecisionProcedure.blind_syntactic
    (fun _ => rfl) (fun rule hmem => (by cases hmem))
    ((Definition.onlyBuiltins_assemble [] rfl).everyHook Builtin.ignoresIds) (by decide +kernel) goal
  refine ⟨Goal.exists_report (by decide +kernel), ?_⟩
  intro workers parallelThreshold schedule state outcome alone
  exact hunique outcome alone (hconcludes workers parallelThreshold schedule state)
    (hconcludes prover.config.workers prover.config.parallelThreshold prover.schedule _)

end Branching

/-! An oracle or a hook that looks at identities, or whoever looks at them in a tree, sees the order. -/

namespace Numbered

def cells : Variable := ⟨"C", Symbol.top, .plain⟩

/-- Draws the identity of a new cell. -/
def number (source target : Label) : RuleBody where
  lhs := .app source [.collection [Branching.input] none]
  rhs := .app target [.collection [Branching.output] none]

/-- The condition shows the new cell to the hook or to the oracle. -/
def pass : RuleBody where
  lhs := .app "waiting" [.var cells]
  rhs := .app "done" [.var cells]
  requires := some (.app "fits" [.var cells])

def rules : List Declaration :=
  [.rule (Branching.fork "left"), .rule (Branching.fork "right"),
    .rule (number "left" "waiting"), .rule (number "right" "done"), .rule pass]

/-- Answers by the parity of an identity. -/
def parity : DecisionProcedure where
  decide _ proposition := .ofBool proposition.hasEvenId
  refine subst _ := .refined subst

def hooked : Definition :=
  .assemble (.symbol ⟨"fits", 1, Symbol.bool, .function (some Hook.parity)⟩ :: rules)

def prover (definition : Definition) (procedure : DecisionProcedure) : Prover Unit where
  machine := { definition, oracle := procedure.toOracle Unit }
  stopSource environment := (false, environment)

def goal : Goal :=
  .start ⟨.app "start" [.int 1], .trivial⟩ ⟨.app "done" [.var cells], .trivial⟩

/-- Two workers: as soon as the first one has taken a leaf, the second one does the rest. -/
def overtaken (prover : Prover Unit) : Prover Unit :=
  prover.scheduled 2 2 fun _ count => if count = 4 then { ahead := 1 } else {}

/-- The goal is proved in one order of the leaves and disproved in another. -/
def ShowsOrder (prover : Prover Unit) : Prop :=
  (∃ report, (prover.prove goal { environment := () }).1.1 = .ok report ∧
    report.status = .proved) ∧
  ∃ report, ((overtaken prover).prove goal { environment := () }).1.1 = .ok report ∧
    report.status = .disproved

def conditionIds (tree : ProofTree) : List (List CellId) :=
  tree.nodes.toList.map fun node => node.state.condition.conjuncts.flatMap Term.cellIds

/-- The verdict depends on the order if the oracle or a hook looks at identities, and the identities in
the conditions of the tree always do. -/
theorem prove_shows_order :
    (∀ definition procedure, (prover definition procedure).machine.oracle.AnswersBy procedure ∧
      (prover definition procedure).Quiet) ∧
    (∀ definition ∈ [.assemble rules, hooked], definition.WithoutFresh ∧
      ∀ rule ∈ definition.rewriteRules, rule.freshVars = []) ∧
    ShowsOrder (prover (.assemble rules) parity) ∧ ShowsOrder (prover hooked .syntactic) ∧
    conditionIds ((prover (.assemble rules) .syntactic).prove goal { environment := () }).1.2.tree ≠
      conditionIds ((overtaken (prover (.assemble rules) .syntactic)).prove goal
        { environment := () }).1.2.tree := by
  have hfresh : ∀ definition ∈ [.assemble rules, hooked], definition.WithoutFresh ∧
      ∀ rule ∈ definition.rewriteRules, rule.freshVars = [] := by
    refine List.forall_mem_cons.2 ⟨⟨?_, by decide +kernel⟩,
      List.forall_mem_singleton.2 ⟨?_, by decide +kernel⟩⟩
    · intro rule hmem
      cases hmem
    · intro rule hmem
      cases hmem
  have horacle : ShowsOrder (prover (.assemble rules) parity) :=
    ⟨Goal.exists_report (by decide +kernel), Goal.exists_report (by decide +kernel)⟩
  have hhook : ShowsOrder (prover hooked .syntactic) :=
    ⟨Goal.exists_report (by decide +kernel), Goal.exists_report (by decide +kernel)⟩
  exact ⟨fun _ procedure => ⟨procedure.answersBy_toOracle Unit, fun _ => rfl⟩, hfresh, horacle, hhook,
    by decide +kernel⟩

end Numbered

end SymbolicRewriting
