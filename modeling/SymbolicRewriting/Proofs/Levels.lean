import SymbolicRewriting.Proofs.Lineage

/-!
The levels of a search. Each leaf is settled by its examination on a level of whose frontier it is,
and what may close it has been expanded when the level begins.
-/

namespace SymbolicRewriting

open Relation

variable {σ : Type} {prover : Prover σ} {target : ConstrainedTerm}
  {known : ProofNode → Examination → Prop}

namespace ProofTree

variable {tree later : ProofTree} {leaf : ProofNode} {examination : Examination}

theorem SettledBy.keepsBut (hsettled : tree.SettledBy leaf examination later) :
    tree.KeepsBut leaf.id later := by
  cases hsettled with
  | target | ended _ | circular _ => exact tree.keepsBut_setStatus leaf.id _
  | @expanded step _ =>
      have hgrows := (tree.setStatus leaf.id step.status).grows_addStep leaf.id (leaf.depth + 1) step
      intro id node hne hnode
      exact hgrows.node?_eq id node (tree.keepsBut_setStatus leaf.id _ id node hne hnode)

theorem SettlesLeaf.mono {wider : ProofNode → Examination → Prop}
    (hsettles : SettlesLeaf known tree later)
    (hwider : ∀ leaf examination, known leaf examination → wider leaf examination) :
    SettlesLeaf wider tree later := by
  obtain ⟨leaf, examination, hknown, hopen, hsettled⟩ := hsettles
  exact ⟨leaf, examination, hwider leaf examination hknown, hopen, hsettled⟩

end ProofTree

namespace Merge

/-- What is found out about a leaf leaves the tree as it is or settles the leaf. -/
theorem tree_add (merge : Merge) (maxNodes : Nat) (leaf : ProofNode) {examination : Examination}
    (hearlier : ∀ earlier, examination = .circular earlier → earlier < merge.tree.size) :
    (merge.add maxNodes leaf examination).tree = merge.tree ∨
      merge.tree.SettledBy leaf examination (merge.add maxNodes leaf examination).tree := by
  cases examination with
  | skipped => exact .inl rfl
  | target => exact .inr .target
  | circular earlier => exact .inr (.circular (hearlier earlier rfl))
  | stepped step =>
      simp only [add]
      split
      · rename_i hempty
        have hstatus : (merge.endBranch leaf step).tree =
            merge.tree.setStatus leaf.id step.status := by
          unfold endBranch SymbolicStep.status
          rw [hempty]
          split
          · rename_i hundecided
            rw [decide_eq_true hundecided]
          · rename_i hundecided
            rw [decide_eq_false hundecided]
        rw [hstatus]
        exact .inr (.ended (by simpa using hempty))
      · rename_i hnonempty
        have hsome : step.successors ≠ [] := by simpa using hnonempty
        unfold expand
        split
        · exact .inl rfl
        · dsimp only
          rw [(merge.markExpanded_eq leaf hsome).1]
          exact .inr (.expanded hsome)

theorem settles_addAll (merge : Merge) (maxNodes : Nat)
    {results : List (ProofNode × Option (Except RewriteError Examination))}
    (hopen : ∀ entry ∈ results, merge.tree.IsOpen entry.1)
    (hdistinct : (results.map fun entry => entry.1.id).Nodup)
    (hknown : ∀ leaf examination, (leaf, some (.ok examination)) ∈ results →
      known leaf examination)
    (hearlier : ∀ leaf earlier, (leaf, some (.ok (.circular earlier))) ∈ results →
      earlier < merge.tree.size) :
    ReflTransGen (ProofTree.SettlesLeaf known) merge.tree (addAll maxNodes results merge).1.tree := by
  induction results generalizing merge with
  | nil => exact .refl
  | cons entry rest ih =>
      obtain ⟨leaf, result⟩ := entry
      obtain ⟨hleaf, hrest⟩ := List.forall_mem_cons.1 hopen
      obtain ⟨hnew, hothers⟩ := List.nodup_cons.1 hdistinct
      have hknown' : ∀ leaf examination, (leaf, some (.ok examination)) ∈ rest →
          known leaf examination :=
        fun leaf examination hmem => hknown leaf examination (List.mem_cons_of_mem _ hmem)
      have hearlier' : ∀ leaf earlier, (leaf, some (.ok (.circular earlier))) ∈ rest →
          earlier < merge.tree.size :=
        fun leaf earlier hmem => hearlier leaf earlier (List.mem_cons_of_mem _ hmem)
      simp only [addAll]
      split
      · exact ih (merge.add maxNodes leaf .skipped) hrest hothers hknown' hearlier'
      · rename_i examination
        have hsettles := @tree_add merge maxNodes leaf examination fun earlier hcircular =>
          hearlier leaf earlier (hcircular ▸ List.mem_cons_self)
        rcases hsettles with hsame | hsettled
        · rw [← hsame]
          exact ih _ (by rwa [hsame]) hothers hknown' (by rwa [hsame])
        · refine ReflTransGen.head ?_ (ih _ (fun other hmem => ?_) hothers hknown' ?_)
          · exact ⟨leaf, examination, hknown leaf examination List.mem_cons_self, hleaf, hsettled⟩
          · have hne : other.1.id ≠ leaf.id :=
              fun hsame => hnew (List.mem_map.2 ⟨other, hmem, hsame⟩)
            exact hsettled.keepsBut.isOpen hne (hrest other hmem)
          · exact fun leaf earlier hmem =>
              (hsettled.evolves hleaf).lt_size (hearlier' leaf earlier hmem)
      · exact .refl

end Merge

/-- The search that a call begins with. -/
def Goal.resumed (goal : Goal) : SearchState :=
  { tree := goal.tree, visited := goal.tree.expandedNodes, frontier := goal.tree.openLeaves }

namespace Prover

/-- A level of a search after which it goes on. -/
inductive NextLevel (prover : Prover σ) (target : ConstrainedTerm) :
    SearchState × RunState σ → SearchState × RunState σ → Prop
  | next {search : SearchState} {state polled last : RunState σ} {merge : Merge}
      (hleaves : ¬search.frontier.isEmpty = true)
      (hpoll : prover.pollStopped state = (false, polled))
      (hlevel : prover.searchLevel target search polled = ((merge, none), last))
      (hmore : ¬(merge.failed || merge.added.isEmpty) = true) :
      NextLevel prover target (search, state) (nextSearch search merge, last)

/-- The leaf is examined on a level of the search that goes on from the first one. -/
def Examined (prover : Prover σ) (target : ConstrainedTerm) (first : SearchState × RunState σ)
    (leaf : ProofNode) (examination : Examination) : Prop :=
  ∃ search state, ReflTransGen (prover.NextLevel target) first (search, state) ∧
    leaf ∈ search.frontier ∧
    ∃ start next, prover.examine target search.visited leaf start = .ok examination next

theorem sound_of_nextLevel {first : ProofTree} {before after : SearchState × RunState σ}
    (hnext : prover.NextLevel target before after)
    (hsound : Sound prover target first before.1 ∧ before.1.failed = false) :
    Sound prover target first after.1 ∧ after.1.failed = false := by
  cases hnext with
  | @next search _ polled last merge _ _ hlevel hmore =>
      obtain ⟨rest, hmerge⟩ := sound_searchLevel hsound.1 polled
      rw [hlevel] at hmerge
      obtain ⟨hgoing, -⟩ := not_or.1 (mt Bool.or_eq_true_iff.2 hmore)
      exact ⟨sound_nextSearch hsound.1 hsound.2 hmerge, Bool.eq_false_iff.2 hgoing⟩

theorem sound_of_levels {first : ProofTree} {before after : SearchState × RunState σ}
    (hlevels : ReflTransGen (prover.NextLevel target) before after)
    (hsound : Sound prover target first before.1 ∧ before.1.failed = false) :
    Sound prover target first after.1 ∧ after.1.failed = false := by
  induction hlevels with
  | refl => exact hsound
  | tail _ hnext ih => exact sound_of_nextLevel hnext ih

theorem settles_searchLevel {first : ProofTree} {search : SearchState}
    (hsound : Sound prover target first search) (state : RunState σ) :
    ReflTransGen (ProofTree.SettlesLeaf fun leaf examination => leaf ∈ search.frontier ∧
        leaf.depth ≤ prover.config.maxDepth ∧
        ∃ start next, prover.examine target search.visited leaf start = .ok examination next)
      search.tree (prover.searchLevel target search state).1.1.tree := by
  rw [searchLevel_fst]
  refine (prover.startLevel search).settles_addAll _
    (fun entry hmem => hsound.frontier entry.1 (mem_frontier_of_mem_levelResults hmem))
    (nodup_levelResults hsound.distinct) ?_
    fun leaf earlier hmem => lt_size_of_circular hsound.visited hmem
  intro leaf examination hmem
  obtain ⟨hfrontier, hshallow⟩ := List.mem_filter.1 (mem_reached_of_mem_levelResults hmem)
  exact ⟨hfrontier, of_decide_eq_true hshallow,
    prover.exists_examine_of_mem target _ _ _ state leaf examination hmem⟩

theorem settles_searchLevels {first : ProofTree} {search : SearchState}
    (hsound : Sound prover target first search) (hfailed : search.failed = false)
    (state : RunState σ) :
    ReflTransGen (ProofTree.SettlesLeaf (prover.Examined target (search, state))) search.tree
      (prover.searchLevels target search state).1.1.tree := by
  have hlevel {search : SearchState} (hsound : Sound prover target first search)
      (state polled : RunState σ) :
      ReflTransGen (ProofTree.SettlesLeaf (prover.Examined target (search, state))) search.tree
        (prover.searchLevel target search polled).1.1.tree := by
    refine ReflTransGen.mono (fun tree later hsettles => ?_) _ _
      (settles_searchLevel hsound polled)
    exact hsettles.mono fun leaf examination ⟨hmem, _, hexamined⟩ =>
      ⟨search, state, .refl, hmem, hexamined⟩
  fun_induction prover.searchLevels target search state with
  | case1 search state hempty => exact .refl
  | case2 search state hempty last hpoll => exact .refl
  | case3 search state hempty polled hpoll merge error last hmerge =>
      have hsettles := hlevel hsound state polled
      rwa [hmerge] at hsettles
  | case4 search state hempty polled hpoll merge last hmerge hlast =>
      have hsettles := hlevel hsound state polled
      rwa [hmerge] at hsettles
  | case5 search state hempty polled hpoll merge last hmerge hmore ih =>
      have hsettles := hlevel hsound state polled
      rw [hmerge] at hsettles
      have hnext : prover.NextLevel target (search, state) (nextSearch search merge, last) :=
        .next hempty hpoll hmerge hmore
      obtain ⟨hsound', hfailed'⟩ := sound_of_nextLevel hnext ⟨hsound, hfailed⟩
      refine hsettles.trans (ReflTransGen.mono (fun tree later hsettles => ?_) _ _
        (ih hsound' hfailed'))
      refine hsettles.mono fun leaf examination hexamined => ?_
      obtain ⟨search', state', hlevels, hexamined⟩ := hexamined
      exact ⟨search', state', hlevels.head hnext, hexamined⟩

theorem tree_prove (prover : Prover σ) (goal : Goal) (state : RunState σ) :
    (prover.prove goal state).1.2.tree =
      if goal.proved then goal.tree
      else (prover.searchLevels goal.target goal.resumed { state with cancelled := false }).1.1.tree := by
  unfold prove Goal.resumed
  split
  · rfl
  · dsimp only
    split
    · rename_i last error next hsearch
      rw [hsearch]
    · rename_i last next hsearch
      rw [hsearch]

/-- A call settles leaves by what it finds on its levels. -/
theorem settlesLeaf_prove (prover : Prover σ) {goal : Goal} (hwell : goal.tree.WellFormed)
    (state : RunState σ) :
    ReflTransGen
      (ProofTree.SettlesLeaf
        (prover.Examined goal.target (goal.resumed, { state with cancelled := false })))
      goal.tree (prover.prove goal state).1.2.tree := by
  have hsound : Sound prover goal.target goal.tree goal.resumed := sound_resume hwell
  rw [tree_prove]
  split
  · exact .refl
  · exact settles_searchLevels hsound rfl { state with cancelled := false }

end Prover

end SymbolicRewriting
