import SymbolicRewriting.Proofs.Scheduling

/-!
The budgets of proof search. A level is followed by another one only if it has added nodes, which lie
one step deeper than the leaves that they come from, so the depths of the leaves and the size of the
tree both count the levels. What does not fit into the budget of nodes leaves its leaf open.
-/

namespace SymbolicRewriting

open List Relation

variable {σ : Type}

namespace ProofTree

variable {known : ProofNode → Examination → Prop} {first tree later : ProofTree}
  {leaf node : ProofNode} {examination : Examination} {id lower upper : Nat}

/-- A node of the later tree was there before, or it is the leaf, or it is a child of the leaf. -/
theorem SettledBy.node?_cases (hsettled : tree.SettledBy leaf examination later)
    (hopen : tree.IsOpen leaf) (hnode : later.node? id = some node) :
    tree.node? id = some node ∨ (id = leaf.id ∧ ∃ status : NodeStatus, node = { leaf with status }) ∨
      (tree.node? id = none ∧ node.depth = leaf.depth + 1 ∧ node.status = .unexamined) := by
  by_cases hid : id = leaf.id
  · obtain ⟨status, hlater, -⟩ := (hsettled.evolves hopen).node leaf.id leaf hopen.1
    rw [hid, hlater] at hnode
    exact .inr (.inl ⟨hid, status, (Option.some.inj hnode).symm⟩)
  cases hold : tree.node? id with
  | some old =>
      rw [hsettled.keepsBut id old hid hold] at hnode
      exact .inl hnode
  | none =>
      have hstatus : ∀ (status : NodeStatus), (tree.setStatus leaf.id status).node? id = none := by
        intro status
        rw [node?_setStatus_of_ne _ _ hid, hold]
      refine .inr (.inr ⟨rfl, ?_⟩)
      cases hsettled with
      | target | ended _ | circular _ => cases (hstatus _).symm.trans hnode
      | @expanded step _ =>
          have hexpanded := expandedBy_addStep hopen step
          obtain ⟨index, child, hindex, rfl⟩ := hexpanded.exists_child id node hold hnode
          rw [hexpanded.child index child hindex] at hnode
          obtain rfl := Option.some.inj hnode
          exact ⟨rfl, rfl⟩

/-- Nodes have been added and expanded only as deep as leaves between the bounds allow. -/
structure GrownBetween (lower upper : Nat) (first tree : ProofTree) : Prop where
  added : ∀ id node, first.node? id = none → tree.node? id = some node →
    lower < node.depth ∧ node.depth ≤ upper + 1
  expanded : ∀ id node, tree.node? id = some node → node.status.isExpanded = true →
    (∀ old, first.node? id = some old → old.status.isExpanded = false) → node.depth ≤ upper

theorem GrownBetween.refl (lower upper : Nat) (tree : ProofTree) :
    tree.GrownBetween lower upper tree where
  added id node hnone hnode := by
    rw [hnone] at hnode
    cases hnode
  expanded id node hnode hexpanded hnot := by
    rw [hnot node hnode] at hexpanded
    cases hexpanded

theorem GrownBetween.settledBy (hgrown : first.GrownBetween lower upper tree)
    (hopen : tree.IsOpen leaf) (hdepth : lower ≤ leaf.depth ∧ leaf.depth ≤ upper)
    (hsettled : tree.SettledBy leaf examination later) : first.GrownBetween lower upper later where
  added id node hnone hnode := by
    rcases hsettled.node?_cases hopen hnode with hold | ⟨rfl, status, rfl⟩ | ⟨-, hchild, -⟩
    · exact hgrown.added id node hnone hold
    · exact hgrown.added leaf.id leaf hnone hopen.1
    · omega
  expanded id node hnode hexpanded hnot := by
    rcases hsettled.node?_cases hopen hnode with hold | ⟨rfl, status, rfl⟩ | ⟨-, -, hstatus⟩
    · exact hgrown.expanded id node hold hexpanded hnot
    · exact hdepth.2
    · rw [hstatus] at hexpanded
      cases hexpanded

theorem grownBetween_of_settlesLeaf (hsettles : ReflTransGen (SettlesLeaf known) first tree)
    (hdepth : ∀ leaf examination, known leaf examination → lower ≤ leaf.depth ∧ leaf.depth ≤ upper) :
    first.GrownBetween lower upper tree := by
  induction hsettles with
  | refl => exact .refl lower upper first
  | tail _ hsettles ih =>
      obtain ⟨leaf, examination, hknown, hopen, hsettled⟩ := hsettles
      exact ih.settledBy hopen (hdepth leaf examination hknown) hsettled

/-- Settling other leaves leaves a node as it is. -/
theorem node?_of_settlesLeaf (hsettles : ReflTransGen (SettlesLeaf known) tree later)
    (hothers : ∀ leaf examination, known leaf examination → id ≠ leaf.id)
    (hnode : tree.node? id = some node) : later.node? id = some node := by
  induction hsettles with
  | refl => exact hnode
  | tail _ hsettles ih =>
      obtain ⟨leaf, examination, hknown, -, hsettled⟩ := hsettles
      exact hsettled.keepsBut id node (hothers leaf examination hknown) ih

end ProofTree

namespace Merge

variable {maxNodes : Nat} {merge later : Merge} {leaf : ProofNode} {step : SymbolicStep}
  {before after : List (ProofNode × Option (Except RewriteError Examination))}

theorem levels_add (merge : Merge) (maxNodes : Nat) (leaf : ProofNode) (examination : Examination) :
    (merge.add maxNodes leaf examination).stats.levels = merge.stats.levels := by
  cases examination with
  | skipped | target | circular => rfl
  | stepped step =>
      simp only [add]
      split
      · unfold endBranch
        split <;> rfl
      · unfold expand
        split
        · rfl
        · unfold markExpanded
          split <;> rfl

theorem levels_addAll (merge : Merge) (maxNodes : Nat)
    (results : List (ProofNode × Option (Except RewriteError Examination))) :
    (addAll maxNodes results merge).1.stats.levels = merge.stats.levels := by
  induction results generalizing merge with
  | nil => rfl
  | cons entry rest ih =>
      obtain ⟨leaf, result⟩ := entry
      simp only [addAll]
      split
      · rw [ih, levels_add]
      · rw [ih, levels_add]
      · rfl

theorem addAll_append (hbefore : addAll maxNodes before merge = (later, none)) :
    addAll maxNodes (before ++ after) merge = addAll maxNodes after later := by
  induction before generalizing merge with
  | nil =>
      cases hbefore
      rfl
  | cons entry before ih =>
      obtain ⟨leaf, result⟩ := entry
      simp only [addAll, cons_append] at hbefore ⊢
      split at hbefore
      · exact ih hbefore
      · exact ih hbefore
      · cases hbefore

/-- What does not fit is not added. -/
theorem add_of_unaffordable (hsome : step.successors ≠ [])
    (hfull : maxNodes < merge.tree.size + ProofTree.growth step) :
    merge.add maxNodes leaf (.stepped step) = { merge with incomplete := true } := by
  have hnonempty : step.successors.isEmpty = false := by simpa using hsome
  rw [add, hnonempty, if_neg Bool.false_ne_true, expand, if_pos hfull]

end Merge

namespace Prover

variable {prover : Prover σ} {target : ConstrainedTerm}

/-- The search ends here: no leaf is left, or it is told to stop, or this is the last level. -/
inductive EndsWith (prover : Prover σ) (target : ConstrainedTerm) :
    SearchState × RunState σ → (SearchState × Option RewriteError) × RunState σ → Prop
  | finished {search : SearchState} {state : RunState σ}
      (hempty : search.frontier.isEmpty = true) :
      EndsWith prover target (search, state) ((search, none), state)
  | stopped {search : SearchState} {state last : RunState σ}
      (hleaves : ¬search.frontier.isEmpty = true) (hpoll : prover.pollStopped state = (true, last)) :
      EndsWith prover target (search, state) (({ search with incomplete := true }, none), last)
  | last {search : SearchState} {state polled last : RunState σ} {merge : Merge}
      {error : Option RewriteError} (hleaves : ¬search.frontier.isEmpty = true)
      (hpoll : prover.pollStopped state = (false, polled))
      (hlevel : prover.searchLevel target search polled = ((merge, error), last))
      (hlast : isLast (merge, error) = true) :
      EndsWith prover target (search, state) ((nextSearch search merge, error), last)

/-- The search goes on in levels until it ends. -/
theorem exists_endsWith (prover : Prover σ) (target : ConstrainedTerm) (search : SearchState)
    (state : RunState σ) :
    ∃ last, ReflTransGen (prover.NextLevel target) (search, state) last ∧
      prover.EndsWith target last (prover.searchLevels target search state) := by
  fun_induction prover.searchLevels target search state with
  | case1 search state hempty => exact ⟨_, .refl, .finished hempty⟩
  | case2 search state hleaves last hpoll => exact ⟨_, .refl, .stopped hleaves hpoll⟩
  | case3 search state hleaves polled hpoll merge error last hlevel =>
      exact ⟨_, .refl, .last hleaves hpoll hlevel rfl⟩
  | case4 search state hleaves polled hpoll merge last hlevel hlast =>
      exact ⟨_, .refl, .last hleaves hpoll hlevel hlast⟩
  | case5 search state hleaves polled hpoll merge last hlevel hmore ih =>
      obtain ⟨ending, hlevels, hends⟩ := ih
      exact ⟨ending, .head (.next hleaves hpoll hlevel hmore) hlevels, hends⟩

theorem levels_searchLevel {search : SearchState} {state last : RunState σ} {merge : Merge}
    {error : Option RewriteError}
    (hlevel : prover.searchLevel target search state = ((merge, error), last)) :
    merge.stats.levels = search.stats.levels + 1 := by
  have hmerge := prover.searchLevel_fst target search state
  rw [hlevel] at hmerge
  have hlevels := (prover.startLevel search).levels_addAll prover.config.maxNodes
    (prover.levelResults target search state)
  rw [← hmerge] at hlevels
  exact hlevels

theorem prove_eq (prover : Prover σ) {goal : Goal} (hopen : goal.proved = false)
    (state : RunState σ) :
    prover.prove goal state =
      let found := prover.searchLevels goal.target goal.resumed { state with cancelled := false }
      (conclusion goal found.1, found.2) := by
  unfold prove
  rw [if_neg (Bool.eq_false_iff.1 hopen)]
  dsimp only
  split
  · rename_i hsearch
    rw [show prover.searchLevels goal.target goal.resumed _ = _ from hsearch]
    rfl
  · rename_i hsearch
    rw [show prover.searchLevels goal.target goal.resumed _ = _ from hsearch]
    rfl

/-- The nodes that a level adds come after those that were there. -/
theorem size_le_id_of_mem_nextSearch {search : SearchState} {merge : Merge}
    {rest : List (ProofNode × Option (Except RewriteError Examination))}
    (hmerge : merge.Sound prover target search.tree rest) {leaf : ProofNode}
    (hmem : leaf ∈ (nextSearch search merge).frontier) :
    search.tree.size ≤ leaf.id ∧ merge.tree.node? leaf.id = some leaf := by
  obtain ⟨id, hadded, hleaf⟩ := List.mem_filterMap.1 hmem
  rw [hmerge.added] at hadded
  rw [hmerge.wellFormed.id_eq id leaf hleaf]
  exact ⟨(List.mem_range'_1.1 hadded).1, hleaf⟩

/-- What is left of the budgets between two levels of a search that began with the tree `first`. -/
structure Affords (prover : Prover σ) (target : ConstrainedTerm) (first : ProofTree)
    (search : SearchState) : Prop where
  sound : Sound prover target first search
  going : search.failed = false
  settles : ReflTransGen
    (ProofTree.SettlesLeaf fun leaf _ => leaf.depth ≤ prover.config.maxDepth) first search.tree
  size : search.tree.size ≤ max first.size prover.config.maxNodes
  levels : search.stats.levels ≤ prover.config.maxDepth + 1
  counted : first.size + search.stats.levels ≤ search.tree.size
  frontier : ∀ leaf ∈ search.frontier, search.stats.levels ≤ leaf.depth

/-- What has been spent when the search ends. -/
structure Spent (prover : Prover σ) (first : ProofTree) (search : SearchState) : Prop where
  settles : ReflTransGen
    (ProofTree.SettlesLeaf fun leaf _ => leaf.depth ≤ prover.config.maxDepth) first search.tree
  size : search.tree.size ≤ max first.size prover.config.maxNodes
  levels : search.stats.levels ≤ prover.config.maxDepth + 2
  counted : first.size + search.stats.levels ≤ search.tree.size + 1

theorem affords_resumed (prover : Prover σ) {goal : Goal} (hwell : goal.tree.WellFormed) :
    prover.Affords goal.target goal.tree goal.resumed where
  sound := sound_resume hwell
  going := rfl
  settles := .refl
  size := Nat.le_max_left _ _
  levels := Nat.zero_le _
  counted := Nat.le_refl _
  frontier _ _ := Nat.zero_le _

namespace Affords

variable {first : ProofTree} {search : SearchState} {state : RunState σ}

theorem spent (haffords : prover.Affords target first search) : prover.Spent first search where
  settles := haffords.settles
  size := haffords.size
  levels := Nat.le_succ_of_le haffords.levels
  counted := Nat.le_succ_of_le haffords.counted

variable {merge : Merge} {error : Option RewriteError} {last : RunState σ}
  (hlevel : prover.searchLevel target search state = ((merge, error), last))
  (haffords : prover.Affords target first search)
include hlevel haffords

theorem spent_level : prover.Spent first (nextSearch search merge) := by
  have hsettles := settles_searchLevel haffords.sound state
  obtain ⟨hsize, hroom⟩ := prover.grownFrom_searchLevel target search state
  rw [hlevel] at hsettles hsize hroom
  have hcounted := haffords.counted
  have hlevels := haffords.levels
  have hbefore := haffords.size
  refine ⟨haffords.settles.trans (ReflTransGen.mono (fun _ _ hsettles => ?_) _ _ hsettles), ?_, ?_, ?_⟩
  · exact hsettles.mono fun _ _ hknown => hknown.2.1
  · change merge.tree.size ≤ max first.size prover.config.maxNodes
    by_cases hnone : merge.added = #[]
    · rw [hsize, hnone]
      exact hbefore
    · exact Nat.le_trans (hroom hnone) (Nat.le_max_right _ _)
  · change merge.stats.levels ≤ prover.config.maxDepth + 2
    rw [levels_searchLevel hlevel]
    omega
  · change first.size + merge.stats.levels ≤ merge.tree.size + 1
    rw [levels_searchLevel hlevel]
    dsimp only at hsize
    omega

/-- The nodes that a level has added are deeper than the number of levels before it. -/
theorem depths_level : search.tree.GrownBetween search.stats.levels prover.config.maxDepth merge.tree := by
  have hsettles := settles_searchLevel haffords.sound state
  rw [hlevel] at hsettles
  exact ProofTree.grownBetween_of_settlesLeaf hsettles fun leaf _ ⟨hmem, hdepth, _⟩ =>
    ⟨haffords.frontier leaf hmem, hdepth⟩

theorem next (hmore : ¬(merge.failed || merge.added.isEmpty) = true) :
    prover.Affords target first (nextSearch search merge) := by
  obtain ⟨hgoing, hadded⟩ := not_or.1 (mt Bool.or_eq_true_iff.2 hmore)
  obtain ⟨rest, hmerge⟩ := sound_searchLevel haffords.sound state
  rw [hlevel] at hmerge
  have hspent := haffords.spent_level hlevel
  have hdepths := haffords.depths_level hlevel
  have hnew : ∀ id, search.tree.size ≤ id → search.tree.node? id = none :=
    fun id hid => Array.getElem?_eq_none hid
  have hgrows : search.tree.size < merge.tree.size := by
    have hsize : merge.tree.size = search.tree.size + merge.added.size := hmerge.size
    rw [Array.isEmpty_iff_size_eq_zero] at hadded
    omega
  refine ⟨sound_nextSearch haffords.sound haffords.going hmerge, Bool.eq_false_iff.2 hgoing,
    hspent.settles, hspent.size, ?_, ?_, fun leaf hmem => ?_⟩
  · change merge.stats.levels ≤ prover.config.maxDepth + 1
    -- the first node that was added is deep enough, and not too deep
    have hdepth := hdepths.added search.tree.size _ (hnew _ (Nat.le_refl _))
      (Array.getElem?_eq_getElem hgrows)
    rw [levels_searchLevel hlevel]
    omega
  · have hcounted := haffords.counted
    change first.size + merge.stats.levels ≤ merge.tree.size
    rw [levels_searchLevel hlevel]
    omega
  · obtain ⟨hid, hleaf⟩ := size_le_id_of_mem_nextSearch hmerge hmem
    change merge.stats.levels ≤ leaf.depth
    rw [levels_searchLevel hlevel]
    exact (hdepths.added leaf.id leaf (hnew _ hid) hleaf).1

end Affords

theorem affords_of_levels {first : ProofTree} {begins ends : SearchState × RunState σ}
    (haffords : prover.Affords target first begins.1)
    (hlevels : ReflTransGen (prover.NextLevel target) begins ends) :
    prover.Affords target first ends.1 := by
  induction hlevels with
  | refl => exact haffords
  | tail _ hnext ih =>
      cases hnext with
      | next _ _ hlevel hmore => exact ih.next hlevel hmore

theorem Affords.spent_of_endsWith {first : ProofTree} {begins : SearchState × RunState σ}
    (haffords : prover.Affords target first begins.1)
    {outcome : (SearchState × Option RewriteError) × RunState σ}
    (hends : prover.EndsWith target begins outcome) : prover.Spent first outcome.1.1 := by
  cases hends with
  | finished _ => exact haffords.spent
  | stopped _ _ => exact ⟨haffords.settles, haffords.size, haffords.spent.levels, haffords.spent.counted⟩
  | last _ _ hlevel _ => exact haffords.spent_level hlevel

theorem searchLevels_of_nextLevel {before after : SearchState × RunState σ}
    (hnext : prover.NextLevel target before after) :
    prover.searchLevels target before.1 before.2 = prover.searchLevels target after.1 after.2 := by
  obtain ⟨hleaves, hpoll, hlevel, hmore⟩ := hnext
  rw [searchLevels, if_neg hleaves]
  split
  · rename_i hstop
    cases hpoll.symm.trans hstop
  · rename_i hgoing
    cases hpoll.symm.trans hgoing
    split
    · rename_i herror
      cases hlevel.symm.trans herror
    · rename_i hmerge
      cases hlevel.symm.trans hmerge
      rw [if_neg hmore]

theorem searchLevels_of_levels {begins ends : SearchState × RunState σ}
    (hlevels : ReflTransGen (prover.NextLevel target) begins ends) :
    prover.searchLevels target begins.1 begins.2 = prover.searchLevels target ends.1 ends.2 := by
  induction hlevels with
  | refl => rfl
  | tail _ hnext ih => rw [ih, searchLevels_of_nextLevel hnext]

/-- Only the first frontier has leaves that were there when the search began. -/
theorem le_id_of_levels {first : ProofTree} {begins ends : SearchState × RunState σ} {bound : Nat}
    (haffords : prover.Affords target first begins.1)
    (hlevels : ReflTransGen (prover.NextLevel target) begins ends)
    (hsize : bound ≤ begins.1.tree.size) (hfrontier : ∀ leaf ∈ begins.1.frontier, bound ≤ leaf.id) :
    bound ≤ ends.1.tree.size ∧ ∀ leaf ∈ ends.1.frontier, bound ≤ leaf.id := by
  induction hlevels with
  | refl => exact ⟨hsize, hfrontier⟩
  | tail hbefore hnext ih =>
      have hsound := (affords_of_levels haffords hbefore).sound
      cases hnext with
      | @next search _ polled _ merge _ _ hlevel _ =>
          obtain ⟨rest, hmerge⟩ := sound_searchLevel hsound polled
          rw [hlevel] at hmerge
          have hgrown : merge.tree.size = search.tree.size + merge.added.size := hmerge.size
          have hbound : bound ≤ search.tree.size := ih.1
          refine ⟨?_, fun leaf hmem => ?_⟩
          · change bound ≤ merge.tree.size
            omega
          · exact Nat.le_trans hbound (size_le_id_of_mem_nextSearch hmerge hmem).1

/-- The levels that come after a level settle only leaves that are added from it on. -/
theorem settles_after_level {first : ProofTree} {search : SearchState}
    (haffords : prover.Affords target first search) {state polled last : RunState σ} {merge : Merge}
    {error : Option RewriteError} (hleaves : ¬search.frontier.isEmpty = true)
    (hpoll : prover.pollStopped state = (false, polled))
    (hlevel : prover.searchLevel target search polled = ((merge, error), last)) :
    ReflTransGen (ProofTree.SettlesLeaf fun leaf _ => search.tree.size ≤ leaf.id) merge.tree
      (prover.searchLevels target search state).1.1.tree := by
  by_cases hlast : isLast (merge, error) = true
  · have hends : (prover.searchLevels target search state).1.1.tree = merge.tree := by
      rw [searchLevels, if_neg hleaves]
      split
      · rename_i hstop
        cases hpoll.symm.trans hstop
      · rename_i hgoing
        cases hpoll.symm.trans hgoing
        split
        · rename_i herror
          cases hlevel.symm.trans herror
          rfl
        · rename_i hmerge
          cases hlevel.symm.trans hmerge
          change (merge.failed || merge.added.isEmpty) = true at hlast
          rw [if_pos hlast]
          rfl
    rw [hends]
  · obtain ⟨hnone, hmore⟩ := not_or.1 (mt Bool.or_eq_true_iff.2 hlast)
    obtain rfl : error = none := by simpa using hnone
    have hnext : prover.NextLevel target (search, state) (nextSearch search merge, last) :=
      .next hleaves hpoll hlevel hmore
    have hlater := haffords.next hlevel hmore
    obtain ⟨rest, hmerge⟩ := sound_searchLevel haffords.sound polled
    rw [hlevel] at hmerge
    rw [searchLevels_of_nextLevel hnext]
    refine ReflTransGen.mono (fun _ _ hsettles => hsettles.mono fun leaf _ hexamined => ?_) _ _
      (settles_searchLevels hlater.sound hlater.going last)
    obtain ⟨search', state', hlevels, hmem, -⟩ := hexamined
    have hgrown : merge.tree.size = search.tree.size + merge.added.size := hmerge.size
    refine (le_id_of_levels hlater hlevels ?_ ?_).2 leaf hmem
    · change search.tree.size ≤ merge.tree.size
      omega
    · exact fun leaf hmem => (size_le_id_of_mem_nextSearch hmerge hmem).1

/-- The search comes to a leaf from which it has taken a step, when the results before it on its level
have been merged. -/
inductive ComesTo (prover : Prover σ) (target : ConstrainedTerm)
    (begins : SearchState × RunState σ) (merge : Merge) (leaf : ProofNode) (step : SymbolicStep) : Prop
  | intro {search : SearchState} {state polled : RunState σ}
      {before after : List (ProofNode × Option (Except RewriteError Examination))}
      (hlevels : ReflTransGen (prover.NextLevel target) begins (search, state))
      (hleaves : ¬search.frontier.isEmpty = true)
      (hpoll : prover.pollStopped state = (false, polled))
      (hresults : prover.levelResults target search polled =
        before ++ (leaf, some (.ok (.stepped step))) :: after)
      (hbefore : (prover.startLevel search).addAll prover.config.maxNodes before = (merge, none))

/-- A leaf whose step does not fit is treated like one that was skipped. -/
theorem addAll_of_unaffordable {maxNodes : Nat} {start merge : Merge} {leaf : ProofNode}
    {step : SymbolicStep} {before after : List (ProofNode × Option (Except RewriteError Examination))}
    (hbefore : start.addAll maxNodes before = (merge, none)) (hsome : step.successors ≠ [])
    (hfull : maxNodes < merge.tree.size + ProofTree.growth step) :
    start.addAll maxNodes (before ++ (leaf, some (.ok (.stepped step))) :: after) =
      start.addAll maxNodes (before ++ (leaf, none) :: after) := by
  rw [Merge.addAll_append hbefore, Merge.addAll_append hbefore]
  simp only [Merge.addAll, Merge.add_of_unaffordable hsome hfull]
  rfl

/-- Merging the other results of a level leaves a leaf as it is. -/
theorem settles_others {first : ProofTree} {search : SearchState}
    (hsound : Sound prover target first search) (state : RunState σ) {leaf : ProofNode}
    {result : Option (Except RewriteError Examination)}
    {before after : List (ProofNode × Option (Except RewriteError Examination))}
    (hresults : prover.levelResults target search state = before ++ (leaf, result) :: after) :
    ReflTransGen (ProofTree.SettlesLeaf fun other _ => leaf.id ≠ other.id) search.tree
      ((prover.startLevel search).addAll prover.config.maxNodes
        (before ++ (leaf, none) :: after)).1.tree := by
  have hdistinct : ((before ++ (leaf, none) :: after).map fun entry => entry.1.id).Nodup := by
    have hids : ((prover.levelResults target search state).map fun entry => entry.1.id).Nodup :=
      nodup_levelResults hsound.distinct
    rw [hresults] at hids
    simpa using hids
  have hmem : ∀ entry ∈ before ++ (leaf, none) :: after,
      entry = (leaf, none) ∨ entry ∈ before ++ after := by
    intro entry hentry
    rw [mem_append, mem_cons] at hentry
    rw [mem_append]
    tauto
  have hothers : ∀ entry ∈ before ++ after, entry ∈ prover.levelResults target search state := by
    intro entry hentry
    rw [hresults, mem_append, mem_cons]
    exact (mem_append.1 hentry).imp_right .inr
  refine Merge.settles_addAll (prover.startLevel search) _ (fun entry hentry => ?_) hdistinct ?_ ?_
  · have hleaf : (leaf, result) ∈ prover.levelResults target search state := by
      rw [hresults]
      exact mem_append_right _ mem_cons_self
    rcases hmem entry hentry with rfl | hother
    · exact hsound.frontier leaf (mem_frontier_of_mem_levelResults hleaf)
    · exact hsound.frontier entry.1 (mem_frontier_of_mem_levelResults (hothers entry hother))
  · intro other examination hentry hsame
    have hother := (hmem _ hentry).resolve_left nofun
    rw [map_append, map_cons, nodup_middle, ← map_append, nodup_cons] at hdistinct
    exact hdistinct.1 (mem_map.2 ⟨_, hother, hsame.symm⟩)
  · intro other earlier hentry
    have hother := (hmem _ hentry).resolve_left nofun
    exact lt_size_of_circular hsound.visited (hothers _ hother)

/-- A leaf whose step does not fit is open when the search ends, as it was when it began. -/
theorem isOpen_of_unaffordable {first : ProofTree} {begins : SearchState × RunState σ}
    (haffords : prover.Affords target first begins.1) {merge : Merge} {leaf : ProofNode}
    {step : SymbolicStep} (hcomes : prover.ComesTo target begins merge leaf step)
    (hsome : step.successors ≠ [])
    (hfull : prover.config.maxNodes < merge.tree.size + ProofTree.growth step) :
    (prover.searchLevels target begins.1 begins.2).1.1.tree.IsOpen leaf := by
  cases hcomes with
  | @intro search state polled before after hlevels hleaves hpoll hresults hbefore =>
      have hcome := affords_of_levels haffords hlevels
      have hmem : (leaf, some (.ok (.stepped step))) ∈ prover.levelResults target search polled := by
        rw [hresults]
        exact mem_append_right _ mem_cons_self
      have hopen := hcome.sound.frontier leaf (mem_frontier_of_mem_levelResults hmem)
      have hsettles := settles_others hcome.sound polled hresults
      rw [← addAll_of_unaffordable hbefore hsome hfull, ← hresults, ← searchLevel_fst] at hsettles
      have hlevel : prover.searchLevel target search polled =
          (((prover.searchLevel target search polled).1.1,
            (prover.searchLevel target search polled).1.2),
              (prover.searchLevel target search polled).2) := rfl
      have hlater := settles_after_level hcome hleaves hpoll hlevel
      rw [searchLevels_of_levels hlevels]
      refine ⟨ProofTree.node?_of_settlesLeaf hlater (fun other _ hnew hsame => ?_)
        (ProofTree.node?_of_settlesLeaf hsettles (fun _ _ hne => hne) hopen.1), hopen.2⟩
      have hlt : leaf.id < search.tree.size := ProofTree.lt_size_of_node? hopen.1
      rw [hsame] at hlt
      exact Nat.lt_irrefl _ (Nat.lt_of_lt_of_le hlt hnew)

/-- What the search of a call spends; a goal that is proved already costs nothing. -/
theorem exists_spent (prover : Prover σ) {goal : Goal} (hwell : goal.tree.WellFormed)
    (state : RunState σ) :
    ∃ search, prover.Spent goal.tree search ∧
      (prover.prove goal state).1.2.tree = search.tree ∧
      ∀ report, (prover.prove goal state).1.1 = .ok report →
        report.stats.levels = search.stats.levels := by
  have haffords := prover.affords_resumed hwell
  cases hproved : goal.proved with
  | true =>
      refine ⟨goal.resumed, haffords.spent, ?_, ?_⟩ <;> rw [prove, if_pos hproved]
      · rfl
      · rintro report ⟨⟩
        rfl
  | false =>
      obtain ⟨last, hlevels, hends⟩ := prover.exists_endsWith goal.target goal.resumed
        { state with cancelled := false }
      have hspent := (affords_of_levels haffords hlevels).spent_of_endsWith hends
      rw [prove_eq prover hproved]
      generalize prover.searchLevels goal.target goal.resumed { state with cancelled := false } =
        outcome at hspent
      obtain ⟨⟨search, error⟩, next⟩ := outcome
      refine ⟨search, hspent, ?_, ?_⟩
      · cases error <;> rfl
      · rintro report hreport
        cases error with
        | some error => cases hreport
        | none =>
            cases hreport
            rfl

/-- Whatever a goal has been through, a call keeps to its budgets. -/
structure KeepsBudgets (prover : Prover σ) (goal : Goal) (state : RunState σ) : Prop where
  /-- As many levels as are mentioned here follow one another, not more. -/
  rounds : ∀ (searches : Nat → SearchState × RunState σ) (rounds : Nat),
    searches 0 = (goal.resumed, { state with cancelled := false }) →
    (∀ round < rounds, prover.NextLevel goal.target (searches round) (searches (round + 1))) →
    rounds ≤ prover.config.maxDepth + 1 ∧
      goal.tree.size + rounds ≤ max goal.tree.size prover.config.maxNodes
  ends : goal.proved = false → ∃ last outcome,
    ReflTransGen (prover.NextLevel goal.target) (goal.resumed, { state with cancelled := false })
      last ∧
    prover.EndsWith goal.target last outcome ∧
    prover.prove goal state = (conclusion goal outcome.1, outcome.2)
  size : (prover.prove goal state).1.2.tree.size ≤ max goal.tree.size prover.config.maxNodes
  /-- A node that has been expanded in the call is not too deep. -/
  expanded : ∀ id node, (prover.prove goal state).1.2.tree.node? id = some node →
    node.status.isExpanded = true →
    (∀ old, goal.tree.node? id = some old → old.status.isExpanded = false) →
    node.depth ≤ prover.config.maxDepth
  added : ∀ id node, (prover.prove goal state).1.2.tree.node? id = some node →
    goal.tree.size ≤ id → node.depth ≤ prover.config.maxDepth + 1
  unaffordable : goal.proved = false → ∀ merge leaf step,
    prover.ComesTo goal.target (goal.resumed, { state with cancelled := false }) merge leaf step →
    step.successors ≠ [] →
    prover.config.maxNodes < merge.tree.size + ProofTree.growth step →
    merge.add prover.config.maxNodes leaf (.stepped step) = { merge with incomplete := true } ∧
      (prover.prove goal state).1.2.tree.IsOpen leaf ∧
      (prover.prove goal state).1.2.tree.outgoing leaf.id = []
  levels : ∀ report, (prover.prove goal state).1.1 = .ok report →
    report.stats.levels ≤ prover.config.maxDepth + 2 ∧
      report.stats.levels ≤ 1 + ((prover.prove goal state).1.2.tree.size - goal.tree.size)

theorem NextLevel.levels {before after : SearchState × RunState σ}
    (hnext : prover.NextLevel target before after) :
    after.1.stats.levels = before.1.stats.levels + 1 := by
  cases hnext with
  | next _ _ hlevel _ => exact levels_searchLevel hlevel

theorem levels_of_rounds {searches : Nat → SearchState × RunState σ} {rounds : Nat}
    (hrounds : ∀ round < rounds, prover.NextLevel target (searches round) (searches (round + 1))) :
    ReflTransGen (prover.NextLevel target) (searches 0) (searches rounds) ∧
      (searches rounds).1.stats.levels = (searches 0).1.stats.levels + rounds := by
  induction rounds with
  | zero => exact ⟨.refl, rfl⟩
  | succ rounds ih =>
      obtain ⟨hlevels, hcount⟩ := ih fun round hlt => hrounds round (Nat.lt_succ_of_lt hlt)
      have hnext := hrounds rounds (Nat.lt_succ_self rounds)
      exact ⟨hlevels.tail hnext, by rw [hnext.levels, hcount, Nat.add_assoc]⟩

theorem keepsBudgets_after (initial target : ConstrainedTerm) (calls : List Call) (call : Call) :
    call.prover.KeepsBudgets ((Goal.start initial target).after calls) call.state := by
  have hwell := ((Goal.Searched.start initial target).after calls).wellFormed
  have hregular := (Goal.regular_after initial target (calls ++ [call]) []).1
  rw [Goal.after_append] at hregular
  generalize (Goal.start initial target).after calls = goal at hwell hregular
  have haffords := call.prover.affords_resumed hwell
  obtain ⟨search, hspent, htree, hlevels⟩ := call.prover.exists_spent hwell call.state
  have hgrown : goal.tree.GrownBetween 0 call.prover.config.maxDepth search.tree :=
    ProofTree.grownBetween_of_settlesLeaf hspent.settles fun _ _ hdepth => ⟨Nat.zero_le _, hdepth⟩
  refine ⟨fun searches rounds hfirst hrounds => ?_, fun hopen => ?_, ?_, ?_, ?_, ?_, ?_⟩
  · obtain ⟨hreaches, hcount⟩ := levels_of_rounds hrounds
    rw [hfirst] at hreaches hcount
    have hlast := affords_of_levels haffords hreaches
    have hdeep := hlast.levels
    have hcounted := hlast.counted
    rw [hcount] at hdeep hcounted
    change 0 + rounds ≤ _ at hdeep
    change goal.tree.size + (0 + rounds) ≤ _ at hcounted
    rw [Nat.zero_add] at hdeep hcounted
    exact ⟨hdeep, Nat.le_trans hcounted hlast.size⟩
  · obtain ⟨last, hreaches, hends⟩ := call.prover.exists_endsWith goal.target goal.resumed
       { call.state with cancelled := false }
    exact ⟨last, _, hreaches, hends, call.prover.prove_eq hopen call.state⟩
  · rw [htree]
    exact hspent.size
  · rw [htree]
    exact hgrown.expanded
  · rw [htree]
    exact fun id node hnode hid => (hgrown.added id node (Array.getElem?_eq_none hid) hnode).2
  · intro hproved merge leaf step hcomes hsome hfull
    have hopen : (call.prover.prove goal call.state).1.2.tree.IsOpen leaf := by
      have hopen := isOpen_of_unaffordable haffords hcomes hsome hfull
      rw [tree_prove, if_neg (Bool.eq_false_iff.1 hproved)]
      exact hopen
    have houtgoing := hregular.outgoing leaf.id leaf hopen.1
    rw [hopen.2] at houtgoing
    exact ⟨Merge.add_of_unaffordable hsome hfull, hopen, houtgoing⟩
  · intro report hreport
    rw [hlevels report hreport, htree]
    have hcounted := hspent.counted
    exact ⟨hspent.levels, by omega⟩

end Prover

namespace Branching

/-- There is room for one of the two successors of the initial state, but not for both. -/
def narrow : Prover.Call where
  prover := { prover with config := { maxNodes := 2 } }
  state := { environment := () }

def isFork (results : List (ProofNode × Option (Except RewriteError Examination))) : Bool :=
  match results with
  | [(_, some (.ok (.stepped step)))] => step.successors.length == 2
  | _ => false

theorem exists_of_isFork {results : List (ProofNode × Option (Except RewriteError Examination))}
    (hfork : isFork results = true) :
    ∃ leaf step, results = [(leaf, some (.ok (.stepped step)))] ∧ step.successors.length = 2 := by
  unfold isFork at hfork
  split at hfork
  · exact ⟨_, _, rfl, beq_iff_eq.1 hfork⟩
  · cases hfork

/-- The initial state stays open. -/
theorem keepsBudgets_after_narrow :
    ∃ merge leaf step,
      narrow.prover.ComesTo goal.target (goal.resumed, { narrow.state with cancelled := false }) merge
        leaf step ∧
      step.successors ≠ [] ∧
      narrow.prover.config.maxNodes < merge.tree.size + ProofTree.growth step ∧
      (goal.ask narrow).2.tree.IsOpen leaf ∧ (goal.ask narrow).2.tree.outgoing leaf.id = [] := by
  obtain ⟨leaf, step, hresults, hlength⟩ := exists_of_isFork
    (by decide +kernel : isFork (narrow.prover.levelResults goal.target goal.resumed
      (narrow.prover.pollStopped narrow.state).2) = true)
  have hcomes : narrow.prover.ComesTo goal.target
      (goal.resumed, { narrow.state with cancelled := false })
      (narrow.prover.startLevel goal.resumed) leaf step :=
    @Prover.ComesTo.intro _ _ _ _ _ _ _ _ _ _ [] [] .refl (by decide) rfl hresults rfl
  have hsome : step.successors ≠ [] := by
    intro hnone
    rw [hnone] at hlength
    cases hlength
  have hfull : narrow.prover.config.maxNodes <
      (narrow.prover.startLevel goal.resumed).tree.size + ProofTree.growth step := by
    change 2 < 1 + (step.successors.length + _)
    omega
  have hbudgets := Prover.keepsBudgets_after goal.initial goal.target [] narrow
  obtain ⟨-, hopen, houtgoing⟩ := hbudgets.unaffordable rfl _ leaf step hcomes hsome hfull
  exact ⟨_, leaf, step, hcomes, hsome, hfull, hopen, houtgoing⟩

end Branching

end SymbolicRewriting
