import SymbolicRewriting.Matching.Pattern
import SymbolicRewriting.Proofs.Identities

/-!
Matching up to the identities of cells. They decide nothing: patterns and subjects that differ in
them alone have the same matches, up to identities and the cells that are recorded.
-/

namespace SymbolicRewriting

def FreeCells.withoutIds (free : FreeCells) : FreeCells :=
  ⟨free.before.map Cell.withoutId, free.after.map Cell.withoutId⟩

def Obligation.withoutIds : Obligation → Obligation
  | term pattern subject => term pattern.withoutIds subject.withoutIds
  | items op patterns subjects =>
      items op (patterns.map Term.withoutIds) (subjects.map Term.withoutIds)
  | cells patterns frame free subjectFrame =>
      cells (patterns.map Cell.withoutId) frame free.withoutIds subjectFrame

def Branch.withoutIds (branch : Branch) : Branch where
  subst := branch.subst.withoutIds
  pending := branch.pending.map Obligation.withoutIds
  deferred := branch.deferred.map fun entry => (entry.1.withoutIds, entry.2.withoutIds)
  constraints := branch.constraints.withoutIds

def Progress.withoutIds : Progress → Progress
  | .branches next => .branches (next.map Branch.withoutIds)
  | progress => progress

@[simp]
theorem Term.withoutIds_comp_withoutIds : Term.withoutIds ∘ Term.withoutIds = Term.withoutIds :=
  funext Term.withoutIds_withoutIds

@[simp]
theorem Cell.withoutId_withoutId (cell : Cell Term) : cell.withoutId.withoutId = cell.withoutId := by
  simp [Cell.withoutId]

@[simp]
theorem Cell.withoutId_comp_withoutId : Cell.withoutId ∘ Cell.withoutId = Cell.withoutId :=
  funext Cell.withoutId_withoutId

@[simp]
theorem FreeCells.withoutIds_withoutIds (free : FreeCells) :
    free.withoutIds.withoutIds = free.withoutIds := by
  simp [FreeCells.withoutIds]

@[simp]
theorem Obligation.withoutIds_withoutIds (obligation : Obligation) :
    obligation.withoutIds.withoutIds = obligation.withoutIds := by
  cases obligation <;> simp [Obligation.withoutIds]

@[simp]
theorem Obligation.withoutIds_items (op : Label) (patterns subjects : List Term) :
    (items op patterns subjects).withoutIds =
      items op (patterns.map Term.withoutIds) (subjects.map Term.withoutIds) :=
  rfl

@[simp]
theorem Obligation.withoutIds_term (pattern subject : Term) :
    (term pattern subject).withoutIds = term pattern.withoutIds subject.withoutIds :=
  rfl

@[simp]
theorem Obligation.withoutIds_cells (patterns : List (Cell Term)) (frame : Option Variable)
    (free : FreeCells) (subjectFrame : Option Variable) :
    (cells patterns frame free subjectFrame).withoutIds =
      cells (patterns.map Cell.withoutId) frame free.withoutIds subjectFrame :=
  rfl

@[simp]
theorem Substitution.withoutIds_withoutIds (subst : Substitution) :
    subst.withoutIds.withoutIds = subst.withoutIds := by
  simp [Substitution.withoutIds]

@[simp]
theorem PathCondition.withoutIds_withoutIds (path : PathCondition) :
    path.withoutIds.withoutIds = path.withoutIds := by
  simp [PathCondition.withoutIds]

@[simp]
theorem Branch.withoutIds_withoutIds (branch : Branch) :
    branch.withoutIds.withoutIds = branch.withoutIds := by
  simp [Branch.withoutIds]

@[simp]
theorem FreeCells.toList_withoutIds (free : FreeCells) :
    free.withoutIds.toList = free.toList.map Cell.withoutId := by
  simp [FreeCells.toList, FreeCells.withoutIds, List.reverseAux_eq]

theorem selections_withoutIds (name : Label) (before cells : List (Cell Term)) :
    selections name (before.map Cell.withoutId) (cells.map Cell.withoutId) =
      (selections name before cells).map fun choice =>
        (choice.1.withoutId, choice.2.withoutIds) := by
  induction cells generalizing before with
  | nil => rfl
  | cons cell after ih =>
      have hlater := ih (cell :: before)
      rw [List.map_cons] at hlater
      simp only [List.map_cons, selections, hlater]
      by_cases hname : cell.name = name
      · simp [Cell.withoutId, FreeCells.withoutIds, hname]
      · simp [Cell.withoutId, hname]

namespace Branch

@[simp]
theorem withoutIds_goOn (branch : Branch) :
    branch.goOn.withoutIds = .branches [branch.withoutIds] :=
  rfl

@[simp]
theorem admits_withoutIds (definition : Definition) (v : Variable) (subject : Term) :
    definition.admits v subject.withoutIds = definition.admits v subject := by
  simp [Definition.admits]

/-- What becomes of a variable that admits the subject. -/
theorem bind_of_admits {definition : Definition} {v : Variable} {subject : Term}
    (hadmits : definition.admits v subject = .yes) (branch : Branch) :
    branch.bind definition v subject =
      match branch.subst.get? v with
      | none => goOn { branch with subst := branch.subst.push v subject }
      | some existing =>
          if existing == subject then branch.goOn
          else if existing.isGround && subject.isGround then .conflicting
          else goOn { branch with constraints := branch.constraints.assume (.equal existing subject) } := by
  unfold bind Substitution.bind
  rw [hadmits]
  cases branch.subst.get? v with
  | none => rfl
  | some existing =>
      dsimp only
      cases hequal : existing == subject with
      | true => rfl
      | false => rfl

theorem withoutIds_push (subst : Substitution) (v : Variable) (term : Term) :
    (subst.push v term).withoutIds = subst.withoutIds.push v term.withoutIds := by
  simp [Substitution.push, Substitution.withoutIds]

theorem withoutIds_recordCell (subst : Substitution) (pattern target : CellId) :
    (subst.recordCell pattern target).withoutIds = subst.withoutIds := by
  unfold Substitution.recordCell
  split <;> rfl

theorem withoutIds_equal (left right : Term) :
    (Term.equal left right).withoutIds = .equal left.withoutIds right.withoutIds := by
  simp [Term.equal, Term.withoutIds]

theorem bind_withoutIds (definition : Definition) (branch : Branch) (v : Variable)
    (subject : Term) :
    (branch.withoutIds.bind definition v subject.withoutIds).withoutIds =
      (branch.bind definition v subject).withoutIds := by
  cases hadmits : definition.admits v subject with
  | no => simp [bind, hadmits]
  | maybe => simp [bind, hadmits]
  | yes =>
      rw [bind_of_admits hadmits, bind_of_admits (by simpa using hadmits)]
      have hget : branch.withoutIds.subst.get? v = (branch.subst.get? v).map Term.withoutIds :=
        branch.subst.get?_withoutIds v
      rw [hget]
      cases branch.subst.get? v with
      | none => simp [withoutIds, withoutIds_push]
      | some existing =>
          simp only [Option.map_some, Term.beq_withoutIds, Term.isGround_withoutIds]
          split
          · simp
          · split
            · rfl
            · simp [withoutIds, PathCondition.withoutIds_assume, withoutIds_equal]

theorem constrain?_withoutIds (subst : Substitution) (constraints : PathCondition)
    (pattern subject : Term) :
    subst.withoutIds.constrain? constraints.withoutIds pattern.withoutIds subject.withoutIds =
      (subst.constrain? constraints pattern subject).map PathCondition.withoutIds := by
  have hbound : subst.withoutIds.isBound = subst.isBound := by
    funext v
    simp [Substitution.isBound, subst.get?_withoutIds]
  simp only [Substitution.constrain?, Term.vars_withoutIds, hbound]
  split
  · simp [PathCondition.withoutIds_assume, withoutIds_equal, Term.withoutIds_applySubst]
  · rfl

theorem settle_withoutIds (subst : Substitution) (constraints : PathCondition)
    (deferred : List (Term × Term)) :
    subst.withoutIds.settle constraints.withoutIds
        (deferred.map fun entry => (entry.1.withoutIds, entry.2.withoutIds)) =
      (subst.settle constraints deferred).map PathCondition.withoutIds := by
  induction deferred generalizing constraints with
  | nil => rfl
  | cons entry deferred ih =>
      simp only [List.map_cons, Substitution.settle, constrain?_withoutIds]
      cases subst.constrain? constraints entry.1 entry.2 with
      | none => rfl
      | some extended => exact ih extended

theorem meetUnknown_withoutIds (definition : Definition) (branch : Branch) (pattern : Term)
    (v : Variable) :
    (branch.withoutIds.meetUnknown definition pattern.withoutIds v).withoutIds =
      (branch.meetUnknown definition pattern v).withoutIds := by
  have hconstrain : branch.withoutIds.subst.constrain? branch.withoutIds.constraints
        pattern.withoutIds (.var v) =
      (branch.subst.constrain? branch.constraints pattern (.var v)).map
        PathCondition.withoutIds :=
    constrain?_withoutIds branch.subst branch.constraints pattern (.var v)
  have hoverlap : definition.sortsOverlap pattern.withoutIds v =
      definition.sortsOverlap pattern v := by
    simp [Definition.sortsOverlap]
  unfold meetUnknown
  rw [hoverlap, hconstrain]
  split
  · rfl
  · split
    · rfl
    · cases branch.subst.constrain? branch.constraints pattern (.var v) with
      | none => simp [withoutIds, Term.withoutIds]
      | some constraints => simp [withoutIds]

theorem withoutIds_enter (branch : Branch) (obligations : List Obligation) :
    (branch.enter obligations).withoutIds =
      branch.withoutIds.enter (obligations.map Obligation.withoutIds) := by
  simp [enter, withoutIds]

theorem advanceTerm_withoutIds (definition : Definition) (branch : Branch)
    (pattern subject : Term) :
    (branch.withoutIds.advanceTerm definition pattern.withoutIds subject.withoutIds).withoutIds =
      (branch.advanceTerm definition pattern subject).withoutIds := by
  cases pattern with
  | var v => exact bind_withoutIds definition branch v subject
  | token sort value =>
      cases subject with
      | var w => exact meetUnknown_withoutIds definition branch (.token sort value) w
      | token sort' value' =>
          simp only [advanceTerm, Term.withoutIds]
          split
          · simp
          · rfl
      | app _ _ | sequence _ _ | collection _ _ => rfl
  | app label args =>
      cases subject with
      | var w => exact meetUnknown_withoutIds definition branch (.app label args) w
      | app label' args' =>
          simp only [advanceTerm, Term.withoutIds, Term.withoutIdsAll_eq_map, List.length_map]
          split
          · simp only [withoutIds_goOn, withoutIds_enter, withoutIds_withoutIds, List.map_zipWith,
              List.zipWith_map, Obligation.withoutIds, Term.withoutIds_withoutIds]
          · rfl
      | token _ _ | sequence _ _ | collection _ _ => rfl
  | sequence op patterns =>
      have hitems : ∀ items : List Term,
          (branch.withoutIds.enter [.items op (Term.withoutIdsAll patterns)
            (items.map Term.withoutIds)]).goOn.withoutIds =
          (branch.enter [.items op patterns items]).goOn.withoutIds := by
        intro items
        simp [withoutIds_enter]
      cases subject with
      | var w => exact meetUnknown_withoutIds definition branch (.sequence op patterns) w
      | token _ _ | app _ _ | sequence _ _ | collection _ _ =>
          change _ = (branch.enter [.items op patterns (Term.itemsOf op _)]).goOn.withoutIds
          rw [← hitems, ← Term.itemsOf_withoutIds]
          rfl
  | collection patterns frame =>
      cases subject with
      | var w => exact meetUnknown_withoutIds definition branch (.collection patterns frame) w
      | collection free subjectFrame =>
          simp [advanceTerm, Term.withoutIds, withoutIds_enter, Obligation.withoutIds,
            FreeCells.withoutIds]
      | token _ _ | app _ _ | sequence _ _ => rfl

theorem takeItem_withoutIds (branch : Branch) (op : Label) (pattern : Term)
    (patterns subjects : List Term) :
    (branch.withoutIds.takeItem op pattern.withoutIds (patterns.map Term.withoutIds)
      (subjects.map Term.withoutIds)).withoutIds =
      (branch.takeItem op pattern patterns subjects).withoutIds := by
  cases subjects with
  | nil => rfl
  | cons item later =>
      simp only [takeItem, List.map_cons, Term.isRestVar_withoutIds]
      split
      · rfl
      · simp [withoutIds_enter]

theorem beq_map_withoutIds (left right : List Term) :
    (left.map Term.withoutIds == right.map Term.withoutIds) = (left == right) := by
  induction left generalizing right with
  | nil => cases right <;> rfl
  | cons term terms ih =>
      cases right with
      | nil => rfl
      | cons term' terms' =>
          simp only [List.map_cons, List.cons_beq_cons, Term.beq_withoutIds, ih]

theorem takeBoundSegment_withoutIds (branch : Branch) (op : Label) (bound : Term)
    (patterns subjects : List Term) :
    (branch.withoutIds.takeBoundSegment op bound.withoutIds (patterns.map Term.withoutIds)
      (subjects.map Term.withoutIds)).withoutIds =
      (branch.takeBoundSegment op bound patterns subjects).withoutIds := by
  simp only [takeBoundSegment, Term.itemsOf_withoutIds, List.length_map, ← List.map_take,
    ← List.map_drop, beq_map_withoutIds]
  split
  · simp [withoutIds_enter]
  · rfl

theorem takeSegments_withoutIds (branch : Branch) (op : Label) (v : Variable)
    (patterns subjects : List Term) :
    (branch.withoutIds.takeSegments op v (patterns.map Term.withoutIds)
      (subjects.map Term.withoutIds)).withoutIds =
      (branch.takeSegments op v patterns subjects).withoutIds := by
  have hneeded : (patterns.map Term.withoutIds).countP (fun pattern => !pattern.isRestVar) =
      patterns.countP fun pattern => !pattern.isRestVar := by
    rw [List.countP_map]
    congr 1
    funext pattern
    simp
  have hany : (patterns.map Term.withoutIds).any Term.isRestVar = patterns.any Term.isRestVar := by
    rw [List.any_map]
    congr 1
    funext pattern
    exact pattern.isRestVar_withoutIds
  have hsegment : ∀ count, (branch.withoutIds.takeSegment op v (patterns.map Term.withoutIds)
      (subjects.map Term.withoutIds) count).withoutIds =
        (branch.takeSegment op v patterns subjects count).withoutIds := by
    intro count
    simp [takeSegment, withoutIds, withoutIds_push]
  simp only [takeSegments, hneeded, hany, List.length_map]
  split
  · simp only [Progress.withoutIds, List.map_map]
    exact congrArg Progress.branches (List.map_congr_left fun count _ => hsegment count)
  · rfl

theorem advanceItems_withoutIds (branch : Branch) (op : Label) (patterns subjects : List Term) :
    (branch.withoutIds.advanceItems op (patterns.map Term.withoutIds)
      (subjects.map Term.withoutIds)).withoutIds =
      (branch.advanceItems op patterns subjects).withoutIds := by
  cases patterns with
  | nil =>
      simp only [advanceItems, List.map_nil, List.isEmpty_map]
      split
      · simp
      · rfl
  | cons pattern patterns =>
      have hget : ∀ v, branch.withoutIds.subst.get? v =
          (branch.subst.get? v).map Term.withoutIds := branch.subst.get?_withoutIds
      simp only [advanceItems, List.map_cons, Term.asVar_withoutIds]
      split
      · split
        · rw [hget]
          cases branch.subst.get? _ with
          | none => exact takeSegments_withoutIds branch op _ patterns subjects
          | some bound => exact takeBoundSegment_withoutIds branch op bound patterns subjects
        · exact takeItem_withoutIds branch op pattern patterns subjects
      · exact takeItem_withoutIds branch op pattern patterns subjects

theorem advanceCells_withoutIds (definition : Definition) (branch : Branch)
    (patterns : List (Cell Term)) (frame : Option Variable) (free : FreeCells)
    (subjectFrame : Option Variable) :
    (branch.withoutIds.advanceCells definition (patterns.map Cell.withoutId) frame
      free.withoutIds subjectFrame).withoutIds =
      (branch.advanceCells definition patterns frame free subjectFrame).withoutIds := by
  cases patterns with
  | nil =>
      cases frame with
      | none =>
          simp only [advanceCells, List.map_nil, FreeCells.toList_withoutIds, List.isEmpty_map]
          split
          · rfl
          · split
            · rfl
            · simp
      | some v =>
          simp only [advanceCells, List.map_nil, FreeCells.toList_withoutIds]
          rw [← Term.withoutIdsCells_eq_map]
          exact bind_withoutIds definition branch v (.collection free.toList subjectFrame)
  | cons pattern patterns =>
      have hchoice : ∀ choice : Cell Term × FreeCells,
          (branch.withoutIds.takeCell pattern.withoutId (patterns.map Cell.withoutId) frame
            subjectFrame (choice.1.withoutId, choice.2.withoutIds)).withoutIds =
            (branch.takeCell pattern patterns frame subjectFrame choice).withoutIds := by
        intro choice
        simp [takeCell, withoutIds, Cell.withoutId, withoutIds_recordCell]
      have hselections : selections pattern.withoutId.name [] (free.toList.map Cell.withoutId) =
          (selections pattern.name [] free.toList).map fun choice =>
            (choice.1.withoutId, choice.2.withoutIds) :=
        selections_withoutIds pattern.name [] free.toList
      simp only [advanceCells, List.map_cons, FreeCells.toList_withoutIds, hselections]
      cases selections pattern.name [] free.toList with
      | nil => simp only [List.map_nil]
      | cons choice choices =>
          have hmap := List.map_congr_left (l := choice :: choices) fun choice _ => hchoice choice
          simpa [Progress.withoutIds] using hmap

theorem finish_withoutIds (branch : Branch) :
    branch.withoutIds.finish.withoutIds = branch.finish.withoutIds := by
  have hsettle : branch.withoutIds.subst.settle branch.withoutIds.constraints
        branch.withoutIds.deferred =
      (branch.subst.settle branch.constraints branch.deferred).map PathCondition.withoutIds :=
    settle_withoutIds branch.subst branch.constraints branch.deferred
  have hempty : branch.withoutIds.deferred.isEmpty = branch.deferred.isEmpty := by
    simp [withoutIds]
  unfold finish
  rw [hsettle, hempty]
  split
  · rfl
  · cases branch.subst.settle branch.constraints branch.deferred with
    | none => rfl
    | some constraints => simp [withoutIds]

theorem advance_withoutIds (definition : Definition) (branch : Branch) :
    (branch.withoutIds.advance definition).withoutIds = (branch.advance definition).withoutIds := by
  unfold advance
  cases hpending : branch.pending with
  | nil =>
      have hnil : branch.withoutIds.pending = [] := by simp [withoutIds, hpending]
      rw [hnil]
      exact finish_withoutIds branch
  | cons obligation pending =>
      have hcons : branch.withoutIds.pending =
          obligation.withoutIds :: pending.map Obligation.withoutIds := by
        simp [withoutIds, hpending]
      rw [hcons]
      cases obligation with
      | term pattern subject =>
          exact advanceTerm_withoutIds definition { branch with pending } pattern subject
      | items op patterns subjects =>
          exact advanceItems_withoutIds { branch with pending } op patterns subjects
      | cells patterns frame free subjectFrame =>
          exact advanceCells_withoutIds definition { branch with pending } patterns frame free
            subjectFrame

theorem advance_congr_withoutIds (definition : Definition) {branch other : Branch}
    (hsame : branch.withoutIds = other.withoutIds) :
    (branch.advance definition).withoutIds = (other.advance definition).withoutIds := by
  calc (branch.advance definition).withoutIds
      = (branch.withoutIds.advance definition).withoutIds :=
        (advance_withoutIds definition branch).symm
    _ = (other.withoutIds.advance definition).withoutIds := by rw [hsame]
    _ = (other.advance definition).withoutIds := advance_withoutIds definition other

end Branch

section Explore

variable {definition : Definition} {branch : Branch} (later : List Branch)
  (results : PatternMatches)

theorem explore_of_accepted (hadvance : branch.advance definition = .accepted) :
    explore definition (branch :: later) results =
      explore definition later (results.accept branch) := by
  rw [explore]
  split <;> simp_all

theorem explore_of_failed (hadvance : branch.advance definition = .failed) :
    explore definition (branch :: later) results = explore definition later results := by
  rw [explore]
  split <;> simp_all

theorem explore_of_conflicting (hadvance : branch.advance definition = .conflicting) :
    explore definition (branch :: later) results =
      explore definition later results.countConflict := by
  rw [explore]
  split <;> simp_all

theorem explore_of_undecided (hadvance : branch.advance definition = .undecided) :
    explore definition (branch :: later) results =
      explore definition later results.countUndecided := by
  rw [explore]
  split <;> simp_all

theorem explore_of_branches {next : List Branch}
    (hadvance : branch.advance definition = .branches next) :
    explore definition (branch :: later) results = explore definition (next ++ later) results := by
  rw [explore]
  split <;> simp_all

end Explore

def PatternMatches.withoutIds (results : PatternMatches) : PatternMatches where
  found := results.found.map fun found => ⟨found.subst.withoutIds, found.constraints.withoutIds⟩
  undecided := results.undecided
  conflicts := results.conflicts

theorem PatternMatches.accept_congr_withoutIds {results other : PatternMatches}
    {branch otherBranch : Branch} (hresults : results.withoutIds = other.withoutIds)
    (hbranch : branch.withoutIds = otherBranch.withoutIds) :
    (results.accept branch).withoutIds = (other.accept otherBranch).withoutIds := by
  simp only [withoutIds, accept, Array.map_push, mk.injEq, Branch.withoutIds,
    Branch.mk.injEq] at hresults hbranch ⊢
  refine ⟨?_, hresults.2⟩
  rw [hresults.1, hbranch.1, hbranch.2.2.2]

theorem Progress.branches_of_withoutIds {progress : Progress} {next : List Branch}
    (hprogress : progress.withoutIds = .branches (next.map Branch.withoutIds)) :
    ∃ branches, progress = .branches branches ∧
      branches.map Branch.withoutIds = next.map Branch.withoutIds := by
  cases progress with
  | branches branches => exact ⟨branches, rfl, by simpa [withoutIds] using hprogress⟩
  | accepted | failed | conflicting | undecided => cases hprogress

theorem Progress.eq_of_withoutIds {progress ended : Progress}
    (hprogress : progress.withoutIds = ended.withoutIds)
    (hended : ∀ next, ended ≠ .branches next) : progress = ended := by
  cases ended with
  | branches next => exact absurd rfl (hended next)
  | accepted | failed | conflicting | undecided =>
      cases progress with
      | branches next => cases hprogress
      | accepted | failed | conflicting | undecided => first | rfl | cases hprogress

theorem Branch.advance_eq_of_ended {definition : Definition} {branch other : Branch}
    {ended : Progress} (hsame : other.withoutIds = branch.withoutIds)
    (hadvance : branch.advance definition = ended) (hended : ∀ next, ended ≠ .branches next) :
    other.advance definition = ended := by
  have hprogress := advance_congr_withoutIds definition hsame
  rw [hadvance] at hprogress
  exact Progress.eq_of_withoutIds hprogress hended

theorem explore_congr_withoutIds (definition : Definition) {branches others : List Branch}
    {results otherResults : PatternMatches}
    (hbranches : branches.map Branch.withoutIds = others.map Branch.withoutIds)
    (hresults : results.withoutIds = otherResults.withoutIds) :
    (explore definition branches results).withoutIds =
      (explore definition others otherResults).withoutIds := by
  -- along the exploration of the one list: at each step the other one ends or goes on alike
  fun_induction explore definition branches results generalizing others otherResults with
  | case1 results =>
      obtain rfl : others = [] := by simpa using hbranches.symm
      rw [explore]
      exact hresults
  | case2 results branch later hadvance ih =>
      obtain ⟨other, rest, rfl, hother, hrest⟩ := List.map_eq_cons_iff.1 hbranches.symm
      have hsame := Branch.advance_eq_of_ended hother hadvance (by simp)
      rw [explore_of_accepted _ _ hsame]
      exact ih hrest.symm (PatternMatches.accept_congr_withoutIds hresults hother.symm)
  | case3 results branch later hadvance ih =>
      obtain ⟨other, rest, rfl, hother, hrest⟩ := List.map_eq_cons_iff.1 hbranches.symm
      have hsame := Branch.advance_eq_of_ended hother hadvance (by simp)
      rw [explore_of_failed _ _ hsame]
      exact ih hrest.symm hresults
  | case4 results branch later hadvance ih =>
      obtain ⟨other, rest, rfl, hother, hrest⟩ := List.map_eq_cons_iff.1 hbranches.symm
      have hsame := Branch.advance_eq_of_ended hother hadvance (by simp)
      rw [explore_of_conflicting _ _ hsame]
      apply ih hrest.symm
      simpa [PatternMatches.withoutIds, PatternMatches.countConflict] using hresults
  | case5 results branch later hadvance ih =>
      obtain ⟨other, rest, rfl, hother, hrest⟩ := List.map_eq_cons_iff.1 hbranches.symm
      have hsame := Branch.advance_eq_of_ended hother hadvance (by simp)
      rw [explore_of_undecided _ _ hsame]
      apply ih hrest.symm
      simpa [PatternMatches.withoutIds, PatternMatches.countUndecided] using hresults
  | case6 results branch later next hadvance ih =>
      obtain ⟨other, rest, rfl, hother, hrest⟩ := List.map_eq_cons_iff.1 hbranches.symm
      have hsame := Branch.advance_congr_withoutIds definition hother
      rw [hadvance] at hsame
      obtain ⟨otherNext, hotherNext, hnext⟩ := Progress.branches_of_withoutIds hsame
      rw [explore_of_branches _ _ hotherNext]
      refine ih ?_ hresults
      rw [List.map_append, List.map_append, hnext, hrest]

theorem matchPattern_congr_withoutIds (definition : Definition)
    {pattern subject pattern' subject' : Term} (hpattern : pattern.withoutIds = pattern'.withoutIds)
    (hsubject : subject.withoutIds = subject'.withoutIds) :
    (definition.matchPattern pattern subject).withoutIds =
      (definition.matchPattern pattern' subject').withoutIds := by
  refine explore_congr_withoutIds definition ?_ rfl
  simp [Branch.start, Branch.withoutIds, hpattern, hsubject]

theorem concreteMatches_congr_withoutIds (definition : Definition)
    {pattern subject pattern' subject' : Term} (hpattern : pattern.withoutIds = pattern'.withoutIds)
    (hsubject : subject.withoutIds = subject'.withoutIds) :
    (definition.concreteMatches pattern subject).map Substitution.withoutIds =
      (definition.concreteMatches pattern' subject').map Substitution.withoutIds := by
  have hconcrete : ∀ results : PatternMatches,
      results.concrete.map Substitution.withoutIds = results.withoutIds.concrete := by
    intro results
    simp [PatternMatches.concrete, PatternMatches.withoutIds, List.filter_map, Function.comp_def]
  have hmatches := matchPattern_congr_withoutIds definition hpattern hsubject
  simp only [Definition.concreteMatches, hconcrete, hmatches]

end SymbolicRewriting
