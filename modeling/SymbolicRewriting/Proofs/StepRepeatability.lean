import SymbolicRewriting.Proofs.Cancellation
import SymbolicRewriting.Proofs.RuleIndexing

/-!
Symbolic steps can be repeated. If no rule has fresh variables and the oracle neither has a state nor
looks at the identities of cells, a step from a state that differs in identities alone has the same
successors up to identities, whatever the state of the run is.
-/

namespace SymbolicRewriting

variable {σ : Type}

/-! States, steps and examinations up to the identities of cells. -/

namespace PathCondition

theorem withoutIds_assumeAll (path : PathCondition) (propositions : List Term) :
    (path.assumeAll propositions).withoutIds =
      path.withoutIds.assumeAll (propositions.map Term.withoutIds) := by
  induction propositions generalizing path with
  | nil => rfl
  | cons proposition propositions ih =>
      change ((path.assume proposition).assumeAll propositions).withoutIds = _
      rw [ih, withoutIds_assume]
      rfl

theorem withoutIds_and (path other : PathCondition) :
    (path.and other).withoutIds = path.withoutIds.and other.withoutIds :=
  path.withoutIds_assumeAll other.conjuncts

theorem withoutIds_applySubst (path : PathCondition) (subst : Substitution) :
    (path.applySubst subst).withoutIds = path.withoutIds.applySubst subst.withoutIds := by
  unfold applySubst ofConjuncts
  rw [withoutIds_assumeAll]
  simp only [withoutIds, List.map_map]
  congr 2
  funext conjunct
  exact conjunct.withoutIds_applySubst subst

theorem withoutIds_negation (guard : PathCondition) :
    guard.negation.withoutIds = guard.withoutIds.negation := by
  have hconjoined : ∀ (others : List Term) (first : Term),
      (others.foldl Term.conjoined first).withoutIds =
        (others.map Term.withoutIds).foldl Term.conjoined first.withoutIds := by
    intro others
    induction others with
    | nil => exact fun _ => rfl
    | cons other others ih =>
        intro first
        simp only [List.foldl_cons, List.map_cons, ih]
        simp [Term.conjoined, Term.withoutIds]
  obtain ⟨conjuncts⟩ := guard
  cases conjuncts with
  | nil => simp [negation, withoutIds, Term.negated, Term.withoutIds, Term.bool]
  | cons first others =>
      simp only [negation, withoutIds, List.map_cons, Term.negated, Term.withoutIds,
        Term.withoutIdsAll_eq_map, List.map_nil, hconjoined]

theorem beq_withoutIds (path other : PathCondition) :
    (path.withoutIds == other.withoutIds) = (path == other) := by
  change (_ == _ && _ == _) = (_ == _ && _ == _)
  simp only [withoutIds, List.length_map, Branch.beq_map_withoutIds]

def Alike (left right : PathCondition) : Prop := left.withoutIds = right.withoutIds

theorem Alike.and {path path' other other' : PathCondition} (hpath : path.Alike path')
    (hother : other.Alike other') : (path.and other).Alike (path'.and other') := by
  unfold Alike at *
  rw [withoutIds_and, withoutIds_and, hpath, hother]

theorem Alike.assume {path path' : PathCondition} {proposition proposition' : Term}
    (hpath : path.Alike path') (hproposition : proposition.Alike proposition') :
    (path.assume proposition).Alike (path'.assume proposition') := by
  unfold Alike at *
  rw [withoutIds_assume, withoutIds_assume, hpath, hproposition]

theorem Alike.uncovered {condition condition' : PathCondition}
    (hcondition : condition.Alike condition') {guards guards' : List PathCondition}
    (hguards : guards.map withoutIds = guards'.map withoutIds) :
    (condition.uncovered guards).Alike (condition'.uncovered guards') := by
  have hnegations : ∀ guards : List PathCondition,
      (guards.map negation).map Term.withoutIds = (guards.map withoutIds).map negation := by
    intro guards
    simp only [List.map_map]
    exact List.map_congr_left fun guard _ => guard.withoutIds_negation
  unfold Alike PathCondition.uncovered at *
  rw [withoutIds_assumeAll, withoutIds_assumeAll, hcondition, hnegations, hguards, hnegations]

theorem Alike.isTrivial_eq {path path' : PathCondition} (hpath : path.Alike path') :
    path.isTrivial = path'.isTrivial := by
  rw [← path.isTrivial_withoutIds, hpath, path'.isTrivial_withoutIds]

end PathCondition

def ConstrainedTerm.withoutIds (state : ConstrainedTerm) : ConstrainedTerm :=
  ⟨state.term.withoutIds, state.condition.withoutIds⟩

def StructuralMatch.withoutIds (found : StructuralMatch) : StructuralMatch :=
  ⟨found.subst.withoutIds, found.constraints.withoutIds⟩

def RuleMatch.withoutIds (found : RuleMatch) : RuleMatch :=
  ⟨found.subst.withoutIds, found.condition.withoutIds⟩

def RuleMatches.withoutIds (results : RuleMatches) : RuleMatches :=
  { results with found := results.found.map RuleMatch.withoutIds }

def Successor.withoutIds (successor : Successor) : Successor :=
  { successor with state := successor.state.withoutIds }

def MatchSuccessor.withoutIds : MatchSuccessor → MatchSuccessor
  | dropped => dropped
  | undecided => undecided
  | taken successor guard => taken successor.withoutIds guard.withoutIds

def Guarded.withoutIds (guarded : Guarded) : Guarded :=
  { guarded with
    taken := guarded.taken.map fun taken => (taken.1.withoutIds, taken.2.withoutIds) }

def SymbolicStep.withoutIds (step : SymbolicStep) : SymbolicStep where
  successors := step.successors.map Successor.withoutIds
  undecided := step.undecided
  remainder := step.remainder.map ConstrainedTerm.withoutIds

def Examination.withoutIds : Examination → Examination
  | stepped step => stepped step.withoutIds
  | examination => examination

def ConstrainedTerm.Alike (left right : ConstrainedTerm) : Prop :=
  left.withoutIds = right.withoutIds

theorem ConstrainedTerm.alike_iff {left right : ConstrainedTerm} :
    left.Alike right ↔ left.term.Alike right.term ∧ left.condition.Alike right.condition := by
  simp [Alike, ConstrainedTerm.withoutIds, Term.Alike, PathCondition.Alike]

def RuleMatches.Alike (left right : RuleMatches) : Prop := left.withoutIds = right.withoutIds

def MatchSuccessor.Alike (left right : MatchSuccessor) : Prop := left.withoutIds = right.withoutIds

def Guarded.Alike (left right : Guarded) : Prop := left.withoutIds = right.withoutIds

def SymbolicStep.Alike (left right : SymbolicStep) : Prop := left.withoutIds = right.withoutIds

def Examination.Alike (left right : Examination) : Prop := left.withoutIds = right.withoutIds

theorem RuleMatches.Alike.accept {results results' : RuleMatches} (hresults : results.Alike results')
    {subst subst' : Substitution} {condition condition' : PathCondition}
    (hsubst : subst.Alike subst') (hcondition : condition.Alike condition') :
    (results.accept ⟨subst, condition⟩).Alike (results'.accept ⟨subst', condition'⟩) := by
  have haccept : ∀ (results : RuleMatches) (found : RuleMatch),
      (results.accept found).withoutIds = results.withoutIds.accept found.withoutIds := by
    simp [RuleMatches.accept, RuleMatches.withoutIds]
  have hfound : RuleMatch.withoutIds ⟨subst, condition⟩ =
      RuleMatch.withoutIds ⟨subst', condition'⟩ :=
    congrArg₂ RuleMatch.mk hsubst hcondition
  unfold RuleMatches.Alike at *
  rw [haccept, haccept, hresults, hfound]

theorem RuleMatches.Alike.countUndecided {results results' : RuleMatches}
    (hresults : results.Alike results') : results.countUndecided.Alike results'.countUndecided :=
  congrArg RuleMatches.countUndecided hresults

theorem RuleMatches.Alike.outcome_eq {results results' : RuleMatches}
    (hresults : results.Alike results') : results.outcome = results'.outcome := by
  have houtcome : ∀ results : RuleMatches, results.withoutIds.outcome = results.outcome := by
    simp [RuleMatches.outcome, RuleMatches.withoutIds, Array.isEmpty]
  rw [← houtcome, hresults, houtcome]

theorem RuleMatches.alike_iff {results results' : RuleMatches} :
    results.Alike results' ↔
      results.found.toList.map RuleMatch.withoutIds =
          results'.found.toList.map RuleMatch.withoutIds ∧
        results.undecided = results'.undecided := by
  rw [Alike, ← Array.toList_map, ← Array.toList_map, Array.toList_inj]
  simp [withoutIds]

/-- The same answer, with substitutions that differ in identities alone. -/
inductive Refinement.Alike : Refinement → Refinement → Prop
  | refined {subst subst' : Substitution} (halike : subst.Alike subst') :
      Alike (.refined subst) (.refined subst')
  | unsat : Alike .unsat .unsat
  | unknown : Alike .unknown .unknown

namespace Guarded

theorem withoutIds_add (guarded : Guarded) (outcome : MatchSuccessor) :
    (guarded.add outcome).withoutIds = guarded.withoutIds.add outcome.withoutIds := by
  cases outcome with
  | dropped => rfl
  | undecided => rfl
  | taken successor guard => simp [add, withoutIds, MatchSuccessor.withoutIds]

theorem guards_withoutIds (guarded : Guarded) :
    guarded.withoutIds.guards = guarded.guards.map PathCondition.withoutIds := by
  simp [guards, withoutIds, Function.comp_def]

theorem successors_withoutIds (guarded : Guarded) :
    guarded.withoutIds.successors = guarded.successors.map Successor.withoutIds := by
  simp [successors, withoutIds, Function.comp_def]

theorem leavesRemainder_withoutIds (guarded : Guarded) :
    guarded.withoutIds.leavesRemainder = guarded.leavesRemainder := by
  unfold leavesRemainder
  rw [guards_withoutIds, List.all_map]
  simp [withoutIds, Function.comp_def, Array.isEmpty]

theorem Alike.guards {guarded guarded' : Guarded} (hguarded : guarded.Alike guarded') :
    guarded.guards.map PathCondition.withoutIds = guarded'.guards.map PathCondition.withoutIds := by
  rw [← guards_withoutIds, hguarded, guards_withoutIds]

theorem Alike.undecided_eq {guarded guarded' : Guarded} (hguarded : guarded.Alike guarded') :
    guarded.undecided = guarded'.undecided := by
  simp only [Alike, withoutIds, Guarded.mk.injEq] at hguarded
  exact hguarded.2

theorem Alike.add {guarded guarded' : Guarded} (hguarded : guarded.Alike guarded')
    {outcome outcome' : MatchSuccessor} (houtcome : outcome.Alike outcome') :
    (guarded.add outcome).Alike (guarded'.add outcome') := by
  unfold Alike MatchSuccessor.Alike at *
  rw [withoutIds_add, withoutIds_add, hguarded, houtcome]

theorem Alike.countUndecided {guarded guarded' : Guarded} (hguarded : guarded.Alike guarded')
    (count : Nat) : Guarded.Alike { guarded with undecided := guarded.undecided + count }
      { guarded' with undecided := guarded'.undecided + count } := by
  simp only [Alike, withoutIds, Guarded.mk.injEq] at *
  exact ⟨hguarded.1, congrArg (· + count) hguarded.2⟩

end Guarded

theorem Definition.candidates_congr {definition : Definition} {subject subject' : Term}
    (hsubject : subject.Alike subject') :
    definition.candidates subject = definition.candidates subject' := by
  have hmatch : ∀ (subject : Term) (rule : Rule),
      mayMatchTop subject.withoutIds rule = mayMatchTop subject rule := by
    intro subject rule
    cases subject <;> rfl
  rw [candidates_eq_filter, candidates_eq_filter]
  congr 1
  funext rule
  rw [← hmatch subject, hsubject, hmatch]

theorem Definition.matchPattern_alike (definition : Definition)
    {pattern pattern' subject subject' : Term} (hpattern : pattern.Alike pattern')
    (hsubject : subject.Alike subject') :
    let results := definition.matchPattern pattern subject
    let results' := definition.matchPattern pattern' subject'
    results.found.toList.map StructuralMatch.withoutIds =
        results'.found.toList.map StructuralMatch.withoutIds ∧
      results.undecided = results'.undecided ∧ results.conflicts = results'.conflicts := by
  intro results results'
  have hmatches : results.withoutIds = results'.withoutIds :=
    matchPattern_congr_withoutIds definition hpattern hsubject
  simp only [PatternMatches.withoutIds, PatternMatches.mk.injEq] at hmatches
  refine ⟨?_, hmatches.2⟩
  rw [← Array.toList_map, ← Array.toList_map]
  exact congrArg Array.toList hmatches.1

/-- A question that differs in the identities of cells alone is the same question, as the equality
of terms does not see identities. They are drawn from a counter that all leaves share, so an answer
that depends on them depends on what has happened before. -/
structure DecisionProcedure.Blind (procedure : DecisionProcedure) : Prop where
  decide : ∀ {path path' : PathCondition} {proposition proposition' : Term}, path.Alike path' →
    proposition.Alike proposition' →
      procedure.decide path proposition = procedure.decide path' proposition'
  refine : ∀ {subst subst' : Substitution} {path path' : PathCondition}, subst.Alike subst' →
    path.Alike path' → (procedure.refine subst path).Alike (procedure.refine subst' path')
  implies : ∀ {premise premise' conclusion conclusion' : PathCondition}, premise.Alike premise' →
    conclusion.Alike conclusion' →
      procedure.implies premise conclusion = procedure.implies premise' conclusion'

theorem Run.ask_repeatedBy {kind : Repetition} {α α' : Type} {same : α → α' → Prop}
    {question : σ → α × σ} {question' : σ → α' × σ}
    (hsame : ∀ state state', same (question state).1 (question' state').1) :
    (Run.ask question).RepeatedBy kind same (Run.ask question') :=
  .modifyGet (fun start start' => hsame start.environment start'.environment) (fun _ => rfl)
    fun _ => rfl

namespace Machine

variable {kind : Repetition} {machine : Machine σ} {procedure : DecisionProcedure}
  (hanswers : machine.oracle.AnswersBy procedure) (hblind : procedure.Blind)

theorem recordOutcome_repeatedBy (outcome : MatchOutcome) :
    (recordOutcome outcome : Run σ Unit).RepeatedBy kind (fun _ _ => True)
      (recordOutcome outcome) := by
  cases outcome with
  | matched => exact .of_pure True.intro
  | noMatch | undecided => exact .record _

section Questions

include hanswers hblind

theorem decideUnder_repeatedBy {path path' : PathCondition} {proposition proposition' : Term}
    (hpath : path.Alike path') (hproposition : proposition.Alike proposition') :
    (machine.decideUnder path proposition).RepeatedBy kind Eq
      (machine.decideUnder path' proposition') := by
  refine Run.ask_repeatedBy fun state state' => ?_
  rw [hanswers.decide, hanswers.decide]
  exact hblind.decide hpath hproposition

theorem refineUnder_repeatedBy {subst subst' : Substitution} {path path' : PathCondition}
    (hsubst : subst.Alike subst') (hpath : path.Alike path') :
    (machine.refineUnder subst path).RepeatedBy kind Refinement.Alike
      (machine.refineUnder subst' path') := by
  refine Run.ask_repeatedBy fun state state' => ?_
  rw [hanswers.refine, hanswers.refine]
  exact hblind.refine hsubst hpath

theorem implies_repeatedBy {premise premise' conclusion conclusion' : PathCondition}
    (hpremise : premise.Alike premise') (hconclusion : conclusion.Alike conclusion') :
    (machine.implies premise conclusion).RepeatedBy kind Eq
      (machine.implies premise' conclusion') := by
  refine Run.ask_repeatedBy fun state state' => ?_
  rw [hanswers.implies, hanswers.implies]
  exact hblind.implies hpremise hconclusion

theorem admitMatches_repeatedBy {path path' : PathCondition} (hpath : path.Alike path')
    {founds founds' : List StructuralMatch}
    (hfounds : founds.map StructuralMatch.withoutIds = founds'.map StructuralMatch.withoutIds)
    {results results' : RuleMatches} (hresults : results.Alike results') :
    (machine.admitMatches path founds results).RepeatedBy kind RuleMatches.Alike
      (machine.admitMatches path' founds' results') := by
  induction founds generalizing founds' results results' with
  | nil =>
      obtain rfl : founds' = [] := List.map_eq_nil_iff.1 hfounds.symm
      exact .of_pure hresults
  | cons found others ih =>
      obtain ⟨found', others', rfl, hfound, hothers⟩ := List.map_eq_cons_iff.1 hfounds.symm
      obtain ⟨hsubst, hconstraints⟩ : found.subst.Alike found'.subst ∧
          found.constraints.Alike found'.constraints := by
        simpa [StructuralMatch.withoutIds, Substitution.Alike, PathCondition.Alike] using hfound.symm
      have haccept {subst subst' : Substitution} (hsubst : subst.Alike subst') :
          (results.accept ⟨subst, found.constraints⟩).Alike
            (results'.accept ⟨subst', found'.constraints⟩) :=
        hresults.accept hsubst hconstraints
      unfold admitMatches
      rw [← hconstraints.isTrivial_eq]
      split
      · exact ih hothers.symm (haccept hsubst)
      · refine (Run.RepeatedBy.record _).bind fun _ _ _ => ?_
        refine (refineUnder_repeatedBy hanswers hblind hsubst (hpath.and hconstraints)).bind
          fun answer answer' hanswer => ?_
        cases hanswer with
        | refined halike => exact ih hothers.symm (haccept halike)
        | unsat => exact ih hothers.symm hresults
        | unknown => exact ih hothers.symm hresults.countUndecided

theorem matchRuleUnder_repeatedBy (rule : Rule) {subject subject' : Term}
    (hsubject : subject.Alike subject') {path path' : PathCondition} (hpath : path.Alike path') :
    (machine.matchRuleUnder rule subject path).RepeatedBy kind RuleMatches.Alike
      (machine.matchRuleUnder rule subject' path') := by
  obtain ⟨hfounds, hundecided, hconflicts⟩ :=
    machine.definition.matchPattern_alike (rfl : rule.lhs.Alike rule.lhs) hsubject
  refine (Run.RepeatedBy.record _).bind fun _ _ _ => ?_
  dsimp only
  rw [hundecided, hconflicts]
  refine (Run.RepeatedBy.record _).bind fun _ _ _ => ?_
  refine (admitMatches_repeatedBy hanswers hblind hpath hfounds rfl).bind
    fun results results' hresults => ?_
  rw [hresults.outcome_eq]
  refine (recordOutcome_repeatedBy _).bind fun _ _ _ => ?_
  exact .of_pure hresults

end Questions

section Steps

variable (hrepeat : machine.definition.Repeatable) {state state' : ConstrainedTerm}
  (hstate : state.Alike state')
include hrepeat hstate

theorem takeMatch_repeatedBy {rule : Rule} (hrule : rule.freshVars = [])
    {subst subst' : Substitution} (hsubst : subst.Alike subst') {guard guard' : PathCondition}
    (hguard : guard.Alike guard') :
    (machine.takeMatch state rule subst guard).RepeatedBy kind MatchSuccessor.Alike
      (machine.takeMatch state' rule subst' guard') := by
  obtain ⟨-, hcondition⟩ := ConstrainedTerm.alike_iff.1 hstate
  refine (Definition.buildRight_repeatedBy (call_repeatedBy hrepeat) hrule hsubst).bind
    fun term term' hterm => ?_
  refine (Run.RepeatedBy.record _).bind fun _ _ _ => ?_
  refine .of_pure ?_
  have hsuccessor : ConstrainedTerm.Alike ⟨term, state.condition.and guard⟩
      ⟨term', state'.condition.and guard'⟩ :=
    ConstrainedTerm.alike_iff.2 ⟨hterm, hcondition.and hguard⟩
  exact congrArg₂ (fun state => MatchSuccessor.taken ⟨rule.id, state⟩) hsuccessor hguard

include hanswers hblind

theorem symbolicMatch_repeatedBy {rule : Rule} (hrule : rule.freshVars = [])
    {found found' : RuleMatch} (hfound : found.withoutIds = found'.withoutIds) :
    (machine.symbolicMatch state rule found).RepeatedBy kind MatchSuccessor.Alike
      (machine.symbolicMatch state' rule found') := by
  obtain ⟨-, hcondition⟩ := ConstrainedTerm.alike_iff.1 hstate
  obtain ⟨hsubst, hguard⟩ : found.subst.Alike found'.subst ∧
      found.condition.Alike found'.condition := by
    simpa [RuleMatch.withoutIds, Substitution.Alike, PathCondition.Alike] using hfound
  refine (Definition.condition_repeatedBy (call_repeatedBy hrepeat) rule hsubst).bind
    fun condition condition' hholds => ?_
  cases hholds with
  | holds => exact takeMatch_repeatedBy hrepeat hstate hrule hsubst hguard
  | fails => exact .of_pure rfl
  | unsettled hproposition =>
      refine (Run.RepeatedBy.record _).bind fun _ _ _ => ?_
      refine (decideUnder_repeatedBy hanswers hblind (hcondition.and hguard) hproposition).bind
        fun answer answer' hanswer => ?_
      subst hanswer
      cases answer with
      | holds => exact takeMatch_repeatedBy hrepeat hstate hrule hsubst hguard
      | fails => exact .of_pure rfl
      | unknown =>
          dsimp only
          split
          · exact takeMatch_repeatedBy hrepeat hstate hrule hsubst (hguard.assume hproposition)
          · exact .of_pure rfl

theorem symbolicMatches_repeatedBy {rule : Rule} (hrule : rule.freshVars = [])
    {founds founds' : List RuleMatch}
    (hfounds : founds.map RuleMatch.withoutIds = founds'.map RuleMatch.withoutIds)
    {guarded guarded' : Guarded} (hguarded : guarded.Alike guarded') :
    (machine.symbolicMatches state rule founds guarded).RepeatedBy kind Guarded.Alike
      (machine.symbolicMatches state' rule founds' guarded') := by
  induction founds generalizing founds' guarded guarded' with
  | nil =>
      obtain rfl : founds' = [] := List.map_eq_nil_iff.1 hfounds.symm
      exact .of_pure hguarded
  | cons found others ih =>
      obtain ⟨found', others', rfl, hfound, hothers⟩ := List.map_eq_cons_iff.1 hfounds.symm
      refine (symbolicMatch_repeatedBy hanswers hblind hrepeat hstate hrule hfound.symm).bind
        fun outcome outcome' houtcome => ?_
      exact ih hothers.symm (hguarded.add houtcome)

theorem symbolicRules_repeatedBy {rules : List Rule} (hrules : ∀ rule ∈ rules, rule.freshVars = [])
    {guarded guarded' : Guarded} (hguarded : guarded.Alike guarded') :
    (machine.symbolicRules state rules guarded).RepeatedBy kind Guarded.Alike
      (machine.symbolicRules state' rules guarded') := by
  obtain ⟨hterm, hcondition⟩ := ConstrainedTerm.alike_iff.1 hstate
  induction rules generalizing guarded guarded' with
  | nil => exact .of_pure hguarded
  | cons rule rules ih =>
      obtain ⟨hrule, hothers⟩ := List.forall_mem_cons.1 hrules
      refine (matchRuleUnder_repeatedBy hanswers hblind rule hterm hcondition).bind
        fun results results' hresults => ?_
      obtain ⟨hfounds, hundecided⟩ := RuleMatches.alike_iff.1 hresults
      refine (symbolicMatches_repeatedBy hanswers hblind hrepeat hstate hrule hfounds ?_).bind
        fun extended extended' hextended => ih hothers hextended
      rw [hundecided]
      exact hguarded.countUndecided results'.undecided

omit hrepeat in
theorem completeStep_repeatedBy {guarded guarded' : Guarded} (hguarded : guarded.Alike guarded') :
    (machine.completeStep state guarded).RepeatedBy kind SymbolicStep.Alike
      (machine.completeStep state' guarded') := by
  obtain ⟨hterm, hcondition⟩ := ConstrainedTerm.alike_iff.1 hstate
  have hleaves : guarded.leavesRemainder = guarded'.leavesRemainder := by
    rw [← guarded.leavesRemainder_withoutIds, hguarded, guarded'.leavesRemainder_withoutIds]
  have huncovered : (state.condition.uncovered guarded.guards).Alike
      (state'.condition.uncovered guarded'.guards) :=
    hcondition.uncovered hguarded.guards
  have hnew : (state.condition.uncovered guarded.guards == state.condition) =
      (state'.condition.uncovered guarded'.guards == state'.condition) := by
    rw [← PathCondition.beq_withoutIds, huncovered, hcondition, PathCondition.beq_withoutIds]
  have hundecided : guarded.undecided = guarded'.undecided := hguarded.undecided_eq
  have halike {undecided undecided' : Nat} (hundecided : undecided = undecided')
      {remainder remainder' : Option ConstrainedTerm}
      (hremainder : remainder.map ConstrainedTerm.withoutIds =
        remainder'.map ConstrainedTerm.withoutIds) :
      SymbolicStep.Alike ⟨guarded.successors, undecided, remainder⟩
        ⟨guarded'.successors, undecided', remainder'⟩ := by
    simp only [SymbolicStep.Alike, SymbolicStep.withoutIds, ← Guarded.successors_withoutIds]
    rw [hguarded, hundecided, hremainder]
  unfold completeStep
  dsimp only
  rw [← hleaves]
  split
  · refine (Run.RepeatedBy.record _).bind fun _ _ _ => ?_
    refine (refineUnder_repeatedBy hanswers hblind rfl huncovered).bind
      fun answer answer' hanswer => ?_
    cases hanswer with
    | unsat => exact .of_pure (halike hundecided rfl)
    | refined _ | unknown =>
        change Run.RepeatedBy kind _
          (if state.condition.uncovered guarded.guards == state.condition then _ else _)
          (if state'.condition.uncovered guarded'.guards == state'.condition then _ else _)
        rw [← hnew]
        split
        · exact .of_pure (halike (congrArg (· + 1) hundecided) rfl)
        · exact .of_pure (halike hundecided
            (congrArg some (ConstrainedTerm.alike_iff.2 ⟨hterm, huncovered⟩)))
  · exact .of_pure (halike hundecided rfl)

theorem stepSymbolic_repeatedBy
    (hrules : ∀ rule ∈ machine.definition.rewriteRules, rule.freshVars = []) :
    (machine.stepSymbolic state).RepeatedBy kind SymbolicStep.Alike
      (machine.stepSymbolic state') := by
  obtain ⟨hterm, -⟩ := ConstrainedTerm.alike_iff.1 hstate
  have hcandidates : ∀ rule ∈ machine.definition.candidates state.term, rule.freshVars = [] :=
    fun rule hmem => hrules rule (Definition.mem_rewriteRules_of_mem_candidates hmem)
  unfold stepSymbolic
  rw [← Definition.candidates_congr hterm]
  refine (symbolicRules_repeatedBy hanswers hblind hrepeat hstate hcandidates rfl).bind
    fun guarded guarded' hguarded => ?_
  exact completeStep_repeatedBy hanswers hblind hstate hguarded

end Steps

end Machine

end SymbolicRewriting
