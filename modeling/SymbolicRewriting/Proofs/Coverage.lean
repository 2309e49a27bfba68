import SymbolicRewriting.Oracle.Syntactic
import SymbolicRewriting.Proofs.Run
import SymbolicRewriting.Proofs.Valuation

/-!
A symbolic step covers its state. Whatever satisfies the condition of the state satisfies the
condition of a successor, or that of the remainder, unless the oracle has refuted the remainder; and
nothing satisfies both the remainder and a successor.
-/

namespace SymbolicRewriting

variable {σ : Type}

def MatchSuccessor.All (property : Successor → PathCondition → Prop) (outcome : MatchSuccessor) :
    Prop :=
  ∀ successor guard, outcome = .taken successor guard → property successor guard

def Guarded.All (property : Successor → PathCondition → Prop) (guarded : Guarded) : Prop :=
  ∀ taken ∈ guarded.taken.toList, property taken.1 taken.2

/-- The successors are reached under the condition of the state and their own guards. -/
abbrev Guarded.Under (condition : PathCondition) (guarded : Guarded) : Prop :=
  guarded.All fun successor guard => successor.state.condition = condition.and guard

/-- The condition of the states that no guard lets through. -/
def PathCondition.uncovered (condition : PathCondition) (guards : List PathCondition) :
    PathCondition :=
  condition.assumeAll (guards.map PathCondition.negation)

namespace Valuation

/-- Under the negation of all guards, no guard is satisfied. -/
theorem not_satisfies_of_uncovered {valuation : Valuation} {condition guard : PathCondition}
    {guards : List PathCondition} (htrivial : guards.all (fun guard => !guard.isTrivial) = true)
    (huncovered : valuation.Satisfies (condition.uncovered guards)) (hmem : guard ∈ guards) :
    ¬valuation.Satisfies guard := by
  have hguard : guard.isTrivial = false := by
    simpa using List.all_eq_true.1 htrivial guard hmem
  refine (value_negation hguard).1 ?_
  exact (satisfies_assumeAll.1 huncovered).2 _ (List.mem_map_of_mem hmem)

/-- A valuation that satisfies the condition of a state satisfies one of the guards, or the
condition under the negation of all of them. -/
theorem satisfies_guard_or_uncovered {valuation : Valuation} {condition : PathCondition}
    (guards : List PathCondition) (hcondition : valuation.Satisfies condition) :
    (∃ guard ∈ guards, valuation.Satisfies guard) ∨
      valuation.Satisfies (condition.uncovered guards) := by
  by_cases hguard : ∃ guard ∈ guards, valuation.Satisfies guard
  · exact .inl hguard
  · refine .inr (satisfies_assumeAll.2 ⟨hcondition, ?_⟩)
    intro proposition hmem
    obtain ⟨guard, hguards, rfl⟩ := List.mem_map.1 hmem
    have hfalse : ¬valuation.Satisfies guard := fun hsat => hguard ⟨guard, hguards, hsat⟩
    have hnontrivial : guard.isTrivial = false := by
      cases htrivial : guard.isTrivial with
      | false => rfl
      | true => exact absurd (valuation.satisfies_of_isTrivial htrivial) hfalse
    exact (value_negation hnontrivial).2 hfalse

end Valuation

namespace Guarded

theorem All.add {property : Successor → PathCondition → Prop} {guarded : Guarded}
    {outcome : MatchSuccessor} (hguarded : guarded.All property) (houtcome : outcome.All property) :
    (guarded.add outcome).All property := by
  cases outcome with
  | dropped => exact hguarded
  | undecided => exact hguarded
  | taken successor guard =>
      intro taken hmem
      simp only [Guarded.add, Array.toList_push, List.mem_append, List.mem_singleton] at hmem
      rcases hmem with hmem | rfl
      · exact hguarded taken hmem
      · exact houtcome successor guard rfl

theorem map_condition_successors {condition : PathCondition} {guarded : Guarded}
    (hguarded : guarded.Under condition) :
    guarded.successors.map (fun successor => successor.state.condition) =
      guarded.guards.map condition.and := by
  rw [successors, guards, List.map_map, List.map_map]
  exact List.map_congr_left hguarded

theorem Under.exists_guard {condition : PathCondition} {guarded : Guarded}
    (hguarded : guarded.Under condition) {successor : Successor}
    (hmem : successor ∈ guarded.successors) :
    ∃ guard ∈ guarded.guards, successor.state.condition = condition.and guard := by
  obtain ⟨taken, htaken, rfl⟩ := List.mem_map.1 hmem
  exact ⟨taken.2, List.mem_map_of_mem htaken, hguarded taken htaken⟩

theorem Under.exists_successor {condition guard : PathCondition} {guarded : Guarded}
    (hguarded : guarded.Under condition) (hmem : guard ∈ guarded.guards) :
    ∃ successor ∈ guarded.successors, successor.state.condition = condition.and guard := by
  obtain ⟨taken, htaken, rfl⟩ := List.mem_map.1 hmem
  exact ⟨taken.1, List.mem_map_of_mem htaken, hguarded taken htaken⟩

/-- Successors without a remainder include one that has no guard. -/
theorem exists_isTrivial {guarded : Guarded} (hguards : guarded.leavesRemainder = false)
    (hnonempty : guarded.successors ≠ []) :
    ∃ guard ∈ guarded.guards, guard.isTrivial = true := by
  have hsome : guarded.taken.isEmpty = false := by
    cases hempty : guarded.taken.isEmpty with
    | false => rfl
    | true =>
        rw [Array.isEmpty_iff] at hempty
        simp [successors, hempty] at hnonempty
  simpa [leavesRemainder, hsome] using hguards

end Guarded

namespace Machine

theorem decideUnder_eq_ok {machine : Machine σ} {path : PathCondition} {proposition : Term}
    {start next : RunState σ} {answer : Decision}
    (hrun : machine.decideUnder path proposition start = .ok answer next) :
    machine.oracle.decide path proposition start.environment = (answer, next.environment) := by
  cases hrun
  rfl

theorem refineUnder_eq_ok {machine : Machine σ} {subst : Substitution} {path : PathCondition}
    {start next : RunState σ} {answer : Refinement}
    (hrun : machine.refineUnder subst path start = .ok answer next) :
    machine.oracle.refine subst path start.environment = (answer, next.environment) := by
  cases hrun
  rfl

section Guarding

variable {property : Successor → PathCondition → Prop} {state : ConstrainedTerm}

theorem ensures_symbolicMatches (machine : Machine σ) {rule : Rule} {founds : List RuleMatch}
    (hmatches : ∀ found ∈ founds,
      (machine.symbolicMatch state rule found).Ensures (MatchSuccessor.All property))
    {guarded : Guarded} (hguarded : guarded.All property) :
    (machine.symbolicMatches state rule founds guarded).Ensures (Guarded.All property) := by
  induction founds generalizing guarded with
  | nil => exact Run.Ensures.of_pure hguarded
  | cons found others ih =>
      obtain ⟨hfound, hothers⟩ := List.forall_mem_cons.1 hmatches
      refine Run.Ensures.bind hfound ?_
      intro outcome houtcome
      exact ih hothers (hguarded.add houtcome)

/-- Matches are kept with their constraints, under the substitution that the oracle gives for them if
it is asked. -/
theorem ensures_admitMatches (machine : Machine σ) {property : RuleMatch → Prop}
    {path : PathCondition} {founds : List StructuralMatch}
    (htrivial : ∀ found ∈ founds, found.constraints.isTrivial = true →
      property ⟨found.subst, found.constraints⟩)
    (hrefined : ∀ found ∈ founds, ∀ subst asked answered,
      machine.oracle.refine found.subst (path.and found.constraints) asked =
        (.refined subst, answered) → property ⟨subst, found.constraints⟩)
    {results : RuleMatches} (hresults : ∀ found ∈ results.found.toList, property found) :
    (machine.admitMatches path founds results).Ensures fun last =>
      ∀ found ∈ last.found.toList, property found := by
  have haccept : ∀ {results : RuleMatches} {found : RuleMatch},
      (∀ found ∈ results.found.toList, property found) → property found →
        ∀ other ∈ (results.accept found).found.toList, property other := by
    intro results found hresults hfound
    rw [RuleMatches.accept, Array.toList_push, List.forall_mem_append, List.forall_mem_singleton]
    exact ⟨hresults, hfound⟩
  induction founds generalizing results with
  | nil => exact Run.Ensures.of_pure hresults
  | cons found others ih =>
      obtain ⟨hfirst, htrivial⟩ := List.forall_mem_cons.1 htrivial
      obtain ⟨hasked, hrefined⟩ := List.forall_mem_cons.1 hrefined
      unfold admitMatches
      split
      · rename_i hsettled
        exact ih htrivial hrefined (haccept hresults (hfirst hsettled))
      · refine Run.Ensures.bind_of_forall fun _ => ?_
        rintro start result next hrun
        obtain ⟨answer, between, hanswer, hrun⟩ := Run.bind_eq_ok.1 hrun
        cases answer with
        | refined subst =>
            have hfound := hasked subst _ _ (refineUnder_eq_ok hanswer)
            exact ih htrivial hrefined (haccept hresults hfound) _ _ _ hrun
        | unsat => exact ih htrivial hrefined hresults _ _ _ hrun
        | unknown =>
            have hcounted : ∀ found ∈ results.countUndecided.found.toList, property found := hresults
            exact ih htrivial hrefined hcounted _ _ _ hrun

theorem ensures_matchRuleUnder (machine : Machine σ) {property : RuleMatch → Prop} {rule : Rule}
    {subject : Term} {path : PathCondition}
    (htrivial : ∀ found ∈ (machine.definition.matchPattern rule.lhs subject).found,
      found.constraints.isTrivial = true → property ⟨found.subst, found.constraints⟩)
    (hrefined : ∀ found ∈ (machine.definition.matchPattern rule.lhs subject).found,
      ∀ subst asked answered, machine.oracle.refine found.subst (path.and found.constraints) asked =
        (.refined subst, answered) → property ⟨subst, found.constraints⟩) :
    (machine.matchRuleUnder rule subject path).Ensures fun results =>
      ∀ found ∈ results.found.toList, property found := by
  refine Run.Ensures.bind_of_forall fun _ => Run.Ensures.bind_of_forall fun _ => ?_
  refine Run.Ensures.bind (machine.ensures_admitMatches
    (fun found hmem => htrivial found (Array.mem_toList_iff.1 hmem))
    (fun found hmem => hrefined found (Array.mem_toList_iff.1 hmem)) (by simp)) ?_
  intro results hresults
  exact Run.Ensures.bind_of_forall fun _ => Run.Ensures.of_pure hresults

/-- What holds of the successor of every match holds of all that a step takes. -/
theorem ensures_symbolicRules (machine : Machine σ) {rules : List Rule}
    (hrules : ∀ rule ∈ rules,
      (machine.matchRuleUnder rule state.term state.condition).Ensures fun results =>
        ∀ found ∈ results.found.toList,
          (machine.symbolicMatch state rule found).Ensures (MatchSuccessor.All property))
    {guarded : Guarded} (hguarded : guarded.All property) :
    (machine.symbolicRules state rules guarded).Ensures (Guarded.All property) := by
  induction rules generalizing guarded with
  | nil => exact Run.Ensures.of_pure hguarded
  | cons rule rules ih =>
      obtain ⟨hrule, hothers⟩ := List.forall_mem_cons.1 hrules
      refine Run.Ensures.bind hrule ?_
      intro results hresults
      refine Run.Ensures.bind (machine.ensures_symbolicMatches hresults (by exact hguarded)) ?_
      intro extended hextended
      exact ih hothers hextended

end Guarding

theorem takeMatch_under (machine : Machine σ) (state : ConstrainedTerm) (rule : Rule)
    (subst : Substitution) (guard : PathCondition) :
    (machine.takeMatch state rule subst guard).Ensures
      (MatchSuccessor.All fun successor guard =>
        successor.state.condition = state.condition.and guard) := by
  refine Run.Ensures.bind_of_forall fun term => Run.Ensures.bind_of_forall fun _ => ?_
  apply Run.Ensures.of_pure
  rintro successor other ⟨⟩
  rfl

theorem symbolicMatch_under (machine : Machine σ) (state : ConstrainedTerm) (rule : Rule)
    (found : RuleMatch) :
    (machine.symbolicMatch state rule found).Ensures
      (MatchSuccessor.All fun successor guard =>
        successor.state.condition = state.condition.and guard) := by
  have hdropped : (pure .dropped : Run σ MatchSuccessor).Ensures
      (MatchSuccessor.All fun successor guard =>
        successor.state.condition = state.condition.and guard) := by
    apply Run.Ensures.of_pure
    rintro _ _ ⟨⟩
  apply Run.Ensures.bind_of_forall
  intro condition
  cases condition with
  | holds => exact machine.takeMatch_under state rule _ _
  | fails => exact hdropped
  | unsettled proposition =>
      refine Run.Ensures.bind_of_forall fun _ => Run.Ensures.bind_of_forall fun decision => ?_
      cases decision with
      | holds => exact machine.takeMatch_under state rule _ _
      | fails => exact hdropped
      | unknown =>
          dsimp only
          split
          · exact machine.takeMatch_under state rule _ _
          · apply Run.Ensures.of_pure
            rintro _ _ ⟨⟩

theorem symbolicRules_under (machine : Machine σ) (state : ConstrainedTerm) (rules : List Rule)
    {guarded : Guarded} (hguarded : guarded.Under state.condition) :
    (machine.symbolicRules state rules guarded).Ensures (Guarded.Under state.condition) := by
  refine machine.ensures_symbolicRules (fun rule _ => ?_) hguarded
  exact fun _ _ _ _ found _ => machine.symbolicMatch_under state rule found

/-- What becomes of the states that no successor covers: there are none, the oracle refutes them
when it is asked at last, they cannot be told from the state itself, or they are the remainder. -/
inductive Completion (machine : Machine σ) (state : ConstrainedTerm) (guarded : Guarded)
    (start next : RunState σ) : SymbolicStep → Prop
  | covered {step} (hguards : guarded.leavesRemainder = false) (hnone : step.remainder = none) :
      Completion machine state guarded start next step
  | refuted {step} (hguards : guarded.leavesRemainder = true) (hnone : step.remainder = none)
      (hrefine : machine.oracle.refine .empty (state.condition.uncovered guarded.guards)
        start.environment = (.unsat, next.environment)) :
      Completion machine state guarded start next step
  | inseparable {step} (hundecided : 0 < step.undecided) (hnone : step.remainder = none) :
      Completion machine state guarded start next step
  | split {step answer} (hguards : guarded.leavesRemainder = true)
      (hremainder : step.remainder =
        some ⟨state.term, state.condition.uncovered guarded.guards⟩)
      (hrefine : machine.oracle.refine .empty (state.condition.uncovered guarded.guards)
        start.environment = (answer, next.environment)) (hpossible : answer ≠ .unsat)
      (hnew : (state.condition.uncovered guarded.guards == state.condition) = false) :
      Completion machine state guarded start next step

theorem completion_of_completeStep {machine : Machine σ} {state : ConstrainedTerm}
    {guarded : Guarded} {start next : RunState σ} {step : SymbolicStep}
    (hrun : machine.completeStep state guarded start = .ok step next) :
    step.successors = guarded.successors ∧ Completion machine state guarded start next step := by
  unfold completeStep at hrun
  dsimp only at hrun
  split at hrun
  · rename_i hguards
    obtain ⟨_, recorded, hrecorded, hrun⟩ := Run.bind_eq_ok.1 hrun
    obtain ⟨answer, asked, hanswer, hrun⟩ := Run.bind_eq_ok.1 hrun
    cases hrecorded
    have hrefine := refineUnder_eq_ok hanswer
    cases answer with
    | unsat =>
        obtain ⟨rfl, rfl⟩ := Run.pure_eq_ok.1 hrun
        exact ⟨rfl, .refuted hguards rfl hrefine⟩
    | refined _ | unknown =>
        dsimp only at hrun
        split at hrun
        · obtain ⟨rfl, -⟩ := Run.pure_eq_ok.1 hrun
          exact ⟨rfl, .inseparable (Nat.succ_pos _) rfl⟩
        · rename_i hnew
          obtain ⟨rfl, rfl⟩ := Run.pure_eq_ok.1 hrun
          exact ⟨rfl, .split hguards rfl hrefine (by rintro ⟨⟩) (Bool.eq_false_iff.2 hnew)⟩
  · rename_i hguards
    obtain ⟨rfl, -⟩ := Run.pure_eq_ok.1 hrun
    exact ⟨rfl, .covered (by simpa using hguards) rfl⟩

section Completing

variable {machine : Machine σ} {state : ConstrainedTerm} {guarded : Guarded}
  {start next : RunState σ} {step : SymbolicStep}

theorem Completion.condition_of_remainder
    (hcompletion : Completion machine state guarded start next step)
    {remainder : ConstrainedTerm} (hremainder : step.remainder = some remainder) :
    guarded.leavesRemainder = true ∧
      remainder.condition = state.condition.uncovered guarded.guards := by
  cases hcompletion with
  | covered _ hnone | refuted _ hnone _ | inseparable _ hnone => simp [hnone] at hremainder
  | split hguards hsome _ _ _ =>
      rw [hsome, Option.some.injEq] at hremainder
      exact ⟨hguards, hremainder ▸ rfl⟩

/-- What satisfies the state satisfies a guard or none of them, and in the latter case the step has a
remainder or the oracle has refuted it. -/
theorem Completion.covers (hcompletion : Completion machine state guarded start next step)
    (hnonempty : guarded.successors ≠ []) (hdecided : step.undecided = 0) {valuation : Valuation}
    (hcondition : valuation.Satisfies state.condition) :
    (∃ guard ∈ guarded.guards, valuation.Satisfies (state.condition.and guard)) ∨
      (∃ remainder, step.remainder = some remainder ∧ valuation.Satisfies remainder.condition) ∨
      step.remainder = none ∧ ∃ asked,
        machine.oracle.refine .empty (state.condition.uncovered guarded.guards) asked =
          (.unsat, next.environment) := by
  rcases Valuation.satisfies_guard_or_uncovered guarded.guards hcondition with
    ⟨guard, hmem, hguard⟩ | huncovered
  · exact .inl ⟨guard, hmem, Valuation.satisfies_and.2 ⟨hcondition, hguard⟩⟩
  · cases hcompletion with
    | covered hguards _ =>
        obtain ⟨guard, hmem, htrivial⟩ := guarded.exists_isTrivial hguards hnonempty
        have hguard := valuation.satisfies_of_isTrivial htrivial
        exact .inl ⟨guard, hmem, Valuation.satisfies_and.2 ⟨hcondition, hguard⟩⟩
    | refuted _ hnone hrefine => exact .inr (.inr ⟨hnone, _, hrefine⟩)
    | inseparable hundecided _ => exact absurd hdecided (Nat.ne_of_gt hundecided)
    | split _ hsome _ _ _ => exact .inr (.inl ⟨_, hsome, huncovered⟩)

/-- Nothing satisfies both the remainder and the condition under a guard. -/
theorem Completion.disjoint (hcompletion : Completion machine state guarded start next step)
    {remainder : ConstrainedTerm} (hremainder : step.remainder = some remainder)
    {valuation : Valuation} (hsatisfies : valuation.Satisfies remainder.condition)
    {guard : PathCondition} (hmem : guard ∈ guarded.guards) :
    ¬valuation.Satisfies (state.condition.and guard) := by
  intro hsuccessor
  obtain ⟨hguards, hcondition⟩ := hcompletion.condition_of_remainder hremainder
  rw [hcondition] at hsatisfies
  have htrivial := (Bool.and_eq_true_iff.1 hguards).2
  exact Valuation.not_satisfies_of_uncovered htrivial hsatisfies hmem
    (Valuation.satisfies_and.1 hsuccessor).2

end Completing

/-- A symbolic step loses no state: the conditions of its successors are the condition of the state
under the guards that were gathered, and a valuation of that condition that satisfies no successor
satisfies the remainder, unless the last answer of the oracle has refuted it. -/
theorem stepSymbolic_covers (machine : Machine σ) (state : ConstrainedTerm)
    {start next : RunState σ} {step : SymbolicStep}
    (hrun : machine.stepSymbolic state start = .ok step next) :
    ∃ guarded between,
      machine.symbolicRules state (machine.definition.candidates state.term) {} start =
        .ok guarded between ∧
      step.successors.map (fun successor => successor.state.condition) =
        guarded.guards.map state.condition.and ∧
      (∀ successor ∈ step.successors,
        state.condition.conjuncts <+: successor.state.condition.conjuncts) ∧
      (∀ remainder, step.remainder = some remainder →
        state.condition.conjuncts <+: remainder.condition.conjuncts) ∧
      ∀ valuation : Valuation,
        (step.successors ≠ [] → step.undecided = 0 → valuation.Satisfies state.condition →
          (∃ successor ∈ step.successors, valuation.Satisfies successor.state.condition) ∨
          (∃ remainder, step.remainder = some remainder ∧
            valuation.Satisfies remainder.condition) ∨
          step.remainder = none ∧ ∃ asked,
            machine.oracle.refine .empty (state.condition.uncovered guarded.guards) asked =
              (.unsat, next.environment)) ∧
        ∀ remainder, step.remainder = some remainder →
          valuation.Satisfies remainder.condition →
            ∀ successor ∈ step.successors, ¬valuation.Satisfies successor.state.condition := by
  obtain ⟨guarded, between, hrules, hcomplete⟩ := Run.bind_eq_ok.1 hrun
  obtain ⟨hsuccessors, hcompletion⟩ := completion_of_completeStep hcomplete
  have hunder : guarded.Under state.condition :=
    machine.symbolicRules_under state _ (fun _ hmem => by simp at hmem) start guarded between hrules
  refine ⟨guarded, between, hrules, ?_⟩
  rw [hsuccessors]
  refine ⟨Guarded.map_condition_successors hunder, ?_, ?_, fun valuation => ⟨?_, ?_⟩⟩
  · intro successor hmem
    obtain ⟨guard, -, hcondition⟩ := hunder.exists_guard hmem
    rw [hcondition]
    exact state.condition.prefix_assumeAll _
  · intro remainder hremainder
    rw [(hcompletion.condition_of_remainder hremainder).2]
    exact state.condition.prefix_assumeAll _
  · intro hnonempty hdecided hcondition
    refine (hcompletion.covers hnonempty hdecided hcondition).imp_left ?_
    rintro ⟨guard, hmem, hsatisfies⟩
    obtain ⟨successor, hsuccessor, hequal⟩ := hunder.exists_successor hmem
    exact ⟨successor, hsuccessor, hequal ▸ hsatisfies⟩
  · intro remainder hremainder hsatisfies successor hmem
    obtain ⟨guard, hguard, hequal⟩ := hunder.exists_guard hmem
    rw [hequal]
    exact hcompletion.disjoint hremainder hsatisfies hguard

/-- A machine whose only rule has a condition that its oracle cannot decide. -/
def conditional : Machine Unit where
  definition := .assemble
    [.rule
      { lhs := .app "loop" [.var ⟨"X", Symbol.int, .plain⟩]
        rhs := .app "done" []
        requires := some (.app "small" [.var ⟨"X", Symbol.int, .plain⟩]) }]
  oracle := DecisionProcedure.syntactic.toOracle Unit

theorem stepSymbolic_covers_conditional :
    ∃ step next,
      conditional.stepSymbolic ⟨.app "loop" [.int 0], .trivial⟩ { environment := () } =
        .ok step next ∧
      step.successors ≠ [] ∧ step.undecided = 0 ∧
      ∃ remainder, step.remainder = some remainder ∧
        ((∃ successor ∈ step.successors,
            Valuation.literal.Satisfies successor.state.condition) ∨
          Valuation.literal.Satisfies remainder.condition) ∧
        (Valuation.literal.Satisfies remainder.condition →
          ∀ successor ∈ step.successors,
            ¬Valuation.literal.Satisfies successor.state.condition) := by
  have hsucceeds :
      (conditional.stepSymbolic ⟨.app "loop" [.int 0], .trivial⟩).succeedsWith
        { environment := () }
        (fun step => !step.successors.isEmpty && step.undecided == 0 && step.remainder.isSome) =
          true := by
    decide +kernel
  obtain ⟨step, next, hrun, htest⟩ := Run.exists_of_succeedsWith hsucceeds
  simp only [Bool.and_eq_true, Bool.not_eq_true', beq_iff_eq] at htest
  obtain ⟨⟨hsuccessors, hdecided⟩, hremainder⟩ := htest
  obtain ⟨remainder, hremainder⟩ := Option.isSome_iff_exists.1 hremainder
  have hnonempty : step.successors ≠ [] := by
    rintro hnil
    simp [hnil] at hsuccessors
  obtain ⟨_, _, -, -, -, -, hvaluation⟩ := stepSymbolic_covers conditional _ hrun
  obtain ⟨hcovers, hdisjoint⟩ := hvaluation .literal
  refine ⟨step, next, hrun, hnonempty, hdecided, remainder, hremainder, ?_,
    hdisjoint remainder hremainder⟩
  rcases hcovers hnonempty hdecided (Valuation.satisfies_of_isTrivial _ rfl) with
    hsuccessor | ⟨other, hother, hsatisfies⟩ | ⟨hnone, -⟩
  · exact .inl hsuccessor
  · rw [hremainder, Option.some.injEq] at hother
    exact .inr (hother ▸ hsatisfies)
  · rw [hremainder] at hnone
    cases hnone

end Machine

end SymbolicRewriting
