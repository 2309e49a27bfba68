import SymbolicRewriting.Machine.Execution
import SymbolicRewriting.Oracle.Silent
import SymbolicRewriting.Proofs.Identities
import SymbolicRewriting.Proofs.Run

/-!
The limit on nested calls. All that a lower limit does is to turn values into errors: what succeeds
under it goes in the very same way under every higher limit, down to the fresh values and the
identities that are drawn and the measurements that are taken.
-/

namespace SymbolicRewriting

variable {σ α β : Type}

/-- With whatever value and state the first run ends, the second one ends in the same way from the
same state. An error of the first run says nothing about the second. -/
def Run.ExtendedBy (run other : Run σ α) : Prop :=
  ∀ start value next, run start = .ok value next → other start = .ok value next

namespace Run.ExtendedBy

theorem refl (run : Run σ α) : run.ExtendedBy run :=
  fun _ _ _ hrun => hrun

theorem of_throw (error : RewriteError) (other : Run σ α) :
    ExtendedBy (throw error) other := by
  intro start value next hrun
  cases hrun

theorem bind {run other : Run σ α} {continuation continuation' : α → Run σ β}
    (hfirst : run.ExtendedBy other)
    (hsecond : ∀ value, (continuation value).ExtendedBy (continuation' value)) :
    (run >>= continuation).ExtendedBy (other >>= continuation') := by
  intro start result next hrun
  obtain ⟨value, between, hvalue, hresult⟩ := bind_eq_ok.1 hrun
  exact bind_eq_ok.2
    ⟨value, between, hfirst start value between hvalue, hsecond value between result next hresult⟩

/-- The two runs go on in the same way. -/
theorem followed {run other : Run σ α} (hrun : run.ExtendedBy other) (continuation : α → Run σ β) :
    (run >>= continuation).ExtendedBy (other >>= continuation) :=
  hrun.bind fun value => refl (continuation value)

/-- The two runs have their first part in common. -/
theorem bind_left (run : Run σ α) {continuation continuation' : α → Run σ β}
    (hsecond : ∀ value, (continuation value).ExtendedBy (continuation' value)) :
    (run >>= continuation).ExtendedBy (run >>= continuation') :=
  (refl run).bind hsecond

end Run.ExtendedBy

def Caller.ExtendedBy (caller other : Caller σ) : Prop :=
  ∀ label args, (caller label args).ExtendedBy (other label args)

namespace Definition

variable {definition : Definition} {caller other : Caller σ} {subst : Substitution}
  {mode : BuildMode}

theorem buildTerms_extendedBy {terms : List Term}
    (hterms : ∀ term ∈ terms, (definition.buildTerm caller subst mode term).ExtendedBy
      (definition.buildTerm other subst mode term)) :
    (definition.buildTerms caller subst mode terms).ExtendedBy
      (definition.buildTerms other subst mode terms) := by
  induction terms with
  | nil => exact .refl _
  | cons term terms ih =>
      obtain ⟨hfirst, hothers⟩ := List.forall_mem_cons.1 hterms
      apply hfirst.bind
      intro value
      exact (ih hothers).followed _

theorem buildCells_extendedBy {cells : List (Cell Term)}
    (hcells : ∀ cell ∈ cells, (definition.buildTerm caller subst mode cell.content).ExtendedBy
      (definition.buildTerm other subst mode cell.content)) :
    (definition.buildCells caller subst mode cells).ExtendedBy
      (definition.buildCells other subst mode cells) := by
  induction cells with
  | nil => exact .refl _
  | cons cell cells ih =>
      obtain ⟨hfirst, hothers⟩ := List.forall_mem_cons.1 hcells
      apply hfirst.bind
      intro content
      apply Run.ExtendedBy.bind_left
      intro identity
      exact (ih hothers).followed _

variable (hcaller : caller.ExtendedBy other)
include hcaller

theorem buildTerm_extendedBy (subst : Substitution) (mode : BuildMode) (term : Term) :
    (definition.buildTerm caller subst mode term).ExtendedBy
      (definition.buildTerm other subst mode term) := by
  induction term using Term.nestedInduction with
  | token sort value => exact .refl _
  | var v => exact .refl _
  | app label args ih =>
      apply (buildTerms_extendedBy ih).bind
      intro built
      split
      · exact hcaller label built
      · exact .refl _
  | sequence op items ih => exact (buildTerms_extendedBy ih).followed _
  | collection cells frame ih => exact (buildCells_extendedBy ih).followed _

theorem condition_extendedBy (rule : Rule) (subst : Substitution) :
    (definition.condition caller rule subst).ExtendedBy
      (definition.condition other rule subst) := by
  unfold condition
  cases rule.requires with
  | none => exact .refl _
  | some requires => exact (buildTerm_extendedBy hcaller subst .evaluate requires).followed _

/-- The number is drawn before the generator is called, so both runs draw the same one. -/
theorem freshValue_extendedBy (sort : SortName) :
    (definition.freshValue caller sort).ExtendedBy (definition.freshValue other sort) := by
  unfold freshValue
  cases definition.generator? sort with
  | none => exact .refl _
  | some generator =>
      apply Run.ExtendedBy.bind_left
      intro number
      apply Run.ExtendedBy.bind_left
      intro _
      exact buildTerm_extendedBy hcaller _ _ _

theorem bindFreshVars_extendedBy (vars : List Variable) (subst : Substitution) :
    (definition.bindFreshVars caller vars subst).ExtendedBy
      (definition.bindFreshVars other vars subst) := by
  induction vars generalizing subst with
  | nil => exact .refl _
  | cons v vars ih =>
      unfold bindFreshVars
      split
      · exact ih subst
      · apply (freshValue_extendedBy hcaller v.sort).bind
        intro value
        exact ih _

theorem buildRight_extendedBy (rule : Rule) (subst : Substitution) :
    (definition.buildRight caller rule subst).ExtendedBy
      (definition.buildRight other rule subst) := by
  apply (bindFreshVars_extendedBy hcaller rule.freshVars subst).bind
  intro extended
  exact buildTerm_extendedBy hcaller extended .instantiate rule.rhs

theorem firstHolding_extendedBy (rule : Rule) (substs : List Substitution) :
    (definition.firstHolding caller rule substs).ExtendedBy
      (definition.firstHolding other rule substs) := by
  induction substs with
  | nil => exact .refl _
  | cons subst substs ih =>
      apply (condition_extendedBy hcaller rule subst).bind
      intro condition
      cases condition with
      | holds => exact .refl _
      | fails => exact ih
      | unsettled _ => exact ih

theorem firstApplicable_extendedBy (subject : Term) (rules : List Rule) :
    (definition.firstApplicable caller subject rules).ExtendedBy
      (definition.firstApplicable other subject rules) := by
  induction rules with
  | nil => exact .refl _
  | cons rule rules ih =>
      apply (firstHolding_extendedBy hcaller rule _).bind
      intro found
      cases found with
      | none => exact ih
      | some subst => exact .refl _

theorem applyFunctionRules_extendedBy (label : Label) (args : List Term) :
    (definition.applyFunctionRules caller label args).ExtendedBy
      (definition.applyFunctionRules other label args) := by
  apply (firstApplicable_extendedBy hcaller _ _).bind
  intro choice
  cases choice with
  | none => exact .refl _
  | some found => exact buildRight_extendedBy hcaller found.1 found.2

omit hcaller in
/-- A call that is answered within some levels of nesting is answered alike within more of them. -/
theorem callWithin_extendedBy (definition : Definition) (limit limit' : Nat) {levels more : Nat}
    (hle : levels ≤ more) :
    Caller.ExtendedBy (definition.callWithin limit levels : Caller σ)
      (definition.callWithin limit' more) := by
  induction levels generalizing more with
  | zero =>
      intro label args
      exact .of_throw _ _
  | succ levels ih =>
      obtain ⟨more, rfl⟩ : ∃ fewer, more = fewer + 1 := ⟨more - 1, by omega⟩
      intro label args
      apply Run.ExtendedBy.bind_left
      intro _
      cases definition.hook? label with
      | none => exact applyFunctionRules_extendedBy (ih (by omega)) label args
      | some hook => exact .refl _

end Definition

namespace Machine

/-- The same machine with another limit on nested calls. -/
def withMaxDepth (machine : Machine σ) (limit : Nat) : Machine σ :=
  { machine with config := { machine.config with maxFunctionDepth := limit } }

section Steps

variable {machine : Machine σ} {limit : Nat}
  (hlimit : machine.config.maxFunctionDepth ≤ limit)
include hlimit

theorem call_extendedBy :
    Caller.ExtendedBy machine.call (machine.withMaxDepth limit).call :=
  machine.definition.callWithin_extendedBy _ limit hlimit

theorem evaluate_extendedBy (term : Term) :
    (machine.evaluate term).ExtendedBy ((machine.withMaxDepth limit).evaluate term) :=
  Definition.buildTerm_extendedBy (call_extendedBy hlimit) .empty .evaluate term

theorem fresh_extendedBy (sort : SortName) :
    (machine.fresh sort).ExtendedBy ((machine.withMaxDepth limit).fresh sort) :=
  Definition.freshValue_extendedBy (call_extendedBy hlimit) sort

theorem condition_extendedBy (rule : Rule) (subst : Substitution) :
    (machine.condition rule subst).ExtendedBy
      ((machine.withMaxDepth limit).condition rule subst) :=
  Definition.condition_extendedBy (call_extendedBy hlimit) rule subst

theorem applyRule_extendedBy (rule : Rule) (subst : Substitution) :
    (machine.applyRule rule subst).ExtendedBy
      ((machine.withMaxDepth limit).applyRule rule subst) :=
  Definition.buildRight_extendedBy (call_extendedBy hlimit) rule subst

omit hlimit in
theorem admitMatches_withMaxDepth (path : PathCondition) (founds : List StructuralMatch)
    (results : RuleMatches) :
    (machine.withMaxDepth limit).admitMatches path founds results =
      machine.admitMatches path founds results := by
  induction founds generalizing results with
  | nil => rfl
  | cons found founds ih =>
      simp only [admitMatches, ih]
      rfl

omit hlimit in
/-- Matching calls no function. -/
theorem matchRule_withMaxDepth (rule : Rule) (subject : Term) :
    (machine.withMaxDepth limit).matchRule rule subject = machine.matchRule rule subject := by
  unfold matchRule matchRuleUnder
  simp only [admitMatches_withMaxDepth]
  rfl

theorem stepByMatches_extendedBy (rule : Rule) (founds : List RuleMatch) :
    (machine.stepByMatches rule founds).ExtendedBy
      ((machine.withMaxDepth limit).stepByMatches rule founds) := by
  induction founds with
  | nil => exact .refl _
  | cons found founds ih =>
      unfold stepByMatches
      split
      · exact .refl _
      · apply (condition_extendedBy hlimit rule found.subst).bind
        intro condition
        cases condition with
        | holds => exact (applyRule_extendedBy hlimit rule found.subst).followed _
        | fails => exact ih
        | unsettled _ => exact .refl _

theorem stepByRules_extendedBy (subject : Term) (rules : List Rule) :
    (machine.stepByRules subject rules).ExtendedBy
      ((machine.withMaxDepth limit).stepByRules subject rules) := by
  induction rules with
  | nil => exact .refl _
  | cons rule rules ih =>
      unfold stepByRules
      rw [matchRule_withMaxDepth]
      apply Run.ExtendedBy.bind_left
      intro results
      apply (stepByMatches_extendedBy hlimit rule _).bind
      intro outcome
      cases outcome with
      | some result => exact .refl _
      | none =>
          dsimp only
          split
          · exact .refl _
          · exact ih

theorem step_extendedBy (subject : Term) :
    (machine.step subject).ExtendedBy ((machine.withMaxDepth limit).step subject) :=
  stepByRules_extendedBy hlimit subject _

theorem successorsByMatches_extendedBy (rule : Rule) (founds : List RuleMatch) :
    (machine.successorsByMatches rule founds).ExtendedBy
      ((machine.withMaxDepth limit).successorsByMatches rule founds) := by
  induction founds with
  | nil => exact .refl _
  | cons found founds ih =>
      unfold successorsByMatches
      split
      · exact ih
      · apply (condition_extendedBy hlimit rule found.subst).bind
        intro condition
        cases condition with
        | holds =>
            apply (applyRule_extendedBy hlimit rule found.subst).bind
            intro term
            exact ih.followed _
        | fails => exact ih
        | unsettled _ => exact ih

theorem successorsByRules_extendedBy (subject : Term) (rules : List Rule) :
    (machine.successorsByRules subject rules).ExtendedBy
      ((machine.withMaxDepth limit).successorsByRules subject rules) := by
  induction rules with
  | nil => exact .refl _
  | cons rule rules ih =>
      unfold successorsByRules
      rw [matchRule_withMaxDepth]
      apply Run.ExtendedBy.bind_left
      intro results
      apply (successorsByMatches_extendedBy hlimit rule _).bind
      intro first
      exact ih.followed _

theorem successors_extendedBy (subject : Term) :
    (machine.successors subject).ExtendedBy ((machine.withMaxDepth limit).successors subject) :=
  successorsByRules_extendedBy hlimit subject _

/-- Step by step, the two runs go through the same terms and states. -/
theorem runObserved_extendedBy (observe : α → RuleId → Term → α) (bound : Nat) (term : Term)
    (steps : Nat) (seen : α) :
    (machine.runObserved observe bound term steps seen).ExtendedBy
      ((machine.withMaxDepth limit).runObserved observe bound term steps seen) := by
  induction bound generalizing term steps seen with
  | zero => exact .refl _
  | succ bound ih =>
      apply (step_extendedBy hlimit term).bind
      intro result
      cases result with
      | rewrote rule next => exact ih next (steps + 1) (observe seen rule next)
      | stuck => exact .refl _
      | undecided => exact .refl _

theorem run_extendedBy (subject : Term) (bound : Option Nat) :
    (machine.run subject bound).ExtendedBy ((machine.withMaxDepth limit).run subject bound) :=
  (runObserved_extendedBy hlimit _ _ _ _ _).followed _

/-- Raising the limit on nested calls never changes a result: whatever succeeds under the lower limit
succeeds under the higher one from the same state, with the same result, and leaves the same counter,
the same next identity and the same measurements. -/
theorem higher_limit_extends :
    (∀ term, (machine.evaluate term).ExtendedBy ((machine.withMaxDepth limit).evaluate term)) ∧
    (∀ sort, (machine.fresh sort).ExtendedBy ((machine.withMaxDepth limit).fresh sort)) ∧
    (∀ rule subst, (machine.applyRule rule subst).ExtendedBy
      ((machine.withMaxDepth limit).applyRule rule subst)) ∧
    ∀ subject, (machine.step subject).ExtendedBy ((machine.withMaxDepth limit).step subject) ∧
      (machine.successors subject).ExtendedBy ((machine.withMaxDepth limit).successors subject) ∧
      ∀ bound, (machine.run subject bound).ExtendedBy
        ((machine.withMaxDepth limit).run subject bound) :=
  ⟨evaluate_extendedBy hlimit, fresh_extendedBy hlimit, applyRule_extendedBy hlimit,
    fun subject => ⟨step_extendedBy hlimit subject, successors_extendedBy hlimit subject,
      run_extendedBy hlimit subject⟩⟩

end Steps

end Machine

namespace Tickets

def requests : Variable := ⟨"X", Symbol.top, .plain⟩

def number : Variable := ⟨"N", Symbol.int, .plain⟩

def ticket : Variable := ⟨"T", "Ticket", .fresh⟩

/-- One ticket with a number of its own is issued for each request; the deepest call is that of the
generator for the last one. -/
def machine : Machine Unit where
  definition := .assemble
    [.symbol ⟨"issue", 1, Symbol.top, .function none⟩,
      .symbol ⟨"number", 1, "Ticket", .function none⟩,
      .generator "Ticket" "number",
      .rule { lhs := .app "issue" [.app "none" []], rhs := .app "none" [] },
      .rule
        { lhs := .app "issue" [.app "one" [.var requests]]
          rhs := .app "issued" [.var ticket, .app "issue" [.var requests]] },
      .rule { lhs := .app "number" [.var number], rhs := .app "ticket" [.var number] },
      .rule
        { lhs := .app "open" [.var requests], rhs := .app "served" [.app "issue" [.var requests]] }]
  oracle := DecisionProcedure.silent.toOracle Unit
  config := { maxFunctionDepth := 3 }

def two : Term := .app "open" [.app "one" [.app "one" [.app "none" []]]]

def served : Term :=
  .app "served" [.app "issued" [.app "ticket" [.int 0],
    .app "issued" [.app "ticket" [.int 1], .app "none" []]]]

/-- Three levels of nesting are enough for two requests, and 256 levels issue the same tickets. -/
theorem higher_limit_extends_two :
    machine.config.maxFunctionDepth ≤ 256 ∧ ∃ result next,
      machine.run two none { environment := () } = .ok result next ∧
      (result.term == served && result.reason == .fixpoint) = true ∧
      (machine.withMaxDepth 256).run two none { environment := () } = .ok result next := by
  have hle : machine.config.maxFunctionDepth ≤ 256 := by decide
  have hsucceeds : (machine.run two none).succeedsWith { environment := () }
      (fun result => result.term == served && result.reason == .fixpoint) = true := by
    decide +kernel
  obtain ⟨result, next, hrun, htest⟩ := Run.exists_of_succeedsWith hsucceeds
  obtain ⟨-, -, -, hsteps⟩ := Machine.higher_limit_extends hle
  exact ⟨hle, result, next, hrun, htest, (hsteps two).2.2 none _ _ _ hrun⟩

end Tickets

end SymbolicRewriting
