import SymbolicRewriting.Proofs.NestingLimits
import SymbolicRewriting.Proofs.Choices
import SymbolicRewriting.Proofs.SharedContexts

/-!
# The recursion of calls

A call is answered by rules that call functions again, one level deeper, and nothing in the rules keeps them
from doing so forever. What ends the recursion is the limit on its depth alone. Here the depth is counted up
from the outermost call, and `Machine.unfoldCalls` unfolds the recursion any number of times and leaves what
lies deeper to an arbitrary caller. Unfolded more often than the limit it never gets there
(`Machine.unfoldCalls_eq_call`), and a call that is refused stands exactly as deep as the limit.

The second part says which errors there are. They are raised for a sort without a generator and for a call
at the limit, and all that the operations do is to pass them on.
-/

namespace SymbolicRewriting

variable {σ α β : Type}

/-! ### Unfolding -/

namespace Machine

variable {machine : Machine σ}

/-- Answers a call at the given depth. The rules of the function leave their own calls to `deeper`. -/
def answerAt (machine : Machine σ) (deeper : Caller σ) (depth : Nat) : Caller σ :=
  fun label args =>
    if machine.config.maxFunctionDepth ≤ depth then throw (.functionDepthExceeded label depth)
    else do
      Run.record Metrics.recordFunctionEval
      match machine.definition.hook? label with
      | some hook => pure ((hook.apply args).getD (.app label args))
      | none => machine.definition.applyFunctionRules deeper label args

/-- The recursion of calls from the given depth on, unfolded so many times. -/
def unfoldCalls (machine : Machine σ) (beyond : Nat → Caller σ) : Nat → Nat → Caller σ
  | 0, depth => beyond depth
  | times + 1, depth => machine.answerAt (machine.unfoldCalls beyond times (depth + 1)) depth

theorem answerAt_limit (deeper : Caller σ) :
    machine.answerAt deeper machine.config.maxFunctionDepth =
      machine.definition.callWithin machine.config.maxFunctionDepth 0 := by
  funext label args
  rw [answerAt, if_pos (Nat.le_refl _), Definition.callWithin]

theorem answerAt_callWithin {depth levels : Nat}
    (hlevels : depth + levels + 1 = machine.config.maxFunctionDepth) :
    machine.answerAt (machine.definition.callWithin machine.config.maxFunctionDepth levels) depth =
      machine.definition.callWithin machine.config.maxFunctionDepth (levels + 1) := by
  have hdepth : ¬machine.config.maxFunctionDepth ≤ depth := by omega
  funext label args
  rw [answerAt, if_neg hdepth]
  exact (machine.definition.callWithin_succ _ levels label args).symm

/-- By induction on the number of unfoldings: a call is either refused at the limit or answered with what
the calls one level deeper come to. -/
theorem unfoldCalls_eq (beyond : Nat → Caller σ) {times depth levels : Nat}
    (hlevels : depth + levels = machine.config.maxFunctionDepth) (htimes : levels < times) :
    machine.unfoldCalls beyond times depth =
      machine.definition.callWithin machine.config.maxFunctionDepth levels := by
  induction times generalizing depth levels with
  | zero => omega
  | succ times ih =>
      rw [unfoldCalls]
      cases levels with
      | zero =>
          obtain rfl : depth = machine.config.maxFunctionDepth := by omega
          exact answerAt_limit _
      | succ levels =>
          have hdeeper : machine.unfoldCalls beyond times (depth + 1) =
              machine.definition.callWithin machine.config.maxFunctionDepth levels :=
            ih (by omega) (by omega)
          rw [hdeeper]
          exact answerAt_callWithin (by omega)

theorem unfoldCalls_eq_call (beyond : Nat → Caller σ) {times : Nat}
    (htimes : machine.config.maxFunctionDepth < times) :
    machine.unfoldCalls beyond times 0 = machine.call :=
  unfoldCalls_eq beyond (Nat.zero_add _) htimes

end Machine

/-! ### Errors -/

/-- From whatever state it starts, a run ends in no error but the given ones. -/
def Run.RaisesOnly (allowed : RewriteError → Prop) (run : Run σ α) : Prop :=
  ∀ start error next, run start = .error error next → allowed error

namespace Run

variable {allowed : RewriteError → Prop}

theorem raisesOnly_pure (value : α) : RaisesOnly allowed (pure value : Run σ α) := by
  rintro start error next ⟨⟩

theorem raisesOnly_throw {error : RewriteError} (hallowed : allowed error) :
    RaisesOnly allowed (throw error : Run σ α) := by
  rintro start _ next ⟨⟩
  exact hallowed

/-- Drawing, counting and asking cannot fail. -/
theorem raisesOnly_modifyGet (action : RunState σ → α × RunState σ) :
    RaisesOnly allowed (modifyGet action : Run σ α) := by
  rintro start error next ⟨⟩

theorem raisesOnly_record (update : Metrics → Metrics) :
    RaisesOnly allowed (record update : Run σ Unit) := by
  rintro start error next ⟨⟩

theorem RaisesOnly.bind {run : Run σ α} {continuation : α → Run σ β} (hfirst : run.RaisesOnly allowed)
    (hsecond : ∀ value, (continuation value).RaisesOnly allowed) :
    (run >>= continuation).RaisesOnly allowed := by
  intro start error next hrun
  rcases bind_eq_error.1 hrun with hfailed | ⟨value, between, -, hfailed⟩
  · exact hfirst start error next hfailed
  · exact hsecond value between error next hfailed

/-- Does the run end in the error? -/
def failsWith (run : Run σ α) (start : RunState σ) (expected : RewriteError) : Bool :=
  match run start with
  | .ok _ _ => false
  | .error error _ => error == expected

end Run

namespace Definition

variable {definition : Definition} {allowed : RewriteError → Prop} {call : Caller σ}
  {subst : Substitution} {mode : BuildMode}

theorem raisesOnly_buildTerms {terms : List Term}
    (hterms : ∀ term ∈ terms, (definition.buildTerm call subst mode term).RaisesOnly allowed) :
    (definition.buildTerms call subst mode terms).RaisesOnly allowed := by
  induction terms with
  | nil => exact Run.raisesOnly_pure []
  | cons term terms ih =>
      obtain ⟨hfirst, hothers⟩ := List.forall_mem_cons.1 hterms
      exact hfirst.bind fun _ => (ih hothers).bind fun _ => Run.raisesOnly_pure _

theorem raisesOnly_buildCells {cells : List (Cell Term)}
    (hcells : ∀ cell ∈ cells,
      (definition.buildTerm call subst mode cell.content).RaisesOnly allowed) :
    (definition.buildCells call subst mode cells).RaisesOnly allowed := by
  induction cells with
  | nil => exact Run.raisesOnly_pure []
  | cons cell cells ih =>
      obtain ⟨hfirst, hothers⟩ := List.forall_mem_cons.1 hcells
      refine hfirst.bind fun _ => Run.RaisesOnly.bind ?_ fun _ =>
        (ih hothers).bind fun _ => Run.raisesOnly_pure _
      unfold BuildMode.cellId
      split
      · exact Run.raisesOnly_pure _
      · split
        · exact Run.raisesOnly_pure _
        · exact Run.raisesOnly_modifyGet _

variable (hcall : ∀ label args, definition.isFunction label = true →
  (call label args).RaisesOnly allowed)
include hcall

/-- Only functions are called. -/
theorem raisesOnly_buildTerm (subst : Substitution) (mode : BuildMode) (term : Term) :
    (definition.buildTerm call subst mode term).RaisesOnly allowed := by
  induction term using Term.nestedInduction with
  | token sort value => exact Run.raisesOnly_pure _
  | var v => exact Run.raisesOnly_pure _
  | app label args ih =>
      refine (raisesOnly_buildTerms ih).bind fun built => ?_
      split
      · rename_i hfunction
        exact hcall label built hfunction
      · exact Run.raisesOnly_pure _
  | sequence op items ih => exact (raisesOnly_buildTerms ih).bind fun _ => Run.raisesOnly_pure _
  | collection cells frame ih =>
      exact (raisesOnly_buildCells ih).bind fun _ => Run.raisesOnly_pure _

theorem raisesOnly_condition (rule : Rule) (subst : Substitution) :
    (definition.condition call rule subst).RaisesOnly allowed := by
  unfold condition
  split
  · exact Run.raisesOnly_pure _
  · refine (raisesOnly_buildTerm hcall subst .evaluate _).bind fun proposition => ?_
    split <;> exact Run.raisesOnly_pure _

theorem raisesOnly_firstHolding (rule : Rule) (substs : List Substitution) :
    (definition.firstHolding call rule substs).RaisesOnly allowed := by
  induction substs with
  | nil => exact Run.raisesOnly_pure none
  | cons subst substs ih =>
      refine (raisesOnly_condition hcall rule subst).bind fun condition => ?_
      cases condition with
      | holds => exact Run.raisesOnly_pure _
      | fails | unsettled _ => exact ih

theorem raisesOnly_firstApplicable (subject : Term) (rules : List Rule) :
    (definition.firstApplicable call subject rules).RaisesOnly allowed := by
  induction rules with
  | nil => exact Run.raisesOnly_pure none
  | cons rule rules ih =>
      refine (raisesOnly_firstHolding hcall rule _).bind fun found => ?_
      cases found with
      | none => exact ih
      | some subst => exact Run.raisesOnly_pure _

variable (hfresh : ∀ sort, definition.generator? sort = none →
  allowed (.unconfiguredFreshFunction sort))
include hfresh

theorem raisesOnly_freshValue (sort : SortName) :
    (definition.freshValue call sort).RaisesOnly allowed := by
  unfold freshValue
  split
  · rename_i hnone
    exact Run.raisesOnly_throw (hfresh sort hnone)
  · exact (Run.raisesOnly_modifyGet _).bind fun _ => (Run.raisesOnly_record _).bind fun _ =>
      raisesOnly_buildTerm hcall .empty .evaluate _

theorem raisesOnly_bindFreshVars (vars : List Variable) (subst : Substitution) :
    (definition.bindFreshVars call vars subst).RaisesOnly allowed := by
  induction vars generalizing subst with
  | nil => exact Run.raisesOnly_pure subst
  | cons v vars ih =>
      unfold bindFreshVars
      split
      · exact ih subst
      · exact (raisesOnly_freshValue hcall hfresh v.sort).bind fun _ => ih _

theorem raisesOnly_buildRight (rule : Rule) (subst : Substitution) :
    (definition.buildRight call rule subst).RaisesOnly allowed :=
  (raisesOnly_bindFreshVars hcall hfresh rule.freshVars subst).bind fun extended =>
    raisesOnly_buildTerm hcall extended .instantiate rule.rhs

theorem raisesOnly_applyFunctionRules (label : Label) (args : List Term) :
    (definition.applyFunctionRules call label args).RaisesOnly allowed := by
  refine (raisesOnly_firstApplicable hcall _ _).bind fun choice => ?_
  cases choice with
  | none => exact Run.raisesOnly_pure _
  | some found => exact raisesOnly_buildRight hcall hfresh found.1 found.2

end Definition

namespace Machine

variable (machine : Machine σ)

/-- A sort without a generator has no fresh value, and a function is not called deeper than the limit. -/
def MayRaise (machine : Machine σ) : RewriteError → Prop
  | .unconfiguredFreshFunction sort => machine.definition.generator? sort = none
  | .functionDepthExceeded label depth =>
      machine.definition.isFunction label = true ∧ depth = machine.config.maxFunctionDepth
  | .malformedTerm _ _ _ => False
  | .unknownSymbol _ => False

theorem raisesOnly_callWithin (levels : Nat) (label : Label) (args : List Term)
    (hfunction : machine.definition.isFunction label = true) :
    (machine.definition.callWithin machine.config.maxFunctionDepth levels label args :
      Run σ Term).RaisesOnly machine.MayRaise := by
  induction levels generalizing label args with
  | zero => exact Run.raisesOnly_throw ⟨hfunction, rfl⟩
  | succ levels ih =>
      rw [Definition.callWithin_succ]
      refine (Run.raisesOnly_record _).bind fun _ => ?_
      cases machine.definition.hook? label with
      | some hook => exact Run.raisesOnly_pure _
      | none =>
          exact Definition.raisesOnly_applyFunctionRules ih (fun _ hnone => hnone) label args

theorem raisesOnly_evaluate (term : Term) : (machine.evaluate term).RaisesOnly machine.MayRaise :=
  Definition.raisesOnly_buildTerm (machine.raisesOnly_callWithin _) .empty .evaluate term

theorem raisesOnly_fresh (sort : SortName) : (machine.fresh sort).RaisesOnly machine.MayRaise :=
  Definition.raisesOnly_freshValue (machine.raisesOnly_callWithin _) (fun _ hnone => hnone) sort

theorem raisesOnly_applyRule (rule : Rule) (subst : Substitution) :
    (machine.applyRule rule subst).RaisesOnly machine.MayRaise :=
  Definition.raisesOnly_buildRight (machine.raisesOnly_callWithin _) (fun _ hnone => hnone) rule subst

theorem raisesOnly_machineCondition (rule : Rule) (subst : Substitution) :
    (machine.condition rule subst).RaisesOnly machine.MayRaise :=
  Definition.raisesOnly_condition (machine.raisesOnly_callWithin _) rule subst

/-! Matching and asking the oracle cannot fail. -/

variable {allowed : RewriteError → Prop}

theorem raisesOnly_admitMatches (path : PathCondition) (founds : List StructuralMatch)
    (results : RuleMatches) : (machine.admitMatches path founds results).RaisesOnly allowed := by
  induction founds generalizing results with
  | nil => exact Run.raisesOnly_pure results
  | cons found others ih =>
      unfold admitMatches
      split
      · exact ih _
      · refine (Run.raisesOnly_record _).bind fun _ =>
          (Run.raisesOnly_modifyGet _).bind fun refinement => ?_
        cases refinement with
        | refined _ | unsat | unknown => exact ih _

theorem raisesOnly_matchRuleUnder (rule : Rule) (subject : Term) (path : PathCondition) :
    (machine.matchRuleUnder rule subject path).RaisesOnly allowed := by
  refine (Run.raisesOnly_record _).bind fun _ => (Run.raisesOnly_record _).bind fun _ =>
    (machine.raisesOnly_admitMatches path _ _).bind fun results => Run.RaisesOnly.bind ?_ fun _ =>
      Run.raisesOnly_pure results
  unfold recordOutcome
  split
  · exact Run.raisesOnly_pure ()
  · exact Run.raisesOnly_record _
  · exact Run.raisesOnly_record _

theorem raisesOnly_stepByMatches (rule : Rule) (founds : List RuleMatch) :
    (machine.stepByMatches rule founds).RaisesOnly machine.MayRaise := by
  induction founds with
  | nil => exact Run.raisesOnly_pure none
  | cons found others ih =>
      unfold stepByMatches
      split
      · exact Run.raisesOnly_pure _
      · refine (machine.raisesOnly_machineCondition rule found.subst).bind fun condition => ?_
        cases condition with
        | holds =>
            exact (machine.raisesOnly_applyRule rule found.subst).bind fun _ =>
              (Run.raisesOnly_record _).bind fun _ => Run.raisesOnly_pure _
        | fails => exact ih
        | unsettled _ => exact Run.raisesOnly_pure _

theorem raisesOnly_stepByRules (subject : Term) (rules : List Rule) :
    (machine.stepByRules subject rules).RaisesOnly machine.MayRaise := by
  induction rules with
  | nil => exact Run.raisesOnly_pure StepResult.stuck
  | cons rule rules ih =>
      refine (machine.raisesOnly_matchRuleUnder rule subject .trivial).bind fun results =>
        (machine.raisesOnly_stepByMatches rule _).bind fun outcome => ?_
      cases outcome with
      | some result => exact Run.raisesOnly_pure result
      | none =>
          dsimp only
          split
          · exact Run.raisesOnly_pure _
          · exact ih

theorem raisesOnly_successorsByMatches (rule : Rule) (founds : List RuleMatch) :
    (machine.successorsByMatches rule founds).RaisesOnly machine.MayRaise := by
  induction founds with
  | nil => exact Run.raisesOnly_pure []
  | cons found others ih =>
      unfold successorsByMatches
      split
      · exact ih
      · refine (machine.raisesOnly_machineCondition rule found.subst).bind fun condition => ?_
        cases condition with
        | holds =>
            exact (machine.raisesOnly_applyRule rule found.subst).bind fun _ =>
              ih.bind fun _ => Run.raisesOnly_pure _
        | fails | unsettled _ => exact ih

theorem raisesOnly_successorsByRules (subject : Term) (rules : List Rule) :
    (machine.successorsByRules subject rules).RaisesOnly machine.MayRaise := by
  induction rules with
  | nil => exact Run.raisesOnly_pure []
  | cons rule rules ih =>
      exact (machine.raisesOnly_matchRuleUnder rule subject .trivial).bind fun results =>
        (machine.raisesOnly_successorsByMatches rule _).bind fun _ =>
          ih.bind fun _ => Run.raisesOnly_pure _

theorem raisesOnly_takeMatch (state : ConstrainedTerm) (rule : Rule) (subst : Substitution)
    (guard : PathCondition) :
    (machine.takeMatch state rule subst guard).RaisesOnly machine.MayRaise :=
  (machine.raisesOnly_applyRule rule subst).bind fun _ =>
    (Run.raisesOnly_record _).bind fun _ => Run.raisesOnly_pure _

theorem raisesOnly_symbolicMatch (state : ConstrainedTerm) (rule : Rule) (found : RuleMatch) :
    (machine.symbolicMatch state rule found).RaisesOnly machine.MayRaise := by
  refine (machine.raisesOnly_machineCondition rule found.subst).bind fun condition => ?_
  cases condition with
  | holds => exact machine.raisesOnly_takeMatch state rule _ _
  | fails => exact Run.raisesOnly_pure _
  | unsettled proposition =>
      refine (Run.raisesOnly_record _).bind fun _ =>
        (Run.raisesOnly_modifyGet _).bind fun decision => ?_
      cases decision with
      | holds => exact machine.raisesOnly_takeMatch state rule _ _
      | fails => exact Run.raisesOnly_pure _
      | unknown =>
          dsimp only
          split
          · exact machine.raisesOnly_takeMatch state rule _ _
          · exact Run.raisesOnly_pure _

theorem raisesOnly_symbolicMatches (state : ConstrainedTerm) (rule : Rule) (founds : List RuleMatch)
    (guarded : Guarded) :
    (machine.symbolicMatches state rule founds guarded).RaisesOnly machine.MayRaise := by
  induction founds generalizing guarded with
  | nil => exact Run.raisesOnly_pure guarded
  | cons found others ih =>
      exact (machine.raisesOnly_symbolicMatch state rule found).bind fun _ => ih _

theorem raisesOnly_symbolicRules (state : ConstrainedTerm) (rules : List Rule) (guarded : Guarded) :
    (machine.symbolicRules state rules guarded).RaisesOnly machine.MayRaise := by
  induction rules generalizing guarded with
  | nil => exact Run.raisesOnly_pure guarded
  | cons rule rules ih =>
      exact (machine.raisesOnly_matchRuleUnder rule _ _).bind fun _ =>
        (machine.raisesOnly_symbolicMatches state rule _ _).bind fun _ => ih _

theorem raisesOnly_completeStep (state : ConstrainedTerm) (guarded : Guarded) :
    (machine.completeStep state guarded).RaisesOnly allowed := by
  unfold completeStep
  dsimp only
  split
  · refine (Run.raisesOnly_record _).bind fun _ =>
      (Run.raisesOnly_modifyGet _).bind fun refinement => ?_
    cases refinement with
    | unsat => exact Run.raisesOnly_pure _
    | refined _ | unknown =>
        dsimp only
        split <;> exact Run.raisesOnly_pure _
  · exact Run.raisesOnly_pure _

theorem raisesOnly_stepSymbolic (state : ConstrainedTerm) :
    (machine.stepSymbolic state).RaisesOnly machine.MayRaise :=
  (machine.raisesOnly_symbolicRules state _ {}).bind fun _ =>
    machine.raisesOnly_completeStep state _

end Machine

/-- The run does finitely many things one after another, whatever it is answered, and ends with a value or
with an error: for want of a generator or at the limit on the depth of calls. -/
structure Run.EndsOn (machine : Machine σ) (run : Run σ α) : Prop where
  scripted : run.Scripted
  outcome : ∀ start, (∃ value next, run start = .ok value next) ∨
    (∃ sort next, run start = .error (.unconfiguredFreshFunction sort) next ∧
      machine.definition.generator? sort = none) ∨
    ∃ label next,
      run start = .error (.functionDepthExceeded label machine.config.maxFunctionDepth) next ∧
        machine.definition.isFunction label = true

theorem Run.RaisesOnly.endsOn {machine : Machine σ} {run : Run σ α} (hscripted : run.Scripted)
    (hrun : run.RaisesOnly machine.MayRaise) : run.EndsOn machine := by
  refine ⟨hscripted, fun start => ?_⟩
  cases houtcome : run start with
  | ok value next => exact .inl ⟨value, next, rfl⟩
  | error error next =>
      have hraised := hrun start error next houtcome
      cases error with
      | unconfiguredFreshFunction sort => exact .inr (.inl ⟨sort, next, rfl, hraised⟩)
      | functionDepthExceeded label depth =>
          obtain ⟨hfunction, rfl⟩ := hraised
          exact .inr (.inr ⟨label, next, rfl, hfunction⟩)
      | malformedTerm _ _ _ | unknownSymbol _ => exact hraised.elim

namespace Machine

/-- Whatever the rules of a definition call, the recursion of calls ends at the limit on their depth: it is
the same however calls beyond the limit would be answered. So evaluation, fresh values, right sides and steps
of every kind come to an end from every state, and if they end in an error, a generator is missing or a call
has reached the limit. -/
theorem evaluation_ends (machine : Machine σ) :
    (∀ (beyond : Nat → Caller σ) (times : Nat), machine.config.maxFunctionDepth < times →
      machine.unfoldCalls beyond times 0 = machine.call) ∧
    (∀ term, (machine.evaluate term).EndsOn machine) ∧
    (∀ sort, (machine.fresh sort).EndsOn machine) ∧
    (∀ rule subst, (machine.applyRule rule subst).EndsOn machine) ∧
    (∀ subject, (machine.step subject).EndsOn machine ∧ (machine.successors subject).EndsOn machine) ∧
    ∀ state, (machine.stepSymbolic state).EndsOn machine := by
  have hscripted := Run.compositional_scripted (σ := σ)
  refine ⟨fun beyond _ => unfoldCalls_eq_call beyond, fun term => ?_, fun sort => ?_,
    fun rule subst => ?_, fun subject => ⟨?_, ?_⟩, fun state => ?_⟩
  · exact (machine.raisesOnly_evaluate term).endsOn (hscripted.evaluate machine term)
  · exact (machine.raisesOnly_fresh sort).endsOn (hscripted.fresh machine sort)
  · exact (machine.raisesOnly_applyRule rule subst).endsOn (hscripted.applyRule machine rule subst)
  · exact (machine.raisesOnly_stepByRules subject _).endsOn (hscripted.step machine subject)
  · exact (machine.raisesOnly_successorsByRules subject _).endsOn (hscripted.successors machine subject)
  · exact (machine.raisesOnly_stepSymbolic state).endsOn (hscripted.stepSymbolic machine state)

end Machine

namespace Errands

/-- An errand ends only after another one. -/
def machine : Machine Unit where
  definition := .assemble
    [.symbol ⟨"errand", 1, Symbol.top, .function none⟩,
      .rule { lhs := .app "errand" [.var ⟨"X", Symbol.top, .plain⟩]
              rhs := .app "after" [.app "errand" [.app "next" [.var ⟨"X", Symbol.top, .plain⟩]]] }]
  oracle := DecisionProcedure.silent.toOracle Unit
  config := { maxFunctionDepth := 2 }

/-- Two errands are run, and the third one is refused. -/
theorem evaluation_ends_errand :
    machine.config.maxFunctionDepth < 3 ∧
      machine.unfoldCalls (fun _ label args => pure (.app label args)) 3 0 = machine.call ∧
      (machine.evaluate (.app "errand" [.int 0])).EndsOn machine ∧
      (machine.evaluate (.app "errand" [.int 0])).failsWith { environment := () }
        (.functionDepthExceeded "errand" 2) = true := by
  obtain ⟨hcalls, hevaluate, -⟩ := Machine.evaluation_ends machine
  exact ⟨by decide, hcalls _ 3 (by decide), hevaluate _, by decide +kernel⟩

end Errands

end SymbolicRewriting
