import SymbolicRewriting.Oracle.Silent
import SymbolicRewriting.Proofs.Compositional
import SymbolicRewriting.Proofs.Run

/-!
# Runs are iterated steps

A run takes one step after another, up to its bound. So a run that is stopped by its bound can be taken
up again: what it leaves behind is where the longer run would have been, and the steps add up. The one
thing that a new run does not know is that steps have been taken before.
-/

namespace SymbolicRewriting

variable {σ α β : Type}

namespace Run

/-- If the run succeeds, the counter of steps has grown as the value says. -/
def CountsSteps (run : Run σ α) (taken : α → Nat) : Prop :=
  ∀ start value next, run start = .ok value next →
    next.metrics.steps = start.metrics.steps + taken value

/-- The counter of steps stays as it is. -/
def TakesNone (run : Run σ α) : Prop :=
  run.CountsSteps fun _ => 0

theorem countsSteps_pure {value : α} {taken : α → Nat} (hnone : taken value = 0) :
    (pure value : Run σ α).CountsSteps taken := by
  intro start result next hrun
  obtain ⟨rfl, rfl⟩ := pure_eq_ok.1 hrun
  rw [hnone, Nat.add_zero]

theorem TakesNone.bind {run : Run σ α} {continuation : α → Run σ β} {taken : β → Nat}
    (hrun : run.TakesNone) (hcontinuation : ∀ value, (continuation value).CountsSteps taken) :
    (run >>= continuation).CountsSteps taken := by
  intro start result next hresult
  obtain ⟨value, between, hvalue, hresult⟩ := bind_eq_ok.1 hresult
  rw [hcontinuation value between result next hresult, hrun start value between hvalue,
    Nat.add_zero]

theorem takesNone_modifyGet {update : RunState σ → α × RunState σ}
    (hupdate : ∀ state, (update state).2.metrics.steps = state.metrics.steps) :
    (MonadStateOf.modifyGet update : Run σ α).TakesNone := by
  intro start value next hrun
  cases hrun
  exact hupdate start

/-- Nothing below a step counts steps. -/
theorem stepless_takesNone : Stepless fun _ (run : Run σ _) => run.TakesNone where
  of_pure _ := countsSteps_pure rfl
  of_throw _ := fun _ _ _ hrun => nomatch hrun
  bind := TakesNone.bind
  drawCell := takesNone_modifyGet fun _ => rfl
  drawToken := by
    intro start value next hrun
    cases hrun
    rfl
  record _ hupdate := takesNone_modifyGet fun state => (hupdate state.metrics).2
  ask _ := takesNone_modifyGet fun _ => rfl

end Run

/-- The steps that the result of a step counts for. -/
def StepResult.taken : StepResult → Nat
  | rewrote _ _ => 1
  | stuck => 0
  | undecided => 0

/-- What a run comes to if that many steps have been taken before it. -/
def RunResult.after (before : Nat) (result : RunResult) : RunResult where
  term := result.term
  steps := before + result.steps
  reason := if result.reason = .stuck ∧ 0 < before then .fixpoint else result.reason

namespace Machine

variable {machine : Machine σ}

theorem stepByMatches_countsSteps (machine : Machine σ) (rule : Rule) (founds : List RuleMatch) :
    (machine.stepByMatches rule founds).CountsSteps fun outcome =>
      (outcome.map StepResult.taken).getD 0 := by
  induction founds with
  | nil => exact Run.countsSteps_pure rfl
  | cons found others ih =>
      unfold stepByMatches
      split
      · exact Run.countsSteps_pure rfl
      · refine Run.TakesNone.bind (Run.stepless_takesNone.machineCondition machine rule found.subst)
          fun condition => ?_
        cases condition with
        | holds =>
            refine Run.TakesNone.bind (Run.stepless_takesNone.applyRule machine rule found.subst)
              fun term => ?_
            intro start outcome next hrun
            cases hrun
            rfl
        | fails => exact ih
        | unsettled _ => exact Run.countsSteps_pure rfl

theorem stepByRules_countsSteps (machine : Machine σ) (subject : Term) (rules : List Rule) :
    (machine.stepByRules subject rules).CountsSteps StepResult.taken := by
  induction rules with
  | nil => exact Run.countsSteps_pure rfl
  | cons rule rules ih =>
      refine Run.TakesNone.bind (Run.stepless_takesNone.matchRule machine rule subject)
        fun results => ?_
      intro start result next hrun
      obtain ⟨outcome, between, houtcome, hrest⟩ := Run.bind_eq_ok.1 hrun
      have hcounted := stepByMatches_countsSteps machine rule _ start outcome between houtcome
      cases outcome with
      | some found =>
          obtain ⟨rfl, rfl⟩ := Run.pure_eq_ok.1 hrest
          exact hcounted
      | none =>
          dsimp only at hrest
          split at hrest
          · obtain ⟨rfl, rfl⟩ := Run.pure_eq_ok.1 hrest
            exact hcounted
          · rw [ih between result next hrest, hcounted]
            rfl

theorem step_countsSteps (machine : Machine σ) (subject : Term) :
    (machine.step subject).CountsSteps StepResult.taken :=
  stepByRules_countsSteps machine subject _

/-! ### A run and its steps -/

/-- One step after another, with an entry for each. -/
inductive Steps (machine : Machine σ) :
    Term → RunState σ → List TraceStep → Term → RunState σ → Prop
  | refl (term : Term) (state : RunState σ) : Steps machine term state [] term state
  | step {term next last : Term} {start between final : RunState σ} {rule : RuleId}
      {trace : List TraceStep} (hstep : machine.step term start = .ok (.rewrote rule next) between)
      (hrest : Steps machine next between trace last final) :
      Steps machine term start (machine.traceStep rule next :: trace) last final

/-- Why a run ends with this term after so many steps. -/
inductive Halts (machine : Machine σ) (bound taken : Nat) (term : Term) (state : RunState σ) :
    HaltReason → RunState σ → Prop
  | bound (hreached : taken = bound) : Halts machine bound taken term state .boundExhausted state
  | fixpoint {next : RunState σ} (hleft : taken < bound) (htaken : 0 < taken)
      (hstep : machine.step term state = .ok .stuck next) :
      Halts machine bound taken term state .fixpoint next
  | stuck {next : RunState σ} (hleft : taken < bound) (htaken : taken = 0)
      (hstep : machine.step term state = .ok .stuck next) :
      Halts machine bound taken term state .stuck next
  | undecided {next : RunState σ} (hleft : taken < bound)
      (hstep : machine.step term state = .ok .undecided next) :
      Halts machine bound taken term state .undecided next

theorem Steps.steps_eq {term last : Term} {start final : RunState σ} {trace : List TraceStep}
    (hsteps : machine.Steps term start trace last final) :
    final.metrics.steps = start.metrics.steps + trace.length := by
  induction hsteps with
  | refl _ _ => rfl
  | step hstep _ ih =>
      rw [ih, step_countsSteps machine _ _ _ _ hstep, List.length_cons, StepResult.taken]
      omega

theorem Halts.steps_eq {bound taken : Nat} {term : Term} {state next : RunState σ}
    {reason : HaltReason} (hhalts : machine.Halts bound taken term state reason next) :
    next.metrics.steps = state.metrics.steps := by
  cases hhalts with
  | bound _ => rfl
  | fixpoint _ _ hstep | stuck _ _ hstep | undecided _ hstep =>
      exact step_countsSteps machine _ _ _ _ hstep

/-- A run that succeeds has taken its steps, has shown each of them, and halts. -/
theorem exists_steps {observe : α → RuleId → Term → α} {bound taken : Nat} {term : Term}
    {seen seen' : α} {start next : RunState σ} {result : RunResult}
    (hrun : machine.runObserved observe bound term taken seen start = .ok (result, seen') next) :
    ∃ trace state, machine.Steps term start trace result.term state ∧
      result.steps = taken + trace.length ∧
      seen' = trace.foldl (fun seen entry => observe seen entry.rule entry.term) seen ∧
      machine.Halts (taken + bound) result.steps result.term state result.reason next := by
  induction bound generalizing term taken seen start with
  | zero =>
      obtain ⟨heq, rfl⟩ := Run.pure_eq_ok.1 hrun
      cases heq
      exact ⟨[], start, .refl term start, rfl, rfl, .bound rfl⟩
  | succ bound ih =>
      obtain ⟨outcome, between, hstep, hrest⟩ := Run.bind_eq_ok.1 hrun
      cases outcome with
      | rewrote rule reached =>
          obtain ⟨trace, state, hsteps, htaken, hseen, hhalts⟩ := ih hrest
          refine ⟨machine.traceStep rule reached :: trace, state, .step hstep hsteps, ?_, hseen, ?_⟩
          · rw [htaken, List.length_cons]
            omega
          · rwa [Nat.add_right_comm, Nat.add_assoc] at hhalts
      | stuck =>
          obtain ⟨heq, rfl⟩ := Run.pure_eq_ok.1 hrest
          cases heq
          refine ⟨[], start, .refl term start, rfl, rfl, ?_⟩
          dsimp only
          split
          · rename_i htaken
            exact .fixpoint (by omega) htaken hstep
          · rename_i htaken
            exact .stuck (by omega) (Nat.eq_zero_of_not_pos htaken) hstep
      | undecided =>
          obtain ⟨heq, rfl⟩ := Run.pure_eq_ok.1 hrest
          cases heq
          have hleft : taken < taken + (bound + 1) := by omega
          exact ⟨[], start, .refl term start, rfl, rfl, .undecided hleft hstep⟩

/-! ### Taking a run up again -/

/-- The steps taken before show in the number of steps, and in that a stuck run is one no more. -/
theorem runObserved_after (machine : Machine σ) (observe : α → RuleId → Term → α) (before : Nat)
    (bound : Nat) (term : Term) (taken : Nat) (seen : α) :
    machine.runObserved observe bound term (before + taken) seen =
      (fun ended => (ended.1.after before, ended.2)) <$>
        machine.runObserved observe bound term taken seen := by
  induction bound generalizing term taken seen with
  | zero => simp [runObserved, RunResult.after]
  | succ bound ih =>
      rw [runObserved, runObserved, map_bind]
      refine congrArg (machine.step term >>= ·) (funext fun outcome => ?_)
      cases outcome with
      | rewrote rule next => exact ih next (taken + 1) _
      | stuck =>
          have hreason : (if before + taken > 0 then HaltReason.fixpoint else .stuck) =
              if (if taken > 0 then HaltReason.fixpoint else .stuck) = .stuck ∧ 0 < before then
                .fixpoint
              else if taken > 0 then .fixpoint else .stuck := by
            grind
          rw [map_pure, RunResult.after, hreason]
      | undecided => simp [RunResult.after]

theorem runObserved_add {observe : α → RuleId → Term → α} {bound taken : Nat} {term : Term}
    {seen seen' : α} {start between : RunState σ} {result : RunResult}
    (hrun : machine.runObserved observe bound term taken seen start = .ok (result, seen') between)
    (hreason : result.reason = .boundExhausted) (more : Nat) :
    result.steps = taken + bound ∧
    machine.runObserved observe (bound + more) term taken seen start =
      machine.runObserved observe more result.term result.steps seen' between := by
  induction bound generalizing term taken seen start with
  | zero =>
      obtain ⟨heq, rfl⟩ := Run.pure_eq_ok.1 hrun
      cases heq
      exact ⟨rfl, by rw [Nat.zero_add]⟩
  | succ bound ih =>
      obtain ⟨outcome, stepped, hstep, hrest⟩ := Run.bind_eq_ok.1 hrun
      cases outcome with
      | rewrote rule next =>
          obtain ⟨hsteps, hmore⟩ := ih hrest
          refine ⟨by omega, ?_⟩
          rw [Nat.add_right_comm, runObserved, Run.bind_of_ok hstep]
          exact hmore
      | stuck =>
          obtain ⟨heq, rfl⟩ := Run.pure_eq_ok.1 hrest
          cases heq
          dsimp only at hreason
          split at hreason <;> cases hreason
      | undecided =>
          obtain ⟨heq, rfl⟩ := Run.pure_eq_ok.1 hrest
          cases heq
          cases hreason

/-- What is observed of a run does not change how it goes. -/
theorem fst_runObserved (machine : Machine σ) (observe : α → RuleId → Term → α)
    (observe' : β → RuleId → Term → β) (bound : Nat) (term : Term) (taken : Nat) (seen : α)
    (seen' : β) :
    Prod.fst <$> machine.runObserved observe bound term taken seen =
      Prod.fst <$> machine.runObserved observe' bound term taken seen' := by
  induction bound generalizing term taken seen seen' with
  | zero => simp [runObserved]
  | succ bound ih =>
      rw [runObserved, runObserved, map_bind, map_bind]
      refine congrArg (machine.step term >>= ·) (funext fun outcome => ?_)
      cases outcome with
      | rewrote rule next => exact ih next (taken + 1) _ _
      | stuck | undecided => simp

theorem run_eq (machine : Machine σ) (subject : Term) (bound : Option Nat) :
    machine.run subject bound =
      Prod.fst <$> machine.runObserved (fun _ _ _ => ()) (bound.getD unbounded) subject 0 () := by
  rw [run, map_eq_pure_bind]

theorem runTraced_eq (machine : Machine σ) (subject : Term) (bound : Option Nat) :
    machine.runTraced subject bound =
      (fun ended => ⟨ended.1, ended.2.toList⟩) <$>
        machine.runObserved (fun trace rule term => trace.push (machine.traceStep rule term))
          (bound.getD unbounded) subject 0 #[] := by
  rw [runTraced, map_eq_pure_bind]

theorem run_eq_runTraced (machine : Machine σ) (subject : Term) (bound : Option Nat) :
    machine.run subject bound = TracedRun.result <$> machine.runTraced subject bound := by
  rw [run_eq, runTraced_eq, Functor.map_map]
  exact machine.fst_runObserved _ _ _ _ _ _ _

theorem run_add {subject : Term} {bound : Nat} {start between : RunState σ} {result : RunResult}
    (hrun : machine.run subject (some bound) start = .ok result between)
    (hreason : result.reason = .boundExhausted) (more : Nat) :
    result.steps = bound ∧ machine.run subject (some (bound + more)) start =
      (RunResult.after bound <$> machine.run result.term (some more)) between := by
  rw [run_eq, map_eq_pure_bind] at hrun
  obtain ⟨ended, reached, hended, hpure⟩ := Run.bind_eq_ok.1 hrun
  obtain ⟨rfl, rfl⟩ := Run.pure_eq_ok.1 hpure
  obtain ⟨htaken, hmore⟩ := runObserved_add hended hreason more
  rw [Nat.zero_add, Option.getD_some] at htaken
  refine ⟨htaken, ?_⟩
  have hafter := machine.runObserved_after (fun _ _ _ => ()) bound more ended.1.term 0 ()
  rw [Nat.add_zero] at hafter
  rw [htaken, hafter, Option.getD_some] at hmore
  rw [run_eq, run_eq, Option.getD_some, Option.getD_some, Run.map_congr hmore, Functor.map_map,
    Functor.map_map]

theorem Steps.getLast? {term last : Term} {start final : RunState σ} {trace : List TraceStep}
    (hsteps : machine.Steps term start trace last final) :
    (term :: trace.map TraceStep.term).getLast? = some last := by
  induction hsteps with
  | refl _ _ => rfl
  | step _ _ ih => rw [List.map_cons, List.getLast?_cons_cons]; exact ih

theorem Steps.toList_foldl {term last : Term} {start final : RunState σ} {trace : List TraceStep}
    (hsteps : machine.Steps term start trace last final) (seen : Array TraceStep) :
    (trace.foldl (fun seen entry => seen.push (machine.traceStep entry.rule entry.term)) seen).toList =
      seen.toList ++ trace := by
  induction hsteps generalizing seen with
  | refl _ _ => simp
  | step _ _ ih =>
      rw [List.foldl_cons, ih, Array.toList_push, List.append_assoc]
      rfl

theorem exists_steps_of_runTraced {subject : Term} {bound : Option Nat} {start next : RunState σ}
    {traced : TracedRun} (hrun : machine.runTraced subject bound start = .ok traced next) :
    ∃ state, machine.Steps subject start traced.trace traced.result.term state ∧
      traced.trace.length = traced.result.steps ∧
      machine.Halts (bound.getD unbounded) traced.result.steps traced.result.term state
        traced.result.reason next := by
  rw [runTraced_eq, map_eq_pure_bind] at hrun
  obtain ⟨ended, between, hended, hpure⟩ := Run.bind_eq_ok.1 hrun
  obtain ⟨rfl, rfl⟩ := Run.pure_eq_ok.1 hpure
  obtain ⟨trace, state, hsteps, htaken, hseen, hhalts⟩ := exists_steps hended
  have htrace : ended.2.toList = trace := by
    rw [hseen, hsteps.toList_foldl]
    rfl
  rw [Nat.zero_add] at htaken hhalts
  dsimp only
  rw [htrace]
  exact ⟨state, hsteps, htaken.symm, hhalts⟩

/-- A bounded run can be taken up again where it was stopped, to the same end and with the same state as
the longer run. A traced run is the same run, and its trace is the steps that the run has taken. -/
theorem runs_add_up (machine : Machine σ) (subject : Term) (start : RunState σ) :
    (∀ first second reached taken between,
      machine.run subject (some first) start = .ok ⟨reached, taken, .boundExhausted⟩ between →
        taken = first ∧
        (∀ result final, machine.run reached (some second) between = .ok result final →
          machine.run subject (some (first + second)) start = .ok ⟨result.term,
            first + result.steps,
            if result.reason = .stuck ∧ 0 < first then .fixpoint else result.reason⟩ final) ∧
        ∀ error final, machine.run reached (some second) between = .error error final →
          machine.run subject (some (first + second)) start = .error error final) ∧
    ∀ bound,
      machine.run subject bound start =
        (TracedRun.result <$> machine.runTraced subject bound) start ∧
      ∀ traced next, machine.runTraced subject bound start = .ok traced next →
        traced.trace.length = traced.result.steps ∧
        (subject :: traced.trace.map TraceStep.term).getLast? = some traced.result.term ∧
        (∃ state, machine.Steps subject start traced.trace traced.result.term state ∧
          machine.Halts (bound.getD unbounded) traced.result.steps traced.result.term state
            traced.result.reason next) ∧
        next.metrics.steps = start.metrics.steps + traced.result.steps := by
  constructor
  · intro first second reached taken between hrun
    obtain ⟨rfl, hmore⟩ := run_add hrun rfl second
    refine ⟨rfl, fun result final hresult => ?_, fun error final herror => ?_⟩
    · rw [hmore, Run.map_eq_ok hresult]
      rfl
    · rw [hmore, Run.map_eq_error herror]
  · intro bound
    refine ⟨congrFun (machine.run_eq_runTraced subject bound) start, fun traced next hrun => ?_⟩
    obtain ⟨state, hsteps, hlength, hhalts⟩ := exists_steps_of_runTraced hrun
    refine ⟨hlength, hsteps.getLast?, ⟨state, hsteps, hhalts⟩, ?_⟩
    rw [hhalts.steps_eq, hsteps.steps_eq, hlength]

end Machine

namespace Countdown

def remaining : Variable := ⟨"N", Symbol.top, .plain⟩

/-- One is taken off in each step. -/
def machine : Machine Unit where
  definition := .assemble
    [.rule
      { lhs := .app "count" [.app "next" [.var remaining]], rhs := .app "count" [.var remaining] }]
  oracle := DecisionProcedure.silent.toOracle Unit

def two : Term := .app "count" [.app "next" [.app "next" [.app "zero" []]]]

/-- The bound is the number of possible steps: taken up again the run is stuck, and the longer run has
reached a fixpoint. -/
theorem runs_add_up_countdown : ∃ first second between final,
    machine.run two (some 2) { environment := () } = .ok first between ∧
    first.reason = .boundExhausted ∧ first.steps = 2 ∧
    machine.run first.term (some 3) between = .ok second final ∧
    second.reason = .stuck ∧
    machine.run two (some 5) { environment := () } =
      .ok ⟨second.term, 2 + second.steps, .fixpoint⟩ final := by
  have hsucceeds : (do
      let first ← machine.run two (some 2)
      let second ← machine.run first.term (some 3)
      pure (first, second) : Run Unit _).succeedsWith { environment := () }
        (fun runs => runs.1.reason == .boundExhausted && runs.2.reason == .stuck) = true := by
    decide +kernel
  obtain ⟨_, last, hruns, htest⟩ := Run.exists_of_succeedsWith hsucceeds
  obtain ⟨⟨reached, taken, reason⟩, between, hfirst, hruns⟩ := Run.bind_eq_ok.1 hruns
  obtain ⟨second, final, hsecond, hpure⟩ := Run.bind_eq_ok.1 hruns
  obtain ⟨rfl, rfl⟩ := Run.pure_eq_ok.1 hpure
  obtain ⟨hbound, hstuck⟩ := Bool.and_eq_true_iff.1 htest
  obtain rfl := eq_of_beq hbound
  replace hstuck : second.reason = .stuck := eq_of_beq hstuck
  obtain ⟨hadds, -⟩ := machine.runs_add_up two { environment := () }
  obtain ⟨htaken, hmore, -⟩ := hadds 2 3 _ _ _ hfirst
  have hlonger := hmore second _ hsecond
  rw [if_pos ⟨hstuck, by decide⟩] at hlonger
  exact ⟨_, second, between, _, hfirst, rfl, htaken, hsecond, hstuck, hlonger⟩

end Countdown

end SymbolicRewriting
