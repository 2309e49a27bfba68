import SymbolicRewriting.Oracle.Silent
import SymbolicRewriting.Oracle.Table
import SymbolicRewriting.Proofs.Coverage
import SymbolicRewriting.Proofs.FlatSequences
import SymbolicRewriting.Proofs.MatchedVariables
import SymbolicRewriting.Proofs.RuleIndexing

/-!
# Flat results

What a machine computes from flattened terms by flattened rules is flattened again: values, answers of
calls, results of steps and runs, and the successors and the remainder of a symbolic step together with
their conditions. Hooks have their part in this, and in a symbolic step the oracle, since it may specialise
what a match has bound.
-/

namespace SymbolicRewriting

variable {σ : Type}

/-- What is bound is flattened after the oracle has specialised it, if it was so before. -/
def Oracle.KeepsFlat (oracle : Oracle σ) : Prop :=
  ∀ {subst refined : Substitution} {path : PathCondition} {asked answered : σ}, subst.Flattened →
    path.Flattened → oracle.refine subst path asked = (.refined refined, answered) → refined.Flattened

namespace DecisionProcedure

theorem keepsFlat_of_refine {procedure : DecisionProcedure}
    (hrefine : ∀ subst refined path, procedure.refine subst path = .refined refined →
      subst.Flattened → refined.Flattened) (σ : Type) : (procedure.toOracle σ).KeepsFlat :=
  fun hsubst _ hanswer => hrefine _ _ _ (congrArg Prod.fst hanswer) hsubst

theorem keepsFlat_syntactic (σ : Type) : (syntactic.toOracle σ).KeepsFlat := by
  refine keepsFlat_of_refine (fun subst refined path hrefine hsubst => ?_) σ
  change syntacticRefine subst path = _ at hrefine
  unfold syntacticRefine at hrefine
  split at hrefine
  · cases hrefine
  · cases hrefine
    exact hsubst

theorem keepsFlat_silent (σ : Type) : (silent.toOracle σ).KeepsFlat := by
  refine keepsFlat_of_refine (fun subst refined path hrefine hsubst => ?_) σ
  change silentRefine subst path = _ at hrefine
  unfold silentRefine at hrefine
  split at hrefine
  · cases hrefine
    exact hsubst
  · split at hrefine <;> cases hrefine

end DecisionProcedure

/-- A table that specialises by flattened terms. -/
theorem OracleTable.keepsFlat {table : OracleTable} (htable : table.specialise.Flattened) (σ : Type) :
    (table.procedure.toOracle σ).KeepsFlat := by
  refine DecisionProcedure.keepsFlat_of_refine (fun subst refined path hrefine hsubst => ?_) σ
  change table.refine subst path = _ at hrefine
  unfold OracleTable.refine at hrefine
  split at hrefine
  · cases hrefine
    intro v value hget
    rw [OracleTable.specialised, Substitution.get?, List.find?_map, Option.map_map,
      Option.map_eq_some_iff] at hget
    obtain ⟨binding, hbinding, rfl⟩ := hget
    refine Term.Flattened.applySubst (hsubst v binding.2 ?_) htable
    rw [Substitution.get?]
    exact congrArg (Option.map Prod.snd) hbinding
  · cases hrefine
  · cases hrefine

/-- The hook has flattened results for flattened arguments. -/
def Hook.KeepsFlat (hook : Hook) : Prop :=
  ∀ args : List Term, (∀ arg ∈ args, arg.Flattened) →
    ∀ result, hook.apply args = some result → result.Flattened

theorem Hook.keepsFlat_iff {hook : Hook} : hook.KeepsFlat ↔ hook.Keeps Term.FlatRoot := by
  unfold KeepsFlat Keeps
  rw [Term.flattened_eq_everywhere]

theorem Builtin.keepsFlat (builtin : Builtin) : builtin.hook.KeepsFlat :=
  Hook.keepsFlat_iff.2 (builtin.keeps Term.composable_flatRoot)

/-- The terms of all rules are flattened. -/
def Definition.RulesFlattened (definition : Definition) : Prop :=
  ∀ rule ∈ definition.rewriteRules ++ definition.functionRules, ∀ term ∈ rule.terms, term.Flattened

structure ConstrainedTerm.Flattened (state : ConstrainedTerm) : Prop where
  term : state.term.Flattened
  condition : state.condition.Flattened

theorem PathCondition.Flattened.negation {guard : PathCondition} (hguard : guard.Flattened) :
    guard.negation.Flattened := by
  unfold PathCondition.negation
  split
  · exact Term.Flattened.negated (Term.conforms_token _ _)
  · rename_i first others hconjuncts
    rw [PathCondition.Flattened, hconjuncts] at hguard
    obtain ⟨hfirst, hothers⟩ := List.forall_mem_cons.1 hguard
    refine Term.Flattened.negated ?_
    clear hconjuncts
    induction others generalizing first with
    | nil => exact hfirst
    | cons second others ih =>
        obtain ⟨hsecond, hothers⟩ := List.forall_mem_cons.1 hothers
        exact ih _ (List.forall_mem_cons.2 ⟨hfirst.conjoined hsecond, hothers⟩)
          (hfirst.conjoined hsecond) hothers

/-- Calls on flattened arguments have flattened answers. -/
def Caller.KeepsFlat (call : Caller σ) : Prop :=
  ∀ label args, (∀ arg ∈ args, arg.Flattened) → (call label args).Ensures Term.Flattened

namespace Definition

open Term

variable {definition : Definition} {call : Caller σ} {subst : Substitution}

section Building

variable (hcall : call.KeepsFlat)
include hcall

theorem flattened_buildTerm (hsubst : subst.Flattened) (mode : BuildMode) (term : Term) :
    (definition.buildTerm call subst mode term).Ensures Term.Flattened := by
  rw [flattened_eq_everywhere]
  refine ensures_buildTerm composable_flatRoot (Substitution.flattened_iff_everywhere.1 hsubst) ?_
  intro label args _ built _ hbuilt
  split
  · rw [← flattened_eq_everywhere] at hbuilt ⊢
    exact hcall label built hbuilt
  · exact True.intro

theorem flattened_freshValue (sort : SortName) :
    (definition.freshValue call sort).Ensures Term.Flattened := by
  unfold freshValue
  cases definition.generator? sort with
  | none =>
      intro start value next hrun
      cases hrun
  | some label =>
      refine Run.Ensures.bind_of_forall fun number => Run.Ensures.bind_of_forall fun _ => ?_
      exact flattened_buildTerm hcall (fun _ _ hget => by cases hget) .evaluate _

theorem flattened_buildRight (rule : Rule) (hsubst : subst.Flattened) :
    (definition.buildRight call rule subst).Ensures Term.Flattened := by
  have hfresh : (definition.bindFreshVars call rule.freshVars subst).Ensures
      Substitution.Flattened := by
    refine (everywhere_bindFreshVars (fun v _ => ?_)
      (Substitution.flattened_iff_everywhere.1 hsubst)).mono fun extended hextended =>
        Substitution.flattened_iff_everywhere.2 hextended
    rw [← flattened_eq_everywhere]
    exact flattened_freshValue hcall v.sort
  exact Run.Ensures.bind hfresh fun extended hextended =>
    flattened_buildTerm hcall hextended .instantiate rule.rhs

theorem flattened_condition (rule : Rule) (hsubst : subst.Flattened) :
    (definition.condition call rule subst).Ensures fun condition =>
      ∀ proposition, condition = .unsettled proposition → proposition.Flattened := by
  unfold condition
  cases rule.requires with
  | none => exact Run.Ensures.of_pure nofun
  | some requires =>
      refine Run.Ensures.bind (flattened_buildTerm hcall hsubst .evaluate requires)
        fun proposition hproposition => ?_
      split
      · exact Run.Ensures.of_pure nofun
      · exact Run.Ensures.of_pure nofun
      · apply Run.Ensures.of_pure
        rintro _ ⟨⟩
        exact hproposition

end Building

/-- By induction on the levels of nesting. -/
theorem keepsFlat_callWithin (hhooks : definition.EveryHook Hook.KeepsFlat) (limit levels : Nat) :
    (definition.callWithin limit levels : Caller σ).KeepsFlat := by
  induction levels with
  | zero =>
      intro label args _ start value next hrun
      cases hrun
  | succ levels ih =>
      intro label args hargs
      rw [flattened_eq_everywhere] at hargs ⊢
      have hkeeps : definition.EveryHook (Hook.Keeps · FlatRoot) :=
        fun label hook hhook => Hook.keepsFlat_iff.1 (hhooks label hook hhook)
      refine ensures_callWithin_succ composable_flatRoot hkeeps hargs (fun _ _ _ => True.intro)
        (fun rule _ subst hsubst => ?_) fun _ _ _ _ _ _ => True.intro
      rw [← flattened_eq_everywhere]
      exact flattened_buildRight ih rule (Substitution.flattened_iff_everywhere.2 hsubst)

end Definition

namespace Machine

variable {machine : Machine σ} {state : ConstrainedTerm} {rule : Rule} {subst : Substitution}

/-- What a successor and its guard consist of is flattened. -/
abbrev FlatSuccessor (successor : Successor) (guard : PathCondition) : Prop :=
  successor.state.Flattened ∧ guard.Flattened

/-- The states of a symbolic step are flattened: its successors, and what none of them covers. -/
structure FlatStep (step : SymbolicStep) : Prop where
  successors : ∀ successor ∈ step.successors, successor.state.Flattened
  remainder : ∀ remainder, step.remainder = some remainder → remainder.Flattened

section Hooked

variable (hhooks : machine.definition.EveryHook Hook.KeepsFlat)
include hhooks

theorem keepsFlat_call : machine.call.KeepsFlat :=
  Definition.keepsFlat_callWithin hhooks _ _

theorem flattened_applyRule (rule : Rule) (hsubst : subst.Flattened) :
    (machine.applyRule rule subst).Ensures Term.Flattened :=
  Definition.flattened_buildRight (keepsFlat_call hhooks) rule hsubst

theorem flattened_takeMatch (hstate : state.Flattened) (rule : Rule)
    (hsubst : subst.Flattened) {guard : PathCondition} (hguard : guard.Flattened) :
    (machine.takeMatch state rule subst guard).Ensures (MatchSuccessor.All FlatSuccessor) := by
  refine Run.Ensures.bind (flattened_applyRule hhooks rule hsubst) fun term hterm => ?_
  refine Run.Ensures.bind_of_forall fun _ => Run.Ensures.of_pure ?_
  rintro successor guard ⟨⟩
  exact ⟨⟨hterm, hstate.condition.and hguard⟩, hguard⟩

theorem flattened_symbolicMatch (hstate : state.Flattened) (rule : Rule)
    {found : RuleMatch} (hsubst : found.subst.Flattened) (hcondition : found.condition.Flattened) :
    (machine.symbolicMatch state rule found).Ensures (MatchSuccessor.All FlatSuccessor) := by
  have htaken := flattened_takeMatch hhooks hstate rule hsubst hcondition
  refine Run.Ensures.bind (Definition.flattened_condition (keepsFlat_call hhooks) rule hsubst)
    fun condition hproposition => ?_
  cases condition with
  | holds => exact htaken
  | fails => exact Run.Ensures.of_pure nofun
  | unsettled proposition =>
      refine Run.Ensures.bind_of_forall fun _ => Run.Ensures.bind_of_forall fun decision => ?_
      cases decision with
      | holds => exact htaken
      | fails => exact Run.Ensures.of_pure nofun
      | unknown =>
          dsimp only
          split
          · exact flattened_takeMatch hhooks hstate rule hsubst
              (hcondition.assume (hproposition proposition rfl))
          · exact Run.Ensures.of_pure nofun

/-- Every match of a rule in a flattened state has a flattened successor, whether the oracle has
specialised it or not. -/
theorem flattened_symbolicRule (horacle : machine.oracle.KeepsFlat) (hstate : state.Flattened)
    (hlhs : rule.lhs.Flattened) :
    (machine.matchRuleUnder rule state.term state.condition).Ensures fun results =>
      ∀ found ∈ results.found.toList,
        (machine.symbolicMatch state rule found).Ensures (MatchSuccessor.All FlatSuccessor) := by
  refine machine.ensures_matchRuleUnder ?_ ?_
  · intro found hmem _
    obtain ⟨hsubst, hconstraints⟩ := Definition.flattened_of_mem_found hlhs hstate.term hmem
    exact flattened_symbolicMatch hhooks hstate rule hsubst hconstraints
  · intro found hmem refined asked answered hanswer
    obtain ⟨hsubst, hconstraints⟩ := Definition.flattened_of_mem_found hlhs hstate.term hmem
    have hrefined := horacle hsubst (hstate.condition.and hconstraints) hanswer
    exact flattened_symbolicMatch hhooks hstate rule hrefined hconstraints

theorem flattened_stepSymbolic (hrules : machine.definition.RulesFlattened)
    (horacle : machine.oracle.KeepsFlat) (hstate : state.Flattened) :
    (machine.stepSymbolic state).Ensures FlatStep := by
  have hguarded : (machine.symbolicRules state (machine.definition.candidates state.term) {}).Ensures
      (Guarded.All FlatSuccessor) := by
    refine machine.ensures_symbolicRules (fun rule hmem => ?_) (by simp [Guarded.All])
    have hrule := List.mem_append_left machine.definition.functionRules
      (Definition.mem_rewriteRules_of_mem_candidates hmem)
    exact flattened_symbolicRule hhooks horacle hstate (hrules rule hrule rule.lhs (by simp [Rule.terms]))
  refine Run.Ensures.bind hguarded fun guarded hguarded start step next hrun => ?_
  obtain ⟨hsuccessors, hcompletion⟩ := completion_of_completeStep hrun
  have huncovered : (state.condition.uncovered guarded.guards).Flattened := by
    refine hstate.condition.assumeAll (List.forall_mem_map.2 (List.forall_mem_map.2 ?_))
    exact fun taken hmem => (hguarded taken hmem).2.negation
  constructor
  · rw [hsuccessors]
    exact List.forall_mem_map.2 fun taken hmem => (hguarded taken hmem).1
  · intro remainder hremainder
    cases hcompletion with
    | covered _ hnone | refuted _ hnone _ | inseparable _ hnone => simp [hnone] at hremainder
    | split _ hsome _ _ _ =>
        cases hsome.symm.trans hremainder
        exact ⟨hstate.term, huncovered⟩

theorem rewrites_flattened {subject : Term} (hsubject : subject.Flattened) :
    machine.Rewrites Term.Flattened subject := by
  intro rule _ subst hsubst
  have hbound := Definition.everywhere_of_mem_concreteMatches Term.composable_flatRoot
    (Obligation.subjectEverywhere_term rule.lhs (Term.flattened_iff_everywhere.1 hsubject)) hsubst
  exact flattened_applyRule hhooks rule (Substitution.flattened_iff_everywhere.2 hbound)

end Hooked

/-- All that the machine computes from flattened terms is flattened. Only a symbolic step lets the oracle
refine what a match has bound. -/
structure KeepsFlat (machine : Machine σ) : Prop where
  evaluate : ∀ term, term.Flattened → (machine.evaluate term).Ensures Term.Flattened
  fresh : ∀ sort, (machine.fresh sort).Ensures Term.Flattened
  applyRule : ∀ rule ∈ machine.definition.rewriteRules ++ machine.definition.functionRules,
    ∀ subst : Substitution, subst.Flattened → (machine.applyRule rule subst).Ensures Term.Flattened
  step : ∀ subject, subject.Flattened →
    (machine.step subject).Ensures (StepResult.Every Term.Flattened)
  successors : ∀ subject, subject.Flattened → (machine.successors subject).Ensures fun results =>
    ∀ result ∈ results, result.2.Flattened
  run : ∀ subject, subject.Flattened → ∀ bound, (machine.run subject bound).Ensures fun result =>
    result.term.Flattened
  stepSymbolic : machine.oracle.KeepsFlat → ∀ state, state.Flattened →
    (machine.stepSymbolic state).Ensures FlatStep

theorem keepsFlat_of_rulesFlattened (hrules : machine.definition.RulesFlattened)
    (hhooks : machine.definition.EveryHook Hook.KeepsFlat) : machine.KeepsFlat where
  evaluate term _ := Definition.flattened_buildTerm (keepsFlat_call hhooks)
    (fun _ _ hget => by cases hget) .evaluate term
  fresh := Definition.flattened_freshValue (keepsFlat_call hhooks)
  applyRule rule _ _ hsubst := flattened_applyRule hhooks rule hsubst
  step _ hsubject := (rewrites_flattened hhooks hsubject).ensures_step
  successors _ hsubject := (rewrites_flattened hhooks hsubject).ensures_successors
  run _ hsubject bound := ensures_run (fun _ => rewrites_flattened hhooks) hsubject bound
  stepSymbolic horacle _ hstate := flattened_stepSymbolic hhooks hrules horacle hstate

/-- Sequences stay flat: where they are put together and concatenated, in instances and in what a match
binds and asks for, and in all that a machine computes. A flattened sequence may be kept as it is, and
concatenation is associative with the empty sequence as unit. -/
theorem sequences_stay_flat :
    (∀ term : Term, term.Flattened ↔ ∀ op items, .sequence op items ∈ term.subterms →
      ∀ item ∈ items, item.isSequenceOver op = false) ∧
    (∀ op items, (∀ item ∈ items, item.Flattened) → (Term.flatten op items).Flattened) ∧
    (∀ op items, (Term.sequence op items).Flattened →
      Term.flatten op items = .sequence op items) ∧
    (∀ op left right, left.Flattened → right.Flattened → (Term.concat op left right).Flattened) ∧
    (∀ (term : Term) (subst : Substitution), term.Flattened → subst.Flattened →
      (term.applySubst subst).Flattened) ∧
    (∀ (definition : Definition) (pattern subject : Term), pattern.Flattened → subject.Flattened →
      ∀ found ∈ (definition.matchPattern pattern subject).found,
        (∀ binding ∈ found.subst.bindings, binding.2.Flattened) ∧ found.constraints.Flattened) ∧
    (∀ machine : Machine σ, machine.definition.RulesFlattened →
      machine.definition.EveryHook Hook.KeepsFlat → machine.KeepsFlat) ∧
    (∀ op first second third, Term.concat op (.concat op first second) third =
      .concat op first (.concat op second third)) ∧
    ∀ op items, Term.concat op (.sequence op []) (.sequence op items) = .sequence op items ∧
      Term.concat op (.sequence op items) (.sequence op []) = .sequence op items := by
  refine ⟨fun _ => Term.flattened_iff, fun op _ => Term.Flattened.flatten op,
    fun _ _ => Term.Flattened.flatten_items, fun op _ _ => Term.Flattened.concat op,
    fun _ _ hterm => hterm.applySubst, ?_, fun _ => keepsFlat_of_rulesFlattened,
    Term.concat_assoc, fun op items => ⟨Term.concat_empty_left op items,
      Term.concat_empty_right op items⟩⟩
  intro definition pattern subject hpattern hsubject found hmem
  obtain ⟨hsubst, hconstraints⟩ := Definition.flattened_of_mem_found hpattern hsubject hmem
  have hlinks := Definition.links_of_mem_found hmem
  exact ⟨fun binding hbinding => hsubst _ _
    (Substitution.get?_of_mem_bindings hlinks.distinct hbinding), hconstraints⟩

end Machine

namespace Loading

def argument : Variable := ⟨"X", Symbol.top, .plain⟩

def tasks : Variable := ⟨"TASKS", Symbol.top, .rest⟩

def others : Variable := ⟨"OTHERS", Symbol.top, .rest⟩

def state (items : List Term) (frame : Option Variable) : Term :=
  .collection [⟨0, "k", .sequence Symbol.sequencing items⟩] frame

/-- What is loaded is a sequence of two tasks, in front of those that are left; zero is not loaded. -/
def machine : Machine Unit where
  definition := .assemble (Signature.builtins.map .symbol ++
    [.symbol ⟨"tasks", 1, Symbol.top, .function none⟩,
      .rule
        { lhs := .app "tasks" [.var argument]
          rhs := .sequence Symbol.sequencing
            [.app "use" [.var argument], .app "free" [.var argument]] },
      .rule
        { lhs := state [.app "load" [.var argument], .var tasks] (some others)
          rhs := state [.app "tasks" [.var argument], .var tasks] (some others)
          requires := some (.app Builtin.neTerm.label [.var argument, .int 0]) }])
  oracle := DecisionProcedure.syntactic.toOracle Unit

/-- The answer of the call is spliced into the sequence, in a run and in a symbolic step that leaves a
remainder. -/
theorem sequences_stay_flat_loading :
    (∃ result next, machine.run (state [.app "load" [.int 1], .app "stop" []] none) none
        { environment := () } = .ok result next ∧ result.term.Flattened ∧ (result.term == state
          [.app "use" [.int 1], .app "free" [.int 1], .app "stop" []] none) = true) ∧
    ∃ step next, machine.stepSymbolic
        ⟨state [.app "load" [.var argument], .app "stop" []] none, .trivial⟩ { environment := () } =
          .ok step next ∧ step.successors.length = 1 ∧ step.remainder.isSome = true ∧
      Machine.FlatStep step := by
  obtain ⟨-, -, -, -, -, -, hmachine, -⟩ := Machine.sequences_stay_flat (σ := Unit)
  have hrules : machine.definition.RulesFlattened := by
    unfold Definition.RulesFlattened
    decide +kernel
  have hhooks : machine.definition.EveryHook Hook.KeepsFlat :=
    (Definition.onlyBuiltins_assemble Builtin.standard rfl).everyHook Builtin.keepsFlat
  have hkeeps := hmachine machine hrules hhooks
  have hrun : (machine.run (state [.app "load" [.int 1], .app "stop" []] none) none).succeedsWith
      { environment := () } (fun result => result.term == state
        [.app "use" [.int 1], .app "free" [.int 1], .app "stop" []] none) = true := by
    decide +kernel
  have hsymbolic : (machine.stepSymbolic ⟨state [.app "load" [.var argument], .app "stop" []] none,
      .trivial⟩).succeedsWith { environment := () }
        (fun step => step.successors.length == 1 && step.remainder.isSome) = true := by
    decide +kernel
  obtain ⟨result, next, hrun, hresult⟩ := Run.exists_of_succeedsWith hrun
  obtain ⟨step, last, hsymbolic, hstep⟩ := Run.exists_of_succeedsWith hsymbolic
  rw [Bool.and_eq_true, beq_iff_eq] at hstep
  have hflat := hkeeps.run _ (by decide +kernel) none _ _ _ hrun
  have hstate : ConstrainedTerm.Flattened
      ⟨state [.app "load" [.var argument], .app "stop" []] none, .trivial⟩ :=
    ⟨by decide +kernel, PathCondition.flattened_trivial⟩
  exact ⟨⟨result, next, hrun, hflat, hresult⟩, step, last, hsymbolic, hstep.1, hstep.2,
    hkeeps.stepSymbolic (DecisionProcedure.keepsFlat_syntactic Unit) _ hstate _ _ _ hsymbolic⟩

end Loading

end SymbolicRewriting
