import SymbolicRewriting.Oracle.Silent
import SymbolicRewriting.Proofs.Instances
import SymbolicRewriting.Proofs.Lineage
import SymbolicRewriting.Proofs.Overlays

/-!
Which nodes of a search stand for real states. A definite answer of a sound oracle never leads from a
condition that has ground instances to one that has none. But a step also goes on under guards that the
oracle does not know to be satisfiable, and what it finds from there on may stand for nothing.
-/

namespace SymbolicRewriting

open Relation

variable {σ : Type}

namespace Definition

/-- The instance of the proposition evaluates to the truth value, with as many levels of nesting as
that takes. -/
def Judges (definition : Definition) (θ : Substitution) (proposition : Term) (truth : Bool) :
    Prop :=
  ∃ levels, (definition.buildTerm (definition.callWithin levels levels : Caller Unit) .empty
    .evaluate (proposition.applySubst θ)).Yields fun value => value.asBool = some truth

/-- A ground instance of the path: each variable stands for a ground term of its sort, and each
conjunct becomes true. -/
structure Satisfies (definition : Definition) (θ : Substitution) (path : PathCondition) :
    Prop where
  admitted : ∀ v value, θ.get? v = some value →
    value.isGround = true ∧ definition.admits v value = .yes
  ground : ∀ conjunct ∈ path.conjuncts, (conjunct.applySubst θ).isGround = true
  holds : ∀ conjunct ∈ path.conjuncts, definition.Judges θ conjunct true

def Satisfiable (definition : Definition) (path : PathCondition) : Prop :=
  ∃ θ, definition.Satisfies θ path

variable {definition : Definition}

theorem Satisfiable.of_subset {path other : PathCondition} (hpath : definition.Satisfiable path)
    (hsubset : other.conjuncts ⊆ path.conjuncts) : definition.Satisfiable other := by
  obtain ⟨θ, hθ⟩ := hpath
  exact ⟨θ, hθ.admitted, fun conjunct hmem => hθ.ground conjunct (hsubset hmem),
    fun conjunct hmem => hθ.holds conjunct (hsubset hmem)⟩

theorem satisfiable_trivial (definition : Definition) : definition.Satisfiable .trivial :=
  ⟨.empty, fun _ _ hget => (by cases hget), List.forall_mem_nil _, List.forall_mem_nil _⟩

end Definition

/-- Definite answers are right about the ground instances of the path. -/
structure Oracle.Sound (oracle : Oracle σ) (definition : Definition) : Prop where
  holds : ∀ path proposition asked answered,
    oracle.decide path proposition asked = (.holds, answered) → ∀ θ, definition.Satisfies θ path →
      (proposition.applySubst θ).isGround = true → definition.Judges θ proposition true
  fails : ∀ path proposition asked answered,
    oracle.decide path proposition asked = (.fails, answered) → ∀ θ, definition.Satisfies θ path →
      (proposition.applySubst θ).isGround = true → definition.Judges θ proposition false
  unsat : ∀ subst path asked answered, oracle.refine subst path asked = (.unsat, answered) →
    ¬definition.Satisfiable path
  refined : ∀ subst path asked answered other,
    oracle.refine subst path asked = (.refined other, answered) →
      other = subst ∧ definition.Satisfiable path

/-- A truth value evaluates to itself. -/
theorem Definition.judges_iff_of_asBool {definition : Definition} {proposition : Term} {value : Bool}
    (hvalue : proposition.asBool = some value) (θ : Substitution) (truth : Bool) :
    definition.Judges θ proposition truth ↔ value = truth := by
  cases proposition with
  | token sort text =>
      constructor
      · rintro ⟨_, hyields⟩
        obtain ⟨result, next, hrun, hresult⟩ := hyields { environment := () }
        rw [Term.applySubst_token] at hrun
        obtain ⟨rfl, -⟩ := Run.pure_eq_ok.1 hrun
        exact Option.some.inj (hvalue.symm.trans hresult)
      · rintro rfl
        refine ⟨0, ?_⟩
        rw [Term.applySubst_token]
        exact Run.Yields.of_pure hvalue
  | var _ | app _ _ | sequence _ _ | collection _ _ => cases hvalue

theorem DecisionProcedure.asBool_of_silentDecide {path : PathCondition} {proposition : Term}
    {truth : Bool} (hanswer : silentDecide path proposition = Decision.ofBool truth) :
    proposition.asBool = some truth := by
  unfold silentDecide at hanswer
  cases hvalue : proposition.asBool with
  | none => cases truth <;> simp [hvalue, Decision.ofBool] at hanswer
  | some value => cases value <;> cases truth <;> simp_all [Decision.ofBool]

/-- What can be read off the truth values alone is right. -/
theorem DecisionProcedure.sound_silent (σ : Type) (definition : Definition) :
    (silent.toOracle σ).Sound definition where
  holds path proposition asked answered hanswer θ _ _ := by
    have hsilent : silentDecide path proposition = .ofBool true := congrArg Prod.fst hanswer
    exact (Definition.judges_iff_of_asBool (asBool_of_silentDecide hsilent) θ true).2 rfl
  fails path proposition asked answered hanswer θ _ _ := by
    have hsilent : silentDecide path proposition = .ofBool false := congrArg Prod.fst hanswer
    exact (Definition.judges_iff_of_asBool (asBool_of_silentDecide hsilent) θ false).2 rfl
  unsat subst path asked answered hanswer := by
    rintro ⟨θ, hθ⟩
    replace hanswer : silentRefine subst path = .unsat := congrArg Prod.fst hanswer
    unfold silentRefine at hanswer
    split at hanswer
    · cases hanswer
    · split at hanswer
      · rename_i hfalse
        obtain ⟨conjunct, hmem, hvalue⟩ := List.any_eq_true.1 hfalse
        have htrue := (Definition.judges_iff_of_asBool (beq_iff_eq.1 hvalue) θ true).1
          (hθ.holds conjunct hmem)
        cases htrue
      · cases hanswer
  refined subst path asked answered other hanswer := by
    replace hanswer : silentRefine subst path = .refined other := congrArg Prod.fst hanswer
    unfold silentRefine at hanswer
    split at hanswer
    · rename_i htrivial
      rw [PathCondition.eq_trivial_of_isTrivial htrivial]
      exact ⟨(Refinement.refined.inj hanswer).symm, definition.satisfiable_trivial⟩
    · split at hanswer <;> cases hanswer

namespace Machine

/-- The child is split off although the oracle does not know whether there are states for it: the
condition of the rule is assumed, or the remainder is kept. -/
inductive Guesses (machine : Machine σ) (state : ConstrainedTerm) :
    Justification × ConstrainedTerm → Prop
  | guard {rule : Rule} {results : RuleMatches} {found : RuleMatch} {proposition : Term}
      {successor : Successor} {guard : PathCondition} {answered : σ}
      {first second start between next : RunState σ}
      (hrule : rule ∈ machine.definition.candidates state.term)
      (hresults : machine.matchRuleUnder rule state.term state.condition first = .ok results second)
      (hfound : found ∈ results.found.toList)
      (hcondition : machine.condition rule found.subst start =
        .ok (.unsettled proposition) between)
      (hunknown : machine.oracle.decide (state.condition.and found.condition) proposition
        between.environment = (.unknown, answered))
      (htaken : machine.symbolicMatch state rule found start = .ok (.taken successor guard) next) :
      Guesses machine state (.rule successor.rule, successor.state)
  | remainder {guarded : Guarded} {step : SymbolicStep} {remainder : ConstrainedTerm} {answered : σ}
      {start between next : RunState σ}
      (hguarded : machine.symbolicRules state (machine.definition.candidates state.term) {} start =
        .ok guarded between)
      (hunknown : machine.oracle.refine .empty (state.condition.uncovered guarded.guards)
        between.environment = (.unknown, answered))
      (hstep : machine.completeStep state guarded between = .ok step next)
      (hremainder : step.remainder = some remainder) :
      Guesses machine state (.remainder, remainder)

variable {machine : Machine σ} {definition : Definition} (hsound : machine.oracle.Sound definition)
include hsound

/-- A match is kept if it needs no constraint or the oracle has refined it. -/
theorem satisfiable_of_matchRuleUnder {rule : Rule} {subject : Term} {path : PathCondition}
    (hpath : definition.Satisfiable path) :
    (machine.matchRuleUnder rule subject path).Ensures fun results =>
      ∀ found ∈ results.found.toList, definition.Satisfiable (path.and found.condition) := by
  refine machine.ensures_matchRuleUnder (fun found _ htrivial => ?_)
    fun found _ subst asked answered hrefined => ?_
  · rw [PathCondition.eq_trivial_of_isTrivial htrivial]
    exact hpath
  · exact (hsound.refined _ _ _ _ _ hrefined).2

omit hsound in
theorem ensures_symbolicMatch {state : ConstrainedTerm} {rule : Rule}
    (hrule : rule ∈ machine.definition.candidates state.term) {results : RuleMatches}
    {first second : RunState σ}
    (hresults : machine.matchRuleUnder rule state.term state.condition first = .ok results second)
    {found : RuleMatch} (hfound : found ∈ results.found.toList)
    (hpath : definition.Satisfiable (state.condition.and found.condition)) :
    (machine.symbolicMatch state rule found).Ensures
      (MatchSuccessor.All fun successor _ =>
        machine.Guesses state (.rule successor.rule, successor.state) ∨
          definition.Satisfiable successor.state.condition) := by
  -- Without a new assumption the successor has the condition of the match.
  have htake : ∀ start next successor guard,
      machine.takeMatch state rule found.subst found.condition start =
        .ok (.taken successor guard) next → definition.Satisfiable successor.state.condition := by
    intro start next successor guard hrun
    obtain ⟨term, between, -, hrun⟩ := Run.bind_eq_ok.1 hrun
    obtain ⟨_, recorded, -, hrun⟩ := Run.bind_eq_ok.1 hrun
    obtain ⟨htaken, -⟩ := Run.pure_eq_ok.1 hrun
    cases htaken
    exact hpath
  rintro start outcome next hrun successor guard rfl
  have htaken := hrun
  obtain ⟨condition, between, hcondition, hrun⟩ := Run.bind_eq_ok.1 hrun
  cases condition with
  | holds => exact .inr (htake _ _ _ _ hrun)
  | fails =>
      obtain ⟨hdropped, -⟩ := Run.pure_eq_ok.1 hrun
      cases hdropped
  | unsettled proposition =>
      obtain ⟨_, recorded, hrecorded, hrun⟩ := Run.bind_eq_ok.1 hrun
      obtain ⟨decision, answered, hdecision, hrun⟩ := Run.bind_eq_ok.1 hrun
      cases decision with
      | holds => exact .inr (htake _ _ _ _ hrun)
      | fails =>
          obtain ⟨hdropped, -⟩ := Run.pure_eq_ok.1 hrun
          cases hdropped
      | unknown =>
          cases hrecorded
          have hunknown := decideUnder_eq_ok hdecision
          exact .inl (.guard hrule hresults hfound hcondition hunknown htaken)

/-- A step from a state that has ground instances leads to others, or to what it guesses. -/
theorem satisfiable_of_child {state : ConstrainedTerm} {start next : RunState σ}
    {step : SymbolicStep} (hrun : machine.stepSymbolic state start = .ok step next)
    (hstate : definition.Satisfiable state.condition) :
    ∀ child ∈ step.children, machine.Guesses state child ∨
      definition.Satisfiable child.2.condition := by
  obtain ⟨guarded, between, hguarded, hcomplete⟩ := Run.bind_eq_ok.1 hrun
  have htaken : guarded.All fun successor _ =>
      machine.Guesses state (.rule successor.rule, successor.state) ∨
        definition.Satisfiable successor.state.condition := by
    refine machine.ensures_symbolicRules (fun rule hrule => ?_) (by simp [Guarded.All]) _ _ _ hguarded
    intro first results second hresults found hfound
    exact ensures_symbolicMatch hrule hresults hfound
      (satisfiable_of_matchRuleUnder hsound hstate _ _ _ hresults found hfound)
  obtain ⟨hsuccessors, hcompletion⟩ := completion_of_completeStep hcomplete
  intro child hmem
  rcases SymbolicStep.mem_children_iff.1 hmem with ⟨successor, htook, rfl⟩ | ⟨remainder, hsome, rfl⟩
  · rw [hsuccessors] at htook
    obtain ⟨taken, hmember, rfl⟩ := List.mem_map.1 htook
    exact htaken taken hmember
  · cases hcompletion with
    | covered _ hnone | refuted _ hnone _ | inseparable _ hnone => simp [hnone] at hsome
    | @split answer _ hremainder hrefine hpossible _ =>
        obtain rfl := Option.some.inj (hremainder.symm.trans hsome)
        cases answer with
        | refined subst => exact .inr (hsound.refined _ _ _ _ _ hrefine).2
        | unsat => exact absurd rfl hpossible
        | unknown => exact .inl (.remainder hguarded hrefine hcomplete hremainder)

end Machine

namespace ProofTree

/-- The node was added by a step from the given one. -/
def Leads (tree : ProofTree) (source target : NodeId) : Prop :=
  ∃ justification, ⟨source, target, justification⟩ ∈ tree.transitions ∧
    justification ≠ .circularity

/-- The node was added on a guess. -/
def Guessed (guesses : ConstrainedTerm → Justification × ConstrainedTerm → Prop) (tree : ProofTree)
    (id : NodeId) (node : ProofNode) : Prop :=
  ∃ source parent justification, ⟨source, id, justification⟩ ∈ tree.transitions ∧
    tree.node? source = some parent ∧ guesses parent.state (justification, node.state)

section Unfolds

variable {definition : Definition} {evidence : Evidence} {initial target : ConstrainedTerm}
  {tree : ProofTree} {guesses : ConstrainedTerm → Justification × ConstrainedTerm → Prop}
  (hunfolds : tree.Unfolds evidence initial target)
include hunfolds

/-- Conditions only grow on the way from a node to another. -/
theorem Unfolds.satisfiable_of_reaches
    (hgrows : ∀ state step, evidence.steps state step → ∀ child ∈ step.children,
      state.condition.conjuncts <+: child.2.condition.conjuncts)
    {earlier later : NodeId} (hreaches : ReflTransGen tree.Leads earlier later) {node : ProofNode}
    (hnode : tree.node? later = some node)
    (hsatisfiable : definition.Satisfiable node.state.condition) {other : ProofNode}
    (hother : tree.node? earlier = some other) : definition.Satisfiable other.state.condition := by
  induction hreaches using ReflTransGen.head_induction_on generalizing other with
  | refl =>
      obtain rfl := Option.some.inj (hother.symm.trans hnode)
      exact hsatisfiable
  | head hleads _ ih =>
      obtain ⟨justification, hmem, hjustified⟩ := hleads
      obtain ⟨parent, child, step, hparent, hchild, -, -, hstep, -, hmem⟩ :=
        hunfolds.follows _ hmem hjustified
      obtain rfl := Option.some.inj (hother.symm.trans hparent)
      exact (ih hchild).of_subset (hgrows _ _ hstep _ hmem).subset

/-- If steps lead from states with ground instances to others or to guesses, then a node has ground
instances as soon as the guesses on the way to it have. -/
theorem Unfolds.satisfiable_of_guessed (hinitial : definition.Satisfiable initial.condition)
    (hsteps : ∀ state step, evidence.steps state step → definition.Satisfiable state.condition →
      ∀ child ∈ step.children, guesses state child ∨ definition.Satisfiable child.2.condition)
    {id : NodeId} {node : ProofNode} (hnode : tree.node? id = some node)
    (hguessed : ∀ earlier other, ReflTransGen tree.Leads earlier id →
      tree.node? earlier = some other → tree.Guessed guesses earlier other →
        definition.Satisfiable other.state.condition) :
    definition.Satisfiable node.state.condition := by
  induction id using Nat.strongRecOn generalizing node with
  | ind id ih =>
      by_cases hroot : id = 0
      · obtain ⟨root, hfirst, hstate⟩ := hunfolds.root
        obtain rfl : root = node := Option.some.inj (hfirst.symm.trans (hroot ▸ hnode))
        rwa [hstate]
      · obtain ⟨⟨source, target, justification⟩, hmem, rfl, hjustified⟩ :=
          hunfolds.exists_parent id node hnode hroot
        obtain ⟨parent, child, step, hparent, hchild, hlt, -, hstep, -, hpart⟩ :=
          hunfolds.follows _ hmem hjustified
        obtain rfl : child = node := Option.some.inj (hchild.symm.trans hnode)
        have hleads : tree.Leads source target := ⟨justification, hmem, hjustified⟩
        have hsatisfiable := ih source hlt hparent fun earlier other hreaches =>
          hguessed earlier other (hreaches.tail hleads)
        rcases hsteps _ _ hstep hsatisfiable _ hpart with hguess | hchild
        · exact hguessed target child .refl hnode ⟨source, parent, justification, hmem, hparent, hguess⟩
        · exact hchild

end Unfolds

end ProofTree

namespace Goal

/-- Some of the calls has guessed that there are states of the child. -/
def Guessed (calls : List Prover.Call) (state : ConstrainedTerm)
    (child : Justification × ConstrainedTerm) : Prop :=
  ∃ call ∈ calls, call.prover.machine.Guesses state child

/-- What failed nodes stand for, whatever calls a goal has been through. A goal is reported as disproved
only with a failed node, and a node has ground instances exactly if the guesses on the way to it
have. -/
theorem satisfiable_iff_guessed {definition : Definition} {initial target : ConstrainedTerm}
    (hinitial : definition.Satisfiable initial.condition) (calls : List Prover.Call)
    (call : Prover.Call)
    (hsound : ∀ other ∈ calls ++ [call], other.prover.machine.oracle.Sound definition) :
    (∀ report, (((start initial target).after calls).ask call).1 = .ok report →
      report.status = .disproved →
        ∃ id, ((start initial target).after (calls ++ [call])).tree.Fails id) ∧
    ∀ id node, ((start initial target).after (calls ++ [call])).tree.node? id = some node →
      (definition.Satisfiable node.state.condition ↔
        ∀ earlier other, ReflTransGen ((start initial target).after (calls ++ [call])).tree.Leads
            earlier id →
          ((start initial target).after (calls ++ [call])).tree.node? earlier = some other →
            ((start initial target).after (calls ++ [call])).tree.Guessed
              (Guessed (calls ++ [call])) earlier other →
                definition.Satisfiable other.state.condition) := by
  refine ⟨fun report hreport hdisproved => ?_, fun id node hnode => ?_⟩
  · have hsearched := (Searched.start initial target).after calls
    have hcomplete := isComplete_after (Searched.start initial target).wellFormed
      (by simp [start]) calls
    have hreports := call.prover.reports_prove hsearched.wellFormed hcomplete hreport
    obtain ⟨id, hfails, -⟩ := hreports.disproved.1 hdisproved
    exact ⟨id, after_append (start initial target) calls call ▸ hfails⟩
  · let evidence : Evidence :=
      { covers := fun _ _ => True
        misses := fun _ _ => True
        steps := fun state step => ∃ other ∈ calls ++ [call], other.prover.evidence.steps state step }
    have hwithin : ∀ other ∈ calls ++ [call], other.prover.evidence.Within evidence :=
      fun other hmem => ⟨fun _ _ _ => True.intro, fun _ _ _ => True.intro,
        fun _ _ hsteps => ⟨other, hmem, hsteps⟩⟩
    have hunfolds := unfolds_after initial target hwithin
    constructor
    · intro hsatisfiable earlier other hreaches hother _
      refine hunfolds.satisfiable_of_reaches ?_ hreaches hnode hsatisfiable hother
      rintro state step ⟨_, -, _, _, hrun⟩
      exact Machine.prefix_of_child hrun
    · refine hunfolds.satisfiable_of_guessed hinitial ?_ hnode
      rintro state step ⟨other, hmem, _, _, hrun⟩ hstate child hchild
      exact (Machine.satisfiable_of_child (hsound other hmem) hrun hstate child hchild).imp_left
        fun hguess => ⟨other, hmem, hguess⟩

end Goal

/-- No instance of a term is less than itself. -/
theorem Definition.not_judges_less {definition : Definition} (hrepeat : definition.Repeatable)
    (hhook : definition.hook? Builtin.ltInt.label = some Builtin.ltInt.hook) (θ : Substitution) (term : Term) :
    ¬definition.Judges θ (.app Builtin.ltInt.label [term, term]) true := by
  rintro ⟨levels, hyields⟩
  obtain ⟨result, next, hrun, htrue⟩ := hyields { environment := () }
  rw [Term.applySubst_app] at hrun
  obtain ⟨values, between, hvalues, hcall⟩ := Run.bind_eq_ok.1 hrun
  -- Both operands are built from the same term, so they are the same integer or both are none.
  obtain ⟨left, second, hleft, hrest⟩ := Run.bind_eq_ok.1 hvalues
  obtain ⟨rights, third, hrights, hpure⟩ := Run.bind_eq_ok.1 hrest
  obtain ⟨right, fourth, hright, hnil⟩ := Run.bind_eq_ok.1 hrights
  obtain ⟨_, fifth, hnone, hpure'⟩ := Run.bind_eq_ok.1 hnil
  obtain ⟨rfl, -⟩ := Run.pure_eq_ok.1 hnone
  obtain ⟨rfl, -⟩ := Run.pure_eq_ok.1 hpure'
  obtain ⟨rfl, -⟩ := Run.pure_eq_ok.1 hpure
  have halike : left.Alike right := by
    have hcaller : Caller.RepeatedBy .ofValues (definition.callWithin levels levels)
        (definition.callWithin levels levels : Caller Unit) :=
      callWithin_repeatedBy hrepeat levels (Nat.le_refl levels) False.elim
    obtain ⟨again, later, hagain, hsame⟩ := (buildTerm_repeatedBy hcaller rfl .evaluate .evaluate _ _
      rfl).exists_of_eq_ok hleft second
    rw [hright] at hagain
    cases hagain
    exact hsame
  have hint : left.asInt = right.asInt := by
    rw [← left.asInt_withoutIds, halike, right.asInt_withoutIds]
  rw [if_pos (isFunction_of_hook? hhook)] at hcall
  cases levels with
  | zero => cases hcall
  | succ levels =>
      obtain ⟨_, _, -, hcall⟩ := Run.bind_eq_ok.1 hcall
      rw [hhook] at hcall
      obtain ⟨rfl, -⟩ := Run.pure_eq_ok.1 hcall
      cases hvalue : right.asInt <;>
        simp [Builtin.hook, Builtin.apply, Builtin.compareInts, Builtin.onInts, hint, hvalue,
          Term.asBool, Term.bool] at htrue

namespace Guessing

def counter : Variable := ⟨"X", Symbol.int, .plain⟩

def argument : Variable := ⟨"Y", Symbol.int, .plain⟩

def less (v : Variable) : Term := .app Builtin.ltInt.label [.var v, .var v]

/-- The guard of the first rule never holds, which an oracle need not know. -/
def call : Prover.Call where
  prover :=
    { machine :=
        { definition := .assemble (Signature.builtins.map .symbol ++
            [.rule { lhs := .app "init" [.var counter], rhs := .app "bad" []
                     requires := some (less counter) },
              .rule { lhs := .app "init" [.var counter], rhs := .app "done" [] }])
          oracle := DecisionProcedure.silent.toOracle Unit }
      stopSource environment := (false, environment) }
  state := { environment := () }

def initial : ConstrainedTerm := ⟨.app "init" [.var argument], .trivial⟩

def target : ConstrainedTerm := ⟨.app "done" [], .trivial⟩

theorem exists_report_disproved : ∃ report,
    (((Goal.start initial target).after []).ask call).1 = .ok report ∧
      report.status = .disproved :=
  Goal.exists_report (by decide +kernel)

theorem satisfiable_iff_guessed_less :
    call.prover.machine.oracle.Sound call.prover.machine.definition ∧
    (∃ id, ((Goal.start initial target).after [call]).tree.Fails id) ∧
    ∀ id node, ((Goal.start initial target).after [call]).tree.node? id = some node →
      (call.prover.machine.definition.Satisfiable node.state.condition ↔
        ∀ earlier other,
          ReflTransGen ((Goal.start initial target).after [call]).tree.Leads earlier id →
            ((Goal.start initial target).after [call]).tree.node? earlier = some other →
              ((Goal.start initial target).after [call]).tree.Guessed
                (Goal.Guessed [call]) earlier other →
                  call.prover.machine.definition.Satisfiable other.state.condition) := by
  have hsound := DecisionProcedure.sound_silent Unit call.prover.machine.definition
  obtain ⟨report, hreport, hstatus⟩ := exists_report_disproved
  obtain ⟨hdisproved, hnodes⟩ := @Goal.satisfiable_iff_guessed _ initial target
    call.prover.machine.definition.satisfiable_trivial [] call
    (List.forall_mem_singleton.2 hsound)
  exact ⟨hsound, hdisproved report hreport hstatus, hnodes⟩

/-- The goal is disproved by a failed node that stands for no state. -/
theorem not_satisfiable_less :
    call.prover.machine.definition.Satisfiable initial.condition ∧
    call.prover.machine.oracle.Sound call.prover.machine.definition ∧
    (∃ report, (((Goal.start initial target).after []).ask call).1 = .ok report ∧
      report.status = .disproved) ∧
    ¬∃ id node, ((Goal.start initial target).after [call]).tree.node? id = some node ∧
      node.status = .failed ∧
      call.prover.machine.definition.Satisfiable node.state.condition := by
  refine ⟨Definition.satisfiable_trivial _, DecisionProcedure.sound_silent Unit _,
    exists_report_disproved, ?_⟩
  rintro ⟨id, node, hnode, hfailed, θ, hθ⟩
  have hall : (((Goal.start initial target).after [call]).tree.nodes.all fun node =>
      !(node.status == .failed) || node.state.condition.contains (less argument)) = true := by
    decide +kernel
  obtain ⟨hlt, hget⟩ := Array.getElem?_eq_some_iff.1 hnode
  have hcontains := Array.all_eq_true.1 hall id hlt
  rw [hget, hfailed] at hcontains
  obtain ⟨conjunct, hmem, hequal⟩ := List.any_eq_true.1 hcontains
  have hplain : (less argument).PlainSubject :=
    .app _ _ True.intro (List.forall_mem_cons.2
      ⟨.var argument rfl, List.forall_mem_singleton.2 (.var argument rfl)⟩)
  obtain rfl := Term.eq_of_equalTo_plain hplain conjunct hequal
  have hfresh : call.prover.machine.definition.WithoutFresh := by
    unfold Definition.WithoutFresh
    decide +kernel
  have hids : call.prover.machine.definition.EveryHook Hook.IgnoresIds :=
    (Definition.onlyBuiltins_assemble Builtin.standard rfl).everyHook Builtin.ignoresIds
  exact Definition.not_judges_less ⟨hfresh, hids⟩ rfl θ _ (hθ.holds _ hmem)

end Guessing

end SymbolicRewriting
