import SymbolicRewriting.Machine.Execution
import SymbolicRewriting.Machine.Search
import SymbolicRewriting.Machine.Symbolic
import SymbolicRewriting.Proofs.Identities

/-!
# Properties that runs inherit

Whatever a machine does is put together from a few elementary runs: drawing an identity, drawing the
token of a fresh value, asking the oracle and counting. A property that these have, and that a sequence
inherits from its parts, holds of every operation. The operations below a step, such as evaluation and
matching, do not count steps, and for them the property need not allow for that.
-/

namespace SymbolicRewriting

variable {σ α : Type}

/-- The token of a number, which is read as a signed word. -/
def Term.ofNumber (number : UInt64) : Term := .int number.toInt64.toInt

namespace Run

def drawToken : Run σ Term := do
  let number ← drawCounter
  record Metrics.recordFreshRequest
  pure (.ofNumber number)

/-- Fresh values are counted where they are drawn, and nowhere else. No step is counted. -/
structure Stepless (property : (α : Type) → Run σ α → Prop) : Prop where
  of_pure : ∀ {α : Type} (value : α), property α (pure value)
  of_throw : ∀ {α : Type} (error : RewriteError), property α (throw error)
  bind : ∀ {α β : Type} {run : Run σ α} {continuation : α → Run σ β}, property α run →
    (∀ value, property β (continuation value)) → property β (run >>= continuation)
  drawCell : property CellId drawCell
  drawToken : property Term drawToken
  record : ∀ update : Metrics → Metrics,
    (∀ metrics, (update metrics).freshRequests = metrics.freshRequests ∧
      (update metrics).steps = metrics.steps) → property Unit (record update)
  ask : ∀ {α : Type} (question : σ → α × σ), property α (ask question)

/-- Steps are counted as well. -/
structure Compositional (property : (α : Type) → Run σ α → Prop) : Prop
    extends Stepless property where
  recordStep : property Unit (Run.record Metrics.recordStep)

end Run

namespace Definition

variable {definition : Definition} {call : Caller σ}

theorem freshValue_of_none {sort : SortName} (hgenerator : definition.generator? sort = none) :
    definition.freshValue call sort = throw (.unconfiguredFreshFunction sort) := by
  rw [freshValue, hgenerator]

theorem freshValue_of_some {sort : SortName} {generator : Label}
    (hgenerator : definition.generator? sort = some generator) :
    definition.freshValue call sort = Run.drawToken >>= fun token =>
      definition.buildTerm call .empty .evaluate (.app generator [token]) := by
  rw [freshValue, hgenerator]
  simp only [Run.drawToken, Term.ofNumber, bind_assoc, pure_bind]

end Definition

namespace Run.Stepless

variable {property : (α : Type) → Run σ α → Prop} (hproperty : Stepless property)
include hproperty

section Evaluation

variable {definition : Definition} {call : Caller σ}

theorem cellId (mode : BuildMode) (subst : Substitution) (id : CellId) :
    property CellId (mode.cellId subst id) := by
  unfold BuildMode.cellId
  split
  · exact hproperty.of_pure id
  · split
    · exact hproperty.of_pure _
    · exact hproperty.drawCell

theorem buildTerms {subst : Substitution} {mode : BuildMode} {terms : List Term}
    (hterms : ∀ term ∈ terms, property Term (definition.buildTerm call subst mode term)) :
    property (List Term) (definition.buildTerms call subst mode terms) := by
  induction terms with
  | nil => exact hproperty.of_pure []
  | cons term terms ih =>
      obtain ⟨hfirst, hothers⟩ := List.forall_mem_cons.1 hterms
      exact hproperty.bind hfirst fun _ => hproperty.bind (ih hothers) fun _ => hproperty.of_pure _

theorem buildCells {subst : Substitution} {mode : BuildMode} {cells : List (Cell Term)}
    (hcells : ∀ cell ∈ cells, property Term (definition.buildTerm call subst mode cell.content)) :
    property (List (Cell Term)) (definition.buildCells call subst mode cells) := by
  induction cells with
  | nil => exact hproperty.of_pure []
  | cons cell cells ih =>
      obtain ⟨hfirst, hothers⟩ := List.forall_mem_cons.1 hcells
      exact hproperty.bind hfirst fun _ => hproperty.bind (hproperty.cellId mode subst cell.id)
        fun _ => hproperty.bind (ih hothers) fun _ => hproperty.of_pure _

section Caller

variable (hcall : ∀ label args, property Term (call label args))
include hcall

theorem buildTerm (subst : Substitution) (mode : BuildMode) (term : Term) :
    property Term (definition.buildTerm call subst mode term) := by
  induction term using Term.nestedInduction with
  | token sort value => exact hproperty.of_pure _
  | var v => exact hproperty.of_pure _
  | app label args ih =>
      refine hproperty.bind (hproperty.buildTerms ih) fun built => ?_
      split
      · exact hcall label built
      · exact hproperty.of_pure _
  | sequence op items ih =>
      exact hproperty.bind (hproperty.buildTerms ih) fun _ => hproperty.of_pure _
  | collection cells frame ih =>
      exact hproperty.bind (hproperty.buildCells ih) fun _ => hproperty.of_pure _

theorem condition (rule : Rule) (subst : Substitution) :
    property Condition (definition.condition call rule subst) := by
  unfold Definition.condition
  split
  · exact hproperty.of_pure _
  · refine hproperty.bind (hproperty.buildTerm hcall subst .evaluate _) fun proposition => ?_
    split <;> exact hproperty.of_pure _

theorem freshValue (sort : SortName) : property Term (definition.freshValue call sort) := by
  cases hgenerator : definition.generator? sort with
  | none =>
      rw [Definition.freshValue_of_none hgenerator]
      exact hproperty.of_throw _
  | some generator =>
      rw [Definition.freshValue_of_some hgenerator]
      exact hproperty.bind hproperty.drawToken fun _ => hproperty.buildTerm hcall .empty .evaluate _

theorem bindFreshVars (vars : List Variable) (subst : Substitution) :
    property Substitution (definition.bindFreshVars call vars subst) := by
  induction vars generalizing subst with
  | nil => exact hproperty.of_pure subst
  | cons v vars ih =>
      unfold Definition.bindFreshVars
      split
      · exact ih subst
      · exact hproperty.bind (hproperty.freshValue hcall v.sort) fun _ => ih _

theorem buildRight (rule : Rule) (subst : Substitution) :
    property Term (definition.buildRight call rule subst) :=
  hproperty.bind (hproperty.bindFreshVars hcall rule.freshVars subst) fun extended =>
    hproperty.buildTerm hcall extended .instantiate rule.rhs

theorem firstHolding (rule : Rule) (substs : List Substitution) :
    property (Option Substitution) (definition.firstHolding call rule substs) := by
  induction substs with
  | nil => exact hproperty.of_pure none
  | cons subst substs ih =>
      refine hproperty.bind (hproperty.condition hcall rule subst) fun condition => ?_
      cases condition with
      | holds => exact hproperty.of_pure _
      | fails | unsettled _ => exact ih

theorem firstApplicable (subject : Term) (rules : List Rule) :
    property (Option (Rule × Substitution)) (definition.firstApplicable call subject rules) := by
  induction rules with
  | nil => exact hproperty.of_pure none
  | cons rule rules ih =>
      refine hproperty.bind (hproperty.firstHolding hcall rule _) fun found => ?_
      cases found with
      | none => exact ih
      | some subst => exact hproperty.of_pure _

theorem applyFunctionRules (label : Label) (args : List Term) :
    property Term (definition.applyFunctionRules call label args) := by
  refine hproperty.bind (hproperty.firstApplicable hcall _ _) fun choice => ?_
  cases choice with
  | none => exact hproperty.of_pure _
  | some found => exact hproperty.buildRight hcall found.1 found.2

end Caller

theorem callWithin (limit levels : Nat) (label : Label) (args : List Term) :
    property Term (definition.callWithin limit levels label args) := by
  induction levels generalizing label args with
  | zero => exact hproperty.of_throw _
  | succ levels ih =>
      refine hproperty.bind (hproperty.record _ fun _ => ⟨rfl, rfl⟩) fun _ => ?_
      split
      · exact hproperty.of_pure _
      · exact hproperty.applyFunctionRules ih label args

end Evaluation

/-! ### The operations of a machine -/

section Machine

variable (machine : Machine σ)

theorem call (label : Label) (args : List Term) : property Term (machine.call label args) :=
  hproperty.callWithin _ _ label args

theorem evaluate (term : Term) : property Term (machine.evaluate term) :=
  hproperty.buildTerm (hproperty.call machine) .empty .evaluate term

theorem fresh (sort : SortName) : property Term (machine.fresh sort) :=
  hproperty.freshValue (hproperty.call machine) sort

theorem applyRule (rule : Rule) (subst : Substitution) :
    property Term (machine.applyRule rule subst) :=
  hproperty.buildRight (hproperty.call machine) rule subst

theorem machineCondition (rule : Rule) (subst : Substitution) :
    property Condition (machine.condition rule subst) :=
  hproperty.condition (hproperty.call machine) rule subst

theorem admitMatches (path : PathCondition) (founds : List StructuralMatch)
    (results : RuleMatches) : property RuleMatches (machine.admitMatches path founds results) := by
  induction founds generalizing results with
  | nil => exact hproperty.of_pure results
  | cons found others ih =>
      unfold Machine.admitMatches
      split
      · exact ih _
      · refine hproperty.bind (hproperty.record _ fun _ => ⟨rfl, rfl⟩) fun _ =>
          hproperty.bind (hproperty.ask _) fun refinement => ?_
        cases refinement with
        | refined _ | unsat | unknown => exact ih _

theorem matchRuleUnder (rule : Rule) (subject : Term) (path : PathCondition) :
    property RuleMatches (machine.matchRuleUnder rule subject path) := by
  refine hproperty.bind (hproperty.record _ fun _ => ⟨rfl, rfl⟩) fun _ =>
    hproperty.bind (hproperty.record _ fun _ => ⟨rfl, rfl⟩) fun _ =>
      hproperty.bind (hproperty.admitMatches machine path _ _) fun results =>
        hproperty.bind ?_ fun _ => hproperty.of_pure results
  unfold Machine.recordOutcome
  split
  · exact hproperty.of_pure ()
  · exact hproperty.record _ fun _ => ⟨rfl, rfl⟩
  · exact hproperty.record _ fun _ => ⟨rfl, rfl⟩

theorem matchRule (rule : Rule) (subject : Term) :
    property RuleMatches (machine.matchRule rule subject) :=
  hproperty.matchRuleUnder machine rule subject .trivial

end Machine

end Run.Stepless

/-! ### Steps and what is made of them -/

namespace Run.Compositional

variable {property : (α : Type) → Run σ α → Prop} (hproperty : Compositional property)
  (machine : Machine σ)
include hproperty

theorem stepByMatches (rule : Rule) (founds : List RuleMatch) :
    property (Option StepResult) (machine.stepByMatches rule founds) := by
  induction founds with
  | nil => exact hproperty.of_pure none
  | cons found others ih =>
      unfold Machine.stepByMatches
      split
      · exact hproperty.of_pure _
      · refine hproperty.bind (hproperty.machineCondition machine rule found.subst)
          fun condition => ?_
        cases condition with
        | holds =>
            exact hproperty.bind (hproperty.applyRule machine rule found.subst) fun _ =>
              hproperty.bind hproperty.recordStep fun _ => hproperty.of_pure _
        | fails => exact ih
        | unsettled _ => exact hproperty.of_pure _

theorem stepByRules (subject : Term) (rules : List Rule) :
    property StepResult (machine.stepByRules subject rules) := by
  induction rules with
  | nil => exact hproperty.of_pure StepResult.stuck
  | cons rule rules ih =>
      refine hproperty.bind (hproperty.matchRule machine rule subject) fun results =>
        hproperty.bind (hproperty.stepByMatches machine rule _) fun outcome => ?_
      cases outcome with
      | some result => exact hproperty.of_pure result
      | none =>
          dsimp only
          split
          · exact hproperty.of_pure _
          · exact ih

theorem step (subject : Term) : property StepResult (machine.step subject) :=
  hproperty.stepByRules machine subject _

theorem successorsByMatches (rule : Rule) (founds : List RuleMatch) :
    property (List (RuleId × Term)) (machine.successorsByMatches rule founds) := by
  induction founds with
  | nil => exact hproperty.of_pure []
  | cons found others ih =>
      unfold Machine.successorsByMatches
      split
      · exact ih
      · refine hproperty.bind (hproperty.machineCondition machine rule found.subst)
          fun condition => ?_
        cases condition with
        | holds =>
            exact hproperty.bind (hproperty.applyRule machine rule found.subst) fun _ =>
              hproperty.bind ih fun _ => hproperty.of_pure _
        | fails | unsettled _ => exact ih

theorem successorsByRules (subject : Term) (rules : List Rule) :
    property (List (RuleId × Term)) (machine.successorsByRules subject rules) := by
  induction rules with
  | nil => exact hproperty.of_pure []
  | cons rule rules ih =>
      exact hproperty.bind (hproperty.matchRule machine rule subject) fun results =>
        hproperty.bind (hproperty.successorsByMatches machine rule _) fun _ =>
          hproperty.bind ih fun _ => hproperty.of_pure _

theorem successors (subject : Term) :
    property (List (RuleId × Term)) (machine.successors subject) :=
  hproperty.successorsByRules machine subject _

theorem runObserved (observe : α → RuleId → Term → α) (bound : Nat) (term : Term) (steps : Nat)
    (seen : α) : property (RunResult × α) (machine.runObserved observe bound term steps seen) := by
  induction bound generalizing term steps seen with
  | zero => exact hproperty.of_pure _
  | succ bound ih =>
      refine hproperty.bind (hproperty.step machine term) fun result => ?_
      cases result with
      | rewrote rule next => exact ih next _ _
      | stuck | undecided => exact hproperty.of_pure _

theorem run (subject : Term) (bound : Option Nat) :
    property RunResult (machine.run subject bound) :=
  hproperty.bind (hproperty.runObserved machine _ _ subject 0 ()) fun _ => hproperty.of_pure _

theorem searchFrom (pattern : Term) (config : SearchConfig) (frontier : Frontier)
    (solutions : Array Solution) (states : Nat) :
    property SearchResult (machine.searchFrom pattern config frontier solutions states) := by
  fun_induction Machine.searchFrom machine pattern config frontier solutions states with
  | case1 => exact hproperty.of_pure _
  | case2 => exact hproperty.of_pure _
  | case3 _ _ _ _ _ _ _ _ _ _ ih =>
      exact hproperty.bind (hproperty.successors machine _) fun next => ih next

theorem search (subject pattern : Term) (config : SearchConfig) :
    property SearchResult (machine.search subject pattern config) :=
  hproperty.searchFrom machine pattern config _ _ _

theorem takeMatch (state : ConstrainedTerm) (rule : Rule) (subst : Substitution)
    (guard : PathCondition) :
    property MatchSuccessor (machine.takeMatch state rule subst guard) :=
  hproperty.bind (hproperty.applyRule machine rule subst) fun _ =>
    hproperty.bind hproperty.recordStep fun _ => hproperty.of_pure _

theorem symbolicMatch (state : ConstrainedTerm) (rule : Rule) (found : RuleMatch) :
    property MatchSuccessor (machine.symbolicMatch state rule found) := by
  refine hproperty.bind (hproperty.machineCondition machine rule found.subst) fun condition => ?_
  cases condition with
  | holds => exact hproperty.takeMatch machine state rule _ _
  | fails => exact hproperty.of_pure _
  | unsettled proposition =>
      refine hproperty.bind (hproperty.record _ fun _ => ⟨rfl, rfl⟩) fun _ =>
        hproperty.bind (hproperty.ask _) fun decision => ?_
      cases decision with
      | holds => exact hproperty.takeMatch machine state rule _ _
      | fails => exact hproperty.of_pure _
      | unknown =>
          dsimp only
          split
          · exact hproperty.takeMatch machine state rule _ _
          · exact hproperty.of_pure _

theorem symbolicMatches (state : ConstrainedTerm) (rule : Rule) (founds : List RuleMatch)
    (guarded : Guarded) :
    property Guarded (machine.symbolicMatches state rule founds guarded) := by
  induction founds generalizing guarded with
  | nil => exact hproperty.of_pure guarded
  | cons found others ih =>
      exact hproperty.bind (hproperty.symbolicMatch machine state rule found) fun _ => ih _

theorem symbolicRules (state : ConstrainedTerm) (rules : List Rule) (guarded : Guarded) :
    property Guarded (machine.symbolicRules state rules guarded) := by
  induction rules generalizing guarded with
  | nil => exact hproperty.of_pure guarded
  | cons rule rules ih =>
      exact hproperty.bind (hproperty.matchRuleUnder machine rule _ _) fun _ =>
        hproperty.bind (hproperty.symbolicMatches machine state rule _ _) fun _ => ih _

theorem completeStep (state : ConstrainedTerm) (guarded : Guarded) :
    property SymbolicStep (machine.completeStep state guarded) := by
  unfold Machine.completeStep
  dsimp only
  split
  · refine hproperty.bind (hproperty.record _ fun _ => ⟨rfl, rfl⟩) fun _ =>
      hproperty.bind (hproperty.ask _) fun refinement => ?_
    cases refinement with
    | unsat => exact hproperty.of_pure _
    | refined _ | unknown =>
        dsimp only
        split <;> exact hproperty.of_pure _
  · exact hproperty.of_pure _

theorem stepSymbolic (state : ConstrainedTerm) :
    property SymbolicStep (machine.stepSymbolic state) :=
  hproperty.bind (hproperty.symbolicRules machine state _ {}) fun _ =>
    hproperty.completeStep machine state _

end Run.Compositional

end SymbolicRewriting
