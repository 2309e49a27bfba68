import SymbolicRewriting.Machine.Evaluation
import SymbolicRewriting.Machine.RuleMatch

/-!
Symbolic steps. Each successor has a guard: the constraints of its match and the condition that was
assumed for it. If every successor is guarded, the states that none of them covers are the
remainder: the state under the negation of all guards.
-/

namespace SymbolicRewriting

variable {σ : Type}

structure Successor where
  rule : RuleId
  state : ConstrainedTerm

structure SymbolicStep where
  successors : List Successor := []
  /-- Matches and conditions that could be neither applied nor ruled out. -/
  undecided : Nat := 0
  remainder : Option ConstrainedTerm := none

inductive MatchSuccessor where
  | dropped
  | undecided
  | taken (successor : Successor) (guard : PathCondition)

structure Guarded where
  taken : Array (Successor × PathCondition) := #[]
  undecided : Nat := 0

namespace Guarded

def add (guarded : Guarded) (outcome : MatchSuccessor) : Guarded :=
  match outcome with
  | .dropped => guarded
  | .undecided => { guarded with undecided := guarded.undecided + 1 }
  | .taken successor guard => { guarded with taken := guarded.taken.push (successor, guard) }

def guards (guarded : Guarded) : List PathCondition :=
  guarded.taken.toList.map Prod.snd

def successors (guarded : Guarded) : List Successor :=
  guarded.taken.toList.map Prod.fst

/-- Can there be states that no successor covers? -/
def leavesRemainder (guarded : Guarded) : Bool :=
  !guarded.taken.isEmpty && guarded.guards.all fun guard => !guard.isTrivial

end Guarded

def PathCondition.negation (guard : PathCondition) : Term :=
  match guard.conjuncts with
  | [] => .negated (.bool true)
  | first :: others => .negated (others.foldl Term.conjoined first)

namespace Machine

def takeMatch (machine : Machine σ) (state : ConstrainedTerm) (rule : Rule) (subst : Substitution)
    (guard : PathCondition) : Run σ MatchSuccessor := do
  let term ← machine.applyRule rule subst
  Run.record Metrics.recordStep
  pure (.taken ⟨rule.id, ⟨term, state.condition.and guard⟩⟩ guard)

/-- A condition that the match leaves open is put to the oracle, and assumed if it is not decided
and the configuration allows it. -/
def symbolicMatch (machine : Machine σ) (state : ConstrainedTerm) (rule : Rule)
    (found : RuleMatch) : Run σ MatchSuccessor := do
  match ← machine.condition rule found.subst with
  | .holds => machine.takeMatch state rule found.subst found.condition
  | .fails => pure .dropped
  | .unsettled proposition =>
      Run.record Metrics.recordOracleCall
      match ← machine.decideUnder (state.condition.and found.condition) proposition with
      | .holds => machine.takeMatch state rule found.subst found.condition
      | .fails => pure .dropped
      | .unknown =>
          if machine.config.symbolicSideConditions then
            machine.takeMatch state rule found.subst (found.condition.assume proposition)
          else pure .undecided

def symbolicMatches (machine : Machine σ) (state : ConstrainedTerm) (rule : Rule) :
    List RuleMatch → Guarded → Run σ Guarded
  | [], guarded => pure guarded
  | found :: others, guarded => do
      let outcome ← machine.symbolicMatch state rule found
      symbolicMatches machine state rule others (guarded.add outcome)

def symbolicRules (machine : Machine σ) (state : ConstrainedTerm) :
    List Rule → Guarded → Run σ Guarded
  | [], guarded => pure guarded
  | rule :: rules, guarded => do
      let results ← machine.matchRuleUnder rule state.term state.condition
      let counted := { guarded with undecided := guarded.undecided + results.undecided }
      let extended ← machine.symbolicMatches state rule results.found.toList counted
      symbolicRules machine state rules extended

/-- The step that has the guarded successors, with a remainder that the oracle does not refute. A
remainder that assumes nothing new cannot be split off and counts as undecided. -/
def completeStep (machine : Machine σ) (state : ConstrainedTerm) (guarded : Guarded) :
    Run σ SymbolicStep := do
  let step : SymbolicStep := { successors := guarded.successors, undecided := guarded.undecided }
  if guarded.leavesRemainder then
    let uncovered := state.condition.assumeAll (guarded.guards.map PathCondition.negation)
    Run.record Metrics.recordOracleCall
    match ← machine.refineUnder .empty uncovered with
    | .unsat => pure step
    | _ =>
        if uncovered == state.condition then pure { step with undecided := step.undecided + 1 }
        else pure { step with remainder := some ⟨state.term, uncovered⟩ }
  else pure step

/-- Every successor by an applicable rule and match, each under its own condition. -/
def stepSymbolic (machine : Machine σ) (state : ConstrainedTerm) : Run σ SymbolicStep := do
  let guarded ← machine.symbolicRules state (machine.definition.candidates state.term) {}
  machine.completeStep state guarded

end Machine

end SymbolicRewriting
