import SymbolicRewriting.Machine.Evaluation
import SymbolicRewriting.Machine.RuleMatch

/-!
Concrete steps: the first applicable rule, or all of them. For a single step a candidate that can
be neither applied nor ruled out blocks the later ones; the enumeration of all successors passes
over it.
-/

namespace SymbolicRewriting

variable {σ : Type}

inductive StepResult where
  | rewrote (rule : RuleId) (term : Term)
  | stuck
  /-- A rule could be neither applied nor ruled out. -/
  | undecided

namespace Machine

/-- What the matches of one rule make of a step; nothing if each of them fails its condition. -/
def stepByMatches (machine : Machine σ) (rule : Rule) :
    List RuleMatch → Run σ (Option StepResult)
  | [] => pure none
  | found :: others =>
      if !found.condition.isTrivial then pure (some .undecided)
      else do
        match ← machine.condition rule found.subst with
        | .holds =>
            let term ← machine.applyRule rule found.subst
            Run.record Metrics.recordStep
            pure (some (.rewrote rule.id term))
        | .fails => stepByMatches machine rule others
        | .unsettled _ => pure (some .undecided)

def stepByRules (machine : Machine σ) (subject : Term) : List Rule → Run σ StepResult
  | [] => pure .stuck
  | rule :: rules => do
      let results ← machine.matchRule rule subject
      match ← machine.stepByMatches rule results.found.toList with
      | some result => pure result
      | none => if results.undecided > 0 then pure .undecided else stepByRules machine subject rules

def step (machine : Machine σ) (subject : Term) : Run σ StepResult :=
  machine.stepByRules subject (machine.definition.candidates subject)

/-- The successors by the matches of one rule that need no constraint and whose condition holds. -/
def successorsByMatches (machine : Machine σ) (rule : Rule) :
    List RuleMatch → Run σ (List (RuleId × Term))
  | [] => pure []
  | found :: others =>
      if !found.condition.isTrivial then successorsByMatches machine rule others
      else do
        match ← machine.condition rule found.subst with
        | .holds =>
            let term ← machine.applyRule rule found.subst
            let later ← successorsByMatches machine rule others
            pure ((rule.id, term) :: later)
        | _ => successorsByMatches machine rule others

def successorsByRules (machine : Machine σ) (subject : Term) :
    List Rule → Run σ (List (RuleId × Term))
  | [] => pure []
  | rule :: rules => do
      let results ← machine.matchRule rule subject
      let first ← machine.successorsByMatches rule results.found.toList
      let later ← successorsByRules machine subject rules
      pure (first ++ later)

def successors (machine : Machine σ) (subject : Term) : Run σ (List (RuleId × Term)) :=
  machine.successorsByRules subject (machine.definition.candidates subject)

end Machine

end SymbolicRewriting
