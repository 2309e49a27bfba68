import SymbolicRewriting.Machine.State
import SymbolicRewriting.Matching.Pattern

/-!
Matches of a rule under a path condition. A match that needs constraints is put to the oracle,
which may refine it or refute it.
-/

namespace SymbolicRewriting

variable {σ : Type}

structure RuleMatch where
  subst : Substitution
  /-- What the match adds to the path condition of the subject. -/
  condition : PathCondition

inductive MatchOutcome where
  | matched
  | noMatch
  | undecided
deriving DecidableEq, Repr

structure RuleMatches where
  found : Array RuleMatch := #[]
  undecided : Nat := 0

namespace RuleMatches

def accept (results : RuleMatches) (found : RuleMatch) : RuleMatches :=
  { results with found := results.found.push found }

def countUndecided (results : RuleMatches) : RuleMatches :=
  { results with undecided := results.undecided + 1 }

/-- Without a match, one undecided branch leaves the outcome undecided. -/
def outcome (results : RuleMatches) : MatchOutcome :=
  if !results.found.isEmpty then .matched
  else if results.undecided > 0 then .undecided
  else .noMatch

end RuleMatches

namespace Machine

/-- Puts the constrained ones among the matches to the oracle, in order. -/
def admitMatches (machine : Machine σ) (path : PathCondition) :
    List StructuralMatch → RuleMatches → Run σ RuleMatches
  | [], results => pure results
  | found :: others, results =>
      if found.constraints.isTrivial then
        admitMatches machine path others (results.accept ⟨found.subst, found.constraints⟩)
      else do
        Run.record Metrics.recordOracleCall
        match ← machine.refineUnder found.subst (path.and found.constraints) with
        | .refined subst =>
            admitMatches machine path others (results.accept ⟨subst, found.constraints⟩)
        | .unsat => admitMatches machine path others results
        | .unknown => admitMatches machine path others results.countUndecided

def recordOutcome (outcome : MatchOutcome) : Run σ Unit :=
  match outcome with
  | .matched => pure ()
  | .noMatch => Run.record Metrics.recordMatchFailure
  | .undecided => Run.record Metrics.recordUndecidedMatch

/-- Every match of the left side of a rule that the oracle admits under the path. -/
def matchRuleUnder (machine : Machine σ) (rule : Rule) (subject : Term) (path : PathCondition) :
    Run σ RuleMatches := do
  Run.record Metrics.recordMatchAttempt
  let structural := machine.definition.matchPattern rule.lhs subject
  Run.record (Metrics.recordBindingConflicts structural.conflicts)
  let results ←
    machine.admitMatches path structural.found.toList { undecided := structural.undecided }
  recordOutcome results.outcome
  pure results

def matchRule (machine : Machine σ) (rule : Rule) (subject : Term) : Run σ RuleMatches :=
  machine.matchRuleUnder rule subject .trivial

end Machine

end SymbolicRewriting
