/-!
Counters of what a machine has done.
-/

namespace SymbolicRewriting

structure Metrics where
  steps : Nat := 0
  matchAttempts : Nat := 0
  matchFailures : Nat := 0
  bindingConflicts : Nat := 0
  undecidedMatches : Nat := 0
  freshRequests : Nat := 0
  oracleCalls : Nat := 0
  functionEvals : Nat := 0
deriving DecidableEq, Repr

namespace Metrics

def recordStep (metrics : Metrics) : Metrics :=
  { metrics with steps := metrics.steps + 1 }

def recordMatchAttempt (metrics : Metrics) : Metrics :=
  { metrics with matchAttempts := metrics.matchAttempts + 1 }

def recordMatchFailure (metrics : Metrics) : Metrics :=
  { metrics with matchFailures := metrics.matchFailures + 1 }

def recordBindingConflicts (count : Nat) (metrics : Metrics) : Metrics :=
  { metrics with bindingConflicts := metrics.bindingConflicts + count }

def recordUndecidedMatch (metrics : Metrics) : Metrics :=
  { metrics with undecidedMatches := metrics.undecidedMatches + 1 }

def recordFreshRequest (metrics : Metrics) : Metrics :=
  { metrics with freshRequests := metrics.freshRequests + 1 }

def recordOracleCall (metrics : Metrics) : Metrics :=
  { metrics with oracleCalls := metrics.oracleCalls + 1 }

def recordFunctionEval (metrics : Metrics) : Metrics :=
  { metrics with functionEvals := metrics.functionEvals + 1 }

end Metrics

end SymbolicRewriting
