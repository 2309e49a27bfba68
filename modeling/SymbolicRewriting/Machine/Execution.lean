import SymbolicRewriting.Machine.Step

/-!
Runs: steps until no rule applies or the bound is reached.
-/

namespace SymbolicRewriting

variable {σ : Type}

inductive HaltReason where
  /-- No rule applies after at least one step. -/
  | fixpoint
  | boundExhausted
  /-- No rule applies to the initial term. -/
  | stuck
  | undecided
deriving DecidableEq, Repr

structure RunResult where
  term : Term
  steps : Nat
  reason : HaltReason

structure TraceStep where
  rule : RuleId
  name : Option String
  term : Term

structure TracedRun where
  result : RunResult
  trace : List TraceStep

namespace Machine

/-- The number of steps that a run without a bound takes at most: steps are counted in a word. -/
def unbounded : Nat := UInt64.size - 1

/-- Steps at most `bound` times, `steps` having been taken, and lets `observe` see every step. -/
def runObserved {α : Type} (machine : Machine σ) (observe : α → RuleId → Term → α) :
    Nat → Term → Nat → α → Run σ (RunResult × α)
  | 0, term, steps, seen => pure (⟨term, steps, .boundExhausted⟩, seen)
  | bound + 1, term, steps, seen => do
      match ← machine.step term with
      | .rewrote rule next =>
          runObserved machine observe bound next (steps + 1) (observe seen rule next)
      | .stuck => pure (⟨term, steps, if steps > 0 then .fixpoint else .stuck⟩, seen)
      | .undecided => pure (⟨term, steps, .undecided⟩, seen)

def run (machine : Machine σ) (subject : Term) (bound : Option Nat) : Run σ RunResult := do
  let (result, _) ←
    machine.runObserved (fun _ _ _ => ()) (bound.getD unbounded) subject 0 ()
  pure result

def traceStep (machine : Machine σ) (rule : RuleId) (term : Term) : TraceStep :=
  ⟨rule, (machine.definition.rule? rule).bind fun found => found.name, term⟩

def runTraced (machine : Machine σ) (subject : Term) (bound : Option Nat) : Run σ TracedRun := do
  let (result, trace) ←
    machine.runObserved (fun trace rule term => trace.push (machine.traceStep rule term))
      (bound.getD unbounded) subject 0 #[]
  pure ⟨result, trace.toList⟩

end Machine

end SymbolicRewriting
