import SymbolicRewriting.Error
import SymbolicRewriting.Metrics
import SymbolicRewriting.Oracle.Basic
import SymbolicRewriting.Definition.Basic

/-!
What a run changes while it goes on, and what a machine holds fixed. A run that ends in an error
keeps the changes made before it.
-/

namespace SymbolicRewriting

structure RunState (σ : Type) where
  /-- The number of cell identities drawn so far. -/
  cellsDrawn : Nat := 0
  counter : UInt64 := 0
  metrics : Metrics := {}
  /-- The state of the oracle and of whatever else surrounds the run. -/
  environment : σ
  /-- Has the present proof search been told to stop? -/
  cancelled : Bool := false

/-- Identities are drawn in order, and the word wraps around. -/
def RunState.nextCell {σ : Type} (state : RunState σ) : CellId := UInt32.ofNat state.cellsDrawn

abbrev Run (σ : Type) := EStateM RewriteError (RunState σ)

namespace Run

variable {σ : Type}

def record (update : Metrics → Metrics) : Run σ Unit :=
  modify fun state => { state with metrics := update state.metrics }

def drawCell : Run σ CellId :=
  modifyGet fun state => (state.nextCell, { state with cellsDrawn := state.cellsDrawn + 1 })

def drawCounter : Run σ UInt64 :=
  modifyGet fun state => (state.counter, { state with counter := state.counter + 1 })

def ask {α : Type} (question : σ → α × σ) : Run σ α :=
  modifyGet fun state =>
    let (answer, environment) := question state.environment
    (answer, { state with environment })

/-- Once the source has asked for an end, this stays so. -/
def pollCancelled (source : σ → Bool × σ) : Run σ Bool := do
  if (← get).cancelled then return true
  let asked ← ask source
  modify fun state => { state with cancelled := asked }
  return asked

/-- Runs to the end, keeping an error as a value. -/
def attempt {α : Type} (run : Run σ α) (state : RunState σ) : Except RewriteError α × RunState σ :=
  match run state with
  | .ok value next => (.ok value, next)
  | .error error next => (.error error, next)

end Run

structure MachineConfig where
  maxFunctionDepth : Nat := 256
  /-- Does a symbolic step assume a condition that the oracle cannot decide? -/
  symbolicSideConditions : Bool := true

structure Machine (σ : Type) where
  definition : Definition
  oracle : Oracle σ
  config : MachineConfig := {}

namespace Machine

variable {σ : Type}

def decideUnder (machine : Machine σ) (path : PathCondition) (proposition : Term) :
    Run σ Decision :=
  Run.ask (machine.oracle.decide path proposition)

def refineUnder (machine : Machine σ) (subst : Substitution) (path : PathCondition) :
    Run σ Refinement :=
  Run.ask (machine.oracle.refine subst path)

def implies (machine : Machine σ) (premise conclusion : PathCondition) : Run σ Decision :=
  Run.ask (machine.oracle.implies premise conclusion)

end Machine

end SymbolicRewriting
