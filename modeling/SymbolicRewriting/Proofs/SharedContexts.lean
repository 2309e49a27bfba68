import Mathlib.Algebra.BigOperators.Fin
import SymbolicRewriting.Proofs.Compositional

/-!
# Machines that share a context

Several machines may work on one run. They draw from the same counter and each counts in its own
metrics, which the clones of a machine have in common with it.

Between two actions of one machine the others may act. So what a machine does is told as a script of
elementary actions, of which each is carried out at once, and whose rest may depend on the answer.
Every operation has such a script (`Run.compositional_scripted`). An interleaving carries out the
actions of many scripts in any order, and performing the operations one after another is one of the
interleavings (`Interleaving.exists_performAll`).
-/

namespace SymbolicRewriting

variable {n : Nat} {σ α β : Type}

/-! ### Scripts -/

/-- What a machine does at once. A fresh value is counted as its number is drawn: nothing that a
machine does depends on the metrics. -/
inductive Action (σ : Type) : Type → Type 1 where
  | drawCell : Action σ CellId
  | drawToken : Action σ Term
  | record (update : Metrics → Metrics)
      (hupdate : ∀ metrics, (update metrics).freshRequests = metrics.freshRequests) : Action σ Unit
  | ask {α : Type} (question : σ → α × σ) : Action σ α

namespace Action

def perform : Action σ α → RunState σ → α × RunState σ
  | drawCell, state => (state.nextCell, { state with cellsDrawn := state.cellsDrawn + 1 })
  | drawToken, state =>
      (.ofNumber state.counter,
        { state with
          counter := state.counter + 1
          metrics := state.metrics.recordFreshRequest })
  | record update _, state => ((), { state with metrics := update state.metrics })
  | ask question, state =>
      let (answer, environment) := question state.environment
      (answer, { state with environment })

/-- The tokens that an action with the given answer has drawn. -/
def drawn : Action σ α → α → List Term
  | drawToken, token => [token]
  | _, _ => []

def run (action : Action σ α) : Run σ α := modifyGet action.perform

end Action

/-- Actions one after another, up to the result. -/
inductive Script (σ α : Type) : Type 1 where
  | done (result : Except RewriteError α)
  | act {β : Type} (action : Action σ β) (rest : β → Script σ α)

namespace Script

/-- Carries out the script, with nothing in between. -/
def run : Script σ α → Run σ α
  | done (.ok value) => pure value
  | done (.error error) => throw error
  | act action rest => action.run >>= fun answer => (rest answer).run

/-- The value of a script that has come to its end without an error. -/
def value? : Script σ α → Option α
  | done (.ok value) => some value
  | _ => none

def ofAction (action : Action σ α) : Script σ α := act action fun answer => done (.ok answer)

def bind (continuation : α → Script σ β) : Script σ α → Script σ β
  | done (.ok value) => continuation value
  | done (.error error) => done (.error error)
  | act action rest => act action fun answer => (rest answer).bind continuation

theorem run_ofAction (action : Action σ α) : (ofAction action).run = action.run :=
  bind_pure action.run

theorem run_bind (script : Script σ α) (continuation : α → Script σ β) :
    (script.bind continuation).run = script.run >>= fun value => (continuation value).run := by
  induction script with
  | done result =>
      cases result with
      | ok value => rfl
      | error error => rfl
  | act action rest ih =>
      simp only [bind, run, ih, bind_assoc]

end Script

namespace Run

/-- The run can be told as a script. -/
def Scripted (run : Run σ α) : Prop := ∃ script : Script σ α, script.run = run

theorem scripted_ofAction (action : Action σ α) : action.run.Scripted :=
  ⟨.ofAction action, Script.run_ofAction action⟩

theorem compositional_scripted : Compositional fun α (run : Run σ α) => run.Scripted where
  of_pure value := ⟨.done (.ok value), rfl⟩
  of_throw error := ⟨.done (.error error), rfl⟩
  bind := by
    rintro α β _ continuation ⟨script, rfl⟩ hcontinuation
    choose scripts hscripts using hcontinuation
    exact ⟨script.bind scripts, by simp only [Script.run_bind, hscripts]⟩
  drawCell := scripted_ofAction .drawCell
  drawToken := scripted_ofAction .drawToken
  record update hupdate := scripted_ofAction (.record update fun metrics => (hupdate metrics).1)
  recordStep := scripted_ofAction (.record Metrics.recordStep fun _ => rfl)
  ask question := scripted_ofAction (.ask question)

end Run

/-- What a machine can be asked to do. -/
inductive Operation where
  | evaluate (term : Term)
  | fresh (sort : SortName)
  | applyRule (rule : Rule) (subst : Substitution)
  | step (subject : Term)
  | successors (subject : Term)
  | stepSymbolic (state : ConstrainedTerm)
  | run (subject : Term) (bound : Option Nat)
  | search (subject pattern : Term) (config : SearchConfig)

/-- The run, without its value. -/
def Run.forget (run : Run σ α) : Run σ Unit := do
  let _ ← run
  pure ()

def Operation.runBy (machine : Machine σ) : Operation → Run σ Unit
  | evaluate term => (machine.evaluate term).forget
  | fresh sort => (machine.fresh sort).forget
  | applyRule rule subst => (machine.applyRule rule subst).forget
  | step subject => (machine.step subject).forget
  | successors subject => (machine.successors subject).forget
  | stepSymbolic state => (machine.stepSymbolic state).forget
  | run subject bound => (machine.run subject bound).forget
  | search subject pattern config => (machine.search subject pattern config).forget

namespace Run.Compositional

variable {property : (α : Type) → Run σ α → Prop} (hproperty : Compositional property)
include hproperty

theorem forget {run : Run σ α} (hrun : property α run) : property Unit run.forget :=
  hproperty.bind hrun fun _ => hproperty.of_pure ()

theorem operation (machine : Machine σ) (operation : Operation) :
    property Unit (operation.runBy machine) := by
  cases operation with
  | evaluate term => exact hproperty.forget (hproperty.evaluate machine term)
  | fresh sort => exact hproperty.forget (hproperty.fresh machine sort)
  | applyRule rule subst => exact hproperty.forget (hproperty.applyRule machine rule subst)
  | step subject => exact hproperty.forget (hproperty.step machine subject)
  | successors subject => exact hproperty.forget (hproperty.successors machine subject)
  | stepSymbolic state => exact hproperty.forget (hproperty.stepSymbolic machine state)
  | run subject bound => exact hproperty.forget (hproperty.run machine subject bound)
  | search subject pattern config =>
      exact hproperty.forget (hproperty.search machine subject pattern config)

end Run.Compositional

/-! ### Contexts -/

/-- What runs that share a context leave behind for each other, and the metrics of each. -/
structure SharedContext (n : Nat) (σ : Type) where
  cellsDrawn : Nat := 0
  counter : UInt64
  environment : σ
  cancelled : Bool := false
  metrics : Fin n → Metrics

namespace SharedContext

/-- The state in which a machine finds itself that counts in the given metrics. -/
def view (context : SharedContext n σ) (account : Fin n) : RunState σ where
  cellsDrawn := context.cellsDrawn
  counter := context.counter
  metrics := context.metrics account
  environment := context.environment
  cancelled := context.cancelled

def store (context : SharedContext n σ) (account : Fin n) (state : RunState σ) :
    SharedContext n σ where
  cellsDrawn := state.cellsDrawn
  counter := state.counter
  environment := state.environment
  cancelled := state.cancelled
  metrics := Function.update context.metrics account state.metrics

@[simp]
theorem view_store (context : SharedContext n σ) (account : Fin n) (state : RunState σ) :
    (context.store account state).view account = state := by
  simp [view, store]

@[simp]
theorem store_view (context : SharedContext n σ) (account : Fin n) :
    context.store account (context.view account) = context := by
  simp [view, store]

@[simp]
theorem store_store (context : SharedContext n σ) (account : Fin n) (state next : RunState σ) :
    (context.store account state).store account next = context.store account next := by
  simp [store]

/-- Lets a machine act that counts in the given metrics. -/
def act (context : SharedContext n σ) (account : Fin n) (action : RunState σ → α × RunState σ) :
    α × SharedContext n σ :=
  ((action (context.view account)).1, context.store account (action (context.view account)).2)

theorem act_act (context : SharedContext n σ) (account : Fin n)
    (first : RunState σ → α × RunState σ) (second : RunState σ → β × RunState σ) :
    (context.act account first).2.act account second =
      context.act account fun state => second (first state).2 := by
  simp [act]

/-- Performs the runs one after another, each of them to its end. -/
def performAll (context : SharedContext n σ) :
    List (Fin n × Run σ α) → List (Except RewriteError α) × SharedContext n σ
  | [] => ([], context)
  | (account, run) :: others =>
      let (result, next) := context.act account run.attempt
      let (results, last) := next.performAll others
      (result :: results, last)

end SharedContext

/-! ### Interleavings -/

/-- What is left to do of a script, and the metrics in which its machine counts. -/
structure Thread (n : Nat) (σ α : Type) where
  account : Fin n
  script : Script σ α

def Thread.run (thread : Thread n σ α) : Fin n × Run σ α := (thread.account, thread.script.run)

def Thread.value? (thread : Thread n σ α) : Option α := thread.script.value?

/-- From a context and threads to a later context and what is then left of the threads, with the
tokens drawn on the way. -/
inductive Interleaving : SharedContext n σ → List (Thread n σ α) → List Term →
    SharedContext n σ → List (Thread n σ α) → Prop where
  | refl (context : SharedContext n σ) (threads : List (Thread n σ α)) :
      Interleaving context threads [] context threads
  | act {first context : SharedContext n σ} {threads before after : List (Thread n σ α)}
      {tokens : List Term} {account : Fin n} {β : Type} {action : Action σ β}
      {rest : β → Script σ α}
      (hbefore : Interleaving first threads tokens context
        (before ++ ⟨account, .act action rest⟩ :: after)) :
      Interleaving first threads
        (tokens ++ action.drawn (context.act account action.perform).1)
        (context.act account action.perform).2
        (before ++ ⟨account, rest (context.act account action.perform).1⟩ :: after)

namespace Interleaving

variable {first context last : SharedContext n σ} {threads before after left : List (Thread n σ α)}
  {tokens more : List Term}

theorem trans (hfirst : Interleaving first threads tokens context before)
    (hsecond : Interleaving context before more last after) :
    Interleaving first threads (tokens ++ more) last after := by
  induction hsecond with
  | refl => rwa [List.append_nil]
  | act _ ih =>
      rw [← List.append_assoc]
      exact (ih hfirst).act

/-- One thread may go to its end while the others wait. -/
theorem exists_alone (context : SharedContext n σ) (before after : List (Thread n σ α))
    (account : Fin n) (script : Script σ α) :
    ∃ tokens, Interleaving context (before ++ ⟨account, script⟩ :: after) tokens
      (context.act account script.run.attempt).2
      (before ++ ⟨account, .done (context.act account script.run.attempt).1⟩ :: after) := by
  induction script generalizing context with
  | done result =>
      refine ⟨[], ?_⟩
      have hdone : context.act account (Script.done result : Script σ α).run.attempt =
          (result, context) := by
        cases result with
        | ok value => exact Prod.ext rfl (context.store_view account)
        | error error => exact Prod.ext rfl (context.store_view account)
      rw [hdone]
      exact .refl context _
  | act action rest ih =>
      obtain ⟨tokens, hrest⟩ := ih (context.act account action.perform).1
        (context.act account action.perform).2
      rw [SharedContext.act_act] at hrest
      exact ⟨_, (Interleaving.refl context _).act.trans hrest⟩

/-- Performing the runs one after another is an interleaving of their scripts, from which nothing
is left but the results. -/
theorem exists_performAll (context : SharedContext n σ) (before threads : List (Thread n σ α)) :
    ∃ tokens ended, Interleaving context (before ++ threads) tokens
      (context.performAll (threads.map Thread.run)).2 (before ++ ended) ∧
      ended.map Thread.script =
        (context.performAll (threads.map Thread.run)).1.map Script.done := by
  induction threads generalizing context before with
  | nil => exact ⟨[], [], .refl context _, rfl⟩
  | cons thread threads ih =>
      obtain ⟨account, script⟩ := thread
      obtain ⟨tokens, halone⟩ := exists_alone context before threads account script
      obtain ⟨more, ended, hothers, hended⟩ := ih (context.act account script.run.attempt).2
        (before ++ [⟨account, .done (context.act account script.run.attempt).1⟩])
      rw [List.append_assoc, List.singleton_append, List.append_assoc] at hothers
      exact ⟨tokens ++ more, _, halone.trans hothers, congrArg (_ :: ·) hended⟩

end Interleaving

end SymbolicRewriting
