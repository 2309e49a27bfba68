import SymbolicRewriting.Queue
import SymbolicRewriting.Machine.Step
import SymbolicRewriting.Term.Fingerprint
import Std.Data.HashSet

/-!
Breadth-first search of the states that are reached by concrete steps, for those that match a
pattern. Equal states are visited once. Three limits can cut it short: the number of solutions,
the depth, and the number of states.
-/

namespace SymbolicRewriting

variable {σ : Type}

structure SearchConfig where
  maxSolutions : Option Nat := none
  maxDepth : Option Nat := none
  maxStates : Nat := 100000

structure Solution where
  state : Term
  subst : Substitution
  depth : Nat

structure SearchResult where
  solutions : List Solution := []
  states : Nat := 0
  /-- Is it certain that no limit cut the search short? -/
  complete : Bool := false

/-- The states that wait to be examined, with their depths, and all that have been met. -/
structure Frontier where
  waiting : Queue (Term × Nat) := {}
  met : Std.HashSet Term := ∅
  /-- The number of further states that may be met. -/
  room : Nat
  truncated : Bool := false

namespace Frontier

def start (subject : Term) (maxStates : Nat) : Frontier :=
  { waiting := Queue.push {} (subject, 0), met := .insert ∅ subject, room := maxStates - 1 }

def measure (frontier : Frontier) : Nat := frontier.room + frontier.waiting.length

/-- Lets in the terms that have not been met, until there is no room for one. -/
def letIn (depth : Nat) : List Term → Frontier → Frontier
  | [], frontier => frontier
  | term :: terms, frontier =>
      if frontier.met.contains term then letIn depth terms frontier
      else
        match frontier.room with
        | 0 => { frontier with truncated := true }
        | room + 1 =>
            letIn depth terms
              { frontier with
                waiting := frontier.waiting.push (term, depth)
                met := frontier.met.insert term
                room }

theorem measure_letIn (depth : Nat) (terms : List Term) (frontier : Frontier) :
    (frontier.letIn depth terms).measure = frontier.measure := by
  fun_induction letIn depth terms frontier with
  | case1 => rfl
  | case2 term terms frontier hmet ih => exact ih
  | case3 => rfl
  | case4 term terms frontier hmet room hroom ih =>
      rw [ih]
      simp only [measure, hroom, Queue.length_push]
      omega

end Frontier

/-- Adds a solution for each match, until the limit is reached; then the second part is true. -/
def collectSolutions (config : SearchConfig) (state : Term) (depth : Nat) :
    List Substitution → Array Solution → Array Solution × Bool
  | [], solutions => (solutions, false)
  | subst :: others, solutions =>
      let extended := solutions.push ⟨state, subst, depth⟩
      if config.maxSolutions.any fun limit => decide (limit ≤ extended.size) then (extended, true)
      else collectSolutions config state depth others extended

namespace Machine

def extendFrontier (config : SearchConfig) (depth : Nat) (next : List (RuleId × Term))
    (frontier : Frontier) : Frontier :=
  if config.maxDepth.any fun limit => decide (limit ≤ depth) then
    { frontier with truncated := frontier.truncated || !next.isEmpty }
  else frontier.letIn (depth + 1) (next.map Prod.snd)

theorem measure_extendFrontier (config : SearchConfig) (depth : Nat)
    (next : List (RuleId × Term)) (frontier : Frontier) :
    (extendFrontier config depth next frontier).measure = frontier.measure := by
  unfold extendFrontier
  split
  · rfl
  · exact frontier.measure_letIn _ _

/-- Examines the waiting states in order; `states` have been examined before. -/
def searchFrom (machine : Machine σ) (pattern : Term) (config : SearchConfig)
    (frontier : Frontier) (solutions : Array Solution) (states : Nat) : Run σ SearchResult :=
  match _hpop : frontier.waiting.pop? with
  | none => pure ⟨solutions.toList, states, !frontier.truncated⟩
  | some ((term, depth), waiting) =>
      let found := machine.definition.concreteMatches pattern term
      match collectSolutions config term depth found solutions with
      | (solutions, true) => pure ⟨solutions.toList, states + 1, false⟩
      | (solutions, false) => do
          let next ← machine.successors term
          machine.searchFrom pattern config
            (extendFrontier config depth next { frontier with waiting }) solutions (states + 1)
termination_by frontier.measure
decreasing_by
  rw [measure_extendFrontier]
  simp only [Frontier.measure, Queue.length_of_pop? _hpop]
  omega

def search (machine : Machine σ) (subject pattern : Term) (config : SearchConfig) :
    Run σ SearchResult :=
  machine.searchFrom pattern config (Frontier.start subject config.maxStates) #[] 0

end Machine

end SymbolicRewriting
