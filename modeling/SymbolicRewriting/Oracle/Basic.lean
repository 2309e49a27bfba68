import SymbolicRewriting.PathCondition

/-!
Oracles answer the symbolic questions that rewriting leaves open. An oracle has a state, which its
answers may depend on; a decision procedure is an oracle without one. An unknown answer is always
allowed and is never read as a positive one.
-/

namespace SymbolicRewriting

inductive Decision where
  | holds
  | fails
  | unknown
deriving DecidableEq, Repr

def Decision.negate : Decision → Decision
  | holds => fails
  | fails => holds
  | unknown => unknown

def Decision.ofBool (value : Bool) : Decision := if value then holds else fails

/-- A path is satisfiable, perhaps under a more special substitution, or it cannot hold. -/
inductive Refinement where
  | refined (subst : Substitution)
  | unsat
  | unknown

variable {σ : Type}

/-- Decides one conclusion after another; a failing one ends it, and an unknown one is kept in
mind. -/
def Decision.ofAll (decide : Term → σ → Decision × σ) :
    List Term → Decision → σ → Decision × σ
  | [], result, state => (result, state)
  | conclusion :: conclusions, result, state =>
      match decide conclusion state with
      | (.holds, next) => Decision.ofAll decide conclusions result next
      | (.fails, next) => (.fails, next)
      | (.unknown, next) => Decision.ofAll decide conclusions .unknown next

structure Oracle (σ : Type) where
  /-- Does the proposition hold under the path? -/
  decide : PathCondition → Term → σ → Decision × σ
  /-- Can the path hold, and what becomes of the substitution? -/
  refine : Substitution → PathCondition → σ → Refinement × σ
  /-- Does the premise imply the conclusion? Unless the oracle knows better, each conjunct is decided by
  itself. -/
  implies : PathCondition → PathCondition → σ → Decision × σ := fun premise conclusion =>
    Decision.ofAll (decide premise) conclusion.conjuncts .holds

/-- An oracle whose answers depend on the question alone. -/
structure DecisionProcedure where
  decide : PathCondition → Term → Decision
  refine : Substitution → PathCondition → Refinement
  implies : PathCondition → PathCondition → Decision := fun premise conclusion =>
    (Decision.ofAll (fun proposition _ => (decide premise proposition, ())) conclusion.conjuncts
      .holds ()).1

def DecisionProcedure.toOracle (procedure : DecisionProcedure) (σ : Type) : Oracle σ where
  decide path proposition state := (procedure.decide path proposition, state)
  refine subst path state := (procedure.refine subst path, state)
  implies premise conclusion state := (procedure.implies premise conclusion, state)

end SymbolicRewriting
