import SymbolicRewriting.Oracle.Basic

/-!
The oracle that knows nothing but the truth values themselves.
-/

namespace SymbolicRewriting.DecisionProcedure

def silentDecide (_path : PathCondition) (proposition : Term) : Decision :=
  match proposition.asBool with
  | some value => Decision.ofBool value
  | none => .unknown

def silentRefine (subst : Substitution) (path : PathCondition) : Refinement :=
  if path.isTrivial then .refined subst
  else if path.conjuncts.any fun conjunct => conjunct.asBool == some false then .unsat
  else .unknown

def silent : DecisionProcedure where
  decide := silentDecide
  refine := silentRefine

end SymbolicRewriting.DecisionProcedure
