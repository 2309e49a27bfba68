import SymbolicRewriting.Oracle.Basic

/-!
Oracles given by tables of answers.
-/

namespace SymbolicRewriting

/-- What a table says about a path that has a given conjunct. -/
inductive Verdict where
  | refined
  | unsat
  | unknown
deriving DecidableEq, Repr

/-- The first entry that applies gives the answer. A refined answer instantiates the values of the
substitution by `specialise`. -/
structure OracleTable where
  decisions : List (Term × Decision) := []
  decisionDefault : Decision := .unknown
  verdicts : List (Term × Verdict) := []
  verdictDefault : Verdict := .refined
  specialise : Substitution := {}

namespace OracleTable

def decide (table : OracleTable) (_path : PathCondition) (proposition : Term) : Decision :=
  ((table.decisions.find? fun entry => entry.1 == proposition).map Prod.snd).getD
    table.decisionDefault

def verdict (table : OracleTable) (path : PathCondition) : Verdict :=
  ((table.verdicts.find? fun entry => path.contains entry.1).map Prod.snd).getD
    table.verdictDefault

/-- The same bindings, each value instantiated, and the same writes. -/
def specialised (table : OracleTable) (subst : Substitution) : Substitution :=
  { subst with
    bindings := subst.bindings.map fun binding =>
      (binding.1, binding.2.applySubst table.specialise) }

def refine (table : OracleTable) (subst : Substitution) (path : PathCondition) : Refinement :=
  match table.verdict path with
  | .refined => .refined (table.specialised subst)
  | .unsat => .unsat
  | .unknown => .unknown

def procedure (table : OracleTable) : DecisionProcedure where
  decide := table.decide
  refine := table.refine

end OracleTable

end SymbolicRewriting
