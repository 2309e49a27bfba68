import SymbolicRewriting.Oracle.Basic

/-!
The oracle that answers what can be read off the syntax: truth values, equalities between ground
terms, and propositions, or their negations, that the path assumes. It looks through negations and
conjunctions to a fixed depth, and takes a path that it cannot refute as satisfiable.
-/

namespace SymbolicRewriting

def Term.negationOf? (proposition : Term) : Option Term :=
  match proposition with
  | .app label [inner] => if label = Symbol.negation then some inner else none
  | _ => none

def Term.equalityOf? (proposition : Term) : Option (Term × Term) :=
  match proposition with
  | .app label [left, right] => if label = Symbol.equality then some (left, right) else none
  | _ => none

def Term.conjunctionOf? (proposition : Term) : Option (Term × Term) :=
  match proposition with
  | .app label [left, right] => if label = Symbol.conjunction then some (left, right) else none
  | _ => none

def Decision.conjoin (left right : Decision) : Decision :=
  match left, right with
  | .fails, _ => .fails
  | _, .fails => .fails
  | .holds, .holds => .holds
  | _, _ => .unknown

def PathCondition.denies (path : PathCondition) (proposition : Term) : Bool :=
  path.conjuncts.any fun conjunct => conjunct.negationOf? == some proposition

/-- The answer for two terms without looking at the path. -/
def Term.decideEqual (left right : Term) : Decision :=
  if left == right then .holds
  else if left.isGround && right.isGround then .fails
  else .unknown

namespace DecisionProcedure

/-- Negations and conjunctions are looked through as long as the depth that is left allows. -/
def syntacticDecideWithin (path : PathCondition) : Nat → Term → Decision
  | 0, _ => .unknown
  | depth + 1, proposition =>
      match proposition.asBool with
      | some value => Decision.ofBool value
      | none =>
          if path.contains proposition then .holds
          else
            match proposition.negationOf? with
            | some inner => (syntacticDecideWithin path depth inner).negate
            | none =>
                if path.denies proposition then .fails
                else
                  match proposition.equalityOf?, proposition.conjunctionOf? with
                  | some (left, right), _ => left.decideEqual right
                  | none, some (left, right) =>
                      (syntacticDecideWithin path depth left).conjoin
                        (syntacticDecideWithin path depth right)
                  | none, none => .unknown

def syntacticDepth : Nat := 33

def syntacticDecide (path : PathCondition) (proposition : Term) : Decision :=
  syntacticDecideWithin path syntacticDepth proposition

/-- A conjunct that is false by itself, or whose negation is assumed as well. -/
def refutes (path : PathCondition) (conjunct : Term) : Bool :=
  syntacticDecide .trivial conjunct == .fails ||
    conjunct.negationOf?.any fun inner => path.contains inner

def syntacticRefine (subst : Substitution) (path : PathCondition) : Refinement :=
  if path.conjuncts.any (refutes path) then .unsat else .refined subst

def syntactic : DecisionProcedure where
  decide := syntacticDecide
  refine := syntacticRefine

end DecisionProcedure

end SymbolicRewriting
