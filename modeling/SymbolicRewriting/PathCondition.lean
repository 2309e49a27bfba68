import SymbolicRewriting.Substitution.Apply

/-!
Path conditions: conjunctions of the propositions assumed along one path of execution. A conjunct
that is assumed again is not added.
-/

namespace SymbolicRewriting

structure PathCondition where
  conjuncts : List Term := []
deriving Inhabited, Repr

namespace PathCondition

def trivial : PathCondition := {}

/-- No two conjuncts are compared unless there are as many of them on both sides. -/
instance : BEq PathCondition :=
  ⟨fun left right =>
    left.conjuncts.length == right.conjuncts.length && left.conjuncts == right.conjuncts⟩

def contains (path : PathCondition) (proposition : Term) : Bool :=
  path.conjuncts.any fun conjunct => conjunct == proposition

def assume (path : PathCondition) (proposition : Term) : PathCondition :=
  if path.contains proposition then path else ⟨path.conjuncts ++ [proposition]⟩

def assumeAll (path : PathCondition) (propositions : List Term) : PathCondition :=
  propositions.foldl assume path

def ofConjuncts (propositions : List Term) : PathCondition :=
  trivial.assumeAll propositions

def and (path other : PathCondition) : PathCondition :=
  path.assumeAll other.conjuncts

def isTrivial (path : PathCondition) : Bool := path.conjuncts.isEmpty

def applySubst (path : PathCondition) (subst : Substitution) : PathCondition :=
  ofConjuncts (path.conjuncts.map fun conjunct => conjunct.applySubst subst)

theorem eq_trivial_of_isTrivial {path : PathCondition} (htrivial : path.isTrivial = true) :
    path = .trivial := by
  obtain ⟨conjuncts⟩ := path
  rw [isTrivial, List.isEmpty_iff] at htrivial
  exact congrArg PathCondition.mk htrivial

theorem prefix_assume (path : PathCondition) (proposition : Term) :
    path.conjuncts <+: (path.assume proposition).conjuncts := by
  unfold assume
  split
  · exact List.prefix_rfl
  · exact List.prefix_append _ _

theorem prefix_assumeAll (path : PathCondition) (propositions : List Term) :
    path.conjuncts <+: (path.assumeAll propositions).conjuncts := by
  induction propositions generalizing path with
  | nil => exact List.prefix_rfl
  | cons proposition propositions ih =>
      exact (path.prefix_assume proposition).trans (ih (path.assume proposition))

end PathCondition

/-- A term together with the condition under which it is reached. -/
structure ConstrainedTerm where
  term : Term
  condition : PathCondition := {}
deriving Inhabited, Repr

end SymbolicRewriting
