import SymbolicRewriting.Term.Traversal

/-!
Substitutions: what each variable is bound to, in the order of binding, and which cell of the
subject each pattern cell has matched. A variable is bound at most once, and a bound variable keeps
its term.
-/

namespace SymbolicRewriting

/-- A pattern cell and the subject cell that a rewrite overwrites in its place. -/
structure CellWrite where
  pattern : CellId
  target : CellId
deriving DecidableEq, Repr

structure Substitution where
  bindings : List (Variable × Term) := []
  writes : List CellWrite := []
deriving Inhabited, Repr

/-- A variable was to be bound to a term that is not equal to the one it has. -/
structure BindingConflict where
  var : Variable
  existing : Term
  incoming : Term

namespace Substitution

def empty : Substitution := {}

/-- Bindings and writes in the same order; the terms are compared as terms, if there are as many
of them on both sides. -/
instance : BEq Substitution :=
  ⟨fun left right =>
    left.bindings.length == right.bindings.length && left.bindings == right.bindings &&
      left.writes == right.writes⟩

def get? (subst : Substitution) (v : Variable) : Option Term :=
  (subst.bindings.find? fun binding => binding.1 == v).map Prod.snd

def isBound (subst : Substitution) (v : Variable) : Bool :=
  (subst.get? v).isSome

def push (subst : Substitution) (v : Variable) (term : Term) : Substitution :=
  { subst with bindings := subst.bindings ++ [(v, term)] }

/-- Binding a variable again to an equal term changes nothing. -/
def bind (subst : Substitution) (v : Variable) (term : Term) :
    Except BindingConflict Substitution :=
  match subst.get? v with
  | some existing => if existing == term then .ok subst else .error ⟨v, existing, term⟩
  | none => .ok (subst.push v term)

def bindIfUnbound (subst : Substitution) (v : Variable) (term : Term) : Substitution :=
  if subst.isBound v then subst else subst.push v term

/-- Recording the same pair again changes nothing. -/
def recordCell (subst : Substitution) (pattern target : CellId) : Substitution :=
  if subst.writes.contains ⟨pattern, target⟩ then subst
  else { subst with writes := subst.writes ++ [⟨pattern, target⟩] }

/-- Binds one pair after another. The first conflict ends it, and what was bound before stays. -/
def bindAll (subst : Substitution) :
    List (Variable × Term) → Substitution × Option BindingConflict
  | [] => (subst, none)
  | (v, term) :: rest =>
      match subst.bind v term with
      | .ok extended => extended.bindAll rest
      | .error conflict => (subst, some conflict)

def recordAll (subst : Substitution) (writes : List CellWrite) : Substitution :=
  writes.foldl (fun extended write => extended.recordCell write.pattern write.target) subst

/-- Takes over the bindings of `other` and then, unless there was a conflict, its writes. -/
def merge (subst other : Substitution) : Substitution × Option BindingConflict :=
  match subst.bindAll other.bindings with
  | (extended, none) => (extended.recordAll other.writes, none)
  | failed => failed

def targets (subst : Substitution) : List CellId :=
  subst.writes.map CellWrite.target

def targetOf (subst : Substitution) (pattern : CellId) : Option CellId :=
  (subst.writes.find? fun write => write.pattern == pattern).map CellWrite.target

def isTarget (subst : Substitution) (cell : CellId) : Bool :=
  subst.writes.any fun write => write.target == cell

def domainWithin (subst : Substitution) (declared : List Variable) : Bool :=
  subst.bindings.all fun binding => declared.contains binding.1

def writeSetWithin (subst : Substitution) (subject : Term) : Bool :=
  subst.targets.all fun target => subject.cellIds.contains target

theorem mem_bindings_of_get? {subst : Substitution} {v : Variable} {value : Term}
    (hget : subst.get? v = some value) : (v, value) ∈ subst.bindings := by
  obtain ⟨binding, hfound, rfl⟩ := Option.map_eq_some_iff.1 hget
  have hkey : binding.1 = v := by simpa using List.find?_some hfound
  exact hkey ▸ List.mem_of_find?_eq_some hfound

theorem get?_eq_none_iff {subst : Substitution} {v : Variable} :
    subst.get? v = none ↔ v ∉ subst.bindings.map Prod.fst := by
  rw [get?, Option.map_eq_none_iff, List.find?_eq_none, List.mem_map, not_exists]
  exact forall_congr' fun binding => by rw [not_and, beq_iff_eq]

theorem get?_push {subst : Substitution} {v : Variable} (hunbound : subst.get? v = none)
    (term : Term) (other : Variable) :
    (subst.push v term).get? other = if v = other then some term else subst.get? other := by
  by_cases heq : v = other
  · subst heq
    have hnone : subst.bindings.find? (fun binding => binding.1 == v) = none := by
      simpa [get?] using hunbound
    simp [get?, push, List.find?_append, hnone]
  · simp [get?, push, List.find?_append, heq]

end Substitution

end SymbolicRewriting
