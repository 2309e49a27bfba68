import SymbolicRewriting.Matching.Branch

/-!
All matches of a pattern against a subject. The branches still to be explored form a list, and the
alternatives of a choice are put in front of it in their order: so matches come out with shorter
segments first and with cells in the order of the collection.
-/

namespace SymbolicRewriting

structure StructuralMatch where
  subst : Substitution
  /-- The equalities that the unknown values of the subject must satisfy. -/
  constraints : PathCondition

structure PatternMatches where
  found : Array StructuralMatch := #[]
  /-- The branches given up because the structure does not decide them. -/
  undecided : Nat := 0
  /-- The branches given up because a variable met two unequal ground terms. -/
  conflicts : Nat := 0

namespace PatternMatches

def accept (results : PatternMatches) (branch : Branch) : PatternMatches :=
  { results with found := results.found.push ⟨branch.subst, branch.constraints⟩ }

def countConflict (results : PatternMatches) : PatternMatches :=
  { results with conflicts := results.conflicts + 1 }

def countUndecided (results : PatternMatches) : PatternMatches :=
  { results with undecided := results.undecided + 1 }

def concrete (results : PatternMatches) : List Substitution :=
  (results.found.toList.filter fun found => found.constraints.isTrivial).map StructuralMatch.subst

end PatternMatches

/-- The number of branches that a branch goes through, itself included. -/
def Branch.extent (definition : Definition) (branch : Branch) : Nat :=
  match _hadvance : branch.advance definition with
  | .branches next => 1 + total (fun other => other.1.extent definition) next.attach
  | _ => 1
termination_by branch.weight
decreasing_by exact Branch.weight_lt_of_advance _hadvance other.2

theorem Branch.extent_of_advance {definition : Definition} {branch : Branch}
    {next : List Branch} (hadvance : branch.advance definition = .branches next) :
    branch.extent definition = 1 + total (fun other => other.extent definition) next := by
  rw [extent]
  split
  · rename_i hcase
    cases hadvance.symm.trans hcase
    rw [total_attach fun other : Branch => other.extent definition]
  · simp_all

theorem Branch.extent_pos (definition : Definition) (branch : Branch) :
    0 < branch.extent definition := by
  rw [extent]
  split <;> omega

def extentAll (definition : Definition) (branches : List Branch) : Nat :=
  total (fun branch => branch.extent definition) branches

theorem extentAll_lt_cons (definition : Definition) (branch : Branch) (later : List Branch) :
    extentAll definition later < extentAll definition (branch :: later) := by
  have hpos := branch.extent_pos definition
  simp only [extentAll, total_cons]
  omega

theorem extentAll_append_lt {definition : Definition} {branch : Branch} {next : List Branch}
    (hadvance : branch.advance definition = .branches next) (later : List Branch) :
    extentAll definition (next ++ later) < extentAll definition (branch :: later) := by
  simp only [extentAll, total_append, total_cons, Branch.extent_of_advance hadvance]
  omega

/-- Explores the branches one after another and gathers what they end in. -/
def explore (definition : Definition) (branches : List Branch) (results : PatternMatches) :
    PatternMatches :=
  match branches with
  | [] => results
  | branch :: later =>
      match _hadvance : branch.advance definition with
      | .accepted => explore definition later (results.accept branch)
      | .failed => explore definition later results
      | .conflicting => explore definition later results.countConflict
      | .undecided => explore definition later results.countUndecided
      | .branches next => explore definition (next ++ later) results
termination_by extentAll definition branches
decreasing_by
  · exact extentAll_lt_cons definition branch later
  · exact extentAll_lt_cons definition branch later
  · exact extentAll_lt_cons definition branch later
  · exact extentAll_lt_cons definition branch later
  · exact extentAll_append_lt _hadvance later

namespace Definition

def matchPattern (definition : Definition) (pattern subject : Term) : PatternMatches :=
  explore definition [Branch.start pattern subject] {}

theorem matchPattern_of_failed {definition : Definition} {pattern subject : Term}
    (hfailed : (Branch.start pattern subject).advance definition = .failed) :
    definition.matchPattern pattern subject = {} := by
  unfold matchPattern
  rw [explore]
  split <;> simp_all [explore]

def concreteMatches (definition : Definition) (pattern subject : Term) : List Substitution :=
  (definition.matchPattern pattern subject).concrete

end Definition

end SymbolicRewriting
