import Mathlib.Data.List.Basic
import Mathlib.Logic.Relation
import SymbolicRewriting.Matching.Pattern

/-!
What the exploration of branches comes to: the matches are the branches that are reached and accepted,
and the undecided ones are those that are reached and undecided.
-/

namespace SymbolicRewriting

open List

variable {definition : Definition}

namespace Branch

/-- The branch goes on as the next one, or as others. -/
def Leads (definition : Definition) (branch next : Branch) : Prop :=
  ∃ branches, branch.advance definition = .branches branches ∧ next ∈ branches

def Reaches (definition : Definition) : Branch → Branch → Prop :=
  Relation.ReflTransGen (Leads definition)

theorem reaches_of_ended {branch last : Branch} (hreaches : branch.Reaches definition last)
    (hended : ∀ branches, branch.advance definition ≠ .branches branches) : last = branch := by
  rcases Relation.ReflTransGen.cases_head_iff.1 hreaches with rfl | ⟨next, hleads, -⟩
  · rfl
  · obtain ⟨branches, hadvance, -⟩ := hleads
    exact absurd hadvance (hended branches)

/-- Without a choice the branches form a line. -/
theorem Reaches.mem_line {branch last : Branch} {line : List Branch}
    (hreaches : branch.Reaches definition last)
    (hline : IsChain (fun earlier later => earlier.advance definition = .branches [later])
      (branch :: line))
    (hended : ∀ final ∈ (branch :: line).getLast?, ∀ branches,
      final.advance definition ≠ .branches branches) : last ∈ branch :: line := by
  induction line generalizing branch with
  | nil =>
      rw [reaches_of_ended hreaches (hended branch rfl)]
      exact List.mem_cons_self
  | cons next line ih =>
      obtain ⟨hadvance, hlater⟩ := isChain_cons_cons.1 hline
      rcases Relation.ReflTransGen.cases_head_iff.1 hreaches with rfl | ⟨other, hleads, hreached⟩
      · exact List.mem_cons_self
      · obtain ⟨branches, hbranches, hmem⟩ := hleads
        cases hadvance.symm.trans hbranches
        rw [List.mem_singleton.1 hmem] at hreached
        exact List.mem_cons_of_mem branch (ih hreached hlater hended)

theorem exists_reached_iff {goal : Branch → Prop} {branch : Branch} {branches : List Branch}
    (hadvance : branch.advance definition = .branches branches) (hgoal : ¬goal branch) :
    (∃ last, branch.Reaches definition last ∧ goal last) ↔
      ∃ next ∈ branches, ∃ last, next.Reaches definition last ∧ goal last := by
  constructor
  · rintro ⟨last, hreaches, hlast⟩
    rcases Relation.ReflTransGen.cases_head_iff.1 hreaches with rfl | ⟨next, hleads, hlater⟩
    · exact absurd hlast hgoal
    · obtain ⟨others, hothers, hmem⟩ := hleads
      cases hadvance.symm.trans hothers
      exact ⟨next, hmem, last, hlater, hlast⟩
  · rintro ⟨next, hmem, last, hlater, hlast⟩
    exact ⟨last, .head ⟨branches, hadvance, hmem⟩ hlater, hlast⟩

theorem exists_reached_iff_of_ended {goal : Branch → Prop} {branch : Branch}
    (hended : ∀ branches, branch.advance definition ≠ .branches branches) :
    (∃ last, branch.Reaches definition last ∧ goal last) ↔ goal branch := by
  constructor
  · rintro ⟨last, hreaches, hlast⟩
    rwa [reaches_of_ended hreaches hended] at hlast
  · exact fun hgoal => ⟨branch, .refl, hgoal⟩

end Branch

/-- Some branch that is reached from one of the given ones ends like this. -/
def Ending (definition : Definition) (branches : List Branch) (goal : Branch → Prop) : Prop :=
  ∃ branch ∈ branches, ∃ last, branch.Reaches definition last ∧ goal last

section Ending

variable {goal : Branch → Prop} {branch : Branch} {branches later : List Branch}

theorem not_ending_nil : ¬Ending definition [] goal := by
  rintro ⟨branch, hmem, -⟩
  cases hmem

theorem ending_cons_of_ended (hended : ∀ next, branch.advance definition ≠ .branches next) :
    Ending definition (branch :: later) goal ↔ goal branch ∨ Ending definition later goal := by
  unfold Ending
  rw [List.exists_mem_cons_iff, Branch.exists_reached_iff_of_ended hended]

theorem ending_append_iff (hadvance : branch.advance definition = .branches branches)
    (hgoal : ¬goal branch) :
    Ending definition (branches ++ later) goal ↔ Ending definition (branch :: later) goal := by
  unfold Ending
  rw [List.exists_mem_cons_iff, Branch.exists_reached_iff hadvance hgoal]
  simp only [List.mem_append, or_and_right, exists_or]

end Ending

def Branch.result (branch : Branch) : StructuralMatch := ⟨branch.subst, branch.constraints⟩

theorem mem_found_explore_iff {branches : List Branch} {results : PatternMatches}
    {found : StructuralMatch} :
    found ∈ (explore definition branches results).found ↔
      found ∈ results.found ∨ Ending definition branches fun last =>
        last.advance definition = .accepted ∧ found = last.result := by
  fun_induction explore definition branches results with
  | case1 results => exact (or_iff_left not_ending_nil).symm
  | case2 results branch later hadvance ih =>
      rw [ih, ending_cons_of_ended (by simp [hadvance]), PatternMatches.accept, Array.mem_push,
        or_assoc]
      simp only [hadvance, true_and]
      rfl
  | case3 results branch later hadvance ih | case4 results branch later hadvance ih
  | case5 results branch later hadvance ih =>
      rw [ih, ending_cons_of_ended (by simp [hadvance])]
      simp [hadvance, PatternMatches.countConflict, PatternMatches.countUndecided]
  | case6 results branch later next hadvance ih =>
      rw [ih, ending_append_iff hadvance (by simp [hadvance])]

theorem undecided_explore_pos_iff {branches : List Branch} {results : PatternMatches} :
    0 < (explore definition branches results).undecided ↔
      0 < results.undecided ∨ Ending definition branches fun last =>
        last.advance definition = .undecided := by
  fun_induction explore definition branches results with
  | case1 results => exact (or_iff_left not_ending_nil).symm
  | case5 results branch later hadvance ih =>
      rw [ih, ending_cons_of_ended (by simp [hadvance])]
      simp [hadvance, PatternMatches.countUndecided]
  | case2 results branch later hadvance ih | case3 results branch later hadvance ih
  | case4 results branch later hadvance ih =>
      rw [ih, ending_cons_of_ended (by simp [hadvance])]
      simp [hadvance, PatternMatches.countConflict, PatternMatches.accept]
  | case6 results branch later next hadvance ih =>
      rw [ih, ending_append_iff hadvance (by simp [hadvance])]

section MatchPattern

variable {pattern subject : Term}

theorem mem_found_matchPattern_iff {found : StructuralMatch} :
    found ∈ (definition.matchPattern pattern subject).found ↔
      ∃ last, (Branch.start pattern subject).Reaches definition last ∧
        last.advance definition = .accepted ∧ found = last.result := by
  unfold Definition.matchPattern
  rw [mem_found_explore_iff]
  simp [Ending]

theorem found_matchPattern_ne_empty_iff :
    (definition.matchPattern pattern subject).found ≠ #[] ↔
      ∃ last, (Branch.start pattern subject).Reaches definition last ∧
        last.advance definition = .accepted := by
  rw [ne_eq, Array.eq_empty_iff_forall_not_mem, not_forall_not]
  constructor
  · rintro ⟨found, hmem⟩
    obtain ⟨last, hreaches, haccepted, -⟩ := mem_found_matchPattern_iff.1 hmem
    exact ⟨last, hreaches, haccepted⟩
  · rintro ⟨last, hreaches, haccepted⟩
    exact ⟨last.result, mem_found_matchPattern_iff.2 ⟨last, hreaches, haccepted, rfl⟩⟩

theorem undecided_matchPattern_pos_iff :
    0 < (definition.matchPattern pattern subject).undecided ↔
      ∃ last, (Branch.start pattern subject).Reaches definition last ∧
        last.advance definition = .undecided := by
  unfold Definition.matchPattern
  rw [undecided_explore_pos_iff]
  simp [Ending]

theorem mem_concreteMatches_iff {subst : Substitution} :
    subst ∈ definition.concreteMatches pattern subject ↔
      ∃ found ∈ (definition.matchPattern pattern subject).found,
        found.constraints.isTrivial = true ∧ found.subst = subst := by
  simp [Definition.concreteMatches, PatternMatches.concrete, and_assoc]

end MatchPattern

end SymbolicRewriting
