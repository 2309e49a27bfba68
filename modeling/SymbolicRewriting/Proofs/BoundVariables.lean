import SymbolicRewriting.Proofs.Recovery

/-!
# A match binds every variable

An obligation that is met leaves no variable of its pattern unbound: the variable lies on something, or
it stands in a pattern that an unknown value has met, and such a pattern becomes a constraint only when
all its variables are bound. This holds of every pattern and of every subject.
-/

namespace SymbolicRewriting

open List

variable {definition : Definition}

namespace Findings

variable {findings next last : Findings}

theorem Grows.isBound (hgrows : next.Grows last) {v : Variable} {subject : Term}
    (hget : next.subst.get? v = some subject) : last.subst.isBound v = true :=
  Option.isSome_of_eq_some (hgrows.subst v subject hget)

theorem Met.exists_bound {v : Variable} {subject : Term}
    (hmet : findings.Met definition (.bind v subject) next) :
    ∃ bound, next.subst.get? v = some bound := by
  cases hmet with
  | bound _ hget => exact ⟨subject, by rw [Substitution.get?_push hget, if_pos rfl]⟩
  | repeated _ hget _ | equated _ hget _ => exact ⟨_, hget⟩

theorem Met.coveredBy {obligation : Obligation} {encounter : Encounter}
    (hmet : findings.Met definition encounter next) (hposes : obligation.Poses encounter)
    (hgrows : next.Grows last) (hdeferred : ∀ entry ∈ next.deferred, last.subst.Covers entry.1) :
    obligation.CoveredBy last.subst := by
  cases hposes with
  | bind v subject =>
      obtain ⟨bound, hget⟩ := hmet.exists_bound
      exact Substitution.covers_var (hgrows.isBound hget)
  | frame v free subjectFrame =>
      obtain ⟨bound, hget⟩ := hmet.exists_bound
      refine ⟨fun w heq => ?_, List.forall_mem_nil _⟩
      cases heq
      exact hgrows.isBound hget
  | unknown hpattern v =>
      cases hmet with
      | constrained hbound => exact hgrows.covers hbound
      | deferred => exact hdeferred _ (List.mem_append_right _ List.mem_cons_self)

/-- If what a step leaves is covered in the end, then so is what it takes up. -/
theorem Step.coveredBy {pending later : List Obligation}
    (hstep : Step definition findings pending next later) (hgrows : next.Grows last)
    (hlater : ∀ obligation ∈ later, obligation.CoveredBy last.subst)
    (hdeferred : ∀ entry ∈ next.deferred, last.subst.Covers entry.1) :
    (∀ obligation ∈ pending, obligation.CoveredBy last.subst) ∧
      ∀ entry ∈ findings.deferred, last.subst.Covers entry.1 := by
  cases hstep with
  | meet hposes hmet =>
      exact ⟨List.forall_mem_cons.2 ⟨hmet.coveredBy hposes hgrows hdeferred, hlater⟩,
        fun entry hmem => hdeferred entry (hmet.deferred_subset hmem)⟩
  | enter hopens =>
      obtain ⟨hopened, hothers⟩ := List.forall_mem_append.1 hlater
      exact ⟨List.forall_mem_cons.2 ⟨hopens.coveredBy hopened, hothers⟩, hdeferred⟩
  | boundSegment _ hget _ _ =>
      obtain ⟨hitems, hothers⟩ := List.forall_mem_cons.1 hlater
      have hvar := Substitution.covers_var (hgrows.isBound hget)
      exact ⟨List.forall_mem_cons.2 ⟨List.forall_mem_cons.2 ⟨hvar, hitems⟩, hothers⟩, hdeferred⟩
  | @freeSegment op v _ subjects count _ _ hget _ =>
      obtain ⟨hitems, hothers⟩ := List.forall_mem_cons.1 hlater
      have hbound : (findings.bindSegment op v (subjects.take count)).subst.get? v =
          some (Term.flatten op (subjects.take count)) := by
        rw [bindSegment, Substitution.get?_push hget, if_pos rfl]
      have hvar := Substitution.covers_var (hgrows.isBound hbound)
      exact ⟨List.forall_mem_cons.2 ⟨List.forall_mem_cons.2 ⟨hvar, hitems⟩, hothers⟩, hdeferred⟩
  | cell _ =>
      obtain ⟨hcontent, hothers⟩ := List.forall_mem_cons.1 hlater
      obtain ⟨⟨hframe, hcells⟩, hothers⟩ := List.forall_mem_cons.1 hothers
      exact ⟨List.forall_mem_cons.2 ⟨⟨hframe, List.forall_mem_cons.2 ⟨hcontent, hcells⟩⟩, hothers⟩,
        hdeferred⟩
  | settle _ hsettle =>
      refine ⟨hlater, fun entry hmem => hgrows.covers ?_⟩
      exact ((Substitution.contains_of_settle hsettle).2 entry.1 entry.2 hmem).1

end Findings

theorem Branch.coveredBy_of_reaches {branch last : Branch}
    (hreaches : branch.Reaches definition last) (haccepted : last.advance definition = .accepted) :
    (∀ obligation ∈ branch.pending, obligation.CoveredBy last.subst) ∧
      ∀ entry ∈ branch.deferred, last.subst.Covers entry.1 := by
  induction hreaches using Relation.ReflTransGen.head_induction_on with
  | refl =>
      obtain ⟨hpending, hdeferred⟩ := ended_of_accepted haccepted
      rw [hpending, hdeferred]
      exact ⟨List.forall_mem_nil _, List.forall_mem_nil _⟩
  | head hleads hreaches ih =>
      exact (step_of_leads hleads).coveredBy (grows_of_reaches hreaches) ih.1 ih.2

theorem Definition.covers_of_mem_found {pattern subject : Term} {found : StructuralMatch}
    (hmem : found ∈ (definition.matchPattern pattern subject).found) :
    found.subst.Covers pattern := by
  obtain ⟨last, hreaches, haccepted, rfl⟩ := mem_found_matchPattern_iff.1 hmem
  exact (Branch.coveredBy_of_reaches hreaches haccepted).1 _ List.mem_cons_self

end SymbolicRewriting
