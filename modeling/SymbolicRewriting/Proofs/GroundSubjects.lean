import SymbolicRewriting.Proofs.EqualSubjects

/-!
Matching a ground subject leaves nothing open, whatever the pattern is: no branch is undecided, and no
match needs a constraint.
-/

namespace SymbolicRewriting

open List

namespace Term

theorem isGround_of_mem_itemsOf {op : Label} {term item : Term} (hground : term.isGround = true)
    (hmem : item ∈ term.itemsOf op) : item.isGround = true := by
  rcases eq_or_mem_children_of_mem_itemsOf hmem with rfl | hchild
  · exact hground
  · exact (isGround_iff.1 hground).2 item hchild

theorem isGround_flatten {op : Label} {items : List Term}
    (hitems : ∀ item ∈ items, item.isGround = true) : (flatten op items).isGround = true := by
  rw [flatten_eq]
  refine isGround_iff.2 ⟨rfl, fun part hpart => ?_⟩
  obtain ⟨item, hmem, hitem⟩ := List.mem_flatMap.1 hpart
  exact isGround_of_mem_itemsOf (hitems item hmem) hitem

theorem asVar_of_isGround {term : Term} (hground : term.isGround = true) : term.asVar = none := by
  cases term with
  | var _ => cases hground
  | token _ _ | app _ _ | sequence _ _ | collection _ _ => rfl

theorem isRestVar_of_isGround {term : Term} (hground : term.isGround = true) :
    term.isRestVar = false := by
  cases term with
  | var _ => cases hground
  | token _ _ | app _ _ | sequence _ _ | collection _ _ => rfl

end Term

/-- What is left of the subject is ground. -/
def Obligation.GroundSubject : Obligation → Prop
  | term _ subject => subject.isGround = true
  | items _ _ parts => ∀ part ∈ parts, part.isGround = true
  | cells _ _ free frame => (Term.collection free.toList frame).isGround = true

theorem Obligation.Opens.groundSubject {obligation : Obligation} {opened : List Obligation}
    (hopens : obligation.Opens opened) (hground : obligation.GroundSubject) :
    ∀ next ∈ opened, next.GroundSubject := by
  cases hopens with
  | token _ _ | exhausted _ | closed _ => exact List.forall_mem_nil _
  | app _ _ =>
      exact forall_mem_zipWith_term fun _ _ part hpart => (Term.isGround_iff.1 hground).2 part hpart
  | sequence op patterns _ =>
      exact List.forall_mem_singleton.2 fun item hmem => Term.isGround_of_mem_itemsOf hground hmem
  | collection _ _ _ _ => exact List.forall_mem_singleton.2 hground
  | item _ _ _ _ _ =>
      obtain ⟨hfirst, hothers⟩ := List.forall_mem_cons.1 hground
      exact List.forall_mem_cons.2 ⟨hfirst, List.forall_mem_singleton.2 hothers⟩

theorem Obligation.Poses.groundSubject {obligation : Obligation} {encounter : Encounter}
    (hposes : obligation.Poses encounter) (hground : obligation.GroundSubject) :
    ∃ v part, encounter = .bind v part ∧ part.isGround = true := by
  cases hposes with
  | bind v subject => exact ⟨v, subject, rfl, hground⟩
  | frame v free frame => exact ⟨v, _, rfl, hground⟩
  | unknown _ _ => cases hground

namespace Findings

variable {definition : Definition} {findings next : Findings} {pending later : List Obligation}

/-- Ground terms have been found for variables, and nothing has been left open. -/
structure Grounded (findings : Findings) : Prop where
  bound : ∀ v term, findings.subst.get? v = some term → term.isGround = true
  deferred : findings.deferred = []
  constraints : findings.constraints.isTrivial = true

theorem Grounded.push (hfindings : findings.Grounded) {v : Variable}
    (hget : findings.subst.get? v = none) {term : Term} (hground : term.isGround = true) :
    Grounded { findings with subst := findings.subst.push v term } where
  bound w part hpart := by
    rw [Substitution.get?_push hget] at hpart
    split at hpart
    · cases hpart
      exact hground
    · exact hfindings.bound w part hpart
  deferred := hfindings.deferred
  constraints := hfindings.constraints

theorem Step.grounded (hstep : Step definition findings pending next later)
    (hfindings : findings.Grounded) (hpending : ∀ obligation ∈ pending, obligation.GroundSubject) :
    next.Grounded ∧ ∀ obligation ∈ later, obligation.GroundSubject := by
  cases hstep with
  | meet hposes hmet =>
      obtain ⟨hfirst, hothers⟩ := List.forall_mem_cons.1 hpending
      obtain ⟨v, part, rfl, hpart⟩ := hposes.groundSubject hfirst
      cases hmet with
      | bound _ hget => exact ⟨hfindings.push hget hpart, hothers⟩
      | repeated _ _ _ => exact ⟨hfindings, hothers⟩
      | equated _ hget hopen =>
          rw [hfindings.bound v _ hget, hpart] at hopen
          exact absurd rfl hopen
  | enter hopens =>
      obtain ⟨hfirst, hothers⟩ := List.forall_mem_cons.1 hpending
      exact ⟨hfindings, List.forall_mem_append.2 ⟨hopens.groundSubject hfirst, hothers⟩⟩
  | boundSegment _ _ _ _ =>
      obtain ⟨hfirst, hothers⟩ := List.forall_mem_cons.1 hpending
      exact ⟨hfindings, List.forall_mem_cons.2
        ⟨fun item hmem => hfirst item (List.mem_of_mem_drop hmem), hothers⟩⟩
  | @freeSegment op v patterns items count _ _ hget _ =>
      obtain ⟨hfirst, hothers⟩ := List.forall_mem_cons.1 hpending
      have hsegment : (Term.flatten op (items.take count)).isGround = true :=
        Term.isGround_flatten fun item hmem => hfirst item (List.mem_of_mem_take hmem)
      exact ⟨hfindings.push hget hsegment, List.forall_mem_cons.2
        ⟨fun item hmem => hfirst item (List.mem_of_mem_drop hmem), hothers⟩⟩
  | @cell pattern chosen _ _ subjectFrame free others _ hchoice =>
      obtain ⟨hfirst, hothers⟩ := List.forall_mem_cons.1 hpending
      have hsame : (Term.collection (chosen :: others.toList) subjectFrame).isGround = true :=
        (Term.equal_collection_of_perm (perm_of_mem_selections hchoice) subjectFrame).isGround hfirst
      obtain ⟨hframe, hcells⟩ := Term.isGround_iff.1 hsame
      obtain ⟨hchosen, hfree⟩ := List.forall_mem_cons.1 hcells
      refine ⟨⟨fun v term hget => ?_, hfindings.deferred, hfindings.constraints⟩,
        List.forall_mem_cons.2 ⟨hchosen, List.forall_mem_cons.2
          ⟨Term.isGround_iff.2 ⟨hframe, hfree⟩, hothers⟩⟩⟩
      rw [recordCell, Substitution.get?_recordCell] at hget
      exact hfindings.bound v term hget
  | settle hdeferred _ => exact absurd hfindings.deferred hdeferred

theorem Grounded.not_blocked (hfindings : findings.Grounded)
    (hpending : ∀ obligation ∈ pending, obligation.GroundSubject) :
    ¬Blocked definition findings pending := by
  intro hblocked
  cases hblocked with
  | meet hposes hhalted =>
      obtain ⟨v, part, rfl, hpart⟩ := hposes.groundSubject (List.forall_mem_cons.1 hpending).1
      cases hhalted with
      | unsure hmaybe => exact Definition.admits_ne_maybe (Term.asVar_of_isGround hpart) v hmaybe
  | segment hitem =>
      have hground := (List.forall_mem_cons.1 (List.forall_mem_cons.1 hpending).1).1
      rw [Term.isRestVar_of_isGround hground] at hitem
      cases hitem
  | frame => cases (Term.isGround_iff.1 (List.forall_mem_cons.1 hpending).1).1
  | deferred hdeferred => exact hdeferred hfindings.deferred

end Findings

namespace Definition

variable {definition : Definition} {subject : Term} (hsubject : subject.isGround = true)
include hsubject

theorem grounded_of_reaches {pattern : Term} {last : Branch}
    (hreaches : (Branch.start pattern subject).Reaches definition last) :
    last.findings.Grounded ∧ ∀ obligation ∈ last.pending, obligation.GroundSubject := by
  induction hreaches with
  | refl =>
      have hnone : ∀ v term, ({} : Substitution).get? v = some term → term.isGround = true := by
        intro v term hget
        cases hget
      exact ⟨⟨hnone, rfl, rfl⟩, List.forall_mem_singleton.2 hsubject⟩
  | tail _ hleads ih => exact (Branch.step_of_leads hleads).grounded ih.1 ih.2

theorem undecided_matchPattern_of_isGround (pattern : Term) :
    (definition.matchPattern pattern subject).undecided = 0 := by
  apply Nat.eq_zero_of_not_pos
  intro hpositive
  obtain ⟨last, hreaches, hundecided⟩ := undecided_matchPattern_pos_iff.1 hpositive
  obtain ⟨hfindings, hpending⟩ := grounded_of_reaches hsubject hreaches
  exact hfindings.not_blocked hpending (Branch.blocked_of_undecided hundecided)

theorem isTrivial_of_mem_found_isGround {pattern : Term} {found : StructuralMatch}
    (hmem : found ∈ (definition.matchPattern pattern subject).found) :
    found.constraints.isTrivial = true := by
  obtain ⟨last, hreaches, -, rfl⟩ := mem_found_matchPattern_iff.1 hmem
  exact (grounded_of_reaches hsubject hreaches).1.constraints

end Definition

end SymbolicRewriting
