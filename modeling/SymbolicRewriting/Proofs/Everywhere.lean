import SymbolicRewriting.Proofs.Choices
import SymbolicRewriting.Proofs.DirectSteps

/-!
Conditions on all parts of a term. If sequences and collections meet such a condition as soon as their
parts do, then it goes over from a subject to what a match binds in it, and from the arguments of a hook
to its result.
-/

namespace SymbolicRewriting

open List

variable {fits : Term → Prop}

/-- Every part of the term fits, the term itself included. -/
def Term.Everywhere (fits : Term → Prop) (term : Term) : Prop :=
  ∀ part ∈ term.subterms, fits part

/-- Only applications can fail to fit, and sequences that have been put together wrongly. -/
structure Composable (fits : Term → Prop) : Prop where
  token : ∀ sort value, fits (.token sort value)
  var : ∀ v, fits (.var v)
  flatten : ∀ op items, (∀ item ∈ items, item.Everywhere fits) → fits (.flatten op items)
  collection : ∀ cells frame, fits (.collection cells frame)

namespace Term

theorem everywhere_iff {term : Term} :
    term.Everywhere fits ↔ fits term ∧ ∀ child ∈ term.children, child.Everywhere fits := by
  unfold Everywhere
  rw [subterms_eq_cons, List.forall_mem_cons]
  constructor
  · rintro ⟨hself, hparts⟩
    exact ⟨hself, fun child hchild part hpart =>
      hparts part (mem_subtermsAll_iff.2 ⟨child, hchild, hpart⟩)⟩
  · rintro ⟨hself, hchildren⟩
    refine ⟨hself, fun part hpart => ?_⟩
    obtain ⟨child, hchild, hpart⟩ := mem_subtermsAll_iff.1 hpart
    exact hchildren child hchild part hpart

theorem Everywhere.self {term : Term} (hterm : term.Everywhere fits) : fits term :=
  (everywhere_iff.1 hterm).1

theorem Everywhere.children {term : Term} (hterm : term.Everywhere fits) :
    ∀ child ∈ term.children, child.Everywhere fits :=
  (everywhere_iff.1 hterm).2

theorem everywhere_collection_iff (hfits : Composable fits) {cells : List (Cell Term)}
    {frame : Option Variable} :
    (collection cells frame).Everywhere fits ↔ ∀ cell ∈ cells, cell.content.Everywhere fits := by
  rw [everywhere_iff, and_iff_right (hfits.collection cells frame)]
  exact List.forall_mem_map

theorem everywhere_token (hfits : Composable fits) (sort : SortName) (value : String) :
    (token sort value).Everywhere fits :=
  everywhere_iff.2 ⟨hfits.token sort value, List.forall_mem_nil _⟩

theorem everywhere_var (hfits : Composable fits) (v : Variable) : (var v).Everywhere fits :=
  everywhere_iff.2 ⟨hfits.var v, List.forall_mem_nil _⟩

theorem Everywhere.itemsOf {term : Term} (hterm : term.Everywhere fits) (op : Label) :
    ∀ item ∈ term.itemsOf op, item.Everywhere fits := by
  intro item hmem
  rcases eq_or_mem_children_of_mem_itemsOf hmem with rfl | hchild
  · exact hterm
  · exact hterm.children item hchild

theorem everywhere_flatten (hfits : Composable fits) (op : Label) {items : List Term}
    (hitems : ∀ item ∈ items, item.Everywhere fits) : (flatten op items).Everywhere fits := by
  have hself := hfits.flatten op items hitems
  rw [flatten_eq] at hself ⊢
  refine everywhere_iff.2 ⟨hself, fun part hpart => ?_⟩
  obtain ⟨item, hmem, hitem⟩ := List.mem_flatMap.1 hpart
  exact (hitems item hmem).itemsOf op part hitem

theorem everywhere_closeWith (hfits : Composable fits) {cells : List (Cell Term)}
    (hcells : ∀ cell ∈ cells, cell.content.Everywhere fits) (frame : Option Variable)
    {bound : Option Term} (hbound : ∀ term, bound = some term → term.Everywhere fits) :
    (closeWith cells frame bound).Everywhere fits := by
  unfold closeWith
  split
  · rename_i more inner
    have hmore := (everywhere_collection_iff hfits).1 (hbound _ rfl)
    exact (everywhere_collection_iff hfits).2 (List.forall_mem_append.2 ⟨hcells, hmore⟩)
  · exact (everywhere_collection_iff hfits).2 hcells
  · exact (everywhere_collection_iff hfits).2 hcells

end Term

/-- Variables are bound to terms all of whose parts fit. -/
def Substitution.Everywhere (fits : Term → Prop) (subst : Substitution) : Prop :=
  ∀ v term, subst.get? v = some term → term.Everywhere fits

theorem Substitution.everywhere_empty : Substitution.empty.Everywhere fits := by
  intro v term hget
  cases hget

theorem Substitution.Everywhere.push {subst : Substitution} (hsubst : subst.Everywhere fits)
    {v : Variable} (hget : subst.get? v = none) {term : Term} (hterm : term.Everywhere fits) :
    (subst.push v term).Everywhere fits := by
  intro w part hpart
  rw [Substitution.get?_push hget] at hpart
  split at hpart
  · cases hpart
    exact hterm
  · exact hsubst w part hpart

theorem Substitution.Everywhere.frameBinding {subst : Substitution}
    (hsubst : subst.Everywhere fits) (frame : Option Variable) :
    ∀ term, Term.frameBinding subst frame = some term → term.Everywhere fits := by
  cases frame with
  | none =>
      intro term hnone
      cases hnone
  | some v => exact hsubst v

/-! Matches bind parts of the subject, and what is put together from them. -/

/-- Every part of what is left of the subject fits. Under an application pattern the root does not
matter, as no variable can be bound to it. -/
def Obligation.SubjectEverywhere (fits : Term → Prop) : Obligation → Prop
  | term pattern subject =>
      (pattern.topLabel = none → fits subject) ∧ ∀ child ∈ subject.children, child.Everywhere fits
  | items _ _ parts => ∀ part ∈ parts, part.Everywhere fits
  | cells _ _ free _ => ∀ cell ∈ free.toList, cell.content.Everywhere fits

theorem Obligation.subjectEverywhere_term (pattern : Term) {subject : Term}
    (hsubject : subject.Everywhere fits) : (term pattern subject).SubjectEverywhere fits :=
  ⟨fun _ => hsubject.self, hsubject.children⟩

theorem Obligation.SubjectEverywhere.everywhere {pattern subject : Term}
    (hsubject : (Obligation.term pattern subject).SubjectEverywhere fits)
    (hpattern : pattern.topLabel = none) : subject.Everywhere fits :=
  Term.everywhere_iff.2 ⟨hsubject.1 hpattern, hsubject.2⟩

section Matching

variable (hfits : Composable fits)
include hfits

theorem Obligation.Opens.subjectEverywhere {obligation : Obligation} {opened : List Obligation}
    (hopens : obligation.Opens opened) (hsubject : obligation.SubjectEverywhere fits) :
    ∀ next ∈ opened, next.SubjectEverywhere fits := by
  cases hopens with
  | token _ _ | exhausted _ | closed _ => exact List.forall_mem_nil _
  | app _ _ =>
      exact forall_mem_zipWith_term fun arg _ part hpart =>
        subjectEverywhere_term arg (hsubject.2 part hpart)
  | sequence op _ _ => exact List.forall_mem_singleton.2 ((hsubject.everywhere rfl).itemsOf op)
  | collection _ _ _ _ =>
      exact List.forall_mem_singleton.2
        ((Term.everywhere_collection_iff hfits).1 (hsubject.everywhere rfl))
  | item _ _ _ _ _ =>
      obtain ⟨hfirst, hothers⟩ := List.forall_mem_cons.1 hsubject
      exact List.forall_mem_cons.2
        ⟨subjectEverywhere_term _ hfirst, List.forall_mem_singleton.2 hothers⟩

theorem Obligation.Poses.boundEverywhere {obligation : Obligation} {v : Variable} {part : Term}
    (hposes : obligation.Poses (.bind v part)) (hsubject : obligation.SubjectEverywhere fits) :
    part.Everywhere fits := by
  cases hposes with
  | bind _ _ => exact hsubject.everywhere rfl
  | frame _ _ _ => exact (Term.everywhere_collection_iff hfits).2 hsubject

theorem Findings.Step.everywhere {definition : Definition} {findings next : Findings}
    {pending later : List Obligation} (hstep : Step definition findings pending next later)
    (hsubst : findings.subst.Everywhere fits)
    (hpending : ∀ obligation ∈ pending, obligation.SubjectEverywhere fits) :
    next.subst.Everywhere fits ∧ ∀ obligation ∈ later, obligation.SubjectEverywhere fits := by
  cases hstep with
  | meet hposes hmet =>
      obtain ⟨hfirst, hothers⟩ := List.forall_mem_cons.1 hpending
      refine ⟨?_, hothers⟩
      cases hmet with
      | bound _ hget => exact hsubst.push hget (hposes.boundEverywhere hfits hfirst)
      | repeated _ _ _ | equated _ _ _ | constrained _ | deferred => exact hsubst
  | enter hopens =>
      obtain ⟨hfirst, hothers⟩ := List.forall_mem_cons.1 hpending
      exact ⟨hsubst, List.forall_mem_append.2 ⟨hopens.subjectEverywhere hfits hfirst, hothers⟩⟩
  | boundSegment _ _ _ _ =>
      obtain ⟨hfirst, hothers⟩ := List.forall_mem_cons.1 hpending
      exact ⟨hsubst, List.forall_mem_cons.2
        ⟨fun item hmem => hfirst item (List.mem_of_mem_drop hmem), hothers⟩⟩
  | @freeSegment op v patterns items count _ _ hget _ =>
      obtain ⟨hfirst, hothers⟩ := List.forall_mem_cons.1 hpending
      have hsegment : (Term.flatten op (items.take count)).Everywhere fits :=
        Term.everywhere_flatten hfits op fun item hmem => hfirst item (List.mem_of_mem_take hmem)
      exact ⟨hsubst.push hget hsegment, List.forall_mem_cons.2
        ⟨fun item hmem => hfirst item (List.mem_of_mem_drop hmem), hothers⟩⟩
  | @cell pattern chosen _ _ subjectFrame free others _ hchoice =>
      obtain ⟨hfirst, hothers⟩ := List.forall_mem_cons.1 hpending
      have hall : ∀ cell ∈ chosen :: others.toList, cell.content.Everywhere fits :=
        fun cell hmem => hfirst cell ((perm_of_mem_selections hchoice).mem_iff.2 hmem)
      obtain ⟨hchosen, hfree⟩ := List.forall_mem_cons.1 hall
      refine ⟨fun v term hget => ?_,
        List.forall_mem_cons.2 ⟨Obligation.subjectEverywhere_term _ hchosen,
          List.forall_mem_cons.2 ⟨hfree, hothers⟩⟩⟩
      rw [recordCell, Substitution.get?_recordCell] at hget
      exact hsubst v term hget
  | settle _ _ => exact ⟨hsubst, hpending⟩

namespace Definition

variable {definition : Definition} {pattern subject : Term}
  (hsubject : (Obligation.term pattern subject).SubjectEverywhere fits)
include hsubject

/-- What fits everywhere in a subject fits everywhere in the bindings of its matches. -/
theorem everywhere_of_mem_found {found : StructuralMatch}
    (hmem : found ∈ (definition.matchPattern pattern subject).found) :
    found.subst.Everywhere fits := by
  obtain ⟨last, hreaches, -, rfl⟩ := mem_found_matchPattern_iff.1 hmem
  clear hmem
  suffices hall : last.findings.subst.Everywhere fits ∧
      ∀ obligation ∈ last.pending, obligation.SubjectEverywhere fits from hall.1
  induction hreaches with
  | refl => exact ⟨Substitution.everywhere_empty, List.forall_mem_singleton.2 hsubject⟩
  | tail _ hleads ih => exact (Branch.step_of_leads hleads).everywhere hfits ih.1 ih.2

theorem everywhere_of_mem_concreteMatches {subst : Substitution}
    (hmem : subst ∈ definition.concreteMatches pattern subject) : subst.Everywhere fits := by
  obtain ⟨found, hfound, -, rfl⟩ := mem_concreteMatches_iff.1 hmem
  exact everywhere_of_mem_found hfits hsubject hfound

end Definition

end Matching

/-- If the arguments of the hook fit everywhere, so does its result. -/
def Hook.Keeps (hook : Hook) (fits : Term → Prop) : Prop :=
  ∀ args : List Term, (∀ arg ∈ args, arg.Everywhere fits) →
    ∀ result, hook.apply args = some result → result.Everywhere fits

namespace Builtin

theorem keeps (hfits : Composable fits) (builtin : Builtin) : builtin.hook.Keeps fits := by
  intro args hargs result hresult
  rcases isToken_or_mem_of_apply hresult with ⟨sort, value, rfl⟩ | hmem
  · exact Term.everywhere_token hfits sort value
  · exact hargs result hmem

end Builtin

end SymbolicRewriting
