import SymbolicRewriting.Proofs.InstanceSteps
import SymbolicRewriting.Proofs.Rearrangements

/-!
Steps of matching on equal subjects. Equal branches lead to equal branches, which come in the same
order unless a choice among the cells of a collection is made.
-/

namespace SymbolicRewriting

open List

theorem isEmpty_eq_of_length_eq {α β : Type} {xs : List α} {ys : List β}
    (hlength : xs.length = ys.length) : xs.isEmpty = ys.isEmpty := by
  rw [Bool.eq_iff_iff, isEmpty_iff_length_eq_zero, isEmpty_iff_length_eq_zero, hlength]

namespace Term

theorem isGround_iff {term : Term} :
    term.isGround = true ↔
      term.rootVariable = none ∧ ∀ child ∈ term.children, child.isGround = true := by
  rw [isGround_eq_all_subterms, subterms_eq_cons, List.all_cons, Bool.and_eq_true,
    Option.isNone_iff_eq_none, List.all_eq_true]
  refine and_congr_right fun _ => ?_
  simp only [isGround_eq_all_subterms, List.all_eq_true, mem_subtermsAll_iff]
  constructor
  · exact fun hparts child hchild part hpart => hparts part ⟨child, hchild, hpart⟩
  · exact fun hchildren part ⟨child, hchild, hpart⟩ => hchildren child hchild part hpart

namespace EqualTo

variable {left right left' right' : Term}

theorem children (hequal : left.EqualTo right) :
    Multiset.Rel EqualTo ↑left.children ↑right.children := by
  cases hequal.sameForm with
  | token _ _ | var _ => exact .zero
  | app _ hargs => exact rel_coe_of_forall₂ hargs
  | sequence _ hitems => exact rel_coe_of_forall₂ hitems
  | collection _ hperm hpaired =>
      have hcells := rel_coe_iff.2 ⟨_, hperm, hpaired⟩
      exact rel_coe_map (hcells.mono fun cell _ other _ hcell => (cellsEqual_iff.1 hcell).2)

theorem rootVariable_eq (hequal : left.EqualTo right) : left.rootVariable = right.rootVariable := by
  cases hequal.sameForm <;> rfl

theorem isGround (hequal : left.EqualTo right) (hground : left.isGround = true) :
    right.isGround = true := by
  induction left using childInduction generalizing right with
  | step term ih =>
      obtain ⟨hroot, hchildren⟩ := isGround_iff.1 hground
      refine isGround_iff.2 ⟨hequal.rootVariable_eq ▸ hroot, fun child' hchild' => ?_⟩
      obtain ⟨child, hchild, hsame⟩ := exists_of_rel_coe (Multiset.rel_flip.2 hequal.children) hchild'
      exact ih child hchild hsame (hchildren child hchild)

theorem isGround_eq (hequal : left.EqualTo right) : left.isGround = right.isGround :=
  Bool.eq_iff_iff.2 ⟨hequal.isGround, hequal.symm.isGround⟩

theorem beq_eq (hleft : left.EqualTo left') (hright : right.EqualTo right') :
    (left == right) = (left' == right') :=
  Bool.eq_iff_iff.2 ⟨fun hequal => (hleft.symm.trans hequal).trans hright,
    fun hequal => (hleft.trans hequal).trans hright.symm⟩

theorem equal (hleft : left.EqualTo left') (hright : right.EqualTo right') :
    (Term.equal left right).EqualTo (Term.equal left' right') :=
  equal_app _ (.cons hleft (.cons hright .nil))

end EqualTo

theorem forall₂_equalTo_trans {left middle right : List Term} (hleft : Forall₂ EqualTo left middle)
    (hright : Forall₂ EqualTo middle right) : Forall₂ EqualTo left right := by
  induction hleft generalizing right with
  | nil => exact hright
  | cons hfirst _ ih =>
      obtain ⟨term, others, hterm, hothers, rfl⟩ := forall₂_cons_left_iff.1 hright
      exact .cons (hfirst.trans hterm) (ih hothers)

theorem list_beq_eq {left right left' right' : List Term} (hleft : Forall₂ EqualTo left left')
    (hright : Forall₂ EqualTo right right') : (left == right) = (left' == right') := by
  rw [Bool.eq_iff_iff, list_beq_iff, list_beq_iff]
  constructor
  · intro hequal
    exact forall₂_equalTo_trans (forall₂_equalTo_symm hleft) (forall₂_equalTo_trans hequal hright)
  · intro hequal
    exact forall₂_equalTo_trans hleft (forall₂_equalTo_trans hequal (forall₂_equalTo_symm hright))

end Term

/-- The same variables are bound in the same order, and to equal terms. -/
def Substitution.EqualTo (subst other : Substitution) : Prop :=
  Forall₂ (fun binding binding' => binding.1 = binding'.1 ∧ binding.2.EqualTo binding'.2)
    subst.bindings other.bindings

def PathCondition.EqualTo (path other : PathCondition) : Prop :=
  Forall₂ Term.EqualTo path.conjuncts other.conjuncts

theorem Substitution.equalTo_refl (subst : Substitution) : subst.EqualTo subst :=
  forall₂_same.2 fun binding _ => ⟨rfl, binding.2.beq_refl⟩

namespace Substitution.EqualTo

variable {subst other : Substitution}

/-- A variable is bound on both sides or on neither. -/
theorem get? (hequal : subst.EqualTo other) (v : Variable) :
    (subst.get? v = none ∧ other.get? v = none) ∨
      ∃ term term', subst.get? v = some term ∧ other.get? v = some term' ∧ term.EqualTo term' := by
  unfold Substitution.EqualTo at hequal
  unfold Substitution.get?
  generalize subst.bindings = bindings at hequal ⊢
  generalize other.bindings = bindings' at hequal ⊢
  induction hequal with
  | nil => exact .inl ⟨rfl, rfl⟩
  | @cons binding binding' _ _ hfirst _ ih =>
      rw [find?_cons, find?_cons, hfirst.1]
      cases binding'.1 == v with
      | true => exact .inr ⟨_, _, rfl, rfl, hfirst.2⟩
      | false => exact ih

theorem isBound_eq (hequal : subst.EqualTo other) (v : Variable) :
    subst.isBound v = other.isBound v := by
  unfold isBound
  obtain ⟨hget, hget'⟩ | ⟨_, _, hget, hget', -⟩ := hequal.get? v
  · rw [hget, hget']
  · rw [hget, hget']
    rfl

theorem push (hequal : subst.EqualTo other) (v : Variable) {term term' : Term}
    (hterm : term.EqualTo term') : (subst.push v term).EqualTo (other.push v term') :=
  rel_append hequal (.cons ⟨rfl, hterm⟩ .nil)

theorem recordCell (hequal : subst.EqualTo other) (pattern pattern' target target' : CellId) :
    (subst.recordCell pattern target).EqualTo (other.recordCell pattern' target') := by
  unfold Substitution.recordCell
  split <;> split <;> exact hequal

theorem boundAlike (hequal : subst.EqualTo other) {term : Term} (hcovers : subst.Covers term) :
    Term.BoundAlike subst other term := by
  intro v hv
  obtain ⟨hget, -⟩ | hboth := hequal.get? v
  · have hbound := hcovers v hv
    rw [isBound, hget] at hbound
    cases hbound
  · exact hboth

/-- What is made of a term whose variables are bound. -/
theorem applySubst (hequal : subst.EqualTo other) {term : Term} (hcovers : subst.Covers term) :
    (term.applySubst subst).EqualTo (term.applySubst other) := by
  have hempty : subst.bindings.isEmpty = other.bindings.isEmpty :=
    isEmpty_eq_of_length_eq hequal.length_eq
  unfold Term.applySubst
  rw [hempty]
  split
  · exact term.beq_refl
  · exact (hequal.boundAlike hcovers).instantiate

end Substitution.EqualTo

namespace PathCondition.EqualTo

variable {path other : PathCondition} {proposition proposition' : Term}

theorem contains_eq (hequal : path.EqualTo other) (hproposition : proposition.EqualTo proposition') :
    path.contains proposition = other.contains proposition' := by
  unfold PathCondition.EqualTo at hequal
  unfold PathCondition.contains
  generalize path.conjuncts = conjuncts at hequal ⊢
  generalize other.conjuncts = conjuncts' at hequal ⊢
  induction hequal with
  | nil => rfl
  | cons hfirst _ ih => rw [List.any_cons, List.any_cons, hfirst.beq_eq hproposition, ih]

theorem assume (hequal : path.EqualTo other) (hproposition : proposition.EqualTo proposition') :
    (path.assume proposition).EqualTo (other.assume proposition') := by
  unfold PathCondition.assume
  rw [hequal.contains_eq hproposition]
  split
  · exact hequal
  · exact rel_append hequal (.cons hproposition .nil)

theorem isTrivial_eq (hequal : path.EqualTo other) : path.isTrivial = other.isTrivial := by
  unfold PathCondition.isTrivial
  exact isEmpty_eq_of_length_eq hequal.length_eq

end PathCondition.EqualTo

/-- The same is left to do with equal subjects, after the same was found out about them. -/
structure Branch.EqualTo (branch other : Branch) : Prop where
  subst : branch.subst.EqualTo other.subst
  pending : Forall₂ Obligation.EqualTo branch.pending other.pending
  deferred : Forall₂ (fun entry entry' => entry.1 = entry'.1 ∧ entry.2.EqualTo entry'.2)
    branch.deferred other.deferred
  constraints : branch.constraints.EqualTo other.constraints

/-- Both branches end in the same way, or they go on with alternatives that correspond. -/
inductive Progress.Follows (arranged : List Branch → List Branch → Prop) : Progress → Progress → Prop
  | accepted : Follows arranged .accepted .accepted
  | failed : Follows arranged .failed .failed
  | conflicting : Follows arranged .conflicting .conflicting
  | undecided : Follows arranged .undecided .undecided
  | branches {next next' : List Branch} (harranged : arranged next next') :
      Follows arranged (.branches next) (.branches next')

/-- The alternatives are equal one by one. -/
abbrev Progress.EqualTo : Progress → Progress → Prop := Follows (Forall₂ Branch.EqualTo)

/-- The alternatives are equal in some order. -/
abbrev Progress.Rearranged : Progress → Progress → Prop :=
  Follows fun next next' => Multiset.Rel Branch.EqualTo ↑next ↑next'

theorem Progress.EqualTo.rearranged {progress other : Progress} (hequal : progress.EqualTo other) :
    progress.Rearranged other := by
  cases hequal with
  | branches hnext => exact .branches (rel_coe_of_forall₂ hnext)
  | accepted => exact .accepted
  | failed => exact .failed
  | conflicting => exact .conflicting
  | undecided => exact .undecided

theorem Definition.admits_eq {subject subject' : Term} (hequal : subject.EqualTo subject')
    (definition : Definition) (v : Variable) :
    definition.admits v subject = definition.admits v subject' := by
  unfold admits
  rw [hequal.sortOf_eq, hequal.asVar_eq]

namespace Branch.EqualTo

variable {branch other : Branch} (hequal : branch.EqualTo other)
include hequal

theorem goOn : branch.goOn.EqualTo other.goOn :=
  .branches (.cons hequal .nil)

theorem bind (definition : Definition) (v : Variable) {subject subject' : Term}
    (hsubject : subject.EqualTo subject') :
    (branch.bind definition v subject).EqualTo (other.bind definition v subject') := by
  have hadmits := definition.admits_eq hsubject v
  cases hcase : definition.admits v subject with
  | no =>
      rw [hcase] at hadmits
      unfold Branch.bind
      rw [hcase, ← hadmits]
      exact .failed
  | maybe =>
      rw [hcase] at hadmits
      unfold Branch.bind
      rw [hcase, ← hadmits]
      exact .undecided
  | yes =>
      rw [bind_of_admits hcase, bind_of_admits (hadmits.symm.trans hcase)]
      obtain ⟨hget, hget'⟩ | ⟨existing, existing', hget, hget', hexisting⟩ := hequal.subst.get? v
      · rw [hget, hget']
        exact goOn { hequal with subst := hequal.subst.push v hsubject }
      · rw [hget, hget']
        dsimp only
        rw [hexisting.beq_eq hsubject, hexisting.isGround_eq, hsubject.isGround_eq]
        split
        · exact hequal.goOn
        · split
          · exact .conflicting
          · exact goOn { hequal with
              constraints := hequal.constraints.assume (hexisting.equal hsubject) }

omit hequal in
theorem constrain? {subst other : Substitution} (hsubst : subst.EqualTo other)
    {constraints constraints' : PathCondition} (hconstraints : constraints.EqualTo constraints')
    (pattern : Term) {subject subject' : Term} (hsubject : subject.EqualTo subject') :
    (subst.constrain? constraints pattern subject = none ∧
        other.constrain? constraints' pattern subject' = none) ∨
      ∃ extended extended', subst.constrain? constraints pattern subject = some extended ∧
        other.constrain? constraints' pattern subject' = some extended' ∧
        extended.EqualTo extended' := by
  unfold Substitution.constrain?
  rw [← show subst.isBound = other.isBound from funext hsubst.isBound_eq]
  by_cases hcovers : pattern.vars.all subst.isBound = true
  · rw [if_pos hcovers, if_pos hcovers]
    have hinstance := hsubst.applySubst (List.all_eq_true.1 hcovers)
    exact .inr ⟨_, _, rfl, rfl, hconstraints.assume (hsubject.equal hinstance)⟩
  · rw [if_neg hcovers, if_neg hcovers]
    exact .inl ⟨rfl, rfl⟩

omit hequal in
theorem settle {subst other : Substitution} (hsubst : subst.EqualTo other)
    {deferred deferred' : List (Term × Term)}
    (hdeferred : Forall₂ (fun entry entry' => entry.1 = entry'.1 ∧ entry.2.EqualTo entry'.2)
      deferred deferred') {constraints constraints' : PathCondition}
    (hconstraints : constraints.EqualTo constraints') :
    (subst.settle constraints deferred = none ∧ other.settle constraints' deferred' = none) ∨
      ∃ settled settled', subst.settle constraints deferred = some settled ∧
        other.settle constraints' deferred' = some settled' ∧ settled.EqualTo settled' := by
  induction hdeferred generalizing constraints constraints' with
  | nil => exact .inr ⟨constraints, constraints', rfl, rfl, hconstraints⟩
  | @cons entry entry' _ _ hentry _ ih =>
      obtain ⟨pattern, subject⟩ := entry
      obtain ⟨pattern', subject'⟩ := entry'
      obtain ⟨rfl, hsubject⟩ := hentry
      unfold Substitution.settle
      obtain ⟨hnone, hnone'⟩ | ⟨extended, extended', hsome, hsome', hextended⟩ :=
        constrain? hsubst hconstraints pattern hsubject
      · rw [hnone, hnone']
        exact .inl ⟨rfl, rfl⟩
      · rw [hsome, hsome']
        exact ih hextended

theorem meetUnknown (definition : Definition) (pattern : Term) (v : Variable) :
    (branch.meetUnknown definition pattern v).EqualTo (other.meetUnknown definition pattern v) := by
  unfold Branch.meetUnknown
  split
  · exact .undecided
  · split
    · exact .failed
    · obtain ⟨hnone, hnone'⟩ | ⟨extended, extended', hsome, hsome', hextended⟩ :=
        constrain? hequal.subst hequal.constraints pattern (Term.beq_refl (.var v))
      · rw [hnone, hnone']
        exact goOn { hequal with
          deferred := rel_append hequal.deferred (.cons ⟨rfl, Term.beq_refl _⟩ .nil) }
      · rw [hsome, hsome']
        exact goOn { hequal with constraints := hextended }

theorem enter {obligations obligations' : List Obligation}
    (hobligations : Forall₂ Obligation.EqualTo obligations obligations') :
    (branch.enter obligations).EqualTo (other.enter obligations') :=
  { hequal with pending := rel_append hobligations hequal.pending }

theorem advanceTerm (definition : Definition) (pattern : Term) {subject subject' : Term}
    (hsubject : subject.EqualTo subject') :
    (branch.advanceTerm definition pattern subject).EqualTo
      (other.advanceTerm definition pattern subject') := by
  cases pattern with
  | var v => exact hequal.bind definition v hsubject
  | token sort value =>
      cases hsubject.sameForm with
      | var v => exact hequal.meetUnknown definition _ v
      | token sort' value' =>
          unfold Branch.advanceTerm
          dsimp only
          split
          · exact hequal.goOn
          · exact .failed
      | app _ _ | sequence _ _ | collection _ _ _ => exact .failed
  | app label args =>
      cases hsubject.sameForm with
      | var v => exact hequal.meetUnknown definition _ v
      | app label' hargs =>
          unfold Branch.advanceTerm
          dsimp only
          rw [hargs.length_eq]
          split
          · exact (hequal.enter (Obligation.forall₂_equalTo_zipWith hargs)).goOn
          · exact .failed
      | token _ _ | sequence _ _ | collection _ _ _ => exact .failed
  | sequence op patterns =>
      have hitems := (hequal.enter (.cons
        (.items op patterns (Term.forall₂_itemsOf op hsubject)) .nil)).goOn
      cases hsubject.sameForm with
      | var v => exact hequal.meetUnknown definition _ v
      | token _ _ | app _ _ | sequence _ _ | collection _ _ _ => exact hitems
  | collection patterns frame =>
      cases hsubject.sameForm with
      | var v => exact hequal.meetUnknown definition _ v
      | collection inner hperm hpaired =>
          have hcells : Obligation.EqualTo (.cells patterns frame { after := _ } inner)
            (.cells patterns frame { after := _ } inner) := .cells patterns frame inner hsubject
          exact (hequal.enter (.cons hcells .nil)).goOn
      | token _ _ | app _ _ | sequence _ _ => exact .failed

theorem takeItem (op : Label) (pattern : Term) (patterns : List Term) {items items' : List Term}
    (hitems : Forall₂ Term.EqualTo items items') :
    (branch.takeItem op pattern patterns items).EqualTo
      (other.takeItem op pattern patterns items') := by
  cases hitems with
  | nil => exact .failed
  | cons hfirst hothers =>
      unfold Branch.takeItem
      dsimp only
      rw [hfirst.isRestVar_eq]
      split
      · exact .undecided
      · exact (hequal.enter (.cons (.term pattern hfirst)
          (.cons (.items op patterns hothers) .nil))).goOn

theorem takeBoundSegment (op : Label) {bound bound' : Term} (hbound : bound.EqualTo bound')
    (patterns : List Term) {items items' : List Term} (hitems : Forall₂ Term.EqualTo items items') :
    (branch.takeBoundSegment op bound patterns items).EqualTo
      (other.takeBoundSegment op bound' patterns items') := by
  have hsegment := Term.forall₂_itemsOf op hbound
  unfold Branch.takeBoundSegment
  dsimp only
  rw [hsegment.length_eq, hitems.length_eq,
    Term.list_beq_eq (forall₂_take _ hitems) hsegment]
  split
  · exact (hequal.enter (.cons (.items op patterns (forall₂_drop _ hitems)) .nil)).goOn
  · exact .failed

theorem takeSegments (op : Label) (v : Variable) (patterns : List Term) {items items' : List Term}
    (hitems : Forall₂ Term.EqualTo items items') :
    (branch.takeSegments op v patterns items).EqualTo
      (other.takeSegments op v patterns items') := by
  unfold Branch.takeSegments
  dsimp only
  rw [hitems.length_eq]
  split
  · refine .branches (forall₂_map_left_iff.2 (forall₂_map_right_iff.2 (forall₂_same.2 ?_)))
    intro count _
    have hsegment := Term.equal_flatten op (forall₂_take count hitems)
    exact { hequal with
      subst := hequal.subst.push v hsegment
      pending := .cons (.items op patterns (forall₂_drop count hitems)) hequal.pending }
  · exact .failed

theorem advanceItems (op : Label) (patterns : List Term) {items items' : List Term}
    (hitems : Forall₂ Term.EqualTo items items') :
    (branch.advanceItems op patterns items).EqualTo (other.advanceItems op patterns items') := by
  cases patterns with
  | nil =>
      cases hitems with
      | nil => exact hequal.goOn
      | cons _ _ => exact .failed
  | cons pattern patterns =>
      unfold Branch.advanceItems
      dsimp only
      split
      · rename_i v _
        split
        · obtain ⟨hget, hget'⟩ | ⟨bound, bound', hget, hget', hbound⟩ := hequal.subst.get? v
          · rw [hget, hget']
            exact hequal.takeSegments op v patterns hitems
          · rw [hget, hget']
            exact hequal.takeBoundSegment op hbound patterns hitems
        · exact hequal.takeItem op pattern patterns hitems
      · exact hequal.takeItem op pattern patterns hitems

theorem takeCell (pattern : Cell Term) (patterns : List (Cell Term))
    (frame subjectFrame : Option Variable) {choice choice' : Cell Term × FreeCells}
    (hchoice : ChoicesEqual choice choice') :
    (branch.takeCell pattern patterns frame subjectFrame choice).EqualTo
      (other.takeCell pattern patterns frame subjectFrame choice') := by
  have hfree : (Term.collection choice.2.toList subjectFrame).EqualTo
      (.collection choice'.2.toList subjectFrame) :=
    Term.equal_collection_iff_rel.2 ⟨rfl, hchoice.free⟩
  have hcontent := (Term.cellsEqual_iff.1 hchoice.chosen).2
  exact { hequal with
    subst := hequal.subst.recordCell _ _ _ _
    pending := .cons (.term pattern.content hcontent)
      (.cons (.cells patterns frame subjectFrame hfree) hequal.pending) }

theorem closeCells (definition : Definition) (frame subjectFrame : Option Variable)
    {free free' : FreeCells} (hfree : (Term.collection free.toList subjectFrame).EqualTo
      (.collection free'.toList subjectFrame)) :
    (branch.advanceCells definition [] frame free subjectFrame).EqualTo
      (other.advanceCells definition [] frame free' subjectFrame) := by
  have hcells := (Term.equal_collection_iff_rel.1 hfree).2
  cases frame with
  | some v => exact hequal.bind definition v hfree
  | none =>
      unfold Branch.advanceCells
      dsimp only
      rw [isEmpty_eq_of_length_eq (Multiset.card_eq_card_of_rel hcells)]
      split
      · exact .failed
      · split
        · exact .undecided
        · exact hequal.goOn

/-- The order of the cells decides in which order they are chosen. -/
theorem chooseCells (definition : Definition) (pattern : Cell Term) (patterns : List (Cell Term))
    (frame subjectFrame : Option Variable) {free free' : FreeCells}
    (hcells : Multiset.Rel Term.CellsEqual ↑free.toList ↑free'.toList) :
    (branch.advanceCells definition (pattern :: patterns) frame free subjectFrame).Rearranged
      (other.advanceCells definition (pattern :: patterns) frame free' subjectFrame) := by
  have hchoices := rel_selections pattern.name hcells
  have hnext : Multiset.Rel Branch.EqualTo
      ↑((selections pattern.name [] free.toList).map
        (branch.takeCell pattern patterns frame subjectFrame))
      ↑((selections pattern.name [] free'.toList).map
        (other.takeCell pattern patterns frame subjectFrame)) :=
    rel_coe_map (hchoices.mono fun _ _ _ _ hchoice =>
      hequal.takeCell pattern patterns frame subjectFrame hchoice)
  unfold Branch.advanceCells
  dsimp only
  generalize selections pattern.name [] free.toList = choices at hchoices hnext ⊢
  generalize selections pattern.name [] free'.toList = choices' at hchoices hnext ⊢
  cases choices with
  | nil =>
      rw [Multiset.coe_nil, Multiset.rel_zero_left, Multiset.coe_eq_zero] at hchoices
      rw [hchoices]
      dsimp only
      split
      · exact .undecided
      · exact .failed
  | cons choice choices =>
      cases choices' with
      | nil =>
          rw [Multiset.coe_nil, Multiset.rel_zero_right, Multiset.coe_eq_zero] at hchoices
          cases hchoices
      | cons choice' choices' => exact .branches hnext

theorem advanceCells (definition : Definition) (patterns : List (Cell Term))
    (frame subjectFrame : Option Variable) {free free' : FreeCells}
    (hfree : (Term.collection free.toList subjectFrame).EqualTo
      (.collection free'.toList subjectFrame)) :
    (branch.advanceCells definition patterns frame free subjectFrame).Rearranged
      (other.advanceCells definition patterns frame free' subjectFrame) := by
  cases patterns with
  | nil => exact (hequal.closeCells definition frame subjectFrame hfree).rearranged
  | cons pattern patterns =>
      exact hequal.chooseCells definition pattern patterns frame subjectFrame
        (Term.equal_collection_iff_rel.1 hfree).2

theorem finish : branch.finish.EqualTo other.finish := by
  unfold Branch.finish
  rw [isEmpty_eq_of_length_eq hequal.deferred.length_eq]
  split
  · exact .accepted
  · obtain ⟨hnone, hnone'⟩ | ⟨settled, settled', hsome, hsome', hsettled⟩ :=
      settle hequal.subst hequal.deferred hequal.constraints
    · rw [hnone, hnone']
      exact .undecided
    · rw [hsome, hsome']
      exact goOn { hequal with deferred := .nil, constraints := hsettled }

theorem advance (definition : Definition) :
    (branch.advance definition).Rearranged (other.advance definition) := by
  unfold Branch.advance
  have hpending := hequal.pending
  generalize hcase : branch.pending = pending at hpending ⊢
  generalize hcase' : other.pending = pending' at hpending ⊢
  cases hpending with
  | nil => exact hequal.finish.rearranged
  | @cons obligation obligation' pending pending' hfirst hothers =>
      have hrest : Branch.EqualTo { branch with pending } { other with pending := pending' } :=
        { hequal with pending := hothers }
      cases hfirst with
      | term pattern hsubject => exact (hrest.advanceTerm definition pattern hsubject).rearranged
      | items op patterns hitems => exact (hrest.advanceItems op patterns hitems).rearranged
      | cells patterns frame subjectFrame hfree =>
          exact hrest.advanceCells definition patterns frame subjectFrame hfree

end Branch.EqualTo

end SymbolicRewriting
