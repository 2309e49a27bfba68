import SymbolicRewriting.Proofs.EqualEvaluation
import SymbolicRewriting.Proofs.Values

/-!
Values of equal terms. If no function rule draws fresh values or looks at the order of cells, and no hook
tells equal terms apart, then the value of a term depends on the term alone, up to equality on both sides.
-/

namespace SymbolicRewriting

open List

variable {σ : Type}

namespace Machine

variable {machine : Machine σ}

/-- Some evaluation of the term ends with the value. -/
def HasValue (machine : Machine σ) (term value : Term) : Prop :=
  ∃ start next, machine.evaluate term start = .ok value next

/-- Equal terms among the given ones have equal values, from whatever states they are evaluated. -/
def RespectsEquality (machine : Machine σ) (terms : List Term) : Prop :=
  ∀ term ∈ terms, ∀ other ∈ terms, term.EqualTo other → ∀ value value',
    machine.HasValue term value → machine.HasValue other value' → value.EqualTo value'

section Equal

variable (hrepeat : machine.definition.Repeatable) (hcongruent : machine.definition.Congruent)
  [Nonempty σ]
include hrepeat hcongruent

theorem Answers.exists_equalTo {label : Label} {args args' : List Term} {answer : Term}
    (hanswers : machine.Answers label args answer) (hargs : Forall₂ Term.EqualTo args args') :
    ∃ answer', machine.Answers label args' answer' ∧ answer.EqualTo answer' := by
  have hrespects : (machine.call label args).RepeatedBy .ofValues Term.EqualTo
      (machine.call label args') :=
    Definition.callWithin_respects hcongruent _ _ label args args' hargs
  obtain ⟨start, result, next, hrun, halike⟩ := hanswers.exists_run
  obtain ⟨answer', next', hrun', hequal⟩ := hrespects.exists_of_eq_ok hrun start
  exact ⟨answer', answers_of_run hrepeat hrun', hequal.congr halike.symm rfl⟩

omit hrepeat hcongruent [Nonempty σ] in
theorem exists_forall₂_builds_equalTo {terms terms' values : List Term}
    (hterms : ∀ term ∈ terms, ∀ {other value}, machine.Evaluates term value → term.EqualTo other →
      ∃ value', machine.Evaluates other value' ∧ value.EqualTo value')
    (hequal : Forall₂ Term.EqualTo terms terms')
    (hvalues : Forall₂ (machine.Builds .empty) terms values) :
    ∃ values', Forall₂ (machine.Builds .empty) terms' values' ∧
      Forall₂ Term.EqualTo values values' := by
  induction hequal generalizing values with
  | nil =>
      cases hvalues
      exact ⟨[], .nil, .nil⟩
  | cons hfirst _ ih =>
      obtain ⟨value, others, hvalue, hothers, rfl⟩ := forall₂_cons_left_iff.1 hvalues
      obtain ⟨hterm, hlater⟩ := List.forall_mem_cons.1 hterms
      obtain ⟨value', hvalue', hsame⟩ := hterm hvalue hfirst
      obtain ⟨others', hothers', hsames⟩ := ih hlater hothers
      exact ⟨value' :: others', .cons hvalue' hothers', .cons hsame hsames⟩

omit hrepeat hcongruent [Nonempty σ] in
theorem exists_forall₂_buildsCell_equalTo {cells paired built : List (Cell Term)}
    (hcells : ∀ cell ∈ cells, ∀ {other value}, machine.Evaluates cell.content value →
      cell.content.EqualTo other → ∃ value', machine.Evaluates other value' ∧ value.EqualTo value')
    (hequal : Forall₂ Term.CellsEqual cells paired)
    (hbuilt : Forall₂ (machine.BuildsCell .empty) cells built) :
    ∃ built', Forall₂ (machine.BuildsCell .empty) paired built' ∧
      Forall₂ Term.CellsEqual built built' := by
  induction hequal generalizing built with
  | nil =>
      cases hbuilt
      exact ⟨[], .nil, .nil⟩
  | @cons cell other _ _ hfirst _ ih =>
      obtain ⟨value, others, hvalue, hothers, rfl⟩ := forall₂_cons_left_iff.1 hbuilt
      obtain ⟨hcell, hlater⟩ := List.forall_mem_cons.1 hcells
      obtain ⟨hname, hcontent⟩ := Term.cellsEqual_iff.1 hfirst
      obtain ⟨content, hbuilds, hsame⟩ := hcell hvalue.2 hcontent
      obtain ⟨others', hothers', hsames⟩ := ih hlater hothers
      exact ⟨⟨other.id, other.name, content⟩ :: others', .cons ⟨rfl, hbuilds⟩ hothers',
        .cons (Term.cellsEqual_iff.2 ⟨hvalue.1.symm.trans hname, hsame⟩) hsames⟩

/-- If a term has a value, then an equal term has an equal one. -/
theorem Evaluates.exists_equalTo {term other value : Term} (hvalue : machine.Evaluates term value)
    (hequal : term.EqualTo other) :
    ∃ value', machine.Evaluates other value' ∧ value.EqualTo value' := by
  induction term using Term.nestedInduction generalizing other value with
  | token sort text =>
      cases hequal.sameForm
      exact ⟨value, hvalue, value.beq_refl⟩
  | var v =>
      cases hequal.sameForm
      exact ⟨value, hvalue, value.beq_refl⟩
  | app label args ih =>
      cases hequal.sameForm with
      | app _ hargs =>
          cases hlabel : machine.definition.isFunction label with
          | true =>
              obtain ⟨values, hvalues, hanswers⟩ := (builds_call_iff hrepeat hlabel).1 hvalue
              obtain ⟨values', hvalues', hsames⟩ := exists_forall₂_builds_equalTo ih hargs hvalues
              obtain ⟨answer, hanswer, hsame⟩ := hanswers.exists_equalTo hrepeat hcongruent hsames
              exact ⟨answer, (builds_call_iff hrepeat hlabel).2 ⟨values', hvalues', hanswer⟩, hsame⟩
          | false =>
              obtain ⟨values, hvalues, halike⟩ := (builds_app_iff hrepeat hlabel).1 hvalue
              obtain ⟨values', hvalues', hsames⟩ := exists_forall₂_builds_equalTo ih hargs hvalues
              exact ⟨.app label values', (builds_app_iff hrepeat hlabel).2 ⟨values', hvalues', rfl⟩,
                (Term.equal_app label hsames).congr halike.symm rfl⟩
  | sequence op items ih =>
      cases hequal.sameForm with
      | sequence _ hitems =>
          obtain ⟨values, hvalues, halike⟩ := (builds_sequence_iff hrepeat).1 hvalue
          obtain ⟨values', hvalues', hsames⟩ := exists_forall₂_builds_equalTo ih hitems hvalues
          exact ⟨.flatten op values', (builds_sequence_iff hrepeat).2 ⟨values', hvalues', rfl⟩,
            (Term.equal_flatten op hsames).congr halike.symm rfl⟩
  | collection cells frame ih =>
      cases hequal.sameForm with
      | collection _ hperm hpaired =>
          obtain ⟨built, hbuilt, halike⟩ := (evaluates_collection_iff hrepeat).1 hvalue
          obtain ⟨between, hbetween, hsames⟩ := exists_forall₂_buildsCell_equalTo ih hpaired hbuilt
          -- the cells are evaluated in their pairs, and then put into the order of the other side
          obtain ⟨built', hbuilt', hperm'⟩ := perm_comp_forall₂ hperm hbetween
          have hcollections : (Term.collection built frame).EqualTo (.collection built' frame) :=
            Term.equal_collection_iff.2 ⟨rfl, between, hperm', hsames⟩
          exact ⟨.collection built' frame, (evaluates_collection_iff hrepeat).2 ⟨built', hbuilt', rfl⟩,
            hcollections.congr halike.symm rfl⟩

end Equal

theorem respectsEquality_of_congruent (hrepeat : machine.definition.Repeatable)
    (hcongruent : machine.definition.Congruent) (terms : List Term) :
    machine.RespectsEquality terms := by
  rintro term - other - hequal value value' ⟨start, next, hrun⟩ ⟨start', next', hrun'⟩
  have : Nonempty σ := ⟨start.environment⟩
  have hvalue : machine.Evaluates term value := builds_of_run hrepeat hrun
  have hvalue' : machine.Evaluates other value' := builds_of_run hrepeat hrun'
  obtain ⟨result, hresult, hsame⟩ := hvalue.exists_equalTo hrepeat hcongruent hequal
  exact hsame.congr rfl (hresult.unique hvalue')

end Machine

end SymbolicRewriting
