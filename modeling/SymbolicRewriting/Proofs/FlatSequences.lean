import SymbolicRewriting.Proofs.BuiltTerms

/-!
# Flat sequences

Sequences are spliced one level deep, which is enough as long as no item of a sequence is a sequence
over the same operator. Splicing, instantiation and matching keep this: a variable is bound to a part
of the subject or to a segment of a sequence, and a pattern is compared with an unknown value as it is
instantiated.
-/

namespace SymbolicRewriting

open List

namespace Term

/-- No item of a sequence is a sequence over the same operator. -/
def FlatRoot : Term → Prop
  | sequence op items => ∀ item ∈ items, item.isSequenceOver op = false
  | _ => True

instance (term : Term) : Decidable term.FlatRoot :=
  match term with
  | sequence op items =>
      inferInstanceAs (Decidable (∀ item ∈ items, item.isSequenceOver op = false))
  | token _ _ | var _ | app _ _ | collection _ _ => .isTrue True.intro

theorem isSequenceOver_of_mem_itemsOf {op : Label} {term item : Term} (hterm : term.FlatRoot)
    (hitem : item ∈ term.itemsOf op) : item.isSequenceOver op = false := by
  cases hover : term.isSequenceOver op with
  | false =>
      rw [itemsOf_of_not_isSequenceOver hover, List.mem_singleton] at hitem
      rwa [hitem]
  | true =>
      obtain ⟨items, rfl⟩ := exists_of_isSequenceOver hover
      rw [itemsOf_sequence] at hitem
      exact hterm item hitem

theorem composable_flatRoot : Composable FlatRoot where
  token _ _ := True.intro
  var _ := True.intro
  flatten op items hitems := by
    rw [flatten_eq]
    intro part hpart
    obtain ⟨item, hmem, hpart⟩ := List.mem_flatMap.1 hpart
    exact isSequenceOver_of_mem_itemsOf (hitems item hmem).self hpart
  collection _ _ := True.intro

/-- In any place a term is flattened if its parts are flat, unless its place is among the items of a
sequence over the operator that it is a sequence over itself. -/
theorem conforms_iff_everywhere {term : Term} {place : Place} :
    term.Conforms (.over fun _ _ => True) place ↔
      (∀ op, place = .item op → term.isSequenceOver op = false) ∧ term.Everywhere FlatRoot := by
  induction term using nestedInduction generalizing place with
  | token sort value =>
      exact iff_of_true (conforms_token sort value)
        ⟨fun _ _ => rfl, everywhere_token composable_flatRoot sort value⟩
  | var v =>
      exact iff_of_true (conforms_var_iff.2 True.intro)
        ⟨fun _ _ => rfl, everywhere_var composable_flatRoot v⟩
  | app label args ih =>
      rw [conforms_app_iff, everywhere_iff]
      constructor
      · intro hargs
        exact ⟨fun _ _ => rfl, True.intro, fun arg hmem => ((ih arg hmem).1 (hargs arg hmem)).2⟩
      · rintro ⟨-, -, hargs⟩ arg hmem
        exact (ih arg hmem).2 ⟨nofun, hargs arg hmem⟩
  | sequence op items ih =>
      rw [conforms_sequence_iff, everywhere_iff]
      constructor
      · rintro ⟨hplace, -, hitems⟩
        refine ⟨fun other hother => ?_, fun item hmem => ?_, fun item hmem => ?_⟩
        · rw [isSequenceOver, beq_eq_false_iff_ne]
          rintro rfl
          exact hplace hother
        · exact ((ih item hmem).1 (hitems item hmem)).1 op rfl
        · exact ((ih item hmem).1 (hitems item hmem)).2
      · rintro ⟨hplace, hself, hitems⟩
        refine ⟨fun hsame => ?_, True.intro, fun item hmem => (ih item hmem).2 ⟨?_, hitems item hmem⟩⟩
        · have hover := hplace op hsame
          rw [isSequenceOver, beq_self_eq_true] at hover
          cases hover
        · rintro _ ⟨⟩
          exact hself item hmem
  | collection cells frame ih =>
      rw [conforms_collection_iff, everywhere_collection_iff composable_flatRoot]
      constructor
      · rintro ⟨-, -, hcells⟩
        exact ⟨fun _ _ => rfl, fun cell hmem => ((ih cell hmem).1 (hcells cell hmem)).2⟩
      · rintro ⟨-, hcells⟩
        exact ⟨True.intro, fun _ _ => True.intro, fun cell hmem =>
          (ih cell hmem).2 ⟨nofun, hcells cell hmem⟩⟩

theorem flattened_iff_everywhere {term : Term} : term.Flattened ↔ term.Everywhere FlatRoot :=
  conforms_iff_everywhere.trans (and_iff_right nofun)

instance (term : Term) : Decidable term.Flattened :=
  decidable_of_iff (∀ part ∈ term.subterms, part.FlatRoot) flattened_iff_everywhere.symm

theorem flattened_eq_everywhere : Flattened = Everywhere FlatRoot :=
  funext fun _ => propext flattened_iff_everywhere

/-- A flattened term has no sequence anywhere in it, in the contents of cells as well, with an item
that is a sequence over the same operator. -/
theorem flattened_iff {term : Term} : term.Flattened ↔
    ∀ op items, sequence op items ∈ term.subterms → ∀ item ∈ items, item.isSequenceOver op = false := by
  rw [flattened_iff_everywhere]
  constructor
  · exact fun hterm op items hmem => hterm _ hmem
  · intro hterm part hpart
    cases part with
    | sequence op items => exact hterm op items hpart
    | token _ _ | var _ | app _ _ | collection _ _ => exact True.intro

theorem Flattened.flatten (op : Label) {items : List Term} (hitems : ∀ item ∈ items, item.Flattened) :
    (flatten op items).Flattened :=
  flattened_iff_everywhere.2 (everywhere_flatten composable_flatRoot op fun item hmem =>
    flattened_iff_everywhere.1 (hitems item hmem))

/-- A flattened sequence may be kept as it is where its items have not changed. -/
theorem Flattened.flatten_items {op : Label} {items : List Term}
    (hterm : (sequence op items).Flattened) : Term.flatten op items = sequence op items :=
  Conforms.flatten_eq hterm.items

theorem concat_eq (op : Label) (left right : Term) :
    concat op left right = sequence op (left.itemsOf op ++ right.itemsOf op) := by
  rw [concat, flatten_eq, flatMap_cons, flatMap_singleton]

theorem Flattened.concat {left right : Term} (op : Label) (hleft : left.Flattened)
    (hright : right.Flattened) : (concat op left right).Flattened :=
  .flatten op (List.forall_mem_cons.2 ⟨hleft, List.forall_mem_singleton.2 hright⟩)

theorem concat_assoc (op : Label) (first second third : Term) :
    concat op (concat op first second) third = concat op first (concat op second third) := by
  simp only [concat_eq, itemsOf_sequence, List.append_assoc]

theorem concat_empty_left (op : Label) (items : List Term) :
    concat op (sequence op []) (sequence op items) = sequence op items := by
  rw [concat_eq, itemsOf_sequence, itemsOf_sequence, List.nil_append]

theorem concat_empty_right (op : Label) (items : List Term) :
    concat op (sequence op items) (sequence op []) = sequence op items := by
  rw [concat_eq, itemsOf_sequence, itemsOf_sequence, List.append_nil]

theorem Flattened.equal {left right : Term} (hleft : left.Flattened) (hright : right.Flattened) :
    (equal left right).Flattened :=
  .app (List.forall_mem_cons.2 ⟨hleft, List.forall_mem_singleton.2 hright⟩)

theorem Flattened.negated {term : Term} (hterm : term.Flattened) : (negated term).Flattened :=
  .app (List.forall_mem_singleton.2 hterm)

theorem Flattened.conjoined {left right : Term} (hleft : left.Flattened) (hright : right.Flattened) :
    (conjoined left right).Flattened :=
  .app (List.forall_mem_cons.2 ⟨hleft, List.forall_mem_singleton.2 hright⟩)

/-- An instance has flat parts if the bindings have, since instantiation splices what it puts in. -/
theorem everywhere_instantiate {fits : Term → Prop} (hfits : Composable fits)
    (happ : ∀ label args, fits (.app label args)) {subst : Substitution}
    (hsubst : subst.Everywhere fits) (term : Term) : (term.instantiate subst).Everywhere fits := by
  induction term using nestedInduction with
  | token sort value => exact everywhere_token hfits sort value
  | var v =>
      rw [instantiate]
      cases hget : subst.get? v with
      | none => exact everywhere_var hfits v
      | some bound => exact hsubst v bound hget
  | app label args ih =>
      rw [instantiate, instantiateAll_eq_map]
      exact everywhere_iff.2 ⟨happ _ _, List.forall_mem_map.2 ih⟩
  | sequence op items ih =>
      rw [instantiate, instantiateAll_eq_map]
      exact everywhere_flatten hfits op (List.forall_mem_map.2 ih)
  | collection cells frame ih =>
      rw [instantiate, instantiateCells_eq_map]
      exact everywhere_closeWith hfits (List.forall_mem_map.2 ih) frame (hsubst.frameBinding frame)

end Term

/-- Variables are bound to flattened terms. -/
def Substitution.Flattened (subst : Substitution) : Prop :=
  ∀ v value, subst.get? v = some value → value.Flattened

theorem Substitution.flattened_of_bindings {subst : Substitution}
    (hbindings : ∀ binding ∈ subst.bindings, binding.2.Flattened) : subst.Flattened :=
  fun _ _ hget => hbindings _ (mem_bindings_of_get? hget)

theorem Substitution.flattened_iff_everywhere {subst : Substitution} :
    subst.Flattened ↔ subst.Everywhere Term.FlatRoot :=
  forall₃_congr fun _ _ _ => Term.flattened_iff_everywhere

theorem Term.Flattened.applySubst {term : Term} (hterm : term.Flattened) {subst : Substitution}
    (hsubst : subst.Flattened) : (term.applySubst subst).Flattened := by
  rw [Conforms.applySubst_eq hterm]
  exact flattened_iff_everywhere.2 (everywhere_instantiate composable_flatRoot
    (fun _ _ => True.intro) (Substitution.flattened_iff_everywhere.1 hsubst) term)

namespace PathCondition

/-- All conjuncts are flattened. -/
def Flattened (path : PathCondition) : Prop :=
  ∀ conjunct ∈ path.conjuncts, conjunct.Flattened

theorem flattened_trivial : trivial.Flattened :=
  forall_mem_nil _

theorem Flattened.assume {path : PathCondition} (hpath : path.Flattened) {proposition : Term}
    (hproposition : proposition.Flattened) : (path.assume proposition).Flattened := by
  unfold PathCondition.assume
  split
  · exact hpath
  · exact forall_mem_append.2 ⟨hpath, forall_mem_singleton.2 hproposition⟩

theorem Flattened.assumeAll {path : PathCondition} (hpath : path.Flattened)
    {propositions : List Term} (hpropositions : ∀ proposition ∈ propositions, proposition.Flattened) :
    (path.assumeAll propositions).Flattened := by
  induction propositions generalizing path with
  | nil => exact hpath
  | cons proposition propositions ih =>
      obtain ⟨hfirst, hothers⟩ := forall_mem_cons.1 hpropositions
      exact ih (hpath.assume hfirst) hothers

theorem Flattened.and {path other : PathCondition} (hpath : path.Flattened)
    (hother : other.Flattened) : (path.and other).Flattened :=
  hpath.assumeAll hother

end PathCondition

/-! Matching. -/

section Matching

variable {definition : Definition}

/-- What is left to match of flattened terms. -/
abbrev Obligation.Flattened (obligation : Obligation) : Prop :=
  obligation.Conforms (.over fun _ _ => True) fun _ _ => True

abbrev Findings.Flattened (findings : Findings) : Prop :=
  findings.Conforms (.over fun _ _ => True) fun _ _ => True

theorem Term.Single.flattened {term : Term}
    (hterm : term.Single (.over fun _ _ => True)) : term.Flattened := by
  obtain ⟨place, hconforms⟩ := hterm.exists_conforms
  exact flattened_iff_everywhere.2 (conforms_iff_everywhere.1 hconforms).2

theorem Findings.flattened_subst {findings : Findings} (hfindings : findings.Flattened) :
    findings.subst.Flattened :=
  fun v value hget => (hfindings.bound v value hget).1.flattened

/-- A new equation is between flattened terms. -/
theorem Findings.Step.flattened_constraints {findings next : Findings}
    {pending later : List Obligation} (hstep : Step definition findings pending next later)
    (hfindings : findings.Flattened) (hpending : ∀ obligation ∈ pending, obligation.Flattened)
    (hconstraints : findings.constraints.Flattened) : next.constraints.Flattened := by
  have hsubst := Findings.flattened_subst hfindings
  cases hstep with
  | meet hposes hmet =>
      have hencounter := hposes.conforms (forall_mem_cons.1 hpending).1
      cases hmet with
      | bound _ _ | repeated _ _ _ | deferred => exact hconstraints
      | equated _ hget _ =>
          exact hconstraints.assume ((hsubst _ _ hget).equal hencounter.1.flattened)
      | constrained _ =>
          have hpattern := hencounter.1.flattened.applySubst hsubst
          exact hconstraints.assume (hencounter.2.flattened.equal hpattern)
  | enter _ | boundSegment _ _ _ _ | freeSegment _ _ _ | cell _ => exact hconstraints
  | settle _ hsettle =>
      refine Substitution.forall_mem_of_settle hsettle hconstraints fun pattern subject hmem _ => ?_
      obtain ⟨hpattern, v, rfl, hsubject⟩ := hfindings.deferred pattern subject hmem
      exact hsubject.flattened.equal (hpattern.flattened.applySubst hsubst)

/-- A match between flattened terms binds flattened terms and asks for equations between such. -/
theorem Definition.flattened_of_mem_found {pattern subject : Term} (hpattern : pattern.Flattened)
    (hsubject : subject.Flattened) {found : StructuralMatch}
    (hmem : found ∈ (definition.matchPattern pattern subject).found) :
    found.subst.Flattened ∧ found.constraints.Flattened := by
  obtain ⟨last, hreaches, -, rfl⟩ := mem_found_matchPattern_iff.1 hmem
  clear hmem
  have hstart : (Branch.start pattern subject).Conforms (.over fun _ _ => True) fun _ _ => True :=
    Branch.conforms_start (.inl hpattern) (.inl hsubject)
  suffices hall : last.findings.constraints.Flattened from
    ⟨Findings.flattened_subst (hstart.reaches hreaches).findings, hall⟩
  induction hreaches with
  | refl => exact PathCondition.flattened_trivial
  | tail hreaches hleads ih =>
      have hbranch := hstart.reaches hreaches
      exact (Branch.step_of_leads hleads).flattened_constraints hbranch.findings hbranch.pending ih

end Matching

end SymbolicRewriting
