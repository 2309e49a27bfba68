import SymbolicRewriting.Proofs.Instances

/-!
Equal terms have the same form and equal parts, and instantiation keeps them equal. For collections
the parts correspond up to the order of cells.
-/

namespace SymbolicRewriting

open List

theorem forall₂_map_of_forall_mem {α β γ δ : Type} {related : α → β → Prop} {image : γ → δ → Prop}
    {f : α → γ} {g : β → δ} {xs : List α} {ys : List β}
    (hxs : ∀ x ∈ xs, ∀ y, related x y → image (f x) (g y)) (hall : Forall₂ related xs ys) :
    Forall₂ image (xs.map f) (ys.map g) := by
  induction hall with
  | nil => exact .nil
  | cons hfirst _ ih =>
      obtain ⟨hx, hothers⟩ := List.forall_mem_cons.1 hxs
      exact .cons (hx _ hfirst) (ih hothers)

namespace Term

theorem EqualTo.symm {left right : Term} (hequal : left.EqualTo right) : right.EqualTo left :=
  beq_symm hequal

theorem EqualTo.trans {left middle right : Term} (hleft : left.EqualTo middle)
    (hright : middle.EqualTo right) : left.EqualTo right :=
  beq_trans hleft hright

instance : Trans EqualTo EqualTo EqualTo := ⟨EqualTo.trans⟩

theorem forall₂_equalTo_symm {left right : List Term} (hequal : Forall₂ EqualTo left right) :
    Forall₂ EqualTo right left :=
  hequal.flip.imp fun _ _ => EqualTo.symm

/-- The comparison of two lists of terms, as items are compared with a bound segment. -/
theorem list_beq_iff {left right : List Term} :
    (left == right) = true ↔ Forall₂ EqualTo left right := by
  induction left generalizing right with
  | nil => cases right <;> simp
  | cons term left ih =>
      cases right with
      | nil => simp
      | cons other right =>
          rw [List.cons_beq_cons, Bool.and_eq_true, ih, forall₂_cons]
          rfl

theorem cellsEqual_iff {left right : Cell Term} :
    CellsEqual left right ↔ left.name = right.name ∧ left.content.EqualTo right.content := by
  rw [CellsEqual, equal_iff_equals]

/-- Two collections are equal exactly if the cells of one can be paired with those of the other, in
whatever way the pairs are found. -/
theorem equal_collection_iff {cells others : List (Cell Term)} {frame frame' : Option Variable} :
    (collection cells frame).EqualTo (collection others frame') ↔
      frame = frame' ∧ ∃ paired, others.Perm paired ∧ Forall₂ CellsEqual cells paired := by
  rw [equal_iff_equals, equals, Bool.and_eq_true, beq_iff_eq]
  refine and_congr_right fun _ => ⟨exists_perm_of_equalsCells, ?_⟩
  rintro ⟨paired, hperm, hpaired⟩
  apply equalsCells_of_perm _ hperm hpaired
  rintro first - second - left right ⟨hname, hleft⟩ ⟨hname', hright⟩ ⟨hname'', hsecond⟩
  refine ⟨hname''.trans (hname'.symm.trans hname), ?_⟩
  exact equals_trans hsecond (equals_trans (equals_symm hright) hleft)

theorem equal_collection_of_perm {cells others : List (Cell Term)} (hperm : cells.Perm others)
    (frame : Option Variable) : (collection cells frame).EqualTo (collection others frame) :=
  equal_collection_iff.2 ⟨rfl, cells, hperm.symm, forall₂_same.2 fun cell _ =>
    ⟨rfl, equals_refl cell.content⟩⟩

/-- The form that two equal terms share. -/
inductive SameForm : Term → Term → Prop
  | token (sort : SortName) (value : String) : SameForm (token sort value) (token sort value)
  | var (v : Variable) : SameForm (var v) (var v)
  | app (label : Label) {args args' : List Term} (hargs : Forall₂ EqualTo args args') :
      SameForm (app label args) (app label args')
  | sequence (op : Label) {items items' : List Term} (hitems : Forall₂ EqualTo items items') :
      SameForm (sequence op items) (sequence op items')
  | collection (frame : Option Variable) {cells others paired : List (Cell Term)}
      (hperm : others.Perm paired) (hpaired : Forall₂ CellsEqual cells paired) :
      SameForm (collection cells frame) (collection others frame)

theorem EqualTo.sameForm {left right : Term} (hequal : left.EqualTo right) :
    left.SameForm right := by
  have hequals := equal_iff_equals.1 hequal
  cases left with
  | token sort value =>
      cases right with
      | token sort' value' =>
          rw [equals, Bool.and_eq_true, beq_iff_eq, beq_iff_eq] at hequals
          rw [hequals.1, hequals.2]
          exact .token sort' value'
      | var _ | app _ _ | sequence _ _ | collection _ _ => cases hequals
  | var v =>
      cases right with
      | var v' =>
          rw [equals, beq_iff_eq] at hequals
          rw [hequals]
          exact .var v'
      | token _ _ | app _ _ | sequence _ _ | collection _ _ => cases hequals
  | app label args =>
      cases right with
      | app label' args' =>
          obtain ⟨rfl, hargs⟩ := forall₂_of_equal_app hequal
          exact .app label hargs
      | token _ _ | var _ | sequence _ _ | collection _ _ => cases hequals
  | sequence op items =>
      cases right with
      | sequence op' items' =>
          rw [equals, Bool.and_eq_true, beq_iff_eq] at hequals
          obtain ⟨rfl, hitems⟩ := hequals
          exact .sequence op (forall₂_of_equalsAll hitems)
      | token _ _ | var _ | app _ _ | collection _ _ => cases hequals
  | collection cells frame =>
      cases right with
      | collection others frame' =>
          obtain ⟨rfl, paired, hperm, hpaired⟩ := equal_collection_iff.1 hequal
          exact .collection frame hperm hpaired
      | token _ _ | var _ | app _ _ | sequence _ _ => cases hequals

theorem EqualTo.instantiate {left right : Term} (hequal : left.EqualTo right)
    (subst : Substitution) : (left.instantiate subst).EqualTo (right.instantiate subst) := by
  induction left using nestedInduction generalizing right with
  | token sort value =>
      cases hequal.sameForm with
      | token => exact beq_refl _
  | var v =>
      cases hequal.sameForm with
      | var => exact beq_refl _
  | app label args ih =>
      cases hequal.sameForm with
      | app _ hargs =>
          rw [Term.instantiate, Term.instantiate, instantiateAll_eq_map, instantiateAll_eq_map]
          exact equal_app label (forall₂_map_of_forall_mem (fun arg hmem _ => ih arg hmem) hargs)
  | sequence op items ih =>
      cases hequal.sameForm with
      | sequence _ hitems =>
          rw [Term.instantiate, Term.instantiate, instantiateAll_eq_map, instantiateAll_eq_map]
          exact equal_flatten op (forall₂_map_of_forall_mem (fun item hmem _ => ih item hmem) hitems)
  | collection cells frame ih =>
      cases hequal.sameForm with
      | @collection _ _ others paired hperm hpaired =>
          obtain ⟨more, inner, hclose⟩ := exists_closeWith_eq frame (frameBinding subst frame)
          rw [Term.instantiate, Term.instantiate, hclose, hclose, instantiateCells_eq_map,
            instantiateCells_eq_map, equal_collection_iff]
          refine ⟨rfl, _, (hperm.map _).append_right more, rel_append ?_ ?_⟩
          · refine forall₂_map_of_forall_mem (fun cell hmem other hcell => ?_) hpaired
            rw [cellsEqual_iff] at hcell ⊢
            exact ⟨hcell.1, ih cell hmem hcell.2⟩
          · exact forall₂_same.2 fun cell _ => ⟨rfl, equals_refl cell.content⟩

theorem EqualTo.sortOf_eq {left right : Term} (hequal : left.EqualTo right)
    (definition : Definition) : definition.sortOf left = definition.sortOf right := by
  cases hequal.sameForm <;> rfl

end Term

end SymbolicRewriting
