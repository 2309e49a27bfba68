import SymbolicRewriting.Proofs.Congruence

/-!
Equality of terms up to identifying a sequence of one item with its item, which is what a sequence
pattern does with a subject of another form.
-/

namespace SymbolicRewriting.Term

open List

def unwrap (op : Label) : List Term → Term
  | [item] => item
  | items => sequence op items

mutual

/-- The term in which the item has taken the place of each sequence of one item. -/
def collapse : Term → Term
  | token sort value => token sort value
  | var v => var v
  | app label args => app label (collapseAll args)
  | sequence op items => unwrap op (collapseAll items)
  | collection cells frame => collection (collapseCells cells) frame

def collapseAll : List Term → List Term
  | [] => []
  | term :: terms => collapse term :: collapseAll terms

def collapseCells : List (Cell Term) → List (Cell Term)
  | [] => []
  | ⟨id, name, content⟩ :: cells => ⟨id, name, collapse content⟩ :: collapseCells cells

end

def collapseCell (cell : Cell Term) : Cell Term := { cell with content := cell.content.collapse }

theorem collapseAll_eq_map (terms : List Term) : collapseAll terms = terms.map collapse := by
  induction terms with
  | nil => rfl
  | cons term terms ih => rw [collapseAll, ih, map_cons]

theorem collapseCells_eq_map (cells : List (Cell Term)) :
    collapseCells cells = cells.map collapseCell := by
  induction cells with
  | nil => rfl
  | cons cell cells ih => rw [collapseCells, ih, map_cons, collapseCell]

theorem collapse_collection (cells : List (Cell Term)) (frame : Option Variable) :
    (collection cells frame).collapse = collection (cells.map collapseCell) frame := by
  rw [collapse, collapseCells_eq_map]

theorem equal_unwrap (op : Label) {left right : List Term} (hequal : Forall₂ EqualTo left right) :
    (unwrap op left).EqualTo (unwrap op right) := by
  cases hequal with
  | nil => exact beq_refl _
  | cons hfirst hothers =>
      cases hothers with
      | nil => exact hfirst
      | cons hsecond hothers => exact equal_sequence op (.cons hfirst (.cons hsecond hothers))

/-- Equal up to identifying sequences of one item with their items. -/
def Coincides (left right : Term) : Prop := left.collapse.EqualTo right.collapse

theorem coincides_refl (term : Term) : term.Coincides term :=
  beq_refl term.collapse

theorem EqualTo.coincides {left right : Term} (hequal : left.EqualTo right) :
    left.Coincides right := by
  unfold Coincides
  induction left using nestedInduction generalizing right with
  | token sort value =>
      cases hequal.sameForm with
      | token => exact beq_refl _
  | var v =>
      cases hequal.sameForm with
      | var => exact beq_refl _
  | app label args ih =>
      cases hequal.sameForm with
      | app _ hargs =>
          rw [collapse, collapse, collapseAll_eq_map, collapseAll_eq_map]
          exact equal_app label (forall₂_map_of_forall_mem (fun arg hmem _ => ih arg hmem) hargs)
  | sequence op items ih =>
      cases hequal.sameForm with
      | sequence _ hitems =>
          rw [collapse, collapse, collapseAll_eq_map, collapseAll_eq_map]
          exact equal_unwrap op (forall₂_map_of_forall_mem (fun item hmem _ => ih item hmem) hitems)
  | collection cells frame ih =>
      cases hequal.sameForm with
      | collection _ hperm hpaired =>
          rw [collapse_collection, collapse_collection, equal_collection_iff]
          refine ⟨rfl, _, hperm.map collapseCell, ?_⟩
          refine forall₂_map_of_forall_mem (fun cell hmem other hcell => ?_) hpaired
          rw [cellsEqual_iff] at hcell ⊢
          exact ⟨hcell.1, ih cell hmem hcell.2⟩

theorem coincides_app (label : Label) {left right : List Term}
    (hcoincide : Forall₂ Coincides left right) :
    (app label left).Coincides (app label right) := by
  unfold Coincides
  rw [collapse, collapse, collapseAll_eq_map, collapseAll_eq_map]
  exact equal_app label (forall₂_map_left_iff.2 (forall₂_map_right_iff.2 hcoincide))

theorem coincides_sequence (op : Label) {left right : List Term}
    (hcoincide : Forall₂ Coincides left right) :
    (sequence op left).Coincides (sequence op right) := by
  unfold Coincides
  rw [collapse, collapse, collapseAll_eq_map, collapseAll_eq_map]
  exact equal_unwrap op (forall₂_map_left_iff.2 (forall₂_map_right_iff.2 hcoincide))

/-- A sequence coincides with a term that contributes the same items to a sequence. -/
theorem coincides_of_itemsOf {op : Label} {items : List Term} {term : Term}
    (hcoincide : Forall₂ Coincides items (itemsOf op term)) :
    (sequence op items).Coincides term := by
  cases hover : term.isSequenceOver op with
  | false =>
      rw [itemsOf_of_not_isSequenceOver hover] at hcoincide
      obtain ⟨item, others, hitem, hothers, rfl⟩ := forall₂_cons_right_iff.1 hcoincide
      cases hothers
      exact hitem
  | true =>
      obtain ⟨others, rfl⟩ := exists_of_isSequenceOver hover
      rw [itemsOf_sequence] at hcoincide
      exact coincides_sequence op hcoincide

theorem Coincides.cons_cell {cells others all : List (Cell Term)} {frame frame' : Option Variable}
    (hcells : (collection cells frame).Coincides (collection others frame')) {cell other : Cell Term}
    (hname : cell.name = other.name) (hcontent : cell.content.Coincides other.content)
    (hperm : all.Perm (other :: others)) :
    (collection (cell :: cells) frame).Coincides (collection all frame') := by
  unfold Coincides at hcells ⊢
  rw [collapse_collection, collapse_collection, equal_collection_iff] at hcells ⊢
  obtain ⟨hframe, paired, hpaired, hequal⟩ := hcells
  refine ⟨hframe, collapseCell other :: paired, ?_, .cons ?_ hequal⟩
  · calc all.map collapseCell
        ~ (other :: others).map collapseCell := hperm.map collapseCell
      _ ~ collapseCell other :: paired := hpaired.cons _
  · exact cellsEqual_iff.2 ⟨hname, hcontent⟩

end SymbolicRewriting.Term
