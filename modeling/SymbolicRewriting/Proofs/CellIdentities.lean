import Mathlib.Algebra.Order.Group.Multiset
import Mathlib.Algebra.BigOperators.Group.List.Lemmas
import SymbolicRewriting.Proofs.Conformance

/-!
The identities of the cells in a term, as a multiset: an identity that two cells share is counted
twice. What is held together is added up, so that every step of matching and building can be accounted
for by an inequality.
-/

namespace SymbolicRewriting

open List

theorem coe_flatMap {α β : Type} (read : α → List β) (xs : List α) :
    (↑(xs.flatMap read) : Multiset β) = (xs.map fun x => (↑(read x) : Multiset β)).sum := by
  induction xs with
  | nil => rfl
  | cons x xs ih => rw [flatMap_cons, map_cons, sum_cons, ← ih, Multiset.coe_add]

theorem sum_map_flatMap {α β γ : Type} [AddMonoid γ] (read : α → List β) (held : β → γ)
    (xs : List α) :
    ((xs.flatMap read).map held).sum = (xs.map fun x => ((read x).map held).sum).sum := by
  induction xs with
  | nil => rfl
  | cons x xs ih => rw [flatMap_cons, map_append, sum_append, map_cons, sum_cons, ih]

namespace Term

/-- The variables of a term, as often as they occur. -/
def varOccurrences (term : Term) : List Variable := term.visit.filterMap rootVariable

/-- What is read off all subterms is read off the root and then off the children. -/
theorem flatMap_visit {β : Type} (read : Term → List β) (term : Term) :
    term.visit.flatMap read = read term ++ term.children.flatMap fun child =>
      child.visit.flatMap read := by
  rw [visit_eq_subterms, subterms_eq_cons, flatMap_cons]
  congr 1
  induction term.children with
  | nil => rfl
  | cons child children ih =>
      rw [subtermsAll, flatMap_append, ih, flatMap_cons, visit_eq_subterms]

theorem varOccurrences_eq (term : Term) :
    term.varOccurrences = term.rootVariable.toList ++ term.children.flatMap varOccurrences := by
  unfold varOccurrences
  simp only [filterMap_eq_flatMap_toList]
  exact flatMap_visit _ term

theorem cellIds_eq (term : Term) :
    term.cellIds = term.cellsAtRoot.map Cell.id ++ term.children.flatMap cellIds := by
  unfold cellIds cellsWithin
  simp only [map_flatMap]
  exact flatMap_visit _ term

def identities (term : Term) : Multiset CellId := term.cellIds

end Term

def Cell.identities (cell : Cell Term) : Multiset CellId := {cell.id} + cell.content.identities

namespace Term

theorem identities_eq (term : Term) : term.identities =
    ↑(term.cellsAtRoot.map Cell.id) + (term.children.map identities).sum := by
  rw [identities, cellIds_eq, ← Multiset.coe_add, coe_flatMap]
  rfl

@[simp]
theorem identities_token (sort : SortName) (value : String) : (token sort value).identities = 0 :=
  identities_eq _

@[simp]
theorem identities_var (v : Variable) : (var v).identities = 0 := identities_eq _

@[simp]
theorem identities_app (label : Label) (args : List Term) :
    (app label args).identities = (args.map identities).sum :=
  (identities_eq _).trans (zero_add _)

@[simp]
theorem identities_sequence (op : Label) (items : List Term) :
    (sequence op items).identities = (items.map identities).sum :=
  (identities_eq _).trans (zero_add _)

@[simp]
theorem identities_collection (cells : List (Cell Term)) (frame : Option Variable) :
    (collection cells frame).identities = (cells.map Cell.identities).sum := by
  rw [identities_eq, cellsAtRoot, children]
  induction cells with
  | nil => rfl
  | cons cell cells ih =>
      simp only [map_cons, sum_cons, ← ih, ← Multiset.cons_coe, ← Multiset.singleton_add,
        Cell.identities]
      exact add_add_add_comm _ _ _ _

theorem sum_identities_split (items : List Term) (count : Nat) :
    ((items.take count).map identities).sum + ((items.drop count).map identities).sum =
      (items.map identities).sum := by
  rw [← sum_append, ← map_append, take_append_drop]

theorem sum_identities_itemsOf (op : Label) (term : Term) :
    ((term.itemsOf op).map identities).sum = term.identities := by
  unfold itemsOf
  split
  · split
    · exact (identities_sequence _ _).symm
    · exact sum_singleton
  · exact sum_singleton

@[simp]
theorem identities_flatten (op : Label) (items : List Term) :
    (flatten op items).identities = (items.map identities).sum := by
  rw [flatten_eq, identities_sequence, sum_map_flatMap]
  simp only [sum_identities_itemsOf]

/-- The binding of a frame adds its cells, if it is a collection. -/
theorem identities_closeWith_le (cells : List (Cell Term)) (frame : Option Variable)
    (bound : Option Term) :
    (closeWith cells frame bound).identities ≤
      (cells.map Cell.identities).sum + bound.elim 0 identities := by
  unfold closeWith
  split
  · simp
  · simp
  · rw [identities_collection]
    exact Multiset.le_add_right _ _

end Term

end SymbolicRewriting
