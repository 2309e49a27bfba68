import Mathlib.Logic.Relation
import SymbolicRewriting.Proofs.Congruence

/-!
# What equality of terms forgets

Equality forgets the identities of cells and their order, and nothing else. Two terms are equal
exactly if a series of changes leads from one to the other, each of which gives a new identity to
one cell or puts the cells of one collection into another order, wherever it stands in the term.
-/

namespace SymbolicRewriting

open List Relation

theorem forall₂_exchange {α : Type} {related : α → α → Prop} (hrefl : ∀ x, related x x)
    (before after : List α) {x y : α} (hxy : related x y) :
    Forall₂ related (before ++ x :: after) (before ++ y :: after) :=
  rel_append (forall₂_same.2 fun z _ => hrefl z) (.cons hxy (forall₂_same.2 fun z _ => hrefl z))

namespace Term

/-- One change of an identity or of an order, at any depth. -/
inductive CellChange : Term → Term → Prop
  | identity (id id' : CellId) (name : Label) (content : Term) (before after : List (Cell Term))
      (frame : Option Variable) :
      CellChange (collection (before ++ ⟨id, name, content⟩ :: after) frame)
        (collection (before ++ ⟨id', name, content⟩ :: after) frame)
  | order {cells others : List (Cell Term)} (hperm : cells.Perm others) (frame : Option Variable) :
      CellChange (collection cells frame) (collection others frame)
  | arg (label : Label) (before after : List Term) {left right : Term}
      (hchange : CellChange left right) :
      CellChange (app label (before ++ left :: after)) (app label (before ++ right :: after))
  | item (op : Label) (before after : List Term) {left right : Term}
      (hchange : CellChange left right) :
      CellChange (sequence op (before ++ left :: after)) (sequence op (before ++ right :: after))
  | content (id : CellId) (name : Label) (before after : List (Cell Term))
      (frame : Option Variable) {left right : Term} (hchange : CellChange left right) :
      CellChange (collection (before ++ ⟨id, name, left⟩ :: after) frame)
        (collection (before ++ ⟨id, name, right⟩ :: after) frame)

theorem cellsEqual_refl (cell : Cell Term) : CellsEqual cell cell :=
  ⟨rfl, equals_refl cell.content⟩

theorem CellChange.equalTo {left right : Term} (hchange : CellChange left right) :
    left.EqualTo right := by
  induction hchange with
  | identity id id' name content before after frame =>
      have hcell : CellsEqual ⟨id, name, content⟩ ⟨id', name, content⟩ :=
        ⟨rfl, equals_refl content⟩
      exact equal_collection (forall₂_exchange cellsEqual_refl before after hcell) frame
  | order hperm frame => exact equal_collection_of_perm hperm frame
  | arg label before after _ ih => exact equal_app label (forall₂_exchange beq_refl before after ih)
  | item op before after _ ih => exact equal_sequence op (forall₂_exchange beq_refl before after ih)
  | @content id name before after frame left right _ ih =>
      have hcell : CellsEqual ⟨id, name, left⟩ ⟨id, name, right⟩ := cellsEqual_iff.2 ⟨rfl, ih⟩
      exact equal_collection (forall₂_exchange cellsEqual_refl before after hcell) frame

theorem changes_of_member (build : Term → Term) {left right : Term}
    (hbuild : ∀ left right, CellChange left right → CellChange (build left) (build right))
    (hchanges : ReflTransGen CellChange left right) :
    ReflTransGen CellChange (build left) (build right) :=
  ReflTransGen.lift build hbuild left right hchanges

/-- Changes of the members of a list are made one after another, from the first to the last. -/
theorem changes_of_forall₂ {γ : Type} (build : List γ → Term) {related : γ → γ → Prop}
    (hone : ∀ before after x y, related x y →
      ReflTransGen CellChange (build (before ++ x :: after)) (build (before ++ y :: after)))
    {xs ys : List γ} (hall : Forall₂ related xs ys) :
    ReflTransGen CellChange (build xs) (build ys) := by
  suffices hbefore : ∀ before,
      ReflTransGen CellChange (build (before ++ xs)) (build (before ++ ys)) from hbefore []
  induction hall with
  | nil => exact fun _ => .refl
  | @cons x y xs ys hxy _ ih =>
      intro before
      have hlater := ih (before ++ [y])
      rw [List.append_cons before y ys]
      rw [List.append_assoc] at hlater
      exact (hone before xs x y hxy).trans hlater

/-- Cells of one name, whatever their identities, the first content of which becomes the second. -/
def CellChanges (cell other : Cell Term) : Prop :=
  cell.name = other.name ∧ ReflTransGen CellChange cell.content other.content

theorem CellChanges.collection {cell other : Cell Term} (hchanges : CellChanges cell other)
    (before after : List (Cell Term)) (frame : Option Variable) :
    ReflTransGen CellChange (collection (before ++ cell :: after) frame)
      (collection (before ++ other :: after) frame) := by
  obtain ⟨id, name, content⟩ := cell
  obtain ⟨id', name', content'⟩ := other
  obtain ⟨rfl, hcontent⟩ := hchanges
  have hcontents := changes_of_member
    (fun term => Term.collection (before ++ ⟨id, name, term⟩ :: after) frame)
    (fun _ _ hchange => .content id name before after frame hchange) hcontent
  exact hcontents.tail (.identity id id' name content' before after frame)

theorem EqualTo.changes {left right : Term} (hequal : left.EqualTo right) :
    ReflTransGen CellChange left right := by
  induction left using nestedInduction generalizing right with
  | token sort value =>
      cases hequal.sameForm with
      | token => exact .refl
  | var v =>
      cases hequal.sameForm with
      | var => exact .refl
  | app label args ih =>
      cases hequal.sameForm with
      | app _ hargs =>
          have hchanges := forall₂_map_of_forall_mem (f := id) (g := id)
            (fun arg hmem _ => ih arg hmem) hargs
          rw [List.map_id, List.map_id] at hchanges
          exact changes_of_forall₂ (app label) (fun before after _ _ =>
            changes_of_member _ fun _ _ => .arg label before after) hchanges
  | sequence op items ih =>
      cases hequal.sameForm with
      | sequence _ hitems =>
          have hchanges := forall₂_map_of_forall_mem (f := id) (g := id)
            (fun item hmem _ => ih item hmem) hitems
          rw [List.map_id, List.map_id] at hchanges
          exact changes_of_forall₂ (sequence op) (fun before after _ _ =>
            changes_of_member _ fun _ _ => .item op before after) hchanges
  | collection cells frame ih =>
      cases hequal.sameForm with
      | @collection _ _ others paired hperm hpaired =>
          have hchanges : Forall₂ CellChanges cells paired := by
            rw [← List.map_id cells, ← List.map_id paired]
            refine forall₂_map_of_forall_mem (fun cell hmem other hcell => ?_) hpaired
            rw [cellsEqual_iff] at hcell
            exact ⟨hcell.1, ih cell hmem hcell.2⟩
          have hcells := changes_of_forall₂ (fun cells => collection cells frame)
            (fun before after _ _ hchange => hchange.collection before after frame) hchanges
          exact hcells.tail (.order hperm.symm frame)

theorem changes_iff_equalTo {left right : Term} :
    ReflTransGen CellChange left right ↔ left.EqualTo right := by
  refine ⟨fun hchanges => ?_, EqualTo.changes⟩
  induction hchanges with
  | refl => exact beq_refl left
  | tail _ hchange ih => exact ih.trans hchange.equalTo

theorem cell_beq_iff (cell other : Cell Term) : (cell == other) = true ↔ CellsEqual cell other := by
  rw [CellsEqual, ← beq_eq_equals]
  exact Bool.and_eq_true_iff.trans (and_congr_left' beq_iff_eq)

/-- **What equality means.** Terms are equal exactly if one becomes the other by changes of cell
identities and of the order of cells at any depth; so equality is an equivalence, and collections
are equal as soon as their cells can be paired at all, although every cell is only ever paired with
the first equal one that is free. -/
theorem equal_iff_cells_changed :
    (∀ left right : Term, (left == right) = true ↔ ReflTransGen CellChange left right) ∧
      Equivalence (fun left right : Term => (left == right) = true) ∧
      ∀ (cells others : List (Cell Term)) (frame frame' : Option Variable),
        (collection cells frame == collection others frame') = true ↔
          frame = frame' ∧ ∃ paired, others.Perm paired ∧
            Forall₂ (fun cell other => (cell == other) = true) cells paired := by
  refine ⟨fun _ _ => changes_iff_equalTo.symm, ⟨beq_refl, beq_symm, beq_trans⟩, ?_⟩
  intro cells others frame frame'
  simp only [cell_beq_iff]
  exact equal_collection_iff

end Term

end SymbolicRewriting
