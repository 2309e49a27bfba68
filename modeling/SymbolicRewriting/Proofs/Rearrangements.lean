import Mathlib.Data.Multiset.Bind
import SymbolicRewriting.Proofs.Conformance

/-!
Lists with the same members in another order. The cells of equal collections correspond in this way,
and so do the choices among them, which leave the same cells free.
-/

namespace SymbolicRewriting

open List

section Rel

variable {α β γ δ : Type} {related : α → β → Prop}

theorem rel_coe_of_forall₂ {xs : List α} {ys : List β} (hall : Forall₂ related xs ys) :
    Multiset.Rel related ↑xs ↑ys := by
  induction hall with
  | nil => exact .zero
  | cons hfirst _ ih => exact .cons hfirst ih

theorem rel_coe_iff {xs : List α} {ys : List β} :
    Multiset.Rel related ↑xs ↑ys ↔ ∃ paired, ys.Perm paired ∧ Forall₂ related xs paired := by
  constructor
  · intro hrel
    induction xs generalizing ys with
    | nil =>
        rw [Multiset.coe_nil, Multiset.rel_zero_left, Multiset.coe_eq_zero] at hrel
        exact ⟨[], hrel ▸ .refl _, .nil⟩
    | cons x xs ih =>
        rw [← Multiset.cons_coe, Multiset.rel_cons_left] at hrel
        obtain ⟨y, others, hxy, hothers, hys⟩ := hrel
        induction others using Quotient.inductionOn with
        | h others =>
            obtain ⟨paired, hperm, hpaired⟩ := ih hothers
            have hys' : ys.Perm (y :: others) := Multiset.coe_eq_coe.1 hys
            exact ⟨y :: paired, hys'.trans (hperm.cons y), .cons hxy hpaired⟩
  · rintro ⟨paired, hperm, hpaired⟩
    rw [Multiset.coe_eq_coe.2 hperm]
    exact rel_coe_of_forall₂ hpaired

theorem rel_coe_append {xs xs' : List α} {ys ys' : List β}
    (hfirst : Multiset.Rel related ↑xs ↑ys) (hsecond : Multiset.Rel related ↑xs' ↑ys') :
    Multiset.Rel related ↑(xs ++ xs') ↑(ys ++ ys') := by
  rw [← Multiset.coe_add, ← Multiset.coe_add]
  exact hfirst.add hsecond

theorem rel_coe_map {image : γ → δ → Prop} {f : α → γ} {g : β → δ} {xs : List α} {ys : List β}
    (hrel : Multiset.Rel (fun x y => image (f x) (g y)) ↑xs ↑ys) :
    Multiset.Rel image ↑(xs.map f) ↑(ys.map g) := by
  rw [← Multiset.map_coe, ← Multiset.map_coe, Multiset.rel_map]
  exact hrel

/-- What the members of two lists contribute can be rearranged, if the members can. -/
theorem rel_coe_flatMap {image : γ → δ → Prop} {f : α → List γ} {g : β → List δ} {xs : List α}
    {ys : List β} (hrel : Multiset.Rel related ↑xs ↑ys)
    (himage : ∀ x ∈ xs, ∀ y ∈ ys, related x y → Multiset.Rel image ↑(f x) ↑(g y)) :
    Multiset.Rel image ↑(xs.flatMap f) ↑(ys.flatMap g) := by
  rw [← Multiset.coe_bind, ← Multiset.coe_bind]
  have hmembers : Multiset.Rel (fun x y => Multiset.Rel image ↑(f x) ↑(g y)) ↑xs ↑ys :=
    hrel.mono himage
  exact Multiset.rel_bind (fun _ _ hparts => hparts) hmembers

theorem exists_of_rel_coe {xs : List α} {ys : List β} (hrel : Multiset.Rel related ↑xs ↑ys) {x : α}
    (hmem : x ∈ xs) : ∃ y ∈ ys, related x y := by
  obtain ⟨paired, hperm, hpaired⟩ := rel_coe_iff.1 hrel
  obtain ⟨y, hy, hxy⟩ := exists_mem_of_forall₂ hpaired.flip hmem
  exact ⟨y, hperm.mem_iff.2 hy, hxy⟩

end Rel

namespace Term

theorem equal_collection_iff_rel {cells others : List (Cell Term)} {frame frame' : Option Variable} :
    (collection cells frame).EqualTo (collection others frame') ↔
      frame = frame' ∧ Multiset.Rel CellsEqual ↑cells ↑others := by
  rw [equal_collection_iff, rel_coe_iff]

end Term

/-- Choices of equal cells that leave equal cells free. -/
structure ChoicesEqual (choice other : Cell Term × FreeCells) : Prop where
  chosen : Term.CellsEqual choice.1 other.1
  free : Multiset.Rel Term.CellsEqual ↑choice.2.toList ↑other.2.toList

theorem ChoicesEqual.trans {first second third : Cell Term × FreeCells}
    (hfirst : ChoicesEqual first second) (hsecond : ChoicesEqual second third) :
    ChoicesEqual first third := by
  have htrans : ∀ {left middle right : Cell Term}, Term.CellsEqual left middle →
      Term.CellsEqual middle right → Term.CellsEqual left right :=
    fun hleft hright => ⟨hleft.1.trans hright.1, Term.equals_trans hleft.2 hright.2⟩
  have : IsTrans (Cell Term) Term.CellsEqual := ⟨fun _ _ _ => htrans⟩
  exact ⟨htrans hfirst.chosen hsecond.chosen, hfirst.free.trans _ hsecond.free⟩

instance : IsTrans (Cell Term × FreeCells) ChoicesEqual := ⟨fun _ _ _ => ChoicesEqual.trans⟩

/-- Cells that stand in pairs are chosen in pairs. -/
theorem rel_selections_of_forall₂ (name : Label) {before before' cells others : List (Cell Term)}
    (hbefore : Forall₂ Term.CellsEqual before before')
    (hcells : Forall₂ Term.CellsEqual cells others) :
    Multiset.Rel ChoicesEqual ↑(selections name before cells) ↑(selections name before' others) := by
  induction hcells generalizing before before' with
  | nil => exact .zero
  | @cons cell other after after' hcell hafter ih =>
      have hlater := ih (.cons hcell hbefore)
      have hfree : Forall₂ Term.CellsEqual (before.reverseAux after) (before'.reverseAux after') := by
        rw [reverseAux_eq, reverseAux_eq]
        exact rel_append (forall₂_reverse_iff.2 hbefore) hafter
      simp only [selections, hcell.1]
      split
      · exact .cons ⟨hcell, rel_coe_of_forall₂ hfree⟩ hlater
      · exact hlater

theorem rel_cellsEqual_of_perm {cells others : List (Cell Term)} (hperm : cells.Perm others) :
    Multiset.Rel Term.CellsEqual ↑cells ↑others := by
  rw [Multiset.coe_eq_coe.2 hperm]
  exact Multiset.rel_refl_of_refl_on fun cell _ => ⟨rfl, cell.content.equals_refl⟩

theorem perm_toList_freeCells (free : FreeCells) : free.toList.Perm (free.before ++ free.after) := by
  rw [FreeCells.toList, reverseAux_eq]
  exact (reverse_perm _).append_right _

theorem choicesEqual_of_perm (cell : Cell Term) {free other : FreeCells}
    (hperm : (free.before ++ free.after).Perm (other.before ++ other.after)) :
    ChoicesEqual (cell, free) (cell, other) where
  chosen := ⟨rfl, cell.content.equals_refl⟩
  free := rel_cellsEqual_of_perm <| calc
    free.toList ~ free.before ++ free.after := perm_toList_freeCells free
    _ ~ other.before ++ other.after := hperm
    _ ~ other.toList := (perm_toList_freeCells other).symm

/-- The order of the cells that stand before does not matter. -/
theorem rel_selections_of_before (name : Label) (cells : List (Cell Term))
    {before before' : List (Cell Term)} (hbefore : before.Perm before') :
    Multiset.Rel ChoicesEqual ↑(selections name before cells) ↑(selections name before' cells) := by
  induction cells generalizing before before' with
  | nil => exact .zero
  | cons cell cells ih =>
      have hlater := ih (hbefore.cons cell)
      simp only [selections]
      split
      · exact .cons (choicesEqual_of_perm cell (hbefore.append_right cells)) hlater
      · exact hlater

/-- Another order of the cells gives the same choices in another order. -/
theorem rel_selections_of_perm (name : Label) {cells others : List (Cell Term)}
    (hcells : cells.Perm others) (before : List (Cell Term)) :
    Multiset.Rel ChoicesEqual ↑(selections name before cells) ↑(selections name before others) := by
  induction hcells generalizing before with
  | nil => exact .zero
  | cons cell hcells ih =>
      simp only [selections]
      split
      · exact .cons (choicesEqual_of_perm cell (hcells.append_left before)) (ih (cell :: before))
      · exact ih (cell :: before)
  | swap first second cells =>
      have hlater := rel_selections_of_before name cells (.swap second first before)
      have hfirst : ChoicesEqual (first, ⟨second :: before, cells⟩) (first, ⟨before, second :: cells⟩) :=
        choicesEqual_of_perm first perm_middle.symm
      have hsecond : ChoicesEqual (second, ⟨before, first :: cells⟩) (second, ⟨first :: before, cells⟩) :=
        choicesEqual_of_perm second perm_middle
      simp only [selections]
      by_cases hname : first.name = name <;> by_cases hname' : second.name = name
      · rw [if_pos hname, if_pos hname', if_pos hname, if_pos hname']
        rw [← Multiset.cons_coe, ← Multiset.cons_coe, Multiset.cons_swap]
        exact .cons hfirst (.cons hsecond hlater)
      · rw [if_pos hname, if_neg hname', if_pos hname, if_neg hname']
        exact .cons hfirst hlater
      · rw [if_neg hname, if_pos hname', if_neg hname, if_pos hname']
        exact .cons hsecond hlater
      · rw [if_neg hname, if_neg hname', if_neg hname, if_neg hname']
        exact hlater
  | trans _ _ ihfirst ihsecond => exact (ihfirst before).trans _ (ihsecond before)

/-- Equal cells, in whatever order, offer equal choices. -/
theorem rel_selections (name : Label) {cells others : List (Cell Term)}
    (hcells : Multiset.Rel Term.CellsEqual ↑cells ↑others) :
    Multiset.Rel ChoicesEqual ↑(selections name [] cells) ↑(selections name [] others) := by
  obtain ⟨paired, hperm, hpaired⟩ := rel_coe_iff.1 hcells
  have hchoices := rel_selections_of_forall₂ name .nil hpaired
  exact hchoices.trans _ (rel_selections_of_perm name hperm.symm [])

end SymbolicRewriting
