import Mathlib.Data.List.Perm.Basic
import SymbolicRewriting.Term.Equality

/-!
Equality of terms is an equivalence. For collections this is not a matter of course, since every cell
is paired with the first equal one that is free: no choice among equal cells can spoil a later one.
-/

namespace SymbolicRewriting

open List

theorem exists_of_removeFirst? {α : Type} {p : α → Bool} {xs remaining : List α}
    (hremove : removeFirst? p xs = some remaining) :
    ∃ x, p x = true ∧ xs.Perm (x :: remaining) := by
  induction xs generalizing remaining with
  | nil => cases hremove
  | cons first xs ih =>
      simp only [removeFirst?] at hremove
      split at hremove
      · rename_i hfirst
        cases hremove
        exact ⟨first, hfirst, .refl _⟩
      · obtain ⟨rest, hrest, rfl⟩ := Option.map_eq_some_iff.1 hremove
        obtain ⟨x, hx, hperm⟩ := ih hrest
        exact ⟨x, hx, (hperm.cons first).trans (.swap _ _ _)⟩

theorem exists_removeFirst? {α : Type} {p : α → Bool} {xs : List α} {x : α} (hmem : x ∈ xs)
    (hx : p x = true) : ∃ remaining, removeFirst? p xs = some remaining := by
  induction xs with
  | nil => cases hmem
  | cons first xs ih =>
      simp only [removeFirst?]
      split
      · exact ⟨xs, rfl⟩
      · rename_i hfirst
        rcases List.mem_cons.1 hmem with rfl | hlater
        · exact absurd hx hfirst
        · obtain ⟨remaining, hremaining⟩ := ih hlater
          exact ⟨first :: remaining, by rw [hremaining, Option.map_some]⟩

namespace Term

/-- Cells that may be paired: of the same name and with equal contents. -/
def CellsEqual (left right : Cell Term) : Prop :=
  left.name = right.name ∧ left.content.equals right.content = true

theorem equalsCells_cons (cell : Cell Term) (cells free : List (Cell Term)) :
    equalsCells (cell :: cells) free =
      match removeFirst? (fun other => cell.name == other.name && cell.content.equals other.content)
          free with
      | some remaining => equalsCells cells remaining
      | none => false := by
  cases cell
  rfl

theorem exists_perm_of_equalsCells {cells free : List (Cell Term)}
    (hequal : equalsCells cells free = true) :
    ∃ paired, free.Perm paired ∧ Forall₂ CellsEqual cells paired := by
  induction cells generalizing free with
  | nil =>
      rw [equalsCells, List.isEmpty_iff] at hequal
      exact ⟨[], hequal ▸ .refl _, .nil⟩
  | cons cell cells ih =>
      rw [equalsCells_cons] at hequal
      split at hequal
      · rename_i remaining hremove
        obtain ⟨other, hother, hperm⟩ := exists_of_removeFirst? hremove
        obtain ⟨paired, hpaired, hcells⟩ := ih hequal
        rw [Bool.and_eq_true, beq_iff_eq] at hother
        exact ⟨other :: paired, hperm.trans (hpaired.cons other), .cons hother hcells⟩
      · cases hequal

theorem cellsEqual_exchange {cells before after : List (Cell Term)} {taken partner : Cell Term}
    (hpaired : Forall₂ CellsEqual cells (before ++ taken :: after))
    (hpartner : ∀ cell ∈ cells, CellsEqual cell taken → CellsEqual cell partner) :
    Forall₂ CellsEqual cells (before ++ partner :: after) := by
  induction before generalizing cells with
  | nil =>
      obtain ⟨cell, others, hcell, hothers, rfl⟩ := forall₂_cons_right_iff.1 hpaired
      exact .cons (hpartner cell List.mem_cons_self hcell) hothers
  | cons first before ih =>
      obtain ⟨cell, others, hcell, hothers, rfl⟩ := forall₂_cons_right_iff.1 hpaired
      exact .cons hcell (ih hothers fun other hmem => hpartner other (List.mem_cons_of_mem _ hmem))

/-- Exchanging the partners of two cells does no harm, so the first partner that is found is as good
as any. -/
theorem equalsCells_of_perm {cells free paired : List (Cell Term)}
    (hexchange : ∀ first ∈ cells, ∀ second ∈ cells, ∀ {left right},
      CellsEqual first left → CellsEqual first right → CellsEqual second right →
        CellsEqual second left)
    (hperm : free.Perm paired) (hpaired : Forall₂ CellsEqual cells paired) :
    equalsCells cells free = true := by
  induction cells generalizing free paired with
  | nil =>
      cases hpaired
      rw [equalsCells, List.isEmpty_iff]
      exact hperm.eq_nil
  | cons cell cells ih =>
      obtain ⟨partner, others, hpartner, hothers, rfl⟩ := forall₂_cons_left_iff.1 hpaired
      have hmem : partner ∈ free := hperm.mem_iff.2 List.mem_cons_self
      obtain ⟨remaining, hremove⟩ := exists_removeFirst?
        (p := fun other => cell.name == other.name && cell.content.equals other.content) hmem
        (by rw [Bool.and_eq_true, beq_iff_eq]; exact hpartner)
      rw [equalsCells_cons, hremove]
      have hlater : ∀ first ∈ cells, ∀ second ∈ cells, ∀ {left right}, CellsEqual first left →
          CellsEqual first right → CellsEqual second right → CellsEqual second left :=
        fun first hfirst second hsecond => hexchange first (List.mem_cons_of_mem _ hfirst) second
          (List.mem_cons_of_mem _ hsecond)
      obtain ⟨taken, htaken, hfree⟩ := exists_of_removeFirst? hremove
      rw [Bool.and_eq_true, beq_iff_eq] at htaken
      have hrest : (taken :: remaining).Perm (partner :: others) := hfree.symm.trans hperm
      rcases List.mem_cons.1 (hrest.mem_iff.1 List.mem_cons_self) with rfl | hother
      · exact ih hlater hrest.cons_inv hothers
      · -- the cell that was to be paired with `taken` is paired with `partner`
        obtain ⟨before, after, rfl⟩ := List.append_of_mem hother
        have hexchanged := cellsEqual_exchange hothers fun second hsecond htaken' =>
          hexchange cell List.mem_cons_self second (List.mem_cons_of_mem _ hsecond) hpartner htaken
            htaken'
        have hremaining : remaining.Perm (before ++ partner :: after) := by
          have hmiddle : taken :: remaining ~ taken :: partner :: (before ++ after) :=
            calc taken :: remaining
                ~ partner :: (before ++ taken :: after) := hrest
              _ ~ partner :: taken :: (before ++ after) := perm_middle.cons partner
              _ ~ taken :: partner :: (before ++ after) := .swap _ _ _
          exact hmiddle.cons_inv.trans perm_middle.symm
        exact ih hlater hremaining hexchanged

theorem sizeCells_eq_of_perm {cells free : List (Cell Term)} (hperm : cells.Perm free) :
    sizeCells cells = sizeCells free := by
  induction hperm with
  | nil => rfl
  | cons cell _ ih => simp only [sizeCells_cons, ih]
  | swap first second cells =>
      simp only [sizeCells_cons]
      omega
  | trans _ _ ihfirst ihsecond => exact ihfirst.trans ihsecond

mutual

theorem size_eq_of_equals : (left right : Term) → left.equals right = true →
    left.size = right.size
  | token _ _, token _ _, _ => rfl
  | var _, var _, _ => rfl
  | app _ args, app _ args', hequal => by
      simp only [equals, Bool.and_eq_true] at hequal
      simp only [size, sizeAll_eq_of_equalsAll args args' hequal.2]
  | sequence _ items, sequence _ items', hequal => by
      simp only [equals, Bool.and_eq_true] at hequal
      simp only [size, sizeAll_eq_of_equalsAll items items' hequal.2]
  | collection cells _, collection cells' _, hequal => by
      simp only [equals, Bool.and_eq_true] at hequal
      simp only [size, sizeCells_eq_of_equalsCells cells cells' hequal.2]

theorem sizeAll_eq_of_equalsAll : (left right : List Term) → equalsAll left right = true →
    sizeAll left = sizeAll right
  | [], [], _ => rfl
  | term :: terms, term' :: terms', hequal => by
      simp only [equalsAll, Bool.and_eq_true] at hequal
      simp only [sizeAll, size_eq_of_equals term term' hequal.1,
        sizeAll_eq_of_equalsAll terms terms' hequal.2]

theorem sizeCells_eq_of_equalsCells : (cells free : List (Cell Term)) →
    equalsCells cells free = true → sizeCells cells = sizeCells free
  | [], free, hequal => by
      rw [equalsCells, List.isEmpty_iff] at hequal
      rw [hequal]
  | ⟨id, name, content⟩ :: cells, free, hequal => by
      rw [equalsCells] at hequal
      split at hequal
      · rename_i remaining hremove
        obtain ⟨other, hother, hperm⟩ := exists_of_removeFirst? hremove
        rw [Bool.and_eq_true] at hother
        have hsum := sizeCells_eq_of_equalsCells cells remaining hequal
        have hcontent := size_eq_of_equals content other.content hother.2
        rw [sizeCells_eq_of_perm hperm, sizeCells_cons, sizeCells, hsum, hcontent]
      · cases hequal

end

theorem content_size_le_of_mem {cell : Cell Term} {cells : List (Cell Term)}
    (hmem : cell ∈ cells) : cell.content.size ≤ sizeCells cells := by
  induction cells with
  | nil => cases hmem
  | cons first cells ih =>
      rw [sizeCells_cons]
      rcases List.mem_cons.1 hmem with rfl | hlater
      · omega
      · have := ih hlater
        omega

theorem size_le_of_mem {term : Term} {terms : List Term} (hmem : term ∈ terms) :
    term.size ≤ sizeAll terms := by
  induction terms with
  | nil => cases hmem
  | cons first terms ih =>
      rw [sizeAll]
      rcases List.mem_cons.1 hmem with rfl | hlater
      · omega
      · have := ih hlater
        omega

/-- Terms that are equal to a term of less than the given size are equal to each other. -/
def EuclideanBelow (bound : Nat) : Prop :=
  ∀ term left right : Term, term.size < bound → term.equals left = true →
    term.equals right = true → left.equals right = true

theorem EuclideanBelow.equalsAll {bound : Nat} (hbelow : EuclideanBelow bound)
    {terms left right : List Term} (hsize : sizeAll terms < bound)
    (hleft : Term.equalsAll terms left = true) (hright : Term.equalsAll terms right = true) :
    Term.equalsAll left right = true := by
  induction terms generalizing left right with
  | nil =>
      cases left with
      | nil => exact hright
      | cons first left => cases hleft
  | cons term terms ih =>
      cases left with
      | nil => cases hleft
      | cons first left =>
          cases right with
          | nil => cases hright
          | cons second right =>
              simp only [Term.equalsAll, Bool.and_eq_true] at hleft hright ⊢
              simp only [sizeAll] at hsize
              exact ⟨hbelow term first second (by omega) hleft.1 hright.1,
                ih (by omega) hleft.2 hright.2⟩

theorem EuclideanBelow.cellsEqual {bound : Nat} (hbelow : EuclideanBelow bound)
    {cell left right : Cell Term} (hsize : cell.content.size < bound)
    (hleft : CellsEqual cell left) (hright : CellsEqual cell right) : CellsEqual left right :=
  ⟨hleft.1.symm.trans hright.1, hbelow _ _ _ hsize hleft.2 hright.2⟩

theorem EuclideanBelow.equalsCells {bound : Nat} (hbelow : EuclideanBelow bound)
    {cells left right : List (Cell Term)} (hsize : sizeCells cells < bound)
    (hleft : Term.equalsCells cells left = true) (hright : Term.equalsCells cells right = true) :
    Term.equalsCells left right = true := by
  obtain ⟨pairedLeft, hpermLeft, hcellsLeft⟩ := exists_perm_of_equalsCells hleft
  obtain ⟨pairedRight, hpermRight, hcellsRight⟩ := exists_perm_of_equalsCells hright
  have hpairs : Forall₂ CellsEqual pairedLeft pairedRight := by
    clear hpermLeft hpermRight hleft hright
    induction hcellsLeft generalizing pairedRight with
    | nil =>
        cases hcellsRight
        exact .nil
    | @cons cell _ cells _ hcell _ ih =>
        obtain ⟨other, others, hother, hothers, rfl⟩ := forall₂_cons_left_iff.1 hcellsRight
        rw [sizeCells_cons] at hsize
        exact .cons (hbelow.cellsEqual (by omega) hcell hother) (ih (by omega) others hothers)
  obtain ⟨paired, hpaired, hperm⟩ := perm_comp_forall₂ hpermLeft hpairs
  refine equalsCells_of_perm ?_ (hpermRight.trans hperm.symm) hpaired
  have hsmall : ∀ cell ∈ left, cell.content.size < bound := by
    intro cell hmem
    have hle := content_size_le_of_mem hmem
    rw [← sizeCells_eq_of_equalsCells cells left hleft] at hle
    omega
  intro first hfirst second hsecond one other hone hother hshared
  have hsame : CellsEqual other second :=
    hbelow.cellsEqual (hsmall second hsecond) hshared ⟨rfl, second.content.equals_refl⟩
  have hswap : CellsEqual other one := hbelow.cellsEqual (hsmall first hfirst) hother hone
  refine hbelow.cellsEqual ?_ hsame hswap
  rw [← size_eq_of_equals _ _ hother.2]
  exact hsmall first hfirst

theorem euclideanBelow (bound : Nat) : EuclideanBelow bound := by
  -- on the size and not on the term, for the contents of cells are compared crosswise
  induction bound with
  | zero =>
      intro term left right hsize
      exact absurd hsize (Nat.not_lt_zero _)
  | succ bound hbelow =>
      intro term left right hsize hleft hright
      cases term with
      | token sort value =>
          cases left <;> cases right <;> simp_all [equals]
      | var v =>
          cases left <;> cases right <;> simp_all [equals]
      | app label args =>
          cases left <;> cases right <;> first | cases hleft | cases hright | skip
          simp only [equals, Bool.and_eq_true, beq_iff_eq] at hleft hright ⊢
          simp only [size] at hsize
          exact ⟨hleft.1.symm.trans hright.1, hbelow.equalsAll (by omega) hleft.2 hright.2⟩
      | sequence op items =>
          cases left <;> cases right <;> first | cases hleft | cases hright | skip
          simp only [equals, Bool.and_eq_true, beq_iff_eq] at hleft hright ⊢
          simp only [size] at hsize
          exact ⟨hleft.1.symm.trans hright.1, hbelow.equalsAll (by omega) hleft.2 hright.2⟩
      | collection cells frame =>
          cases left <;> cases right <;> first | cases hleft | cases hright | skip
          simp only [equals, Bool.and_eq_true, beq_iff_eq] at hleft hright ⊢
          simp only [size] at hsize
          exact ⟨hleft.1.symm.trans hright.1, hbelow.equalsCells (by omega) hleft.2 hright.2⟩

theorem equals_euclidean {term left right : Term} (hleft : term.equals left = true)
    (hright : term.equals right = true) : left.equals right = true :=
  euclideanBelow (term.size + 1) term left right (Nat.lt_succ_self _) hleft hright

theorem equals_symm {left right : Term} (hequal : left.equals right = true) :
    right.equals left = true :=
  equals_euclidean hequal left.equals_refl

theorem equals_trans {left middle right : Term} (hleft : left.equals middle = true)
    (hright : middle.equals right = true) : left.equals right = true :=
  equals_euclidean (equals_symm hleft) hright

theorem beq_refl (term : Term) : (term == term) = true := by
  rw [beq_eq_equals]
  exact term.equals_refl

theorem beq_symm {left right : Term} (hequal : (left == right) = true) : (right == left) = true := by
  rw [beq_eq_equals] at hequal ⊢
  exact equals_symm hequal

theorem beq_trans {left middle right : Term} (hleft : (left == middle) = true)
    (hright : (middle == right) = true) : (left == right) = true := by
  rw [beq_eq_equals] at hleft hright ⊢
  exact equals_trans hleft hright

/-! Equality goes through the forms of terms. -/

def EqualTo (left right : Term) : Prop := (left == right) = true

theorem equal_iff_equals {left right : Term} : left.EqualTo right ↔ left.equals right = true := by
  unfold EqualTo
  rw [beq_eq_equals]

theorem equalsAll_of_forall₂ {left right : List Term} (hequal : Forall₂ EqualTo left right) :
    equalsAll left right = true := by
  induction hequal with
  | nil => rfl
  | cons hterm _ ih => rw [equalsAll, equal_iff_equals.1 hterm, ih, Bool.and_self]

theorem forall₂_of_equalsAll {left right : List Term} (hequal : equalsAll left right = true) :
    Forall₂ EqualTo left right := by
  induction left generalizing right with
  | nil =>
      cases right with
      | nil => exact .nil
      | cons _ _ => cases hequal
  | cons term left ih =>
      cases right with
      | nil => cases hequal
      | cons other right =>
          rw [equalsAll, Bool.and_eq_true] at hequal
          exact .cons (equal_iff_equals.2 hequal.1) (ih hequal.2)

theorem equalsCells_of_forall₂ {left right : List (Cell Term)}
    (hequal : Forall₂ CellsEqual left right) : equalsCells left right = true := by
  induction hequal with
  | nil => rfl
  | @cons cell other _ _ hcell _ ih =>
      have hfirst : (cell.name == other.name && cell.content.equals other.content) = true := by
        rw [hcell.1, hcell.2, beq_self_eq_true, Bool.and_self]
      rw [equalsCells_cons, removeFirst?, if_pos hfirst]
      exact ih

theorem equal_app (label : Label) {left right : List Term} (hequal : Forall₂ EqualTo left right) :
    (app label left).EqualTo (app label right) := by
  rw [equal_iff_equals, equals, equalsAll_of_forall₂ hequal, beq_self_eq_true, Bool.and_self]

theorem forall₂_of_equal_app {label label' : Label} {left right : List Term}
    (hequal : (app label left).EqualTo (app label' right)) :
    label = label' ∧ Forall₂ EqualTo left right := by
  rw [equal_iff_equals, equals, Bool.and_eq_true, beq_iff_eq] at hequal
  exact ⟨hequal.1, forall₂_of_equalsAll hequal.2⟩

theorem equal_sequence (op : Label) {left right : List Term} (hequal : Forall₂ EqualTo left right) :
    (sequence op left).EqualTo (sequence op right) := by
  rw [equal_iff_equals, equals, equalsAll_of_forall₂ hequal, beq_self_eq_true, Bool.and_self]

theorem equal_collection {left right : List (Cell Term)} (hequal : Forall₂ CellsEqual left right)
    (frame : Option Variable) : (collection left frame).EqualTo (collection right frame) := by
  rw [equal_iff_equals, equals, equalsCells_of_forall₂ hequal, beq_self_eq_true, Bool.and_self]

theorem forall₂_itemsOf (op : Label) {left right : Term} (hequal : left.EqualTo right) :
    Forall₂ EqualTo (itemsOf op left) (itemsOf op right) := by
  have hsingle : Forall₂ EqualTo [left] [right] := .cons hequal .nil
  rw [equal_iff_equals] at hequal
  cases left with
  | sequence inner items =>
      cases right with
      | sequence inner' items' =>
          rw [equals, Bool.and_eq_true, beq_iff_eq] at hequal
          obtain ⟨rfl, hitems⟩ := hequal
          by_cases hop : inner = op
          · rw [itemsOf, if_pos hop, itemsOf, if_pos hop]
            exact forall₂_of_equalsAll hitems
          · rw [itemsOf, if_neg hop, itemsOf, if_neg hop]
            exact hsingle
      | token _ _ | var _ | app _ _ | collection _ _ => cases hequal
  | token _ _ | var _ | app _ _ | collection _ _ =>
      cases right with
      | sequence _ _ => cases hequal
      | token _ _ | var _ | app _ _ | collection _ _ => exact hsingle

theorem equal_flatten (op : Label) {left right : List Term} (hequal : Forall₂ EqualTo left right) :
    (flatten op left).EqualTo (flatten op right) := by
  rw [flatten_eq, flatten_eq]
  apply equal_sequence op
  induction hequal with
  | nil => exact .nil
  | cons hterm _ ih =>
      rw [List.flatMap_cons, List.flatMap_cons]
      exact rel_append (forall₂_itemsOf op hterm) ih

end Term

end SymbolicRewriting
