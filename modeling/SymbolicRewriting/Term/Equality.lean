import SymbolicRewriting.Term.Basic

/-!
Equality of terms up to cell identity and the order of cells. Two collections are equal when their
frames are and each cell of the first can be paired with an equal cell of the second: every cell is
paired with the first one that is still free. `==` compares terms in this way (`beq_eq_equals`)
without looking into the subterms that both sides share.
-/

namespace SymbolicRewriting

/-- The list without its first member that satisfies `p`, if there is one. -/
def removeFirst? {α : Type} (p : α → Bool) : List α → Option (List α)
  | [] => none
  | x :: xs => if p x then some xs else (removeFirst? p xs).map (x :: ·)

theorem length_of_removeFirst? {α : Type} {p : α → Bool} {xs remaining : List α}
    (hremove : removeFirst? p xs = some remaining) : xs.length = remaining.length + 1 := by
  induction xs generalizing remaining with
  | nil => simp [removeFirst?] at hremove
  | cons x xs ih =>
      simp only [removeFirst?] at hremove
      split at hremove
      · simp_all
      · obtain ⟨rest, hrest, rfl⟩ := Option.map_eq_some_iff.1 hremove
        simp [ih hrest]

namespace Term

mutual

def equals : Term → Term → Bool
  | token sort value, token sort' value' => sort == sort' && value == value'
  | var v, var v' => v == v'
  | app label args, app label' args' => label == label' && equalsAll args args'
  | sequence op items, sequence op' items' => op == op' && equalsAll items items'
  | collection cells frame, collection cells' frame' =>
      frame == frame' && equalsCells cells cells'
  | _, _ => false

def equalsAll : List Term → List Term → Bool
  | [], [] => true
  | term :: terms, term' :: terms' => equals term term' && equalsAll terms terms'
  | _, _ => false

def equalsCells : List (Cell Term) → List (Cell Term) → Bool
  | [], free => free.isEmpty
  | ⟨_, name, content⟩ :: cells, free =>
      match removeFirst? (fun cell => name == cell.name && equals content cell.content) free with
      | some remaining => equalsCells cells remaining
      | none => false

end

mutual

theorem equals_refl : (term : Term) → term.equals term = true
  | token _ _ => by simp [equals]
  | var _ => by simp [equals]
  | app _ args => by simp [equals, equalsAll_refl args]
  | sequence _ items => by simp [equals, equalsAll_refl items]
  | collection cells _ => by simp [equals, equalsCells_refl cells]

theorem equalsAll_refl : (terms : List Term) → equalsAll terms terms = true
  | [] => by simp [equalsAll]
  | term :: terms => by simp [equalsAll, equals_refl term, equalsAll_refl terms]

theorem equalsCells_refl : (cells : List (Cell Term)) → equalsCells cells cells = true
  | [] => by simp [equalsCells]
  | ⟨_, _, content⟩ :: cells => by
      simp [equalsCells, removeFirst?, equals_refl content, equalsCells_refl cells]

end

theorem length_eq_of_equalsAll {left right : List Term} (hequal : equalsAll left right = true) :
    left.length = right.length := by
  induction left generalizing right with
  | nil => cases right <;> simp_all [equalsAll]
  | cons term terms ih =>
      cases right with
      | nil => simp [equalsAll] at hequal
      | cons term' terms' =>
          simp only [equalsAll, Bool.and_eq_true] at hequal
          simp [ih hequal.2]

theorem length_eq_of_equalsCells {cells free : List (Cell Term)}
    (hequal : equalsCells cells free = true) : cells.length = free.length := by
  induction cells generalizing free with
  | nil => simp_all [equalsCells]
  | cons cell cells ih =>
      cases cell
      simp only [equalsCells] at hequal
      split at hequal
      · rename_i hremove
        simp [length_of_removeFirst? hremove, ih hequal]
      · simp at hequal

/-- Terms of different number are not equal, so that no two of them have to be compared. -/
theorem length_and_equalsAll (left right : List Term) :
    (left.length == right.length && equalsAll left right) = equalsAll left right := by
  cases hequal : equalsAll left right with
  | false => simp
  | true => simp [length_eq_of_equalsAll hequal]

theorem length_and_equalsCells (cells free : List (Cell Term)) :
    (cells.length == free.length && equalsCells cells free) = equalsCells cells free := by
  cases hequal : equalsCells cells free with
  | false => simp
  | true => simp [length_eq_of_equalsCells hequal]

/-- The answer to the question whether two terms are equal. -/
abbrev Comparison (left right : Term) := { answer : Bool // answer = left.equals right }

/-- A term that both sides share is equal to itself, so it is not looked into. -/
@[inline]
def compareShared (left right : Term) (compared : Unit → Comparison left right) :
    Comparison left right :=
  ⟨withPtrEq left right (fun _ => (compared ()).1)
    (fun hsame => by rw [(compared ()).2, hsame, equals_refl]), (compared ()).2⟩

mutual

/-- Compares two terms that are not shared as a whole. The time that this takes grows with the
number of the subterms that are not shared, which can be far less than the size of the terms. -/
def compareParts : (left right : Term) → Comparison left right
  | app label args, app label' args' =>
      ⟨label == label' && (args.length == args'.length && (comparePartsAll args args').1), by
        rw [(comparePartsAll args args').2, length_and_equalsAll, equals]⟩
  | sequence op items, sequence op' items' =>
      ⟨op == op' && (items.length == items'.length && (comparePartsAll items items').1), by
        rw [(comparePartsAll items items').2, length_and_equalsAll, equals]⟩
  | collection cells frame, collection cells' frame' =>
      ⟨frame == frame' && (cells.length == cells'.length && (comparePartsCells cells cells').1), by
        rw [(comparePartsCells cells cells').2, length_and_equalsCells, equals]⟩
  | left, right => ⟨left.equals right, rfl⟩

def comparePartsAll : (left right : List Term) → { answer : Bool // answer = equalsAll left right }
  | term :: terms, term' :: terms' =>
      ⟨(compareShared term term' fun _ => compareParts term term').1 &&
          (comparePartsAll terms terms').1, by
        rw [(compareShared term term' _).2, (comparePartsAll terms terms').2, equalsAll]⟩
  | left, right => ⟨equalsAll left right, rfl⟩

def comparePartsCells :
    (cells free : List (Cell Term)) → { answer : Bool // answer = equalsCells cells free }
  | ⟨_, name, content⟩ :: cells, free =>
      ⟨match removeFirst? (fun cell => name == cell.name &&
            (compareShared content cell.content fun _ => compareParts content cell.content).1)
            free with
        | some remaining => (comparePartsCells cells remaining).1
        | none => false, by
        simp only [(compareShared content _ _).2, (comparePartsCells cells _).2, equalsCells]⟩
  | [], free => ⟨equalsCells [] free, rfl⟩

end

instance : BEq Term :=
  ⟨fun left right => (compareShared left right fun _ => compareParts left right).1⟩

theorem beq_eq_equals (left right : Term) : (left == right) = left.equals right :=
  (compareShared left right fun _ => compareParts left right).2

/-- Cells are compared by name and content. -/
instance : BEq (Cell Term) :=
  ⟨fun left right => left.name == right.name && left.content == right.content⟩

end Term

end SymbolicRewriting
