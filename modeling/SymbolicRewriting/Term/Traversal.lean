import SymbolicRewriting.Term.Equality

/-!
Pre-order traversal of a term with a stack of pending subterms, and what is read off it: the
variables, groundness and the cells. `visit_eq_subterms` says that the traversal lists exactly the
subterms that structural recursion gives, in the same order.
-/

namespace SymbolicRewriting.Term

/-- The immediate subterms, left to right; those of a collection are the contents of its cells. -/
def children (term : Term) : List Term :=
  match term with
  | token _ _ => []
  | var _ => []
  | app _ args => args
  | sequence _ items => items
  | collection cells _ => cells.map Cell.content

theorem size_eq_children (term : Term) : term.size = 1 + sizeAll term.children := by
  cases term <;> simp [size, children, sizeAll, sizeCells_eq_sizeAll]

/-- What a term contributes to a sequence is the term itself or some of its children. -/
theorem eq_or_mem_children_of_mem_itemsOf {op : Label} {term item : Term}
    (hmem : item ∈ term.itemsOf op) : item = term ∨ item ∈ term.children := by
  cases hsequence : term.isSequenceOver op with
  | false =>
      rw [itemsOf_of_not_isSequenceOver hsequence] at hmem
      exact .inl (List.mem_singleton.1 hmem)
  | true =>
      obtain ⟨items, rfl⟩ := exists_of_isSequenceOver hsequence
      rw [itemsOf_sequence] at hmem
      exact .inr hmem

/-- Takes the top of the stack and puts its children in its place, until the stack is empty. -/
def visitStack (stack : List Term) : List Term :=
  match stack with
  | [] => []
  | term :: pending => term :: visitStack (term.children ++ pending)
termination_by sizeAll stack
decreasing_by simp [sizeAll, size_eq_children]

/-- Every subterm, parents before children and children left to right. -/
def visit (term : Term) : List Term := visitStack [term]

mutual

/-- Every subterm by structural recursion, parents before children. -/
def subterms : Term → List Term
  | token sort value => [token sort value]
  | var v => [var v]
  | app label args => app label args :: subtermsAll args
  | sequence op items => sequence op items :: subtermsAll items
  | collection cells frame => collection cells frame :: subtermsCells cells

def subtermsAll : List Term → List Term
  | [] => []
  | term :: terms => term.subterms ++ subtermsAll terms

def subtermsCells : List (Cell Term) → List Term
  | [] => []
  | ⟨_, _, content⟩ :: cells => content.subterms ++ subtermsCells cells

end

theorem subtermsCells_eq (cells : List (Cell Term)) :
    subtermsCells cells = subtermsAll (cells.map Cell.content) := by
  induction cells with
  | nil => rfl
  | cons cell cells ih =>
      cases cell
      simp [subtermsCells, subtermsAll, ih]

theorem subtermsAll_append (left right : List Term) :
    subtermsAll (left ++ right) = subtermsAll left ++ subtermsAll right := by
  induction left with
  | nil => simp [subtermsAll]
  | cons term terms ih => simp [subtermsAll, ih]

theorem subterms_eq_cons (term : Term) : term.subterms = term :: subtermsAll term.children := by
  cases term <;> simp [subterms, children, subtermsAll, subtermsCells_eq]

theorem visitStack_eq_subtermsAll (stack : List Term) :
    visitStack stack = subtermsAll stack := by
  fun_induction visitStack stack with
  | case1 => rfl
  | case2 term pending ih => simp [subtermsAll, subterms_eq_cons, ih, subtermsAll_append]

theorem visit_eq_subterms (term : Term) : term.visit = term.subterms := by
  simp [visit, visitStack_eq_subtermsAll, subtermsAll]

/-- The variable that stands at the root of a term: the term itself, or the frame of a
collection. -/
def rootVariable (term : Term) : Option Variable :=
  match term with
  | var v => some v
  | collection _ frame => frame
  | _ => none

/-- The distinct members of a list, in the order of their first occurrence. -/
def distinct {α : Type} [BEq α] (xs : List α) : List α :=
  xs.foldl (fun found x => if found.contains x then found else found ++ [x]) []

def vars (term : Term) : List Variable :=
  distinct (term.visit.filterMap rootVariable)

mutual

def isGround : Term → Bool
  | token _ _ => true
  | var _ => false
  | app _ args => isGroundAll args
  | sequence _ items => isGroundAll items
  | collection cells frame => frame.isNone && isGroundCells cells

def isGroundAll : List Term → Bool
  | [] => true
  | term :: terms => isGround term && isGroundAll terms

def isGroundCells : List (Cell Term) → Bool
  | [] => true
  | ⟨_, _, content⟩ :: cells => isGround content && isGroundCells cells

end

mutual

theorem isGround_eq_all_subterms : (term : Term) →
    term.isGround = term.subterms.all fun subterm => subterm.rootVariable.isNone
  | token _ _ => by simp [isGround, subterms, rootVariable]
  | var _ => by simp [isGround, subterms, rootVariable]
  | app _ args => by simp [isGround, subterms, rootVariable, isGroundAll_eq args]
  | sequence _ items => by simp [isGround, subterms, rootVariable, isGroundAll_eq items]
  | collection cells frame => by simp [isGround, subterms, rootVariable, isGroundCells_eq cells]

theorem isGroundAll_eq : (terms : List Term) →
    isGroundAll terms = (subtermsAll terms).all fun subterm => subterm.rootVariable.isNone
  | [] => by simp [isGroundAll, subtermsAll]
  | term :: terms => by
      simp [isGroundAll, subtermsAll, isGround_eq_all_subterms term, isGroundAll_eq terms]

theorem isGroundCells_eq : (cells : List (Cell Term)) →
    isGroundCells cells = (subtermsCells cells).all fun subterm => subterm.rootVariable.isNone
  | [] => by simp [isGroundCells, subtermsCells]
  | ⟨_, _, content⟩ :: cells => by
      simp [isGroundCells, subtermsCells, isGround_eq_all_subterms content, isGroundCells_eq cells]

end

def cellsAtRoot (term : Term) : List (Cell Term) :=
  match term with
  | collection cells _ => cells
  | _ => []

def cellsWithin (term : Term) : List (Cell Term) :=
  term.visit.flatMap cellsAtRoot

def cellIds (term : Term) : List CellId :=
  term.cellsWithin.map Cell.id

def findCell (id : CellId) (term : Term) : Option (Cell Term) :=
  term.visit.findSome? fun subterm => subterm.cellsAtRoot.find? fun cell => cell.id == id

def containsCell (id : CellId) (term : Term) : Bool :=
  (term.findCell id).isSome

end SymbolicRewriting.Term
