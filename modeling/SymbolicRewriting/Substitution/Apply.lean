import SymbolicRewriting.Substitution.Basic

/-!
Instantiation of terms. Bound variables are replaced and the others stay. Sequences are flattened
again, and a frame that is bound to a collection lets its cells into the enclosing one.
-/

namespace SymbolicRewriting.Term

/-- The collection of `cells` whose frame has been looked up: a collection is spliced in and hands
on its own frame, a variable becomes the frame, and the frame stays if it is bound to a term of
another kind or not at all. -/
def closeWith (cells : List (Cell Term)) (frame : Option Variable) (bound : Option Term) : Term :=
  match bound with
  | some (collection more inner) => collection (cells ++ more) inner
  | some (var v) => collection cells (some v)
  | _ => collection cells frame

def frameBinding (subst : Substitution) (frame : Option Variable) : Option Term :=
  frame.bind subst.get?

mutual

def instantiate (subst : Substitution) : Term → Term
  | token sort value => token sort value
  | var v => (subst.get? v).getD (var v)
  | app label args => app label (instantiateAll subst args)
  | sequence op items => flatten op (instantiateAll subst items)
  | collection cells frame =>
      closeWith (instantiateCells subst cells) frame (frameBinding subst frame)

def instantiateAll (subst : Substitution) : List Term → List Term
  | [] => []
  | term :: terms => instantiate subst term :: instantiateAll subst terms

/-- A cell keeps its identity and gets new content. -/
def instantiateCells (subst : Substitution) : List (Cell Term) → List (Cell Term)
  | [] => []
  | ⟨id, name, content⟩ :: cells =>
      ⟨id, name, instantiate subst content⟩ :: instantiateCells subst cells

end

/-- Applies a substitution; one without bindings leaves every term as it is. -/
def applySubst (term : Term) (subst : Substitution) : Term :=
  if subst.bindings.isEmpty then term else term.instantiate subst

theorem instantiateAll_eq_map (subst : Substitution) (terms : List Term) :
    instantiateAll subst terms = terms.map (instantiate subst) := by
  induction terms with
  | nil => rfl
  | cons term terms ih => simp [instantiateAll, ih]

theorem instantiateCells_eq_map (subst : Substitution) (cells : List (Cell Term)) :
    instantiateCells subst cells =
      cells.map fun cell => { cell with content := cell.content.instantiate subst } := by
  induction cells with
  | nil => rfl
  | cons cell cells ih => simp [instantiateCells, ih]

end SymbolicRewriting.Term
