import SymbolicRewriting.Symbol
import SymbolicRewriting.Decimal

/-!
Terms: sort-tagged tokens, variables, applications, sequences over an associative operator, and
collections of named cells. A cell has an identity that its content does not determine: it names
the slot that a rewrite overwrites.
-/

namespace SymbolicRewriting

/-- A plain variable stands for one term, a rest variable for a run of a sequence or for the
unmatched cells of a collection, and a fresh variable for a new value of its sort. -/
inductive VariableKind where
  | plain
  | rest
  | fresh
deriving DecidableEq, Repr

structure Variable where
  name : VariableName
  sort : SortName
  kind : VariableKind
deriving DecidableEq, Repr

def Variable.isRest (v : Variable) : Bool := v.kind == .rest

def Variable.isFresh (v : Variable) : Bool := v.kind == .fresh

/-- Cell identities are 32-bit words; drawing one more than there are starts again at zero. -/
abbrev CellId := UInt32

structure Cell (α : Type) where
  id : CellId
  name : Label
  content : α
deriving Repr

/-- The items of a sequence are not sequences over the same operator, as long as sequences are
built by `Term.flatten`. A collection may be closed by a frame variable. -/
inductive Term where
  | token (sort : SortName) (value : String)
  | var (v : Variable)
  | app (label : Label) (args : List Term)
  | sequence (op : Label) (items : List Term)
  | collection (cells : List (Cell Term)) (frame : Option Variable)
deriving Inhabited, Repr

namespace Term

/-- The items that a term contributes to a sequence over `op`. -/
def itemsOf (op : Label) (term : Term) : List Term :=
  match term with
  | sequence inner items => if inner = op then items else [term]
  | _ => [term]

def isSequenceOver (op : Label) (term : Term) : Bool :=
  match term with
  | sequence inner _ => inner == op
  | _ => false

/-- The given terms, with the items of each sequence over `op` in its place. -/
def splice (op : Label) : List Term → List Term
  | [] => []
  | [term] => itemsOf op term
  | term :: terms => itemsOf op term ++ splice op terms

/-- The sequence over `op` of the given terms, in which sequences over `op` are spliced. Without any
of them the list of the terms is used as it is. -/
def flatten (op : Label) (items : List Term) : Term :=
  if items.any (isSequenceOver op) then sequence op (splice op items) else sequence op items

def concat (op : Label) (left right : Term) : Term :=
  flatten op [left, right]

def int (value : Int) : Term := token Symbol.int (Decimal.write value)

def bool (value : Bool) : Term := token Symbol.bool (if value then "true" else "false")

def string (value : String) : Term := token Symbol.string value

def equal (left right : Term) : Term := app Symbol.equality [left, right]

def negated (term : Term) : Term := app Symbol.negation [term]

def conjoined (left right : Term) : Term := app Symbol.conjunction [left, right]

/-- The value of an `Int` token; a token of another sort is no integer, whatever its text. -/
def asInt (term : Term) : Option Int :=
  match term with
  | token sort value => if sort = Symbol.int then Decimal.readWord? value else none
  | _ => none

/-- The truth value that a token spells, whatever its sort. -/
def asBool (term : Term) : Option Bool :=
  match term with
  | token _ value =>
      if value = "true" then some true
      else if value = "false" then some false
      else none
  | _ => none

def topLabel (term : Term) : Option Label :=
  match term with
  | app label _ => some label
  | _ => none

def asVar (term : Term) : Option Variable :=
  match term with
  | var v => some v
  | _ => none

def isRestVar (term : Term) : Bool :=
  match term with
  | var v => v.isRest
  | _ => false

def cellsNamed (name : Label) (cells : List (Cell Term)) : List (Cell Term) :=
  cells.filter fun cell => cell.name == name

def cellPosition (id : CellId) (cells : List (Cell Term)) : Option Nat :=
  cells.findIdx? fun cell => cell.id == id

mutual

def size : Term → Nat
  | token _ _ => 1
  | var _ => 1
  | app _ args => 1 + sizeAll args
  | sequence _ items => 1 + sizeAll items
  | collection cells _ => 1 + sizeCells cells

def sizeAll : List Term → Nat
  | [] => 0
  | term :: terms => term.size + sizeAll terms

def sizeCells : List (Cell Term) → Nat
  | [] => 0
  | ⟨_, _, content⟩ :: cells => content.size + sizeCells cells

end

@[simp]
theorem sizeCells_cons (cell : Cell Term) (cells : List (Cell Term)) :
    sizeCells (cell :: cells) = cell.content.size + sizeCells cells := by
  cases cell
  rfl

theorem size_pos (term : Term) : 0 < term.size := by
  cases term <;> simp only [size] <;> omega

@[simp]
theorem sizeAll_append (left right : List Term) :
    sizeAll (left ++ right) = sizeAll left + sizeAll right := by
  induction left with
  | nil => simp [sizeAll]
  | cons term terms ih => simp [sizeAll, ih, Nat.add_assoc]

theorem sizeCells_eq_sizeAll (cells : List (Cell Term)) :
    sizeCells cells = sizeAll (cells.map Cell.content) := by
  induction cells with
  | nil => rfl
  | cons cell cells ih => simp [sizeAll, ih]

theorem itemsOf_of_not_isSequenceOver {op : Label} {term : Term}
    (hother : term.isSequenceOver op = false) : itemsOf op term = [term] := by
  cases term <;> simp_all [isSequenceOver, itemsOf]

theorem itemsOf_sequence (op : Label) (items : List Term) : itemsOf op (sequence op items) = items :=
  if_pos rfl

theorem exists_of_isSequenceOver {op : Label} {term : Term}
    (hsequence : term.isSequenceOver op = true) : ∃ items, term = sequence op items := by
  cases term with
  | sequence inner items =>
      obtain rfl : inner = op := by simpa [isSequenceOver] using hsequence
      exact ⟨items, rfl⟩
  | token _ _ | var _ | app _ _ | collection _ _ => cases hsequence

theorem flatMap_itemsOf_eq_self {op : Label} {items : List Term}
    (hother : items.any (isSequenceOver op) = false) : items.flatMap (itemsOf op) = items := by
  induction items with
  | nil => rfl
  | cons item items ih =>
      simp only [List.any_cons, Bool.or_eq_false_iff] at hother
      simp [itemsOf_of_not_isSequenceOver hother.1, ih hother.2]

theorem splice_eq_flatMap (op : Label) (items : List Term) :
    splice op items = items.flatMap (itemsOf op) := by
  fun_induction splice op items with
  | case1 => rfl
  | case2 term => simp
  | case3 term terms _ ih => simp [ih]

theorem flatten_eq (op : Label) (items : List Term) :
    flatten op items = sequence op (items.flatMap (itemsOf op)) := by
  unfold flatten
  split
  · rw [splice_eq_flatMap]
  · rename_i hother
    rw [flatMap_itemsOf_eq_self (by simpa using hother)]

theorem itemsOf_flatten (op : Label) (items : List Term) :
    itemsOf op (flatten op items) = items.flatMap (itemsOf op) := by
  simp [itemsOf, flatten_eq]

theorem asInt_int {value : Int} (hword : Decimal.IsWord value) :
    (int value).asInt = some value := by
  simp [int, asInt, Decimal.readWord?_write hword]

@[simp]
theorem asBool_bool (value : Bool) : (bool value).asBool = some value := by
  cases value <;> simp [bool, asBool]

end Term

end SymbolicRewriting
