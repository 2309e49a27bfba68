import SymbolicRewriting.Hook
import SymbolicRewriting.Term.Traversal

/-!
The standard hooks: arithmetic on 64-bit integers, equality, Boolean operations and operations on
strings. They have no result on symbolic arguments, tokens of another sort, overflow, or a wrong number
of arguments.
-/

namespace SymbolicRewriting

inductive Builtin where
  | addInt
  | subInt
  | mulInt
  | divInt
  | modInt
  | ltInt
  | leInt
  | gtInt
  | geInt
  | eqInt
  | eqTerm
  | neTerm
  | notBool
  | andBool
  | orBool
  | concatString
  | intToString
deriving DecidableEq, Repr

namespace Builtin

def standard : List Builtin :=
  [addInt, subInt, mulInt, divInt, modInt, ltInt, leInt, gtInt, geInt, eqInt, eqTerm, neTerm,
    notBool, andBool, orBool, concatString, intToString]

def label : Builtin → Label
  | addInt => "_+Int_"
  | subInt => "_-Int_"
  | mulInt => "_*Int_"
  | divInt => "_/Int_"
  | modInt => "_%Int_"
  | ltInt => "_<Int_"
  | leInt => "_<=Int_"
  | gtInt => "_>Int_"
  | geInt => "_>=Int_"
  | eqInt => "_==Int_"
  | eqTerm => Symbol.equality
  | neTerm => "_=/=K_"
  | notBool => Symbol.negation
  | andBool => Symbol.conjunction
  | orBool => "_orBool_"
  | concatString => "_+String_"
  | intToString => "Int2String"

def arity : Builtin → Nat
  | notBool => 1
  | intToString => 1
  | _ => 2

def sort : Builtin → SortName
  | addInt | subInt | mulInt | divInt | modInt => Symbol.int
  | concatString | intToString => Symbol.string
  | _ => Symbol.bool

def ofLabel? (label : Label) : Option Builtin :=
  standard.find? fun builtin => builtin.label == label

def intResult (value : Int) : Option Term :=
  if Decimal.IsWord value then some (Term.int value) else none

def onInts (args : List Term) (operation : Int → Int → Option Term) : Option Term :=
  match args with
  | [left, right] => do
      let leftValue ← left.asInt
      let rightValue ← right.asInt
      operation leftValue rightValue
  | _ => none

def compareInts (args : List Term) (comparison : Int → Int → Bool) : Option Term :=
  onInts args fun left right => some (Term.bool (comparison left right))

/-- The quotient rounded toward zero; there is none by zero, nor one that leaves the word. -/
def quotient (left right : Int) : Option Term :=
  if right = 0 then none else intResult (left.tdiv right)

/-- The remainder of the quotient rounded toward zero, where that quotient exists. -/
def remainder (left right : Int) : Option Term :=
  if right = 0 ∨ ¬Decimal.IsWord (left.tdiv right) then none else intResult (left.tmod right)

/-- Equal terms are equal under every assignment; unequal ones are surely so only if ground. -/
def equality (args : List Term) : Option Bool :=
  match args with
  | [left, right] =>
      if left == right then some true
      else if left.isGround && right.isGround then some false
      else none
  | _ => none

/-- A decisive truth value settles the operation, and a neutral one leaves the other argument. -/
def connective (decisive : Bool) (args : List Term) : Option Term :=
  match args with
  | [left, right] =>
      if left.asBool = some decisive ∨ right.asBool = some decisive then some (Term.bool decisive)
      else if left.asBool = some (!decisive) then some right
      else if right.asBool = some (!decisive) then some left
      else none
  | _ => none

def concatenation (args : List Term) : Option Term :=
  match args with
  | [.token leftSort left, .token rightSort right] =>
      if leftSort = Symbol.string ∧ rightSort = Symbol.string then
        some (Term.string (left ++ right))
      else none
  | _ => none

def apply (builtin : Builtin) (args : List Term) : Option Term :=
  match builtin with
  | addInt => onInts args fun left right => intResult (left + right)
  | subInt => onInts args fun left right => intResult (left - right)
  | mulInt => onInts args fun left right => intResult (left * right)
  | divInt => onInts args quotient
  | modInt => onInts args remainder
  | ltInt => compareInts args fun left right => decide (left < right)
  | leInt => compareInts args fun left right => decide (left ≤ right)
  | gtInt => compareInts args fun left right => decide (left > right)
  | geInt => compareInts args fun left right => decide (left ≥ right)
  | eqInt => compareInts args fun left right => decide (left = right)
  | eqTerm => (equality args).map Term.bool
  | neTerm => (equality args).map fun equal => Term.bool !equal
  | notBool =>
      match args with
      | [arg] => arg.asBool.map fun value => Term.bool !value
      | _ => none
  | andBool => connective false args
  | orBool => connective true args
  | concatString => concatenation args
  | intToString =>
      match args with
      | [arg] => arg.asInt.map fun value => Term.string (Decimal.write value)
      | _ => none

def hook (builtin : Builtin) : Hook := ⟨builtin.apply⟩

end Builtin

end SymbolicRewriting
