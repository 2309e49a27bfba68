import SymbolicRewriting.Builtin

/-!
Declared labels. A function is evaluated wherever it is built, by its hook or else by rules.
-/

namespace SymbolicRewriting

inductive SymbolKind where
  | constructor
  | function (hook : Option Hook)

structure Signature where
  label : Label
  arity : Nat
  sort : SortName
  kind : SymbolKind

namespace Signature

def isFunction (signature : Signature) : Bool :=
  match signature.kind with
  | .constructor => false
  | .function _ => true

def hook? (signature : Signature) : Option Hook :=
  match signature.kind with
  | .constructor => none
  | .function hook => hook

def ofBuiltin (builtin : Builtin) : Signature :=
  ⟨builtin.label, builtin.arity, builtin.sort, .function (some builtin.hook)⟩

def builtins : List Signature := Builtin.standard.map ofBuiltin

/-- Adds a signature in the place of an earlier one for the same label. -/
def declare (signature : Signature) : List Signature → List Signature
  | [] => [signature]
  | earlier :: rest =>
      if earlier.label = signature.label then signature :: rest
      else earlier :: declare signature rest

end Signature

end SymbolicRewriting
