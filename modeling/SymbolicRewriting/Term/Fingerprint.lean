import SymbolicRewriting.Term.Equality

/-!
Fingerprints of terms over any hasher. A collection feeds the wrapping sum of the fingerprints of
its cells, so the order of the cells does not matter, and cell identities are not fed at all.
-/

namespace SymbolicRewriting

/-- A hasher starts in a state, takes text and words one after another, and ends in a digest. -/
class Hasher (η : Type) where
  start : η
  text : String → η → η
  word : UInt64 → η → η
  finish : η → UInt64

namespace Hasher

/-- Mixes each value into a running word. -/
instance : Hasher UInt64 where
  start := 7
  text value state := mixHash state (hash value)
  word value state := mixHash state value
  finish state := state

variable {η : Type} [Hasher η]

@[specialize]
def number (value : Nat) (state : η) : η := word (UInt64.ofNat value) state

@[specialize]
def variableKind (kind : VariableKind) (state : η) : η :=
  match kind with
  | .plain => word 0 state
  | .rest => word 1 state
  | .fresh => word 2 state

@[specialize]
def feedVariable (v : Variable) (state : η) : η :=
  variableKind v.kind (text v.sort (text v.name state))

@[specialize]
def feedFrame (frame : Option Variable) (state : η) : η :=
  match frame with
  | none => word 0 state
  | some v => feedVariable v (word 1 state)

end Hasher

namespace Term

open Hasher

variable {η : Type} [Hasher η]

mutual

@[specialize]
def feed : Term → η → η
  | token sort value, state => text value (text sort (word 0 state))
  | var v, state => feedVariable v (word 1 state)
  | app label args, state => feedAll args (number args.length (text label (word 2 state)))
  | sequence op items, state => feedAll items (number items.length (text op (word 3 state)))
  | collection cells frame, state =>
      feedFrame frame (word (cellSum (start : η) cells) (number cells.length (word 4 state)))

@[specialize]
def feedAll : List Term → η → η
  | [], state => state
  | term :: terms, state => feedAll terms (feed term state)

/-- The wrapping sum of the fingerprints of the cells, each taken from the initial state. -/
@[specialize]
def cellSum (initial : η) : List (Cell Term) → UInt64
  | [] => 0
  | ⟨_, name, content⟩ :: cells =>
      finish (feed content (text name initial)) + cellSum initial cells

end

@[specialize]
def fingerprintWith (η : Type) [Hasher η] (term : Term) : UInt64 :=
  finish (term.feed (start : η))

def fingerprint (term : Term) : UInt64 := term.fingerprintWith UInt64

instance : Hashable Term := ⟨fingerprint⟩

end Term

end SymbolicRewriting
