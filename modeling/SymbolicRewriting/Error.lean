import SymbolicRewriting.Symbol

/-!
The ways in which a definition shows itself incomplete or inconsistent. Ordinary ends of a
rewrite, such as a stuck term or an undecided match, are values and not errors.
-/

namespace SymbolicRewriting

inductive RewriteError where
  /-- A fresh value was asked for a sort without a generator. -/
  | unconfiguredFreshFunction (sort : SortName)
  /-- The number of arguments differs from the declared arity of the label. -/
  | malformedTerm (label : Label) (expected found : Nat)
  /-- A generator names a label that is not a declared function. -/
  | unknownSymbol (name : Label)
  /-- A function call stands deeper than the configured limit. -/
  | functionDepthExceeded (label : Label) (depth : Nat)
deriving DecidableEq, Repr

def RewriteError.message : RewriteError → String
  | unconfiguredFreshFunction sort => s!"no fresh generator registered for sort {sort}"
  | malformedTerm label expected found =>
      s!"malformed term: {label} expects {expected} argument(s), got {found}"
  | unknownSymbol name => s!"unknown symbol {name}"
  | functionDepthExceeded label depth =>
      s!"function evaluation of {label} exceeded depth {depth}"

end SymbolicRewriting
