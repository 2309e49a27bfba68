import SymbolicRewriting.Term.Basic

/-!
Functions on terms that are computed rather than defined by rules. Whoever writes a definition may
supply any hook; it receives arguments that are evaluated already.
-/

namespace SymbolicRewriting

structure Hook where
  /-- Nothing where the hook has no result. -/
  apply : List Term → Option Term

end SymbolicRewriting
