/-!
The names that terms are written with, and the eight names that every definition relies on.
Labels, sorts and variables share one name space: a term never confuses them, since each stands
in a place of its own.
-/

namespace SymbolicRewriting

abbrev Label := String

abbrev SortName := String

abbrev VariableName := String

namespace Symbol

def int : SortName := "Int"

def bool : SortName := "Bool"

def string : SortName := "String"

/-- The sort of configurations and of computation sequences; every sort is below it. -/
def top : SortName := "K"

def equality : Label := "_==K_"

def negation : Label := "notBool_"

def conjunction : Label := "_andBool_"

/-- The associative operator of computation sequences. -/
def sequencing : Label := "_~>_"

def known : List String :=
  [int, bool, string, top, equality, negation, conjunction, sequencing]

end Symbol

end SymbolicRewriting
