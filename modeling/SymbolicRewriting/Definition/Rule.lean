import SymbolicRewriting.Term.Traversal

/-!
Rewrite rules, and their order: by priority, lower first, and then by declaration.
-/

namespace SymbolicRewriting

/-- The place of a rule in the order of declaration. Identifiers are 32-bit words, so a definition has
at most `2 ^ 32` rules; a place beyond that would be truncated to one that is taken. -/
abbrev RuleId := Nat

structure RuleBody where
  lhs : Term
  rhs : Term
  requires : Option Term := none
  priority : Nat := 50
  name : Option String := none
deriving Inhabited, Repr

structure Rule extends RuleBody where
  id : RuleId
deriving Inhabited, Repr

namespace Rule

/-- The variables of the left side and the fresh variables of the right side. -/
def vars (rule : Rule) : List Variable :=
  Term.distinct (rule.lhs.vars ++ rule.rhs.vars.filter Variable.isFresh)

def freshVars (rule : Rule) : List Variable :=
  rule.vars.filter Variable.isFresh

/-- The terms of a rule, in the order in which they are checked. -/
def terms (rule : Rule) : List Term :=
  rule.lhs :: rule.rhs :: rule.requires.toList

def precedes (rule other : Rule) : Bool :=
  rule.priority < other.priority || rule.priority == other.priority && rule.id < other.id

def insertInOrder (rule : Rule) : List Rule → List Rule
  | [] => [rule]
  | other :: rest =>
      if rule.precedes other then rule :: other :: rest else other :: insertInOrder rule rest

def sort (rules : List Rule) : List Rule :=
  rules.foldr insertInOrder []

def number (bodies : List RuleBody) : List Rule :=
  bodies.zipIdx.map fun (body, id) => { body with id }

end Rule

end SymbolicRewriting
