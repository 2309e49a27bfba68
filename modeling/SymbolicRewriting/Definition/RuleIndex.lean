import SymbolicRewriting.Definition.Rule

/-!
The index of rules. A subject is looked up by the label at its top, and the entry of a label merges the
rules whose left side has it at the top with the generic ones, whose left side is no application. Rules
are held by their positions, so that merging keeps the order of the rules.
-/

namespace SymbolicRewriting

structure RuleIndex where
  rules : Array Rule
  /-- For each label at the top of a left side, its rules and the generic ones. -/
  byLabel : List (Label × List Nat)
  generic : List Nat

namespace RuleIndex

/-- Merges two ascending lists. -/
def merge : List Nat → List Nat → List Nat
  | [], others => others
  | position :: positions, others =>
      others.takeWhile (· < position) ++
        position :: merge positions (others.dropWhile (· < position))

/-- The positions of the rules with the given label at the top, the first rule being at `first`. -/
def positionsFrom (first : Nat) (rules : List Rule) (top : Option Label) : List Nat :=
  ((rules.zipIdx first).filter fun entry => entry.1.lhs.topLabel == top).map Prod.snd

def ofRules (rules : List Rule) : RuleIndex :=
  let generic := positionsFrom 0 rules none
  let labels := Term.distinct (rules.filterMap fun rule => rule.lhs.topLabel)
  { rules := rules.toArray
    byLabel := labels.map fun label =>
      (label, merge (positionsFrom 0 rules (some label)) generic)
    generic }

/-- The index of no rules. -/
def empty : RuleIndex := ofRules []

/-- Any rule may match an unknown value. A label without an entry leaves the generic rules. -/
def positions (index : RuleIndex) (subject : Term) : List Nat :=
  match subject with
  | .var _ => List.range index.rules.size
  | _ => (subject.topLabel.bind fun label => index.byLabel.lookup label).getD index.generic

def candidates (index : RuleIndex) (subject : Term) : List Rule :=
  (index.positions subject).filterMap fun position => index.rules[position]?

end RuleIndex

end SymbolicRewriting
