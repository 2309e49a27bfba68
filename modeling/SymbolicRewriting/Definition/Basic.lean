import SymbolicRewriting.Error
import SymbolicRewriting.Definition.Subsort
import SymbolicRewriting.Definition.Signature
import SymbolicRewriting.Definition.Rule
import SymbolicRewriting.Definition.RuleIndex

/-!
Definitions: signatures, rules, fresh generators and the order of sorts. A definition is built from
declarations, and building checks that each generator is a function and that each application in a
rule has as many arguments as its label was last declared with.
-/

namespace SymbolicRewriting

inductive Declaration where
  | symbol (signature : Signature)
  | subsort (sub sup : SortName)
  | generator (sort : SortName) (label : Label)
  | rule (body : RuleBody)

structure Definition where
  /-- One signature for each declared label. -/
  signatures : List Signature
  rewriteRules : List Rule
  functionRules : List Rule
  /-- One generator for each sort that has fresh values. -/
  generators : List (SortName × Label)
  supersorts : SortTable
  /-- Finds the rewrite rules that may match a subject. -/
  index : RuleIndex := .ofRules rewriteRules
  index_eq : index = .ofRules rewriteRules := by rfl

namespace Definition

def signature? (definition : Definition) (label : Label) : Option Signature :=
  definition.signatures.find? fun signature => signature.label == label

def isFunction (definition : Definition) (label : Label) : Bool :=
  (definition.signature? label).any Signature.isFunction

def hook? (definition : Definition) (label : Label) : Option Hook :=
  (definition.signature? label).bind Signature.hook?

/-- Only functions have hooks. -/
theorem isFunction_of_hook? {definition : Definition} {label : Label} {hook : Hook}
    (hhook : definition.hook? label = some hook) : definition.isFunction label = true := by
  obtain ⟨signature, hsignature, hkind⟩ := Option.bind_eq_some_iff.1 hhook
  rw [isFunction, hsignature, Option.any_some]
  obtain ⟨label, arity, sort, kind⟩ := signature
  cases kind with
  | constructor => cases hkind
  | function _ => rfl

def functionRulesOf (definition : Definition) (label : Label) : List Rule :=
  definition.functionRules.filter fun rule => rule.lhs.topLabel == some label

def ruledFunctions (definition : Definition) : List Label :=
  Term.distinct (definition.functionRules.filterMap fun rule => rule.lhs.topLabel)

def rule? (definition : Definition) (id : RuleId) : Option Rule :=
  (definition.rewriteRules ++ definition.functionRules).find? fun rule => rule.id == id

/-- The rules whose left side may match the subject, in their order. -/
def candidates (definition : Definition) (subject : Term) : List Rule :=
  definition.index.candidates subject

def generator? (definition : Definition) (sort : SortName) : Option Label :=
  definition.generators.lookup sort

/-- Inserts a generator before the first one whose sort has a greater name. -/
def insertByName (generator : SortName × Label) :
    List (SortName × Label) → List (SortName × Label)
  | [] => [generator]
  | other :: rest =>
      if generator.1 < other.1 then generator :: other :: rest
      else other :: insertByName generator rest

def generatorsByName (definition : Definition) : List (SortName × Label) :=
  definition.generators.foldr insertByName []

/-- Reflexive and transitive; every sort is below the top sort. -/
def isSubsort (definition : Definition) (sub sup : SortName) : Bool :=
  sub == sup || sup == Symbol.top || (definition.supersorts.above sub).contains sup

def sortOf (definition : Definition) (term : Term) : Option SortName :=
  match term with
  | .token sort _ => some sort
  | .var v => some v.sort
  | .app label _ => (definition.signature? label).map Signature.sort
  | .sequence _ _ => none
  | .collection _ _ => none

/-- What is wrong with the number of arguments of an application, if its label is declared. -/
def arityError? (definition : Definition) (label : Label) (found : Nat) : Option RewriteError :=
  match definition.signature? label with
  | some signature =>
      if signature.arity = found then none
      else some (.malformedTerm label signature.arity found)
  | none => none

def rootError? (definition : Definition) (term : Term) : Option RewriteError :=
  match term with
  | .app label args => definition.arityError? label args.length
  | _ => none

/-- The first application within a term that has a wrong number of arguments. -/
def termError? (definition : Definition) (term : Term) : Option RewriteError :=
  term.visit.findSome? definition.rootError?

def ruleError? (definition : Definition) (rule : Rule) : Option RewriteError :=
  rule.terms.findSome? definition.termError?

def generatorError? (definition : Definition) (generator : SortName × Label) :
    Option RewriteError :=
  if definition.isFunction generator.2 then none else some (.unknownSymbol generator.2)

/-- An application that is checked; labels without declaration take any number of arguments. -/
def app (definition : Definition) (label : Label) (args : List Term) :
    Except RewriteError Term :=
  match definition.arityError? label args.length with
  | some error => .error error
  | none => .ok (.app label args)

/-- Is this the rule of a function, to be used in evaluation only? -/
def definesFunction (definition : Definition) (rule : Rule) : Bool :=
  rule.lhs.topLabel.any definition.isFunction

end Definition

namespace Declaration

def signatures (declarations : List Declaration) : List Signature :=
  declarations.filterMap fun
    | symbol signature => some signature
    | _ => none

def subsorts (declarations : List Declaration) : List (SortName × SortName) :=
  declarations.filterMap fun
    | subsort sub sup => some (sub, sup)
    | _ => none

def generators (declarations : List Declaration) : List (SortName × Label) :=
  declarations.filterMap fun
    | generator sort label => some (sort, label)
    | _ => none

def rules (declarations : List Declaration) : List RuleBody :=
  declarations.filterMap fun
    | rule body => some body
    | _ => none

/-- Puts a generator in the place of an earlier one for the same sort. -/
def register (generator : SortName × Label) :
    List (SortName × Label) → List (SortName × Label)
  | [] => [generator]
  | earlier :: rest =>
      if earlier.1 = generator.1 then generator :: rest else earlier :: register generator rest

end Declaration

namespace Definition

/-- The definition that the declarations make, before it is checked. -/
def assemble (declarations : List Declaration) : Definition :=
  let rules := Rule.number (Declaration.rules declarations)
  let unruled : Definition :=
    { signatures := (Declaration.signatures declarations).foldl
        (fun signatures signature => signature.declare signatures) []
      rewriteRules := []
      functionRules := []
      generators := (Declaration.generators declarations).foldl
        (fun generators generator => Declaration.register generator generators) []
      supersorts := (SortTable.ofPairs (Declaration.subsorts declarations)).close
      index := .empty
      index_eq := rfl }
  let rewriteRules := Rule.sort (rules.filter fun rule => !unruled.definesFunction rule)
  { unruled with
    rewriteRules
    functionRules := Rule.sort (rules.filter unruled.definesFunction)
    index := .ofRules rewriteRules
    index_eq := rfl }

/-- Generators are checked first, in the order of their registration, and then the rules in the
order of their declaration. -/
def build (declarations : List Declaration) : Except RewriteError Definition :=
  let definition := assemble declarations
  let rules := Rule.number (Declaration.rules declarations)
  match (Declaration.generators declarations).findSome? definition.generatorError? with
  | some error => .error error
  | none =>
      match rules.findSome? definition.ruleError? with
      | some error => .error error
      | none => .ok definition

theorem eq_assemble_of_build {declarations : List Declaration} {definition : Definition}
    (hbuild : build declarations = .ok definition) : definition = assemble declarations := by
  unfold build at hbuild
  dsimp only at hbuild
  split at hbuild
  · cases hbuild
  · split at hbuild
    · cases hbuild
    · cases hbuild
      rfl

end Definition

end SymbolicRewriting
