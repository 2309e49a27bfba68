import SymbolicRewriting.Machine.State
import SymbolicRewriting.Matching.Pattern

/-!
Evaluation of terms. Arguments are evaluated before the call, a call is answered by its hook or by
the first function rule that applies, and a call that nothing answers stays as it is. Each rule is
built one level of nesting deeper than the call, and the levels that are left bound the recursion.
-/

namespace SymbolicRewriting

variable {σ : Type}

/-- A right-hand side gives its cells the identities that they overwrite, or new ones. In a term
that exists already each cell keeps its own. -/
inductive BuildMode where
  | instantiate
  | evaluate
deriving DecidableEq, Repr

abbrev Caller (σ : Type) := Label → List Term → Run σ Term

def BuildMode.cellId (mode : BuildMode) (subst : Substitution) (id : CellId) : Run σ CellId :=
  match mode with
  | .evaluate => pure id
  | .instantiate =>
      match subst.targetOf id with
      | some target => pure target
      | none => Run.drawCell

namespace Definition

mutual

/-- Instantiates a term and answers the function calls in it, the inner ones first. The content of
a cell is built before the cell gets its identity. -/
def buildTerm (definition : Definition) (call : Caller σ) (subst : Substitution)
    (mode : BuildMode) : Term → Run σ Term
  | .token sort value => pure (.token sort value)
  | .var v => pure ((subst.get? v).getD (.var v))
  | .app label args => do
      let built ← buildTerms definition call subst mode args
      if definition.isFunction label then call label built else pure (.app label built)
  | .sequence op items => do
      let built ← buildTerms definition call subst mode items
      pure (.flatten op built)
  | .collection cells frame => do
      let built ← buildCells definition call subst mode cells
      pure (Term.closeWith built frame (Term.frameBinding subst frame))

def buildTerms (definition : Definition) (call : Caller σ) (subst : Substitution)
    (mode : BuildMode) : List Term → Run σ (List Term)
  | [] => pure []
  | term :: terms => do
      let first ← buildTerm definition call subst mode term
      let others ← buildTerms definition call subst mode terms
      pure (first :: others)

def buildCells (definition : Definition) (call : Caller σ) (subst : Substitution)
    (mode : BuildMode) : List (Cell Term) → Run σ (List (Cell Term))
  | [] => pure []
  | ⟨id, name, content⟩ :: cells => do
      let built ← buildTerm definition call subst mode content
      let identity ← mode.cellId subst id
      let others ← buildCells definition call subst mode cells
      pure (⟨identity, name, built⟩ :: others)

end

end Definition

/-- What the condition of a rule comes to: a truth value, or a proposition that is left open. -/
inductive Condition where
  | holds
  | fails
  | unsettled (proposition : Term)

namespace Definition

def condition (definition : Definition) (call : Caller σ) (rule : Rule) (subst : Substitution) :
    Run σ Condition :=
  match rule.requires with
  | none => pure .holds
  | some requires => do
      let proposition ← definition.buildTerm call subst .evaluate requires
      match proposition.asBool with
      | some true => pure .holds
      | some false => pure .fails
      | none => pure (.unsettled proposition)

/-- A fresh value is the generator of its sort, called on the next number of the counter as a
signed word. Without a generator the counter does not move. -/
def freshValue (definition : Definition) (call : Caller σ) (sort : SortName) : Run σ Term :=
  match definition.generator? sort with
  | none => throw (.unconfiguredFreshFunction sort)
  | some generator => do
      let number ← Run.drawCounter
      Run.record Metrics.recordFreshRequest
      definition.buildTerm call .empty .evaluate (.app generator [.int number.toInt64.toInt])

/-- Binds the variables that are not bound yet to fresh values, one after another. -/
def bindFreshVars (definition : Definition) (call : Caller σ) :
    List Variable → Substitution → Run σ Substitution
  | [], subst => pure subst
  | v :: vars, subst =>
      if subst.isBound v then bindFreshVars definition call vars subst
      else do
        let value ← definition.freshValue call v.sort
        bindFreshVars definition call vars (subst.bindIfUnbound v value)

def buildRight (definition : Definition) (call : Caller σ) (rule : Rule) (subst : Substitution) :
    Run σ Term := do
  let extended ← definition.bindFreshVars call rule.freshVars subst
  definition.buildTerm call extended .instantiate rule.rhs

def firstHolding (definition : Definition) (call : Caller σ) (rule : Rule) :
    List Substitution → Run σ (Option Substitution)
  | [] => pure none
  | subst :: others => do
      match ← definition.condition call rule subst with
      | .holds => pure (some subst)
      | _ => firstHolding definition call rule others

def firstApplicable (definition : Definition) (call : Caller σ) (subject : Term) :
    List Rule → Run σ (Option (Rule × Substitution))
  | [] => pure none
  | rule :: rules => do
      let found := definition.concreteMatches rule.lhs subject
      match ← definition.firstHolding call rule found with
      | some subst => pure (some (rule, subst))
      | none => firstApplicable definition call subject rules

/-- Answers a call by the first function rule that applies to it. -/
def applyFunctionRules (definition : Definition) (call : Caller σ) (label : Label)
    (args : List Term) : Run σ Term := do
  let subject := Term.app label args
  match ← definition.firstApplicable call subject (definition.functionRulesOf label) with
  | some (rule, subst) => definition.buildRight call rule subst
  | none => pure subject

/-- Answers calls as long as levels of nesting are left; `limit` is the number of all levels. -/
def callWithin (definition : Definition) (limit : Nat) : Nat → Caller σ
  | 0, label, _ => throw (.functionDepthExceeded label limit)
  | levels + 1, label, args => do
      Run.record Metrics.recordFunctionEval
      match definition.hook? label with
      | some hook => pure ((hook.apply args).getD (.app label args))
      | none => definition.applyFunctionRules (definition.callWithin limit levels) label args

end Definition

namespace Machine

def call (machine : Machine σ) : Caller σ :=
  machine.definition.callWithin machine.config.maxFunctionDepth machine.config.maxFunctionDepth

def evaluate (machine : Machine σ) (term : Term) : Run σ Term :=
  machine.definition.buildTerm machine.call .empty .evaluate term

def fresh (machine : Machine σ) (sort : SortName) : Run σ Term :=
  machine.definition.freshValue machine.call sort

/-- Builds the right side of a rule: fresh variables are bound first, function calls are answered,
and the cells that the match is to overwrite keep the identities of the subject. -/
def applyRule (machine : Machine σ) (rule : Rule) (subst : Substitution) : Run σ Term :=
  machine.definition.buildRight machine.call rule subst

def condition (machine : Machine σ) (rule : Rule) (subst : Substitution) : Run σ Condition :=
  machine.definition.condition machine.call rule subst

end Machine

end SymbolicRewriting
