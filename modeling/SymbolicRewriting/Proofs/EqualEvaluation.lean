import SymbolicRewriting.Proofs.EqualMatches
import SymbolicRewriting.Proofs.Repeatability

/-!
Evaluation respects the equality of terms, if the hooks do and unless the left side of a function rule
contains a collection: for such a rule the order of cells decides which match is the first one that
applies.
-/

namespace SymbolicRewriting

open List

variable {σ : Type}

namespace Term

variable {left right : Term}

theorem EqualTo.asInt_eq (hequal : left.EqualTo right) : left.asInt = right.asInt := by
  cases hequal.sameForm <;> rfl

theorem EqualTo.asBool_eq (hequal : left.EqualTo right) : left.asBool = right.asBool := by
  cases hequal.sameForm <;> rfl

end Term

/-- Neither value is there, or both are, and equal. -/
def OptionsEqual (value other : Option Term) : Prop :=
  (value = none ∧ other = none) ∨
    ∃ term term', value = some term ∧ other = some term' ∧ term.EqualTo term'

theorem OptionsEqual.of_eq {value other : Option Term} (heq : value = other) :
    OptionsEqual value other := by
  subst heq
  cases value with
  | none => exact .inl ⟨rfl, rfl⟩
  | some term => exact .inr ⟨term, term, rfl, rfl, term.beq_refl⟩

/-- Equal terms are the same configuration, so a hook, which computes from what a configuration is, tells
them nowhere apart. -/
def Hook.RespectsEquality (hook : Hook) : Prop :=
  ∀ args args' : List Term, Forall₂ Term.EqualTo args args' →
    OptionsEqual (hook.apply args) (hook.apply args')

namespace Builtin

variable {args args' : List Term} (hargs : Forall₂ Term.EqualTo args args')
include hargs

theorem onInts_eq (operation : Int → Int → Option Term) :
    onInts args operation = onInts args' operation := by
  rcases hargs with _ | ⟨hleft, _ | ⟨hright, _ | ⟨_, _⟩⟩⟩
  · rfl
  · rfl
  · rw [onInts, onInts, hleft.asInt_eq, hright.asInt_eq]
  · rfl

theorem equality_eq : equality args = equality args' := by
  rcases hargs with _ | ⟨hleft, _ | ⟨hright, _ | ⟨_, _⟩⟩⟩
  · rfl
  · rfl
  · rw [equality, equality, hleft.beq_eq hright, hleft.isGround_eq, hright.isGround_eq]
  · rfl

theorem concatenation_eq : concatenation args = concatenation args' := by
  rcases hargs with _ | ⟨hleft, _ | ⟨hright, _ | ⟨_, _⟩⟩⟩
  · rfl
  · cases hleft.sameForm <;> rfl
  · cases hleft.sameForm <;> cases hright.sameForm <;> rfl
  · cases hleft.sameForm <;> cases hright.sameForm <;> rfl

theorem optionsEqual_connective (decisive : Bool) :
    OptionsEqual (connective decisive args) (connective decisive args') := by
  rcases hargs with _ | ⟨hleft, _ | ⟨hright, _ | ⟨_, _⟩⟩⟩
  · exact .of_eq rfl
  · exact .of_eq rfl
  · rw [connective, connective, hleft.asBool_eq, hright.asBool_eq]
    split
    · exact .of_eq rfl
    · split
      · exact .inr ⟨_, _, rfl, rfl, hright⟩
      · split
        · exact .inr ⟨_, _, rfl, rfl, hleft⟩
        · exact .of_eq rfl
  · exact .of_eq rfl

theorem optionsEqual_apply (builtin : Builtin) :
    OptionsEqual (builtin.apply args) (builtin.apply args') := by
  cases builtin with
  | addInt | subInt | mulInt | divInt | modInt => exact .of_eq (onInts_eq hargs _)
  | ltInt | leInt | gtInt | geInt | eqInt => exact .of_eq (onInts_eq hargs _)
  | eqTerm => exact .of_eq (congrArg (Option.map Term.bool) (equality_eq hargs))
  | neTerm => exact .of_eq (congrArg (Option.map fun equal => Term.bool !equal) (equality_eq hargs))
  | notBool =>
      rcases hargs with _ | ⟨harg, _ | ⟨_, _⟩⟩
      · exact .of_eq rfl
      · exact .of_eq (congrArg (Option.map fun value => Term.bool !value) harg.asBool_eq)
      · exact .of_eq rfl
  | andBool => exact optionsEqual_connective hargs false
  | orBool => exact optionsEqual_connective hargs true
  | concatString => exact .of_eq (concatenation_eq hargs)
  | intToString =>
      rcases hargs with _ | ⟨harg, _ | ⟨_, _⟩⟩
      · exact .of_eq rfl
      · exact .of_eq (congrArg (Option.map fun value => Term.string (Decimal.write value)) harg.asInt_eq)
      · exact .of_eq rfl

omit hargs in
theorem respectsEquality (builtin : Builtin) : builtin.hook.RespectsEquality :=
  fun _ _ hargs => optionsEqual_apply hargs builtin

end Builtin

/-- The callers answer equal calls alike. -/
def Caller.Respects (kind : Repetition) (caller other : Caller σ) : Prop :=
  ∀ label args args', Forall₂ Term.EqualTo args args' →
    (caller label args).RepeatedBy kind Term.EqualTo (other label args')

/-- The same truth value, or equal propositions. -/
inductive Condition.EqualTo : Condition → Condition → Prop
  | holds : EqualTo .holds .holds
  | fails : EqualTo .fails .fails
  | unsettled {proposition proposition' : Term} (hequal : proposition.EqualTo proposition') :
      EqualTo (.unsettled proposition) (.unsettled proposition')

/-- The same rule, by matches that bind to equal terms. -/
def ChoicesAgree (choice other : Option (Rule × Substitution)) : Prop :=
  (choice = none ∧ other = none) ∨ ∃ rule subst subst',
    choice = some (rule, subst) ∧ other = some (rule, subst') ∧ subst.EqualTo subst'

namespace Definition

variable {definition : Definition} {kind : Repetition} {caller other : Caller σ}
  (hcaller : caller.Respects kind other) {subst subst' : Substitution}
  (hsubst : subst.EqualTo subst')

/-- The left sides of function rules are free of collections. -/
def OrderedFunctions (definition : Definition) : Prop :=
  ∀ rule ∈ definition.functionRules, rule.lhs.CollectionFree

/-- Equal calls have equal answers. -/
structure Congruent (definition : Definition) : Prop where
  withoutFresh : definition.WithoutFresh
  ordered : definition.OrderedFunctions
  respectsEquality : definition.EveryHook Hook.RespectsEquality

theorem buildTerms_respects {mode : BuildMode} {terms : List Term}
    (hterms : ∀ term ∈ terms, (definition.buildTerm caller subst mode term).RepeatedBy kind
      Term.EqualTo (definition.buildTerm other subst' mode term)) :
    (definition.buildTerms caller subst mode terms).RepeatedBy kind (Forall₂ Term.EqualTo)
      (definition.buildTerms other subst' mode terms) := by
  exact buildTerms_repeatedBy_of_forall₂ (forall₂_same.2 hterms)

theorem buildCells_respects {mode : BuildMode} {cells : List (Cell Term)}
    (hcells : ∀ cell ∈ cells, (definition.buildTerm caller subst mode cell.content).RepeatedBy kind
      Term.EqualTo (definition.buildTerm other subst' mode cell.content)) :
    (definition.buildCells caller subst mode cells).RepeatedBy kind (Forall₂ Term.CellsEqual)
      (definition.buildCells other subst' mode cells) := by
  have hbuilt := buildCells_repeatedBy_of_forall₂
    (forall₂_same.2 fun cell hmem => ⟨rfl, hcells cell hmem⟩)
  exact hbuilt.mono fun _ _ hsame => hsame.imp fun _ _ => Term.cellsEqual_iff.2

include hsubst in
theorem equalTo_closeWith {cells others : List (Cell Term)} (hcells : Forall₂ Term.CellsEqual cells others)
    (frame : Option Variable) :
    (Term.closeWith cells frame (Term.frameBinding subst frame)).EqualTo
      (Term.closeWith others frame (Term.frameBinding subst' frame)) := by
  cases frame with
  | none => exact Term.equal_collection hcells none
  | some v =>
      rw [Term.frameBinding, Term.frameBinding, Option.bind_some, Option.bind_some]
      obtain ⟨hget, hget'⟩ | ⟨bound, bound', hget, hget', hbound⟩ := hsubst.get? v
      · rw [hget, hget']
        exact Term.equal_collection hcells (some v)
      · rw [hget, hget']
        exact hbound.closeWith hcells (some v)

include hcaller hsubst in
/-- What is built under equal bindings is equal. -/
theorem buildTerm_respects (mode : BuildMode) (term : Term) :
    (definition.buildTerm caller subst mode term).RepeatedBy kind Term.EqualTo
      (definition.buildTerm other subst' mode term) := by
  induction term using Term.nestedInduction with
  | token sort value => exact .of_pure (Term.beq_refl _)
  | var v =>
      refine .of_pure ?_
      obtain ⟨hget, hget'⟩ | ⟨bound, bound', hget, hget', hbound⟩ := hsubst.get? v
      · rw [hget, hget']
        exact Term.beq_refl _
      · rw [hget, hget']
        exact hbound
  | app label args ih =>
      apply (buildTerms_respects ih).bind
      intro built built' hbuilt
      split
      · exact hcaller label built built' hbuilt
      · exact .of_pure (Term.equal_app label hbuilt)
  | sequence op items ih =>
      apply (buildTerms_respects ih).bind
      intro built built' hbuilt
      exact .of_pure (Term.equal_flatten op hbuilt)
  | collection cells frame ih =>
      apply (buildCells_respects ih).bind
      intro built built' hbuilt
      exact .of_pure (equalTo_closeWith hsubst hbuilt frame)

include hcaller hsubst in
theorem condition_respects (rule : Rule) :
    (definition.condition caller rule subst).RepeatedBy kind Condition.EqualTo
      (definition.condition other rule subst') := by
  unfold condition
  cases rule.requires with
  | none => exact .of_pure .holds
  | some requires =>
      apply (buildTerm_respects hcaller hsubst .evaluate requires).bind
      intro value value' hvalue
      rw [hvalue.asBool_eq]
      cases value'.asBool with
      | none => exact .of_pure (.unsettled hvalue)
      | some truth =>
          cases truth with
          | true => exact .of_pure .holds
          | false => exact .of_pure .fails

include hcaller in
theorem firstHolding_respects (rule : Rule) {substs substs' : List Substitution}
    (hsubsts : Forall₂ Substitution.EqualTo substs substs') :
    (definition.firstHolding caller rule substs).RepeatedBy kind
      (fun found found' => (found = none ∧ found' = none) ∨ ∃ subst subst',
        found = some subst ∧ found' = some subst' ∧ subst.EqualTo subst')
      (definition.firstHolding other rule substs') := by
  induction hsubsts with
  | nil => exact .of_pure (.inl ⟨rfl, rfl⟩)
  | @cons subst subst' _ _ hfirst _ ih =>
      apply (condition_respects hcaller hfirst rule).bind
      intro truth truth' htruth
      cases htruth with
      | holds => exact .of_pure (.inr ⟨subst, subst', rfl, rfl, hfirst⟩)
      | fails => exact ih
      | unsettled _ => exact ih

include hcaller in
theorem firstApplicable_respects {subject subject' : Term} (hsubject : subject.EqualTo subject')
    {rules : List Rule} (hrules : ∀ rule ∈ rules, rule.lhs.CollectionFree) :
    (definition.firstApplicable caller subject rules).RepeatedBy kind ChoicesAgree
      (definition.firstApplicable other subject' rules) := by
  induction rules with
  | nil => exact .of_pure (.inl ⟨rfl, rfl⟩)
  | cons rule rules ih =>
      obtain ⟨hrule, hothers⟩ := List.forall_mem_cons.1 hrules
      apply (firstHolding_respects hcaller rule (forall₂_concreteMatches hrule hsubject)).bind
      rintro _ _ (⟨rfl, rfl⟩ | ⟨subst, subst', rfl, rfl, hsubst⟩)
      · exact ih hothers
      · exact .of_pure (.inr ⟨rule, subst, subst', rfl, rfl, hsubst⟩)

include hcaller hsubst in
theorem buildRight_respects {rule : Rule} (hfresh : rule.freshVars = []) :
    (definition.buildRight caller rule subst).RepeatedBy kind Term.EqualTo
      (definition.buildRight other rule subst') := by
  rw [buildRight_of_freshVars_eq_nil hfresh, buildRight_of_freshVars_eq_nil hfresh]
  exact buildTerm_respects hcaller hsubst .instantiate rule.rhs

variable (hcongruent : definition.Congruent)
include hcongruent

include hcaller in
theorem applyFunctionRules_respects (label : Label) {args args' : List Term}
    (hargs : Forall₂ Term.EqualTo args args') :
    (definition.applyFunctionRules caller label args).RepeatedBy kind Term.EqualTo
      (definition.applyFunctionRules other label args') := by
  have hsubject : (Term.app label args).EqualTo (.app label args') := Term.equal_app label hargs
  have hmem : ∀ rule ∈ definition.functionRulesOf label, rule ∈ definition.functionRules :=
    fun rule hrule => List.mem_of_mem_filter hrule
  apply ((firstApplicable_respects hcaller hsubject fun rule hrule =>
    hcongruent.ordered rule (hmem rule hrule)).and (firstApplicable_mem _ _)).bind
  rintro _ _ ⟨⟨rfl, rfl⟩ | ⟨rule, subst, subst', rfl, rfl, hsubst⟩, hrule⟩
  · exact .of_pure hsubject
  · have hfresh := hcongruent.withoutFresh rule (hmem rule (hrule rule subst rfl))
    exact buildRight_respects hcaller hsubst hfresh

theorem callWithin_respects (limit levels : Nat) :
    Caller.Respects kind (definition.callWithin limit levels : Caller σ)
      (definition.callWithin limit levels) := by
  induction levels with
  | zero => exact fun label _ _ _ => .of_throw (.functionDepthExceeded label limit) fun _ => rfl
  | succ levels ih =>
      intro label args args' hargs
      apply (Run.RepeatedBy.record _).bind
      intro _ _ _
      cases hlabel : definition.hook? label with
      | none => exact applyFunctionRules_respects ih hcongruent label hargs
      | some hook =>
          refine .of_pure ?_
          obtain ⟨hleft, hright⟩ | ⟨result, result', hleft, hright, hresult⟩ :=
            hcongruent.respectsEquality label hook hlabel args args' hargs
          · rw [hleft, hright]
            exact Term.equal_app label hargs
          · rw [hleft, hright]
            exact hresult

end Definition

end SymbolicRewriting
