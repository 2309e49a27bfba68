import SymbolicRewriting.Machine.Execution
import SymbolicRewriting.Proofs.Everywhere
import SymbolicRewriting.Proofs.RuleIndexing

/-!
What holds of all that is built. A condition on all parts of terms goes over to the value of a term, to
the answer of a call and to the results of steps and runs, if it holds of the bindings, of the calls that
are kept and of what the rules put together.
-/

namespace SymbolicRewriting

variable {σ α : Type} {fits : Term → Prop}

theorem Run.Ensures.and {run : Run σ α} {post other : α → Prop} (hpost : run.Ensures post)
    (hother : run.Ensures other) : run.Ensures fun value => post value ∧ other value :=
  fun start value next hrun => ⟨hpost start value next hrun, hother start value next hrun⟩

namespace Definition

variable {definition : Definition} {call : Caller σ} {subst : Substitution} {mode : BuildMode}

theorem ensures_buildTerms {post : Term → Prop} {terms : List Term}
    (hterms : ∀ term ∈ terms, (definition.buildTerm call subst mode term).Ensures post) :
    (definition.buildTerms call subst mode terms).Ensures fun values =>
      values.length = terms.length ∧ ∀ value ∈ values, post value := by
  induction terms with
  | nil => exact Run.Ensures.of_pure ⟨rfl, List.forall_mem_nil _⟩
  | cons term terms ih =>
      obtain ⟨hfirst, hothers⟩ := List.forall_mem_cons.1 hterms
      refine Run.Ensures.bind hfirst fun value hvalue => ?_
      refine Run.Ensures.bind (ih hothers) fun values hboth => ?_
      obtain ⟨hlength, hvalues⟩ := hboth
      exact Run.Ensures.of_pure
        ⟨congrArg (· + 1) hlength, List.forall_mem_cons.2 ⟨hvalue, hvalues⟩⟩

theorem ensures_buildCells {post : Term → Prop} {cells : List (Cell Term)}
    (hcells : ∀ cell ∈ cells, (definition.buildTerm call subst mode cell.content).Ensures post) :
    (definition.buildCells call subst mode cells).Ensures fun built =>
      ∀ cell ∈ built, post cell.content := by
  induction cells with
  | nil => exact Run.Ensures.of_pure (List.forall_mem_nil _)
  | cons cell cells ih =>
      obtain ⟨hfirst, hothers⟩ := List.forall_mem_cons.1 hcells
      refine Run.Ensures.bind hfirst fun content hcontent => ?_
      refine Run.Ensures.bind_of_forall fun identity => ?_
      refine Run.Ensures.bind (ih hothers) fun built hbuilt => ?_
      exact Run.Ensures.of_pure (List.forall_mem_cons.2 ⟨hcontent, hbuilt⟩)

/-- What is built fits everywhere, if the bindings do and if each application in the term becomes one
that fits or a call whose answer does. -/
theorem ensures_buildTerm (hfits : Composable fits) (hsubst : subst.Everywhere fits) {term : Term}
    (happ : ∀ label args, .app label args ∈ term.subterms →
      ∀ built : List Term, built.length = args.length → (∀ arg ∈ built, arg.Everywhere fits) →
        if definition.isFunction label then (call label built).Ensures (Term.Everywhere fits)
        else fits (.app label built)) :
    (definition.buildTerm call subst mode term).Ensures (Term.Everywhere fits) := by
  induction term using Term.nestedInduction with
  | token sort value => exact Run.Ensures.of_pure (Term.everywhere_token hfits sort value)
  | var v =>
      apply Run.Ensures.of_pure
      cases hget : subst.get? v with
      | none => exact Term.everywhere_var hfits v
      | some bound => exact hsubst v bound hget
  | app label args ih =>
      have hargs := fun arg hmem => ih arg hmem fun other _ hother =>
        happ other _ (Term.subterms_subset_of_mem_children hmem hother)
      refine Run.Ensures.bind (ensures_buildTerms hargs) fun built hboth => ?_
      obtain ⟨hlength, hbuilt⟩ := hboth
      have hself := happ label args (Term.self_mem_subterms _) built hlength hbuilt
      split
      · rwa [if_pos ‹_›] at hself
      · rw [if_neg ‹_›] at hself
        exact Run.Ensures.of_pure (Term.everywhere_iff.2 ⟨hself, hbuilt⟩)
  | sequence op items ih =>
      have hitems := fun item hmem => ih item hmem fun other _ hother =>
        happ other _ (Term.subterms_subset_of_mem_children hmem hother)
      refine Run.Ensures.bind (ensures_buildTerms hitems) fun built hboth => ?_
      obtain ⟨-, hbuilt⟩ := hboth
      exact Run.Ensures.of_pure (Term.everywhere_flatten hfits op hbuilt)
  | collection cells frame ih =>
      have hcells := fun cell hmem => ih cell hmem fun other _ hother =>
        happ other _ (Term.subterms_subset_of_mem_children (List.mem_map_of_mem hmem) hother)
      refine Run.Ensures.bind (ensures_buildCells hcells) fun built hbuilt => ?_
      exact Run.Ensures.of_pure
        (Term.everywhere_closeWith hfits hbuilt frame (hsubst.frameBinding frame))

/-- Fresh values that fit everywhere can be bound. -/
theorem everywhere_bindFreshVars {vars : List Variable}
    (hfresh : ∀ v ∈ vars, (definition.freshValue call v.sort).Ensures (Term.Everywhere fits))
    (hsubst : subst.Everywhere fits) :
    (definition.bindFreshVars call vars subst).Ensures (Substitution.Everywhere fits) := by
  induction vars generalizing subst with
  | nil => exact Run.Ensures.of_pure hsubst
  | cons v vars ih =>
      obtain ⟨hfirst, hothers⟩ := List.forall_mem_cons.1 hfresh
      unfold bindFreshVars
      split
      · exact ih hothers hsubst
      · rename_i hunbound
        refine Run.Ensures.bind hfirst fun value hvalue => ?_
        rw [Substitution.bindIfUnbound, if_neg hunbound]
        exact ih hothers (hsubst.push (Option.not_isSome_iff_eq_none.1 hunbound) hvalue)

theorem ensures_firstHolding (rule : Rule) (substs : List Substitution) :
    (definition.firstHolding call rule substs).Ensures fun choice =>
      ∀ subst, choice = some subst → subst ∈ substs := by
  induction substs with
  | nil => exact Run.Ensures.of_pure fun _ hnone => by cases hnone
  | cons subst substs ih =>
      have hlater := ih.mono fun choice hchoice other hother =>
        List.mem_cons_of_mem subst (hchoice other hother)
      refine Run.Ensures.bind_of_forall fun condition => ?_
      cases condition with
      | holds =>
          apply Run.Ensures.of_pure
          rintro _ ⟨⟩
          exact List.mem_cons_self
      | fails | unsettled _ => exact hlater

/-- A rule is chosen among the given ones, with one of its matches. -/
theorem ensures_firstApplicable (subject : Term) (rules : List Rule) :
    (definition.firstApplicable call subject rules).Ensures fun choice =>
      ∀ rule subst, choice = some (rule, subst) →
        rule ∈ rules ∧ subst ∈ definition.concreteMatches rule.lhs subject := by
  induction rules with
  | nil => exact Run.Ensures.of_pure fun _ _ hnone => by cases hnone
  | cons rule rules ih =>
      refine Run.Ensures.bind (ensures_firstHolding rule _) fun found hfound => ?_
      cases found with
      | none =>
          refine ih.mono fun choice hchoice other subst hother => ?_
          obtain ⟨hmem, hsubst⟩ := hchoice other subst hother
          exact ⟨List.mem_cons_of_mem _ hmem, hsubst⟩
      | some subst =>
          apply Run.Ensures.of_pure
          rintro _ _ ⟨⟩
          exact ⟨List.mem_cons_self, hfound subst rfl⟩

/-- A call is answered by a right side that is built under bindings to parts of the arguments, or it
is kept as it is. -/
theorem ensures_applyFunctionRules (hfits : Composable fits) {label : Label} {args : List Term}
    (hargs : ∀ arg ∈ args, arg.Everywhere fits)
    (hright : ∀ rule ∈ definition.functionRulesOf label, ∀ subst : Substitution,
      subst.Everywhere fits → (definition.buildRight call rule subst).Ensures (Term.Everywhere fits))
    (hkept : (definition.firstApplicable call (.app label args)
      (definition.functionRulesOf label)).Ensures fun choice =>
        choice = none → fits (.app label args)) :
    (definition.applyFunctionRules call label args).Ensures (Term.Everywhere fits) := by
  refine Run.Ensures.bind (hkept.and (ensures_firstApplicable _ _)) fun choice hboth => ?_
  obtain ⟨hkept, hchoice⟩ := hboth
  cases choice with
  | none => exact Run.Ensures.of_pure (Term.everywhere_iff.2 ⟨hkept rfl, hargs⟩)
  | some found =>
      obtain ⟨rule, subst⟩ := found
      obtain ⟨hrule, hsubst⟩ := hchoice rule subst rfl
      have hlabel : rule.lhs.topLabel = some label := by
        simpa using (List.mem_filter.1 hrule).2
      have hroot : rule.lhs.topLabel ≠ none := by simp [hlabel]
      have hsubject : (Obligation.term rule.lhs (.app label args)).SubjectEverywhere fits :=
        ⟨fun hnone => absurd hnone hroot, hargs⟩
      exact hright rule hrule subst (everywhere_of_mem_concreteMatches hfits hsubject hsubst)

/-- The same of calls with a level of nesting left. -/
theorem ensures_callWithin_succ (hfits : Composable fits)
    (hhooks : definition.EveryHook (Hook.Keeps · fits)) {limit levels : Nat} {label : Label}
    {args : List Term} (hargs : ∀ arg ∈ args, arg.Everywhere fits)
    (hhook : ∀ hook, definition.hook? label = some hook → hook.apply args = none →
      fits (.app label args))
    (hright : ∀ rule ∈ definition.functionRulesOf label, ∀ subst : Substitution,
      subst.Everywhere fits →
        (definition.buildRight (definition.callWithin limit levels : Caller σ) rule subst).Ensures
          (Term.Everywhere fits))
    (hkept : definition.hook? label = none →
      (definition.firstApplicable (definition.callWithin limit levels : Caller σ) (.app label args)
        (definition.functionRulesOf label)).Ensures fun choice =>
          choice = none → fits (.app label args)) :
    (definition.callWithin limit (levels + 1) label args : Run σ Term).Ensures
      (Term.Everywhere fits) := by
  rw [callWithin_succ]
  refine Run.Ensures.bind_of_forall fun _ => ?_
  cases hlabel : definition.hook? label with
  | some hook =>
      apply Run.Ensures.of_pure
      cases happly : hook.apply args with
      | none => exact Term.everywhere_iff.2 ⟨hhook hook hlabel happly, hargs⟩
      | some result => exact hhooks label hook hlabel args hargs result happly
  | none => exact ensures_applyFunctionRules hfits hargs hright (hkept hlabel)

end Definition

/-- The term that the step leads to, if there is one, satisfies `post`. -/
def StepResult.Every (post : Term → Prop) : StepResult → Prop
  | rewrote _ term => post term
  | stuck => True
  | undecided => True

namespace Machine

variable {machine : Machine σ} {post : Term → Prop} {rule : Rule} {rules : List Rule}
  {subject : Term}

theorem ensures_concrete (machine : Machine σ) (rule : Rule) (subject : Term) :
    (machine.matchRule rule subject).Ensures fun results => ∀ found ∈ results.found.toList,
      found.condition.isTrivial = true →
        found.subst ∈ machine.definition.concreteMatches rule.lhs subject := by
  refine (machine.yields_matchRule rule subject).ensures.mono fun results hresults => ?_
  intro found hfound htrivial
  rw [← hresults]
  exact List.mem_map_of_mem (List.mem_filter.2 ⟨hfound, htrivial⟩)

theorem ensures_stepByMatches {founds : List RuleMatch}
    (hfounds : ∀ found ∈ founds, found.condition.isTrivial = true →
      (machine.applyRule rule found.subst).Ensures post) :
    (machine.stepByMatches rule founds).Ensures fun outcome =>
      ∀ result, outcome = some result → result.Every post := by
  induction founds with
  | nil => exact Run.Ensures.of_pure fun _ hnone => by cases hnone
  | cons found founds ih =>
      obtain ⟨hfirst, hothers⟩ := List.forall_mem_cons.1 hfounds
      have hundecided : ∀ result, some StepResult.undecided = some result →
          result.Every post := by
        rintro _ ⟨⟩
        exact True.intro
      unfold stepByMatches
      split
      · exact Run.Ensures.of_pure hundecided
      · rename_i htrivial
        refine Run.Ensures.bind_of_forall fun condition => ?_
        cases condition with
        | holds =>
            refine Run.Ensures.bind (hfirst (by simpa using htrivial)) fun term hterm => ?_
            refine Run.Ensures.bind_of_forall fun _ => Run.Ensures.of_pure ?_
            rintro _ ⟨⟩
            exact hterm
        | fails => exact ih hothers
        | unsettled _ => exact Run.Ensures.of_pure hundecided

theorem ensures_successorsByMatches {founds : List RuleMatch}
    (hfounds : ∀ found ∈ founds, found.condition.isTrivial = true →
      (machine.applyRule rule found.subst).Ensures post) :
    (machine.successorsByMatches rule founds).Ensures fun results =>
      ∀ result ∈ results, post result.2 := by
  induction founds with
  | nil => exact Run.Ensures.of_pure (List.forall_mem_nil _)
  | cons found founds ih =>
      obtain ⟨hfirst, hothers⟩ := List.forall_mem_cons.1 hfounds
      unfold successorsByMatches
      split
      · exact ih hothers
      · rename_i htrivial
        refine Run.Ensures.bind_of_forall fun condition => ?_
        cases condition with
        | holds =>
            refine Run.Ensures.bind (hfirst (by simpa using htrivial)) fun term hterm => ?_
            refine Run.Ensures.bind (ih hothers) fun later hlater => ?_
            exact Run.Ensures.of_pure (List.forall_mem_cons.2 ⟨hterm, hlater⟩)
        | fails | unsettled _ => exact ih hothers

section Rules

variable (hrules : ∀ rule ∈ rules, ∀ subst ∈ machine.definition.concreteMatches rule.lhs subject,
  (machine.applyRule rule subst).Ensures post)
include hrules

theorem ensures_stepByRules :
    (machine.stepByRules subject rules).Ensures (StepResult.Every post) := by
  induction rules with
  | nil => exact Run.Ensures.of_pure True.intro
  | cons rule rules ih =>
      obtain ⟨hfirst, hothers⟩ := List.forall_mem_cons.1 hrules
      refine Run.Ensures.bind (machine.ensures_concrete rule subject) fun results hresults => ?_
      have hfounds := fun found hmem htrivial => hfirst _ (hresults found hmem htrivial)
      refine Run.Ensures.bind (ensures_stepByMatches hfounds) fun outcome houtcome => ?_
      cases outcome with
      | some result => exact Run.Ensures.of_pure (houtcome result rfl)
      | none =>
          dsimp only
          split
          · exact Run.Ensures.of_pure True.intro
          · exact ih hothers

theorem ensures_successorsByRules :
    (machine.successorsByRules subject rules).Ensures fun results =>
      ∀ result ∈ results, post result.2 := by
  induction rules with
  | nil => exact Run.Ensures.of_pure (List.forall_mem_nil _)
  | cons rule rules ih =>
      obtain ⟨hfirst, hothers⟩ := List.forall_mem_cons.1 hrules
      refine Run.Ensures.bind (machine.ensures_concrete rule subject) fun results hresults => ?_
      have hfounds := fun found hmem htrivial => hfirst _ (hresults found hmem htrivial)
      refine Run.Ensures.bind (ensures_successorsByMatches hfounds) fun first hfirst => ?_
      refine Run.Ensures.bind (ih hothers) fun later hlater => ?_
      exact Run.Ensures.of_pure (List.forall_mem_append.2 ⟨hfirst, hlater⟩)

end Rules

section Steps

/-- Every rewrite rule has a result with the property for each match in the term that needs no
constraint. -/
def Rewrites (machine : Machine σ) (post : Term → Prop) (subject : Term) : Prop :=
  ∀ rule ∈ machine.definition.rewriteRules,
    ∀ subst ∈ machine.definition.concreteMatches rule.lhs subject,
      (machine.applyRule rule subst).Ensures post

theorem Rewrites.ensures_step (hrewrites : machine.Rewrites post subject) :
    (machine.step subject).Ensures (StepResult.Every post) :=
  ensures_stepByRules fun rule hmem => hrewrites rule (Definition.mem_rewriteRules_of_mem_candidates hmem)

theorem Rewrites.ensures_successors (hrewrites : machine.Rewrites post subject) :
    (machine.successors subject).Ensures fun results => ∀ result ∈ results, post result.2 :=
  ensures_successorsByRules fun rule hmem => hrewrites rule (Definition.mem_rewriteRules_of_mem_candidates hmem)

variable (hrewrites : ∀ term, post term → machine.Rewrites post term)
include hrewrites

theorem ensures_runObserved (observe : α → RuleId → Term → α) (bound : Nat) {term : Term}
    (hterm : post term) (steps : Nat) (seen : α) :
    (machine.runObserved observe bound term steps seen).Ensures fun result =>
      post result.1.term := by
  induction bound generalizing term steps seen with
  | zero => exact Run.Ensures.of_pure hterm
  | succ bound ih =>
      refine Run.Ensures.bind (hrewrites term hterm).ensures_step fun outcome houtcome => ?_
      cases outcome with
      | rewrote rule next => exact ih houtcome _ _
      | stuck | undecided => exact Run.Ensures.of_pure hterm

/-- What each step keeps, a run of any length keeps. -/
theorem ensures_run (hsubject : post subject) (bound : Option Nat) :
    (machine.run subject bound).Ensures fun result => post result.term :=
  Run.Ensures.bind (ensures_runObserved hrewrites _ _ hsubject 0 ()) fun _ hresult =>
    Run.Ensures.of_pure hresult

end Steps

end Machine

end SymbolicRewriting
