import SymbolicRewriting.Machine.Step
import SymbolicRewriting.Machine.Symbolic
import SymbolicRewriting.Proofs.Recovery
import SymbolicRewriting.Proofs.RuleIndexing

/-!
Steps by rules that ask for nothing but a match: they have no condition, no fresh variables and no
function call on the right. Such a rule is applied by instantiating its right side, so the successors
of a term can be listed without running the machine.
-/

namespace SymbolicRewriting

open List

variable {σ α : Type}

namespace Run

theorem Yields.mono {run : Run σ α} {post weaker : α → Prop} (hrun : run.Yields post)
    (himp : ∀ value, post value → weaker value) : run.Yields weaker := by
  intro start
  obtain ⟨value, next, hvalue, hpost⟩ := hrun start
  exact ⟨value, next, hvalue, himp value hpost⟩

theorem Yields.ensures {run : Run σ α} {post : α → Prop} (hrun : run.Yields post) :
    run.Ensures post := by
  intro start value next hvalue
  obtain ⟨value', next', hvalue', hpost⟩ := hrun start
  rw [hvalue] at hvalue'
  cases hvalue'
  exact hpost

theorem yields_record (update : Metrics → Metrics) :
    (record update : Run σ Unit).Yields fun _ => True :=
  fun _ => ⟨_, _, rfl, True.intro⟩

theorem yields_ask (question : σ → α × σ) : (ask question).Yields fun _ => True :=
  fun _ => ⟨_, _, rfl, True.intro⟩

end Run

namespace Definition

variable {definition : Definition}

def CallFree (definition : Definition) (term : Term) : Prop :=
  ∀ part ∈ term.subterms, ¬definition.IsCall part

theorem CallFree.child {term child : Term} (hcalls : definition.CallFree term)
    (hchild : child ∈ term.children) : definition.CallFree child :=
  fun part hpart => hcalls part (Term.subterms_subset_of_mem_children hchild hpart)

/-- A term without calls is built by instantiating it, whatever identities its cells get. -/
theorem yields_buildTerm {call : Caller σ} (subst : Substitution) (mode : BuildMode) {term : Term}
    (hcalls : definition.CallFree term) :
    (definition.buildTerm call subst mode term).Yields (term.instantiate subst).Alike := by
  induction term using Term.nestedInduction with
  | token sort value => exact .of_pure rfl
  | var v => exact .of_pure rfl
  | app label args ih =>
      have hargs : Forall₂ (fun term value : Term =>
          (definition.buildTerm call subst mode term).Yields value.Alike) args
            (args.map (Term.instantiate subst)) :=
        forall₂_map_right_iff.2 (forall₂_same.2 fun arg hmem => ih arg hmem (hcalls.child hmem))
      apply Run.Yields.bind (yields_buildTerms hargs)
      intro built hbuilt
      have hlabel : ¬definition.isFunction label = true := fun hlabel =>
        hcalls _ (Term.self_mem_subterms _) ⟨label, args, rfl, hlabel⟩
      rw [if_neg hlabel, Term.instantiate_app]
      exact .of_pure (Term.alike_app hbuilt)
  | sequence op items ih =>
      have hitems : Forall₂ (fun term value : Term =>
          (definition.buildTerm call subst mode term).Yields value.Alike) items
            (items.map (Term.instantiate subst)) :=
        forall₂_map_right_iff.2 (forall₂_same.2 fun item hmem => ih item hmem (hcalls.child hmem))
      apply Run.Yields.bind (yields_buildTerms hitems)
      intro built hbuilt
      refine .of_pure ?_
      rw [Term.instantiate, Term.instantiateAll_eq_map]
      unfold Term.Alike
      rw [Term.withoutIds_flatten, Term.withoutIds_flatten, hbuilt]
  | collection cells frame ih =>
      have hcells : Forall₂ (fun cell other : Cell Term => cell.name = other.name ∧
          (definition.buildTerm call subst mode cell.content).Yields other.content.Alike) cells
            (cells.map (Cell.instantiate subst)) := by
        refine forall₂_map_right_iff.2 (forall₂_same.2 fun cell hmem => ⟨rfl, ih cell hmem ?_⟩)
        exact hcalls.child (List.mem_map_of_mem hmem)
      apply Run.Yields.bind (yields_buildCells hcells)
      intro built hbuilt
      refine .of_pure ?_
      rw [Term.instantiate, Term.instantiateCells_eq_map]
      unfold Term.Alike
      rw [Term.withoutIds_closeWith, Term.withoutIds_closeWith, ← hbuilt]
      rfl

/-- A rule that can be applied wherever its left side matches, by instantiating the right side. -/
structure Direct (definition : Definition) (rule : Rule) : Prop where
  requires : rule.requires = none
  freshVars : rule.freshVars = []
  callFree : definition.CallFree rule.rhs

/-- The result of each rule for each match, in their order. -/
def rewrites (definition : Definition) (subject : Term) : List (RuleId × Term) :=
  (definition.candidates subject).flatMap fun rule =>
    (definition.concreteMatches rule.lhs subject).map fun subst =>
      (rule.id, rule.rhs.instantiate subst)

end Definition

/-- The results are of the same rule and differ in the identities of cells alone. -/
def AlikeResults (left right : RuleId × Term) : Prop :=
  left.1 = right.1 ∧ left.2.Alike right.2

/-- The matches that need no condition. -/
def RuleMatches.concrete (results : RuleMatches) : List Substitution :=
  (results.found.toList.filter fun found => found.condition.isTrivial).map RuleMatch.subst

namespace Machine

variable {machine : Machine σ}

theorem yields_condition {rule : Rule} (hdirect : machine.definition.Direct rule)
    (subst : Substitution) : (machine.condition rule subst).Yields fun condition =>
      condition = .holds := by
  unfold condition Definition.condition
  rw [hdirect.requires]
  exact .of_pure rfl

theorem yields_applyRule {rule : Rule} (hdirect : machine.definition.Direct rule)
    (subst : Substitution) :
    (machine.applyRule rule subst).Yields (rule.rhs.instantiate subst).Alike := by
  unfold applyRule
  rw [Definition.buildRight_of_freshVars_eq_nil hdirect.freshVars]
  exact Definition.yields_buildTerm subst .instantiate hdirect.callFree

/-- What the oracle says about the other matches does not affect those without constraints. -/
theorem yields_admitMatches (machine : Machine σ) (path : PathCondition)
    (founds : List StructuralMatch) (results : RuleMatches) :
    (machine.admitMatches path founds results).Yields fun last =>
      last.concrete = results.concrete ++
        (founds.filter fun found => found.constraints.isTrivial).map StructuralMatch.subst := by
  induction founds generalizing results with
  | nil => exact .of_pure (List.append_nil _).symm
  | cons found others ih =>
      unfold admitMatches
      split
      · rename_i htrivial
        refine (ih _).mono fun last hlast => ?_
        rw [hlast]
        simp [RuleMatches.concrete, RuleMatches.accept, htrivial]
      · rename_i hopen
        apply Run.Yields.bind (Run.yields_record _)
        intro _ _
        apply Run.Yields.bind (Run.yields_ask _)
        intro answer _
        have hskip : (found :: others).filter (fun found => found.constraints.isTrivial) =
            others.filter fun found => found.constraints.isTrivial :=
          List.filter_cons_of_neg hopen
        rw [hskip]
        cases answer with
        | refined subst =>
            refine (ih _).mono fun last hlast => ?_
            rw [hlast]
            simp [RuleMatches.concrete, RuleMatches.accept, hopen]
        | unsat => exact ih results
        | unknown => exact ih results.countUndecided

theorem yields_recordOutcome (outcome : MatchOutcome) :
    (recordOutcome outcome : Run σ Unit).Yields fun _ => True := by
  cases outcome with
  | matched => exact .of_pure True.intro
  | noMatch | undecided => exact Run.yields_record _

theorem yields_matchRule (machine : Machine σ) (rule : Rule) (subject : Term) :
    (machine.matchRule rule subject).Yields fun results =>
      results.concrete = machine.definition.concreteMatches rule.lhs subject := by
  apply Run.Yields.bind (Run.yields_record _)
  intro _ _
  apply Run.Yields.bind (Run.yields_record _)
  intro _ _
  apply Run.Yields.bind (machine.yields_admitMatches _ _ _)
  intro results hresults
  apply Run.Yields.bind (yields_recordOutcome _)
  intro _ _
  exact .of_pure hresults

theorem yields_successorsByMatches {rule : Rule} (hdirect : machine.definition.Direct rule)
    (founds : List RuleMatch) :
    (machine.successorsByMatches rule founds).Yields (Forall₂ AlikeResults
      ((founds.filter fun found => found.condition.isTrivial).map fun found =>
        (rule.id, rule.rhs.instantiate found.subst))) := by
  induction founds with
  | nil => exact .of_pure .nil
  | cons found others ih =>
      unfold successorsByMatches
      split
      · rename_i hopen
        rw [List.filter_cons_of_neg (by simpa using hopen)]
        exact ih
      · rename_i htrivial
        rw [List.filter_cons_of_pos (by simpa using htrivial)]
        apply Run.Yields.bind (yields_condition hdirect found.subst)
        rintro _ rfl
        apply Run.Yields.bind (yields_applyRule hdirect found.subst)
        intro term hterm
        apply Run.Yields.bind ih
        intro later hlater
        exact .of_pure (.cons ⟨rfl, hterm⟩ hlater)

/-- Where all rules are direct, the successors are known, whatever the state of the run is. -/
theorem yields_successors (hrules : ∀ rule ∈ machine.definition.rewriteRules,
      machine.definition.Direct rule) (subject : Term) :
    (machine.successors subject).Yields
      (Forall₂ AlikeResults (machine.definition.rewrites subject)) := by
  have hcandidates : ∀ rule ∈ machine.definition.candidates subject, machine.definition.Direct rule :=
    fun rule hmem => hrules rule (Definition.mem_rewriteRules_of_mem_candidates hmem)
  unfold successors Definition.rewrites
  generalize machine.definition.candidates subject = rules at hcandidates ⊢
  induction rules with
  | nil => exact .of_pure .nil
  | cons rule rules ih =>
      obtain ⟨hrule, hothers⟩ := List.forall_mem_cons.1 hcandidates
      apply Run.Yields.bind (machine.yields_matchRule rule subject)
      intro results hresults
      apply Run.Yields.bind (yields_successorsByMatches hrule _)
      intro first hfirst
      apply Run.Yields.bind (ih hothers)
      intro later hlater
      refine .of_pure ?_
      rw [List.flatMap_cons, ← hresults, RuleMatches.concrete, List.map_map]
      exact rel_append hfirst hlater

end Machine

/-! On ground terms nothing is left open. -/

namespace Definition

variable {definition : Definition} {patterns : Grammar} {pattern subject : Term}

section Ground

variable (hpattern : pattern.Single patterns) (hsubject : subject.Conforms .ground .alone)
include hpattern hsubject

theorem undecided_matchPattern_of_ground : (definition.matchPattern pattern subject).undecided = 0 := by
  apply Nat.eq_zero_of_not_pos
  intro hpositive
  obtain ⟨last, hreaches, hundecided⟩ := undecided_matchPattern_pos_iff.1 hpositive
  have hconforms := (Branch.conforms_start hpattern (.inl hsubject)).reaches hreaches
  exact Findings.not_blocked_of_ground hconforms.findings hconforms.pending
    (Branch.blocked_of_undecided hundecided)

theorem isTrivial_of_mem_found_ground {found : StructuralMatch}
    (hmem : found ∈ (definition.matchPattern pattern subject).found) :
    found.constraints.isTrivial = true := by
  obtain ⟨last, hreaches, -, rfl⟩ := mem_found_matchPattern_iff.1 hmem
  have hstart := Branch.conforms_start hpattern (Or.inl hsubject : subject.Single (.over _))
  rw [Branch.result, Branch.constraints_eq_of_reaches_ground hreaches hstart]
  rfl

end Ground

end Definition

namespace Machine

variable {machine : Machine σ}

theorem admitMatches_eq (machine : Machine σ) (path : PathCondition) {founds : List StructuralMatch}
    (htrivial : ∀ found ∈ founds, found.constraints.isTrivial = true) (results : RuleMatches) :
    machine.admitMatches path founds results =
      pure { results with
        found := results.found ++
          (founds.map fun found => (⟨found.subst, .trivial⟩ : RuleMatch)).toArray } := by
  induction founds generalizing results with
  | nil => simp [admitMatches]
  | cons found others ih =>
      obtain ⟨hfound, hothers⟩ := List.forall_mem_cons.1 htrivial
      unfold admitMatches
      rw [if_pos hfound, ih hothers, PathCondition.eq_trivial_of_isTrivial hfound]
      simp [RuleMatches.accept]

/-- Where no branch is undecided and no match needs a constraint, the oracle is not asked. -/
theorem yields_matchRuleUnder_of_trivial (machine : Machine σ) {rule : Rule} {subject : Term}
    (hundecided : (machine.definition.matchPattern rule.lhs subject).undecided = 0)
    (htrivial : ∀ found ∈ (machine.definition.matchPattern rule.lhs subject).found,
      found.constraints.isTrivial = true) (path : PathCondition) :
    (machine.matchRuleUnder rule subject path).Yields fun results => results.undecided = 0 ∧
      results.found.toList =
        (machine.definition.concreteMatches rule.lhs subject).map fun subst => ⟨subst, .trivial⟩ := by
  have hall : ∀ found ∈ (machine.definition.matchPattern rule.lhs subject).found.toList,
      found.constraints.isTrivial = true :=
    fun found hmem => htrivial found (Array.mem_toList_iff.1 hmem)
  apply Run.Yields.bind (Run.yields_record _)
  intro _ _
  apply Run.Yields.bind (Run.yields_record _)
  intro _ _
  rw [admitMatches_eq machine path hall]
  apply Run.Yields.bind (Run.Yields.of_pure rfl)
  intro results hresults
  apply Run.Yields.bind (yields_recordOutcome _)
  intro _ _
  refine .of_pure ?_
  rw [← hresults]
  refine ⟨hundecided, ?_⟩
  rw [Definition.concreteMatches, PatternMatches.concrete, List.filter_eq_self.2 hall]
  simp

theorem yields_matchRuleUnder_of_ground (machine : Machine σ) {patterns : Grammar} {rule : Rule}
    {subject : Term} (hpattern : rule.lhs.Single patterns) (hsubject : subject.Conforms .ground .alone)
    (path : PathCondition) :
    (machine.matchRuleUnder rule subject path).Yields fun results => results.undecided = 0 ∧
      results.found.toList =
        (machine.definition.concreteMatches rule.lhs subject).map fun subst => ⟨subst, .trivial⟩ :=
  machine.yields_matchRuleUnder_of_trivial
    (Definition.undecided_matchPattern_of_ground hpattern hsubject)
    (fun _ hmem => Definition.isTrivial_of_mem_found_ground hpattern hsubject hmem) path

/-- What a symbolic step from a state without condition has taken so far. -/
structure Takes (guarded : Guarded) (results : List (RuleId × Term)) : Prop where
  undecided : guarded.undecided = 0
  taken : Forall₂ (fun result taken => AlikeResults result (taken.1.rule, taken.1.state.term) ∧
    taken.1.state.condition = .trivial ∧ taken.2 = .trivial) results guarded.taken.toList

theorem Takes.leavesRemainder_eq_false {guarded : Guarded} {results : List (RuleId × Term)}
    (htakes : Takes guarded results) : guarded.leavesRemainder = false := by
  obtain ⟨⟨taken⟩, undecided⟩ := guarded
  cases htakes.taken with
  | nil => rfl
  | cons hfirst _ => simp [Guarded.leavesRemainder, Guarded.guards, hfirst.2.2,
      PathCondition.isTrivial, PathCondition.trivial]

/-- A match of a direct rule is taken, and adds its own condition. -/
theorem yields_symbolicMatch (state : ConstrainedTerm) {rule : Rule}
    (hdirect : machine.definition.Direct rule) (found : RuleMatch) :
    (machine.symbolicMatch state rule found).Yields fun outcome =>
      ∃ built, (rule.rhs.instantiate found.subst).Alike built ∧ outcome =
        .taken ⟨rule.id, ⟨built, state.condition.and found.condition⟩⟩ found.condition := by
  apply Run.Yields.bind (yields_condition hdirect found.subst)
  rintro _ rfl
  apply Run.Yields.bind (yields_applyRule hdirect found.subst)
  intro built hbuilt
  apply Run.Yields.bind (Run.yields_record _)
  intro _ _
  exact .of_pure ⟨built, hbuilt, rfl⟩

theorem yields_symbolicMatches_of_trivial {term : Term} {rule : Rule}
    (hdirect : machine.definition.Direct rule) (substs : List Substitution) {guarded : Guarded}
    {results : List (RuleId × Term)} (htakes : Takes guarded results) :
    (machine.symbolicMatches ⟨term, .trivial⟩ rule
      (substs.map fun subst => ⟨subst, .trivial⟩) guarded).Yields fun last =>
        Takes last (results ++ substs.map fun subst => (rule.id, rule.rhs.instantiate subst)) := by
  induction substs generalizing guarded results with
  | nil => exact .of_pure ((List.append_nil results).symm ▸ htakes)
  | cons subst substs ih =>
      apply Run.Yields.bind (yields_symbolicMatch ⟨term, .trivial⟩ hdirect ⟨subst, .trivial⟩)
      rintro _ ⟨built, hbuilt, rfl⟩
      have hnext : Takes (guarded.add (.taken ⟨rule.id, ⟨built, .trivial⟩⟩ .trivial))
          (results ++ [(rule.id, rule.rhs.instantiate subst)]) := by
        refine ⟨htakes.undecided, ?_⟩
        simp only [Guarded.add, Array.toList_push]
        exact rel_append htakes.taken (.cons ⟨⟨rfl, hbuilt⟩, rfl, rfl⟩ .nil)
      refine (ih hnext).mono fun last hlast => ?_
      rwa [List.append_assoc] at hlast

section Ground

variable {patterns : Grammar} {term : Term} (hterm : term.Conforms .ground .alone)
include hterm

theorem yields_symbolicRules_of_ground {rules : List Rule}
    (hrules : ∀ rule ∈ rules, machine.definition.Direct rule ∧ rule.lhs.Single patterns)
    {guarded : Guarded} {results : List (RuleId × Term)} (htakes : Takes guarded results) :
    (machine.symbolicRules ⟨term, .trivial⟩ rules guarded).Yields fun last =>
      Takes last (results ++ rules.flatMap fun rule =>
        (machine.definition.concreteMatches rule.lhs term).map fun subst =>
          (rule.id, rule.rhs.instantiate subst)) := by
  induction rules generalizing guarded results with
  | nil => exact .of_pure ((List.append_nil results).symm ▸ htakes)
  | cons rule rules ih =>
      obtain ⟨⟨hdirect, hpattern⟩, hothers⟩ := List.forall_mem_cons.1 hrules
      apply Run.Yields.bind (machine.yields_matchRuleUnder_of_ground hpattern hterm .trivial)
      rintro found ⟨hundecided, hfound⟩
      have hcounted : Takes { guarded with undecided := guarded.undecided + found.undecided }
          results := ⟨by rw [htakes.undecided, hundecided], htakes.taken⟩
      rw [hfound]
      apply Run.Yields.bind (yields_symbolicMatches_of_trivial hdirect _ hcounted)
      intro extended hextended
      refine (ih hothers hextended).mono fun last hlast => ?_
      rwa [List.flatMap_cons, ← List.append_assoc]

/-- A symbolic step from a ground term without condition leads to its successors and leaves nothing
open. -/
theorem yields_stepSymbolic_of_ground (hrules : ∀ rule ∈ machine.definition.rewriteRules,
      machine.definition.Direct rule ∧ rule.lhs.Single patterns) :
    (machine.stepSymbolic ⟨term, .trivial⟩).Yields fun step => step.undecided = 0 ∧
      step.remainder = none ∧ Forall₂ (fun result successor =>
        AlikeResults result (successor.rule, successor.state.term) ∧
          successor.state.condition = .trivial)
        (machine.definition.rewrites term) step.successors := by
  have hstart : Takes {} [] := ⟨rfl, .nil⟩
  have hcandidates := fun rule (hmem : rule ∈ machine.definition.candidates term) =>
    hrules rule (Definition.mem_rewriteRules_of_mem_candidates hmem)
  apply Run.Yields.bind (yields_symbolicRules_of_ground hterm hcandidates hstart)
  intro guarded htakes
  rw [List.nil_append] at htakes
  unfold completeStep
  rw [if_neg (by simp [htakes.leavesRemainder_eq_false])]
  refine .of_pure ⟨htakes.undecided, rfl, ?_⟩
  unfold Guarded.successors
  exact forall₂_map_right_iff.2 (htakes.taken.imp fun _ _ htaken => ⟨htaken.1, htaken.2.1⟩)

end Ground

end Machine

end SymbolicRewriting
