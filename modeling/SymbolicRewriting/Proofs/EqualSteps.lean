import SymbolicRewriting.Proofs.EqualEvaluation
import SymbolicRewriting.Proofs.GroundSubjects
import SymbolicRewriting.Proofs.RuleIndexing

/-!
Steps from equal states. As far as nothing is drawn from the counter and no function rule has to choose
among cells, equal states have equal successors, in some order, and are stuck together.
-/

namespace SymbolicRewriting

open List

variable {σ α β α' β' : Type}

namespace Run

/-- Both runs have ended in an error, or both in related values. -/
inductive EndsAlike (same : α → β → Prop) :
    EStateM.Result RewriteError (RunState σ) α → EStateM.Result RewriteError (RunState σ) β → Prop
  | error {error error' : RewriteError} {next next' : RunState σ} :
      EndsAlike same (.error error next) (.error error' next')
  | ok {value : α} {value' : β} {next next' : RunState σ} (hsame : same value value') :
      EndsAlike same (.ok value next) (.ok value' next')

/-- Whatever states they start from, the runs end alike. -/
def Agree (same : α → β → Prop) (run : Run σ α) (other : Run σ β) : Prop :=
  ∀ start start', EndsAlike same (run start) (other start')

namespace Agree

variable {same : α → α' → Prop} {post : β → β' → Prop} {run : Run σ α} {other : Run σ α'}

theorem of_pure {value : α} {value' : α'} (hsame : same value value') :
    Agree same (pure value : Run σ α) (pure value') :=
  fun _ _ => .ok hsame

theorem of_yields {first : α → Prop} {second : α' → Prop} (hrun : run.Yields first)
    (hother : other.Yields second) (hsame : ∀ value value', first value → second value' →
      same value value') : run.Agree same other := by
  intro start start'
  obtain ⟨value, next, hvalue, hfirst⟩ := hrun start
  obtain ⟨value', next', hvalue', hsecond⟩ := hother start'
  rw [hvalue, hvalue']
  exact .ok (hsame value value' hfirst hsecond)

/-- Runs that repeat errors as well as values agree. -/
theorem of_repeatedBy (hrepeated : run.RepeatedBy .ofResults same other) :
    run.Agree same other := by
  intro start start'
  have hends := hrepeated.endsTogether start start'
  generalize run start = result at hends ⊢
  generalize other start' = result' at hends ⊢
  cases hends with
  | ok hsame => exact .ok hsame
  | error => exact .error

theorem bind {continuation : α → Run σ β} {continuation' : α' → Run σ β'}
    (hfirst : run.Agree same other)
    (hsecond : ∀ value value', same value value' →
      (continuation value).Agree post (continuation' value')) :
    (run >>= continuation).Agree post (other >>= continuation') := by
  intro start start'
  have hends := hfirst start start'
  generalize hrun : run start = result at hends
  generalize hother : other start' = result' at hends
  cases hends with
  | error =>
      rw [bind_of_error hrun, bind_of_error hother]
      exact .error
  | ok hsame =>
      rw [bind_of_ok hrun, bind_of_ok hother]
      exact hsecond _ _ hsame _ _

theorem trans {same : α → α → Prop} [IsTrans α same] {run middle other : Run σ α}
    (hfirst : run.Agree same middle) (hsecond : middle.Agree same other) : run.Agree same other := by
  intro start start'
  have hends := hfirst start start'
  have hends' := hsecond start' start'
  generalize run start = result at hends
  generalize middle start' = between at hends hends'
  generalize other start' = result' at hends'
  cases hends with
  | error =>
      cases hends' with
      | error => exact .error
  | ok hsame =>
      cases hends' with
      | ok hsame' => exact .ok (IsTrans.trans _ _ _ hsame hsame')

/-- Two runs that agree with themselves can be done in either order. -/
theorem swap {first : Run σ α} {second : Run σ β} {sameFirst : α → α → Prop}
    {sameSecond : β → β → Prop} {γ : Type} {post : γ → γ → Prop}
    {continuation continuation' : α → β → Run σ γ} (hfirst : first.Agree sameFirst first)
    (hsecond : second.Agree sameSecond second)
    (hrest : ∀ left left' right right', sameFirst left left' → sameSecond right right' →
      (continuation left right).Agree post (continuation' left' right')) :
    (first >>= fun left => second >>= continuation left).Agree post
      (second >>= fun right => first >>= fun left => continuation' left right) := by
  intro start start'
  cases hright : second start' with
  | error error next =>
      rw [bind_of_error hright]
      cases hleft : first start with
      | error error' next' =>
          rw [bind_of_error hleft]
          exact .error
      | ok left between =>
          have hends := hsecond between start'
          rw [hright] at hends
          generalize hagain : second between = result at hends
          cases hends with
          | error =>
              rw [bind_of_ok hleft, bind_of_error hagain]
              exact .error
  | ok right next =>
      rw [bind_of_ok hright]
      have hends := hfirst start next
      generalize hleft : first start = result at hends
      generalize hleft' : first next = result' at hends
      cases hends with
      | error =>
          rw [bind_of_error hleft, bind_of_error hleft']
          exact .error
      | @ok left left' between _ hsame =>
          have hends := hsecond between start'
          rw [hright] at hends
          generalize hagain : second between = result at hends
          cases hends with
          | ok hsame' =>
              rw [bind_of_ok hleft, bind_of_ok hagain, bind_of_ok hleft']
              exact hrest _ _ _ _ hsame hsame' _ _

end Agree

end Run

/-- The results are of the same rule and equal as terms. -/
def ResultsEqual (result other : RuleId × Term) : Prop :=
  result.1 = other.1 ∧ (result.2 == other.2) = true

instance : IsTrans (RuleId × Term) ResultsEqual :=
  ⟨fun _ _ _ hfirst hsecond =>
    ⟨hfirst.1.trans hsecond.1, Term.beq_trans hfirst.2 hsecond.2⟩⟩

/-- The same results as multisets. -/
def SuccessorsEqual (results others : List (RuleId × Term)) : Prop :=
  Multiset.Rel ResultsEqual ↑results ↑others

instance : IsTrans (List (RuleId × Term)) SuccessorsEqual :=
  ⟨fun _ _ _ hfirst hsecond => hfirst.trans _ hsecond⟩

theorem SuccessorsEqual.append {first first' second second' : List (RuleId × Term)}
    (hfirst : SuccessorsEqual first first') (hsecond : SuccessorsEqual second second') :
    SuccessorsEqual (first ++ second) (first' ++ second') :=
  rel_coe_append hfirst hsecond

/-- No rule has fresh variables. -/
def Definition.NoFreshVars (definition : Definition) : Prop :=
  ∀ rule ∈ definition.rewriteRules ++ definition.functionRules, rule.freshVars = []

namespace Machine

variable {machine : Machine σ}

/-- What a match without constraints contributes to the successors. -/
def successorBy (machine : Machine σ) (rule : Rule) (subst : Substitution) :
    Run σ (List (RuleId × Term)) := do
  match ← machine.condition rule subst with
  | .holds => do
      let term ← machine.applyRule rule subst
      pure [(rule.id, term)]
  | _ => pure []

def successorsBy (machine : Machine σ) (rule : Rule) :
    List Substitution → Run σ (List (RuleId × Term))
  | [] => pure []
  | subst :: others => do
      let first ← machine.successorBy rule subst
      let later ← successorsBy machine rule others
      pure (first ++ later)

/-- Matches with constraints are passed over. -/
theorem successorsByMatches_eq (machine : Machine σ) (rule : Rule) (founds : List RuleMatch) :
    machine.successorsByMatches rule founds = machine.successorsBy rule
      ((founds.filter fun found => found.condition.isTrivial).map RuleMatch.subst) := by
  induction founds with
  | nil => rfl
  | cons found others ih =>
      unfold successorsByMatches
      cases htrivial : found.condition.isTrivial with
      | false => simp [htrivial, ih]
      | true =>
          simp only [Bool.not_true, Bool.false_eq_true, if_false, List.filter_cons, htrivial, if_true,
            List.map_cons, successorsBy, successorBy, bind_assoc, ih]
          refine bind_congr fun condition => ?_
          cases condition with
          | holds => simp
          | fails => simp
          | unsettled _ => simp

theorem call_respects {kind : Repetition} (hcongruent : machine.definition.Congruent) :
    Caller.Respects kind machine.call machine.call :=
  Definition.callWithin_respects hcongruent _ _

section Equal

variable (hcongruent : machine.definition.Congruent)
include hcongruent

theorem successorBy_agree {rule : Rule} (hrule : rule.freshVars = []) {subst subst' : Substitution}
    (hsubst : subst.EqualTo subst') :
    (machine.successorBy rule subst).Agree SuccessorsEqual (machine.successorBy rule subst') := by
  have hcall : Caller.Respects .ofResults machine.call machine.call :=
    call_respects hcongruent
  apply Run.Agree.bind (.of_repeatedBy (Definition.condition_respects hcall hsubst rule))
  intro condition condition' hcondition
  cases hcondition with
  | holds =>
      apply Run.Agree.bind (.of_repeatedBy (Definition.buildRight_respects hcall hsubst hrule))
      intro term term' hterm
      exact .of_pure (.cons ⟨rfl, hterm⟩ .zero)
  | fails => exact .of_pure .zero
  | unsettled _ => exact .of_pure .zero

theorem successorsBy_agree {rule : Rule} (hrule : rule.freshVars = [])
    {substs substs' : List Substitution}
    (hsubsts : Forall₂ Substitution.EqualTo substs substs') :
    (machine.successorsBy rule substs).Agree SuccessorsEqual
      (machine.successorsBy rule substs') := by
  induction hsubsts with
  | nil => exact .of_pure .zero
  | cons hfirst _ ih =>
      apply (successorBy_agree hcongruent hrule hfirst).bind
      intro first first' hsame
      apply ih.bind
      intro later later' hlater
      exact .of_pure (hsame.append hlater)

/-- The order of the matches decides the order of the successors only. -/
theorem successorsBy_agree_of_perm {rule : Rule} (hrule : rule.freshVars = [])
    {substs substs' : List Substitution} (hperm : substs.Perm substs') :
    (machine.successorsBy rule substs).Agree SuccessorsEqual
      (machine.successorsBy rule substs') := by
  have hself : ∀ subst, (machine.successorBy rule subst).Agree SuccessorsEqual
      (machine.successorBy rule subst) := fun subst =>
    successorBy_agree hcongruent hrule subst.equalTo_refl
  induction hperm with
  | nil => exact .of_pure .zero
  | cons subst _ ih =>
      apply (hself subst).bind
      intro first first' hsame
      apply ih.bind
      intro later later' hlater
      exact .of_pure (hsame.append hlater)
  | swap subst other substs =>
      have hlater := successorsBy_agree hcongruent hrule
        (forall₂_same.2 fun subst _ => subst.equalTo_refl : Forall₂ _ substs substs)
      simp only [successorsBy, bind_assoc, pure_bind]
      apply (hself other).swap (hself subst)
      intro left left' right right' hleft hright
      apply hlater.bind
      intro later later' hsame
      refine .of_pure ?_
      have hswap : (right' ++ (left' ++ later')).Perm (left' ++ (right' ++ later')) :=
        perm_append_comm_assoc right' left' later'
      unfold SuccessorsEqual
      rw [Multiset.coe_eq_coe.2 hswap]
      exact hleft.append (hright.append hsame)
  | trans _ _ ihfirst ihsecond => exact ihfirst.trans ihsecond

omit hcongruent in
theorem matchRule_agree (rule : Rule) {subject other : Term} (hequal : subject.EqualTo other) :
    (machine.matchRule rule subject).Agree
      (fun results results' =>
        Multiset.Rel Substitution.EqualTo ↑results.concrete ↑results'.concrete)
      (machine.matchRule rule other) := by
  apply Run.Agree.of_yields (machine.yields_matchRule rule subject)
    (machine.yields_matchRule rule other)
  intro results results' hresults hresults'
  rw [hresults, hresults']
  exact Definition.rel_concreteMatches rule.lhs hequal

theorem successorsByRules_agree {rules : List Rule} (hrules : ∀ rule ∈ rules, rule.freshVars = [])
    {subject other : Term} (hequal : subject.EqualTo other) :
    (machine.successorsByRules subject rules).Agree SuccessorsEqual
      (machine.successorsByRules other rules) := by
  induction rules with
  | nil => exact .of_pure .zero
  | cons rule rules ih =>
      obtain ⟨hrule, hothers⟩ := List.forall_mem_cons.1 hrules
      apply (matchRule_agree rule hequal).bind
      intro results results' hresults
      rw [successorsByMatches_eq, successorsByMatches_eq]
      obtain ⟨paired, hperm, hpaired⟩ := rel_coe_iff.1 hresults
      have hfirst := (successorsBy_agree hcongruent hrule hpaired).trans
        (successorsBy_agree_of_perm hcongruent hrule hperm.symm)
      apply hfirst.bind
      intro first first' hsame
      apply (ih hothers).bind
      intro later later' hlater
      exact .of_pure (hsame.append hlater)

/-! A step is stuck if every match of every candidate fails its condition. -/

/-- The condition of the rule is false for the match. -/
def Refuses (machine : Machine σ) (rule : Rule) (subst : Substitution) : Prop :=
  (machine.condition rule subst).Yields fun condition => condition = .fails

theorem Refuses.congr {rule : Rule} {subst subst' : Substitution} (hsubst : subst.EqualTo subst')
    (hrefuses : machine.Refuses rule subst) : machine.Refuses rule subst' := by
  have hcall : Caller.Respects .ofValues machine.call machine.call := call_respects hcongruent
  intro start
  obtain ⟨condition, next, hcondition, rfl⟩ := hrefuses start
  obtain ⟨condition', next', hcondition', hsame⟩ :=
    (Definition.condition_respects hcall hsubst rule).exists_of_eq_ok hcondition start
  cases hsame with
  | fails => exact ⟨_, next', hcondition', rfl⟩

omit hcongruent in
/-- The matches of one rule never make a step stuck; that is left to the end of the rules. -/
theorem stepByMatches_ne_stuck (rule : Rule) (founds : List RuleMatch) :
    (machine.stepByMatches rule founds).Ensures fun outcome => outcome ≠ some .stuck := by
  induction founds with
  | nil => exact .of_pure (by simp)
  | cons found others ih =>
      unfold stepByMatches
      split
      · exact .of_pure (by simp)
      · apply Run.Ensures.bind_of_forall
        intro condition
        cases condition with
        | fails => exact ih
        | holds =>
            apply Run.Ensures.bind_of_forall
            intro term
            apply Run.Ensures.bind_of_forall
            intro _
            exact .of_pure (by simp)
        | unsettled _ => exact .of_pure (by simp)

omit hcongruent in
/-- Matches on a ground term need no constraint, and none is undecided. -/
theorem yields_matchRule_of_isGround {subject : Term} (hground : subject.isGround = true)
    (rule : Rule) : (machine.matchRule rule subject).Yields fun results =>
      results.undecided = 0 ∧ results.found.toList =
        (machine.definition.concreteMatches rule.lhs subject).map fun subst => ⟨subst, .trivial⟩ :=
  machine.yields_matchRuleUnder_of_trivial
    (Definition.undecided_matchPattern_of_isGround hground rule.lhs)
    (fun _ hmem => Definition.isTrivial_of_mem_found_isGround hground hmem) .trivial

end Equal

end Machine

namespace Definition

theorem candidates_eq_of_equalTo (definition : Definition) {subject other : Term}
    (hequal : subject.EqualTo other) : definition.candidates subject = definition.candidates other := by
  have hmatch : mayMatchTop subject = mayMatchTop other := by
    funext rule
    cases hequal.sameForm <;> rfl
  rw [candidates_eq_filter, candidates_eq_filter, hmatch]

theorem NoFreshVars.withoutFresh {definition : Definition} (hfresh : definition.NoFreshVars) :
    definition.WithoutFresh :=
  fun rule hmem => hfresh rule (List.mem_append_right _ hmem)

theorem NoFreshVars.candidates {definition : Definition} (hfresh : definition.NoFreshVars)
    (subject : Term) : ∀ rule ∈ definition.candidates subject, rule.freshVars = [] :=
  fun rule hmem => hfresh rule (List.mem_append_left _ (mem_rewriteRules_of_mem_candidates hmem))

end Definition

namespace Machine

variable {machine : Machine σ}

theorem successors_agree (hfresh : machine.definition.NoFreshVars)
    (hcongruent : machine.definition.Congruent) {subject other : Term}
    (hequal : subject.EqualTo other) :
    (machine.successors subject).Agree SuccessorsEqual (machine.successors other) := by
  unfold successors
  rw [← machine.definition.candidates_eq_of_equalTo hequal]
  exact successorsByRules_agree hcongruent (hfresh.candidates subject) hequal

end Machine

namespace Lamps

def lamp : Variable := ⟨"X", Symbol.string, .plain⟩

def others : Variable := ⟨"REST", Symbol.top, .rest⟩

/-- Some lamp that is off and not broken is lit, whatever the others are. -/
def machine : Machine Unit where
  definition := .assemble (Signature.builtins.map .symbol ++
    [.symbol ⟨"lit", 1, Symbol.top, .function none⟩,
      .rule { lhs := .app "lit" [.var lamp], rhs := .app "on" [.var lamp] },
      .rule
        { lhs := .collection [⟨0, "lamp", .app "off" [.var lamp]⟩] (some others)
          rhs := .collection [⟨0, "lamp", .app "lit" [.var lamp]⟩] (some others)
          requires := some (.app Builtin.neTerm.label [.var lamp, .string "broken"]) }])
  oracle := DecisionProcedure.syntactic.toOracle Unit

end Lamps

end SymbolicRewriting
