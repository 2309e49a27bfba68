import SymbolicRewriting.Proofs.Instances

/-!
What answers a call: its hook, the first rule that applies to it, or nothing.
-/

namespace SymbolicRewriting

open List

variable {σ : Type}

namespace Builtin

theorem isToken_of_onInts {args : List Term} {operation : Int → Int → Option Term}
    (hoperation : ∀ left right result, operation left right = some result → result.IsToken)
    {result : Term} (hresult : onInts args operation = some result) : result.IsToken := by
  rcases args with _ | ⟨left, _ | ⟨right, _ | ⟨third, others⟩⟩⟩
  · cases hresult
  · cases hresult
  · obtain ⟨leftValue, -, hrest⟩ := Option.bind_eq_some_iff.1 hresult
    obtain ⟨rightValue, -, hvalue⟩ := Option.bind_eq_some_iff.1 hrest
    exact hoperation leftValue rightValue result hvalue
  · cases hresult

theorem isToken_or_mem_of_connective {decisive : Bool} {args : List Term} {result : Term}
    (hresult : connective decisive args = some result) : result.IsToken ∨ result ∈ args := by
  unfold connective at hresult
  split at hresult
  · split at hresult
    · cases hresult
      exact .inl (isToken_bool decisive)
    · split at hresult
      · cases hresult
        exact .inr (by simp)
      · split at hresult
        · cases hresult
          exact .inr (by simp)
        · cases hresult
  · cases hresult

theorem isToken_of_concatenation {args : List Term} {result : Term}
    (hresult : concatenation args = some result) : result.IsToken := by
  unfold concatenation at hresult
  split at hresult
  · split at hresult
    · cases hresult
      exact ⟨_, _, rfl⟩
    · cases hresult
  · cases hresult

/-- A builtin computes a token or hands on an argument. -/
theorem isToken_or_mem_of_apply {builtin : Builtin} {args : List Term} {result : Term}
    (hresult : builtin.apply args = some result) : result.IsToken ∨ result ∈ args := by
  cases builtin with
  | addInt | subInt | mulInt =>
      exact .inl (isToken_of_onInts (fun _ _ _ => isToken_of_intResult) hresult)
  | divInt => exact .inl (isToken_of_onInts (fun _ _ _ => isToken_of_quotient) hresult)
  | modInt => exact .inl (isToken_of_onInts (fun _ _ _ => isToken_of_remainder) hresult)
  | ltInt | leInt | gtInt | geInt | eqInt =>
      refine .inl (isToken_of_onInts (fun left right result hcompare => ?_) hresult)
      cases hcompare
      exact isToken_bool _
  | eqTerm | neTerm =>
      obtain ⟨value, -, rfl⟩ := Option.map_eq_some_iff.1 hresult
      exact .inl (isToken_bool _)
  | notBool =>
      unfold apply at hresult
      dsimp only at hresult
      split at hresult
      · obtain ⟨value, -, rfl⟩ := Option.map_eq_some_iff.1 hresult
        exact .inl (isToken_bool _)
      · cases hresult
  | andBool | orBool => exact isToken_or_mem_of_connective hresult
  | concatString => exact .inl (isToken_of_concatenation hresult)
  | intToString =>
      unfold apply at hresult
      dsimp only at hresult
      split at hresult
      · obtain ⟨value, -, rfl⟩ := Option.map_eq_some_iff.1 hresult
        exact .inl ⟨_, _, rfl⟩
      · cases hresult

theorem isToken_of_apply {builtin : Builtin} {args : List Term}
    (hargs : ∀ arg ∈ args, arg.IsToken) {result : Term}
    (hresult : builtin.apply args = some result) : result.IsToken :=
  (isToken_or_mem_of_apply hresult).elim id (hargs result)

end Builtin

theorem Definition.callWithin_succ (definition : Definition) (limit levels : Nat) (label : Label)
    (args : List Term) :
    (definition.callWithin limit (levels + 1) label args : Run σ Term) = (do
      Run.record Metrics.recordFunctionEval
      match definition.hook? label with
      | some hook => pure ((hook.apply args).getD (.app label args))
      | none => definition.applyFunctionRules (definition.callWithin limit levels) label args) :=
  rfl

namespace Machine

variable {machine : Machine σ}

/-- The rule that applies to a call first, and the match by which it does. -/
def Chooses (machine : Machine σ) (label : Label) (args : List Term)
    (choice : Option (Rule × Substitution)) : Prop :=
  (machine.definition.firstApplicable machine.call (.app label args)
    (machine.definition.functionRulesOf label)).Yields (Definition.ChoiceAlike choice)

inductive AnsweredBy (machine : Machine σ) (label : Label) (args : List Term) (answer : Term) : Prop
  | hook (hook : Hook) (hhook : machine.definition.hook? label = some hook)
      (hanswer : answer.Alike ((hook.apply args).getD (.app label args)))
  | rule (rule : Rule) (subst : Substitution) (hhook : machine.definition.hook? label = none)
      (hchoice : machine.Chooses label args (some (rule, subst)))
      (hanswer : machine.Builds subst rule.rhs answer)
  | nothing (hhook : machine.definition.hook? label = none) (hchoice : machine.Chooses label args none)
      (hanswer : answer.Alike (.app label args))

theorem Answers.unique [Nonempty σ] {label : Label} {args : List Term} {answer other : Term}
    (hanswer : machine.Answers label args answer) (hother : machine.Answers label args other) :
    answer.Alike other := by
  obtain ⟨result, halike, halike'⟩ := hanswer.exists_both hother
  exact halike.trans halike'.symm

theorem Chooses.unique [Nonempty σ] {label : Label} {args : List Term}
    {choice other : Option (Rule × Substitution)} (hchoice : machine.Chooses label args choice)
    (hother : machine.Chooses label args other) : Definition.ChoiceAlike choice other := by
  obtain ⟨result, halike, halike'⟩ := hchoice.exists_both hother
  exact Eq.trans halike (Eq.symm halike')

variable (hrepeat : machine.definition.Repeatable)
include hrepeat

/-- A substitution that differs in identities alone builds the same values. -/
theorem Builds.congr_subst {subst subst' : Substitution} {term value : Term}
    (hbuilds : machine.Builds subst term value) (hsubst : subst.Alike subst') :
    machine.Builds subst' term value := by
  intro start
  obtain ⟨result, next, hresult, halike⟩ := hbuilds start
  obtain ⟨result', next', hresult', hsame⟩ :=
    (Definition.buildTerm_repeatedBy (call_repeatedBy hrepeat) hsubst .evaluate .evaluate term term
      rfl).exists_of_eq_ok hresult start
  exact ⟨result', next', hresult', halike.trans hsame⟩

theorem answeredBy_of_run {label : Label} {args : List Term} {answer : Term}
    {start next : RunState σ} (hrun : machine.call label args start = .ok answer next) :
    machine.AnsweredBy label args answer := by
  unfold Machine.call at hrun
  cases hlimit : machine.config.maxFunctionDepth with
  | zero =>
      rw [hlimit] at hrun
      cases hrun
  | succ levels =>
      have hcaller : Caller.RepeatedBy .ofValues
          (machine.definition.callWithin (levels + 1) levels) machine.call := by
        unfold Machine.call
        rw [hlimit]
        exact Definition.callWithin_repeatedBy hrepeat _ (Nat.le_succ levels) False.elim
      rw [hlimit, Definition.callWithin_succ] at hrun
      obtain ⟨-, between, -, hrun⟩ := Run.bind_eq_ok.1 hrun
      cases hhook : machine.definition.hook? label with
      | some hook =>
          rw [hhook] at hrun
          obtain ⟨rfl, -⟩ := Run.pure_eq_ok.1 hrun
          exact .hook hook hhook rfl
      | none =>
          rw [hhook] at hrun
          obtain ⟨choice, chosen, hchoice, hrun⟩ := Run.bind_eq_ok.1 hrun
          have hchooses : machine.Chooses label args choice :=
            (Definition.firstApplicable_repeatedBy hcaller rfl _).yields hchoice
          cases choice with
          | none =>
              obtain ⟨rfl, -⟩ := Run.pure_eq_ok.1 hrun
              exact .nothing hhook hchooses rfl
          | some found =>
              obtain ⟨rule, subst⟩ := found
              have hmem := Definition.firstApplicable_mem _ _ _ _ _ hchoice rule subst rfl
              change machine.definition.buildRight _ rule subst chosen = .ok answer next at hrun
              have hrule := hrepeat.withoutFresh rule (List.mem_filter.1 hmem).1
              rw [Definition.buildRight_of_freshVars_eq_nil hrule] at hrun
              have hbuilds : machine.Builds subst rule.rhs answer :=
                (Definition.buildTerm_repeatedBy hcaller rfl .instantiate .evaluate rule.rhs rule.rhs
                  rfl).yields hrun
              exact .rule rule subst hhook hchooses hbuilds

theorem Answers.answeredBy [Nonempty σ] {label : Label} {args : List Term} {answer : Term}
    (hanswers : machine.Answers label args answer) : machine.AnsweredBy label args answer := by
  obtain ⟨start, result, next, hrun, halike⟩ := hanswers.exists_run
  cases answeredBy_of_run hrepeat hrun with
  | hook hook hhook hanswer => exact .hook hook hhook (halike.trans hanswer)
  | rule rule subst hhook hchoice hanswer =>
      exact .rule rule subst hhook hchoice (hanswer.congr hrepeat rfl halike.symm)
  | nothing hhook hchoice hanswer => exact .nothing hhook hchoice (halike.trans hanswer)

/-- A call that has no hook is answered by the right side of the rule that applies to it. -/
theorem Answers.builds [Nonempty σ] {label : Label} {args : List Term} {answer : Term}
    (hanswers : machine.Answers label args answer)
    (hhook : machine.definition.hook? label = none) {rule : Rule} {subst : Substitution}
    (hchoice : machine.Chooses label args (some (rule, subst))) :
    machine.Builds subst rule.rhs answer := by
  cases hanswers.answeredBy hrepeat with
  | hook hook hsome _ =>
      rw [hhook] at hsome
      cases hsome
  | rule other subst' _ hother hbuilds =>
      obtain ⟨rfl, hsubst⟩ := Prod.mk.inj (Option.some.inj (hother.unique hchoice))
      exact hbuilds.congr_subst hrepeat hsubst
  | nothing _ hnone _ => cases hnone.unique hchoice

end Machine

end SymbolicRewriting
