import SymbolicRewriting.Proofs.Choices
import SymbolicRewriting.Proofs.EqualValues

/-!
The truth values of propositions, and how negations, conjunctions and equalities come by theirs. The
arguments are evaluated first, so a truth value rests on the values of the arguments.
-/

namespace SymbolicRewriting

open List

variable {σ : Type}

namespace Definition

variable {definition : Definition}

/-- Every standard function is declared as such. -/
def HasBuiltins (definition : Definition) : Prop :=
  ∀ signature ∈ Signature.builtins, definition.signature? signature.label = some signature

theorem HasBuiltins.hook? (hbuiltins : definition.HasBuiltins) (builtin : Builtin) :
    definition.hook? builtin.label = some builtin.hook := by
  have hmem : Signature.ofBuiltin builtin ∈ Signature.builtins :=
    List.mem_map.2 ⟨builtin, by cases builtin <;> decide, rfl⟩
  unfold Definition.hook?
  rw [show definition.signature? builtin.label = _ from hbuiltins _ hmem]
  rfl

end Definition

/-! What a truth value of a result says about the arguments of a hook, which may also have none. -/

namespace Builtin

variable {truth : Bool}

theorem asBool_arg_of_notBool {arg : Term}
    (hresult : ((notBool.apply [arg]).getD (.app notBool.label [arg])).asBool = some truth) :
    arg.asBool = some !truth := by
  cases harg : arg.asBool with
  | none =>
      rw [apply, harg] at hresult
      cases hresult
  | some value =>
      rw [apply, harg, Option.map_some, Option.getD_some, Term.asBool_bool] at hresult
      rw [← Option.some.inj hresult, Bool.not_not]

theorem asBool_args_of_andBool {left right : Term}
    (hresult : ((andBool.apply [left, right]).getD (.app andBool.label [left, right])).asBool =
      some truth) :
    (truth = true ∧ left.asBool = some true ∧ right.asBool = some true) ∨
      (truth = false ∧ (left.asBool = some false ∨ right.asBool = some false)) := by
  rw [apply, connective] at hresult
  split at hresult
  · rename_i hfalse
    rw [Option.getD_some, Term.asBool_bool] at hresult
    exact .inr ⟨(Option.some.inj hresult).symm, hfalse⟩
  · rename_i hfalse
    -- the result is the side that is not known to be true
    rw [not_or] at hfalse
    split at hresult
    · rename_i hleft
      cases truth with
      | true => exact .inl ⟨rfl, hleft, hresult⟩
      | false => exact absurd hresult hfalse.2
    · split at hresult
      · rename_i hright
        cases truth with
        | true => exact .inl ⟨rfl, hresult, hright⟩
        | false => exact absurd hresult hfalse.1
      · cases hresult

theorem beq_of_eqTerm {left right : Term}
    (hresult : ((eqTerm.apply [left, right]).getD (.app eqTerm.label [left, right])).asBool =
      some truth) : (left == right) = truth := by
  rw [apply, equality] at hresult
  split at hresult
  · rename_i hequal
    rw [Option.map_some, Option.getD_some, Term.asBool_bool] at hresult
    rw [hequal, ← Option.some.inj hresult]
  · rename_i hunequal
    split at hresult
    · rw [Option.map_some, Option.getD_some, Term.asBool_bool] at hresult
      rw [Bool.eq_false_iff.2 hunequal, ← Option.some.inj hresult]
    · cases hresult

end Builtin

/-! Runs that evaluate an application evaluate its arguments. -/

namespace Machine

variable {machine : Machine σ}

theorem forall₂_hasValue_of_run {terms values : List Term} {start next : RunState σ}
    (hrun : machine.definition.buildTerms machine.call .empty .evaluate terms start =
      .ok values next) : Forall₂ machine.HasValue terms values := by
  induction terms generalizing values start next with
  | nil =>
      obtain ⟨rfl, -⟩ := Run.pure_eq_ok.1 hrun
      exact .nil
  | cons term terms ih =>
      obtain ⟨value, between, hvalue, hrest⟩ := Run.bind_eq_ok.1 hrun
      obtain ⟨others, later, hothers, hpure⟩ := Run.bind_eq_ok.1 hrest
      obtain ⟨rfl, -⟩ := Run.pure_eq_ok.1 hpure
      exact .cons ⟨start, between, hvalue⟩ (ih hothers)

theorem eq_of_call_of_hook {label : Label} {hook : Hook}
    (hhook : machine.definition.hook? label = some hook) {args : List Term} {answer : Term}
    {start next : RunState σ} (hrun : machine.call label args start = .ok answer next) :
    answer = (hook.apply args).getD (.app label args) := by
  unfold Machine.call at hrun
  cases hlimit : machine.config.maxFunctionDepth with
  | zero =>
      rw [hlimit] at hrun
      cases hrun
  | succ levels =>
      rw [hlimit, Definition.callWithin_succ] at hrun
      obtain ⟨-, between, -, hrun⟩ := Run.bind_eq_ok.1 hrun
      rw [hhook] at hrun
      exact (Run.pure_eq_ok.1 hrun).1.symm

/-- The value of a call that is computed by a hook. -/
theorem HasValue.of_hook {label : Label} {hook : Hook}
    (hhook : machine.definition.hook? label = some hook) {args : List Term} {value : Term}
    (hvalue : machine.HasValue (.app label args) value) :
    ∃ values, Forall₂ machine.HasValue args values ∧
      value = (hook.apply values).getD (.app label values) := by
  obtain ⟨start, next, hrun⟩ := hvalue
  obtain ⟨values, between, hvalues, hresult⟩ := Run.bind_eq_ok.1 hrun
  rw [if_pos (Definition.isFunction_of_hook? hhook)] at hresult
  exact ⟨values, forall₂_hasValue_of_run hvalues, eq_of_call_of_hook hhook hresult⟩

theorem HasValue.of_binary_hook {label : Label} {hook : Hook}
    (hhook : machine.definition.hook? label = some hook) {left right value : Term}
    (hvalue : machine.HasValue (.app label [left, right]) value) :
    ∃ first second, machine.HasValue left first ∧ machine.HasValue right second ∧
      value = (hook.apply [first, second]).getD (.app label [first, second]) := by
  obtain ⟨values, hvalues, rfl⟩ := hvalue.of_hook hhook
  obtain ⟨first, others, hfirst, hothers, rfl⟩ := forall₂_cons_left_iff.1 hvalues
  obtain ⟨second, nothing, hsecond, hnothing, rfl⟩ := forall₂_cons_left_iff.1 hothers
  cases hnothing
  exact ⟨first, second, hfirst, hsecond, rfl⟩

/-- Some evaluation of the proposition ends with this truth value. -/
def HasTruth (machine : Machine σ) (proposition : Term) (truth : Bool) : Prop :=
  ∃ value, machine.HasValue proposition value ∧ value.asBool = some truth

/-- A truth value stands for itself. -/
theorem HasTruth.eq_of_asBool {proposition : Term} {truth value : Bool}
    (htruth : machine.HasTruth proposition truth) (hvalue : proposition.asBool = some value) :
    truth = value := by
  obtain ⟨result, ⟨start, next, hrun⟩, hresult⟩ := htruth
  cases proposition with
  | token sort text =>
      obtain ⟨rfl, -⟩ := Run.pure_eq_ok.1 hrun
      exact Option.some.inj (hresult.symm.trans hvalue)
  | var _ | app _ _ | sequence _ _ | collection _ _ => cases hvalue

/-- Equal propositions have the same truth value. -/
theorem RespectsEquality.truth_eq {terms : List Term} (hrespects : machine.RespectsEquality terms)
    {proposition other : Term} (hmem : proposition ∈ terms) (hmem' : other ∈ terms)
    (hequal : proposition.EqualTo other) {truth truth' : Bool}
    (htruth : machine.HasTruth proposition truth) (htruth' : machine.HasTruth other truth') :
    truth = truth' := by
  obtain ⟨value, hvalue, hbool⟩ := htruth
  obtain ⟨value', hvalue', hbool'⟩ := htruth'
  have hsame : value.EqualTo value' :=
    hrespects proposition hmem other hmem' hequal value value' hvalue hvalue'
  exact Option.some.inj (hbool.symm.trans (hsame.asBool_eq.trans hbool'))

variable (hbuiltins : machine.definition.HasBuiltins) {truth : Bool}
include hbuiltins

theorem HasTruth.of_negated {inner : Term} (htruth : machine.HasTruth inner.negated truth) :
    machine.HasTruth inner !truth := by
  obtain ⟨value, hvalue, hbool⟩ := htruth
  obtain ⟨values, hvalues, rfl⟩ := hvalue.of_hook (hbuiltins.hook? .notBool)
  obtain ⟨arg, others, harg, hothers, rfl⟩ := forall₂_cons_left_iff.1 hvalues
  cases hothers
  exact ⟨arg, harg, Builtin.asBool_arg_of_notBool hbool⟩

/-- A conjunction is true if both sides are, and one side is enough to make it false. -/
theorem HasTruth.of_conjoined {left right : Term}
    (htruth : machine.HasTruth (.conjoined left right) truth) :
    (truth = true ∧ machine.HasTruth left true ∧ machine.HasTruth right true) ∨
      (truth = false ∧ (machine.HasTruth left false ∨ machine.HasTruth right false)) := by
  obtain ⟨value, hvalue, hbool⟩ := htruth
  obtain ⟨first, second, hfirst, hsecond, rfl⟩ := hvalue.of_binary_hook (hbuiltins.hook? .andBool)
  rcases Builtin.asBool_args_of_andBool hbool with ⟨rfl, hleft, hright⟩ | ⟨rfl, hleft | hright⟩
  · exact .inl ⟨rfl, ⟨first, hfirst, hleft⟩, ⟨second, hsecond, hright⟩⟩
  · exact .inr ⟨rfl, .inl ⟨first, hfirst, hleft⟩⟩
  · exact .inr ⟨rfl, .inr ⟨second, hsecond, hright⟩⟩

/-- An equality is true or false as the values of its sides are equal or not. -/
theorem HasTruth.of_equal {left right : Term} (htruth : machine.HasTruth (.equal left right) truth) :
    ∃ value value', machine.HasValue left value ∧ machine.HasValue right value' ∧
      (value == value') = truth := by
  obtain ⟨value, hvalue, hbool⟩ := htruth
  obtain ⟨first, second, hfirst, hsecond, rfl⟩ := hvalue.of_binary_hook (hbuiltins.hook? .eqTerm)
  exact ⟨first, second, hfirst, hsecond, Builtin.beq_of_eqTerm hbool⟩

end Machine

end SymbolicRewriting
