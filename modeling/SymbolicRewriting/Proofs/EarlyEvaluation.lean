import Mathlib.Logic.IsEmpty.Basic
import SymbolicRewriting.Proofs.Choices
import SymbolicRewriting.Proofs.Variables
import SymbolicRewriting.Oracle.Syntactic

/-!
Evaluation before instantiation. Evaluating a symbolic term, instantiating its value and evaluating
again gives the value of the instance, unless a call has been answered by a rule that its instance
does not follow: the rules are tried in order, and a rule that may apply to an instance, but does not
yet apply to the call, is passed over.
-/

namespace SymbolicRewriting

open List

variable {σ : Type}

namespace Machine

variable {machine : Machine σ} {θ : Substitution}

/-- The instance binds the variables of the term to the values of the instances of what the call binds
them to, and whatever completes a collection is a collection already. -/
structure Corresponds (machine : Machine σ) (θ : Substitution) (term : Term)
    (subst subst' : Substitution) : Prop where
  value : ∀ v, .var v ∈ term.subterms →
    machine.Instantiates θ ((subst.get? v).getD (.var v)) ((subst'.get? v).getD (.var v))
  frame : ∀ cells v, .collection cells (some v) ∈ term.subterms →
    ∃ more inner result, subst.get? v = some (.collection more inner) ∧
      subst'.get? v = some result ∧ machine.Instantiates θ (.collection more inner) result

theorem Corresponds.child {term child : Term} {subst subst' : Substitution}
    (hcorresponds : machine.Corresponds θ term subst subst') (hchild : child ∈ term.children) :
    machine.Corresponds θ child subst subst' where
  value v hmem := hcorresponds.value v (Term.subterms_subset_of_mem_children hchild hmem)
  frame cells v hmem := hcorresponds.frame cells v (Term.subterms_subset_of_mem_children hchild hmem)

/-- The calls that the two substitutions make of those in the term. -/
def CallsIn (machine : Machine σ) (term : Term) (subst subst' : Substitution)
    (related : Label → List Term → List Term → Prop) : Prop :=
  ∀ label args, .app label args ∈ term.subterms → machine.definition.isFunction label = true →
    ∀ values results, Forall₂ (machine.Builds subst) args values →
      Forall₂ (machine.Builds subst') args results → related label values results

/-- The answer to the first call, when it is instantiated, has the answer to the second as value. -/
def AnswersAgree (machine : Machine σ) (θ : Substitution) (label : Label)
    (args instances : List Term) : Prop :=
  ∀ answer result, machine.Answers label args answer → machine.Answers label instances result →
    machine.Instantiates θ answer result

theorem CallsIn.child {term child : Term} {subst subst' : Substitution}
    {related : Label → List Term → List Term → Prop}
    (hcalls : machine.CallsIn term subst subst' related) (hchild : child ∈ term.children) :
    machine.CallsIn child subst subst' related :=
  fun label args hmem => hcalls label args (Term.subterms_subset_of_mem_children hchild hmem)

section Building

variable [Nonempty σ] (hrepeat : machine.definition.Repeatable)
include hrepeat

/-- What a term builds under corresponding substitutions is related as a value and its instance, if
the calls within it are. -/
theorem Corresponds.instantiates {subst subst' : Substitution} (term : Term)
    (hcorresponds : machine.Corresponds θ term subst subst')
    (hcalls : machine.CallsIn term subst subst' (machine.AnswersAgree θ)) :
    ∀ value result, machine.Builds subst term value → machine.Builds subst' term result →
      machine.Instantiates θ value result := by
  induction term using Term.nestedInduction with
  | token sort token =>
      intro value result hvalue hresult
      have hleft := (builds_token sort token).unique hvalue
      have hright := (builds_token sort token).unique hresult
      refine Instantiates.congr hrepeat ?_ hleft hright
      rw [Instantiates, Term.applySubst_token]
      exact builds_token sort token
  | var v =>
      intro value result hvalue hresult
      have hleft := (builds_var v).unique hvalue
      have hright := (builds_var v).unique hresult
      exact (hcorresponds.value v (Term.self_mem_subterms _)).congr hrepeat hleft hright
  | app label args ih =>
      intro value result hvalue hresult
      have hargs : ∀ arg ∈ args, ∀ value result, machine.Builds subst arg value →
          machine.Builds subst' arg result → machine.Instantiates θ value result :=
        fun arg hmem => ih arg hmem (hcorresponds.child hmem) (hcalls.child hmem)
      cases hlabel : machine.definition.isFunction label with
      | false =>
          obtain ⟨values, hvalues, hleft⟩ := (builds_app_iff hrepeat hlabel).1 hvalue
          obtain ⟨results, hresults, hright⟩ := (builds_app_iff hrepeat hlabel).1 hresult
          have hinstance := (instantiates_app_iff hrepeat hlabel).2
            ⟨results, forall₂_of_forall_mem hargs hvalues hresults, rfl⟩
          exact hinstance.congr hrepeat hleft.symm hright.symm
      | true =>
          obtain ⟨values, hvalues, hleft⟩ := (builds_call_iff hrepeat hlabel).1 hvalue
          obtain ⟨results, hresults, hright⟩ := (builds_call_iff hrepeat hlabel).1 hresult
          exact hcalls label args (Term.self_mem_subterms _) hlabel values results hvalues hresults
            value result hleft hright
  | sequence op items ih =>
      intro value result hvalue hresult
      obtain ⟨values, hvalues, hleft⟩ := (builds_sequence_iff hrepeat).1 hvalue
      obtain ⟨results, hresults, hright⟩ := (builds_sequence_iff hrepeat).1 hresult
      have hitems : ∀ item ∈ items, ∀ value result, machine.Builds subst item value →
          machine.Builds subst' item result → machine.Instantiates θ value result :=
        fun item hmem => ih item hmem (hcorresponds.child hmem) (hcalls.child hmem)
      have hinstances := forall₂_of_forall_mem hitems hvalues hresults
      exact (instantiates_flatten hrepeat hinstances).congr hrepeat hleft.symm hright.symm
  | collection cells frame ih =>
      intro value result hvalue hresult
      obtain ⟨built, hbuilt, hleft⟩ := (builds_collection_iff hrepeat).1 hvalue
      obtain ⟨built', hbuilt', hright⟩ := (builds_collection_iff hrepeat).1 hresult
      have hcontents : ∀ cell ∈ cells, ∀ left right, machine.BuildsCell subst cell left →
          machine.BuildsCell subst' cell right → machine.InstantiatesCell θ left right := by
        intro cell hmem left right hcell hcell'
        have hchild := List.mem_map_of_mem (f := Cell.content) hmem
        exact ⟨hcell.1.symm.trans hcell'.1,
          ih cell hmem (hcorresponds.child hchild) (hcalls.child hchild) _ _ hcell.2 hcell'.2⟩
      have hcells := forall₂_of_forall_mem hcontents hbuilt hbuilt'
      refine Instantiates.congr hrepeat ?_ hleft.symm hright.symm
      cases frame with
      | none =>
          exact (instantiates_collection_iff hrepeat).2
            ⟨built', [], none, hcells, instantiates_collection_nil hrepeat, by rw [List.append_nil]; rfl⟩
      | some v =>
          obtain ⟨more, inner, result, hmore, hget, hinstance⟩ :=
            hcorresponds.frame cells v (Term.self_mem_subterms _)
          rw [Term.frameBinding, Term.frameBinding, Option.bind_some, Option.bind_some, hmore, hget]
          exact instantiates_closeWith hrepeat (some v) hcells hinstance

end Building

/-- The instance of a call follows the call: a hook answers the same literals by a literal, or the call is
left as it is, or both are answered by the same rule, by corresponding matches, and the calls of the right side
are followed in turn. -/
inductive Follows (machine : Machine σ) (θ : Substitution) : Label → List Term → List Term → Prop
  | literal {label : Label} {args instances : List Term} (hook : Hook)
      (hhook : machine.definition.hook? label = some hook) (htokens : ∀ arg ∈ args, arg.IsToken)
      (hliteral : ∀ result, hook.apply args = some result → result.IsToken)
      (hargs : Forall₂ (machine.Instantiates θ) args instances) : Follows machine θ label args instances
  | unanswered {label : Label} {args instances : List Term}
      (hanswers : machine.Answers label args (.app label args))
      (hargs : Forall₂ (machine.Instantiates θ) args instances) : Follows machine θ label args instances
  | rule {label : Label} {args instances : List Term} (rule : Rule) (subst subst' : Substitution)
      (hhook : machine.definition.hook? label = none)
      (hchoice : machine.Chooses label args (some (rule, subst)))
      (hchoice' : machine.Chooses label instances (some (rule, subst')))
      (hcorresponds : machine.Corresponds θ rule.rhs subst subst')
      (hcalls : machine.CallsIn rule.rhs subst subst' (Follows machine θ)) :
      Follows machine θ label args instances

/-- Evaluating a covered term before it is instantiated does not change the value of its instance. -/
def CommutesWith (machine : Machine σ) (θ : Substitution) : Prop :=
  ∀ term, θ.Covers term → ∀ start value next, machine.evaluate term start = .ok value next →
    ∀ start' result next', machine.evaluate (term.applySubst θ) start' = .ok result next' →
      ∀ later, ∃ other last, machine.evaluate (value.applySubst θ) later = .ok other last ∧
        (other == result) = true

/-- Every call on values of covered terms that its instance does not follow has nevertheless been
answered as the instance is. -/
def AnswersInTime (machine : Machine σ) (θ : Substitution) : Prop :=
  ∀ label terms, machine.definition.isFunction label = true → (∀ term ∈ terms, θ.Covers term) →
    ∀ args instances answer result, Forall₂ machine.Evaluates terms args →
      Forall₂ (machine.Instantiates θ) terms instances → machine.Answers label args answer →
        machine.Answers label instances result → ¬machine.Follows θ label args instances →
          ∃ other, machine.Instantiates θ answer other ∧ (other == result) = true

theorem eq_of_forall₂_instantiates_token [Nonempty σ] {args instances : List Term}
    (htokens : ∀ arg ∈ args, arg.IsToken) (hargs : Forall₂ (machine.Instantiates θ) args instances) :
    instances = args := by
  induction hargs with
  | nil => rfl
  | @cons arg result args results hinstance _ ih =>
      obtain ⟨⟨sort, value, rfl⟩, hothers⟩ := List.forall_mem_cons.1 htokens
      rw [ih hothers, eq_of_instantiates_token hinstance]

/-- The standard hooks answer literals by literals. -/
theorem Follows.of_builtin {label : Label} {args instances : List Term} {builtin : Builtin}
    (hhook : machine.definition.hook? label = some builtin.hook) (htokens : ∀ arg ∈ args, arg.IsToken)
    (hargs : Forall₂ (machine.Instantiates θ) args instances) :
    machine.Follows θ label args instances :=
  .literal builtin.hook hhook htokens (fun _ hresult => Builtin.isToken_of_apply htokens hresult) hargs

section Commuting

variable [Nonempty σ] (hrepeat : machine.definition.Repeatable)
include hrepeat

theorem agree_of_alike {label : Label} {args instances : List Term} {answer result : Term}
    (hlabel : machine.definition.isFunction label = true)
    (hargs : Forall₂ (machine.Instantiates θ) args instances)
    (hanswer : answer.Alike (.app label args)) (hresult : machine.Answers label instances result) :
    machine.Instantiates θ answer result :=
  Instantiates.congr hrepeat
    ((instantiates_call_iff hrepeat hlabel).2 ⟨instances, hargs, hresult⟩) hanswer.symm rfl

/-- A call that its instance follows has been answered as the instance is. -/
theorem Follows.agree {label : Label} {args instances : List Term}
    (hfollows : machine.Follows θ label args instances)
    (hlabel : machine.definition.isFunction label = true) :
    machine.AnswersAgree θ label args instances := by
  induction hfollows with
  | @literal label args instances hook hhook htokens hliteral hargs =>
      intro answer result hanswer hresult
      obtain rfl := eq_of_forall₂_instantiates_token htokens hargs
      cases hanswer.answeredBy hrepeat with
      | hook other hother hvalue =>
          obtain rfl := Option.some.inj (hhook.symm.trans hother)
          cases happly : hook.apply instances with
          | none =>
              rw [happly] at hvalue
              exact agree_of_alike hrepeat hlabel hargs hvalue hresult
          | some token =>
              rw [happly] at hvalue
              obtain ⟨sort, value, rfl⟩ := hliteral token happly
              have hsame := hanswer.unique hresult
              refine Instantiates.congr hrepeat ?_ hvalue.symm (hvalue.symm.trans hsame)
              rw [Instantiates, Option.getD_some, Term.applySubst_token]
              exact builds_token sort value
      | rule _ _ hnone _ _ => cases hhook.symm.trans hnone
      | nothing hnone _ _ => cases hhook.symm.trans hnone
  | unanswered hanswers hargs =>
      intro answer result hanswer hresult
      exact agree_of_alike hrepeat hlabel hargs (hanswer.unique hanswers) hresult
  | @rule label args instances rule subst subst' hhook hchoice hchoice' hcorresponds hcalls ih =>
      intro answer result hanswer hresult
      refine hcorresponds.instantiates hrepeat rule.rhs ?_ answer result
        (hanswer.builds hrepeat hhook hchoice) (hresult.builds hrepeat hhook hchoice')
      intro inner terms hmem hinner values results hvalues hresults
      exact ih inner terms hmem hinner values results hvalues hresults hinner

/-- The value that the instance of the value of a term has, up to equality. -/
def Settles (machine : Machine σ) (θ : Substitution) (value result : Term) : Prop :=
  ∃ other, machine.Instantiates θ value other ∧ other.EqualTo result

theorem settles_of_answersInTime (hanswers : machine.AnswersInTime θ) (term : Term)
    (hcovers : θ.Covers term) : ∀ value result, machine.Evaluates term value →
      machine.Instantiates θ term result → machine.Settles θ value result := by
  induction term using Term.nestedInduction with
  | token sort token =>
      intro value result hvalue hresult
      have hsame := (builds_token sort token).unique hvalue
      exact ⟨result, hresult.congr hrepeat hsame rfl, result.beq_refl⟩
  | var v =>
      intro value result hvalue hresult
      have hsame := (builds_var v).unique hvalue
      exact ⟨result, hresult.congr hrepeat hsame rfl, result.beq_refl⟩
  | app label args ih =>
      intro value result hvalue hresult
      have hargs : ∀ arg ∈ args, ∀ value result, machine.Evaluates arg value →
          machine.Instantiates θ arg result → machine.Settles θ value result :=
        fun arg hmem => ih arg hmem (hcovers.child hmem)
      cases hlabel : machine.definition.isFunction label with
      | false =>
          obtain ⟨values, hvalues, hleft⟩ := (builds_app_iff hrepeat hlabel).1 hvalue
          obtain ⟨results, hresults, hright⟩ := (instantiates_app_iff hrepeat hlabel).1 hresult
          obtain ⟨others, hothers, hequal⟩ :=
            exists_of_forall₂_comp (forall₂_of_forall_mem hargs hvalues hresults)
          have hinstance := (instantiates_app_iff hrepeat hlabel).2 ⟨others, hothers, rfl⟩
          exact ⟨.app label others, hinstance.congr hrepeat hleft.symm rfl,
            (Term.equal_app label hequal).congr rfl hright.symm⟩
      | true =>
          obtain ⟨values, hvalues, hleft⟩ := (builds_call_iff hrepeat hlabel).1 hvalue
          obtain ⟨results, hresults, hright⟩ := (instantiates_call_iff hrepeat hlabel).1 hresult
          by_cases hfollows : machine.Follows θ label values results
          · exact ⟨result, hfollows.agree hrepeat hlabel value result hleft hright, result.beq_refl⟩
          · exact hanswers label args hlabel (fun arg hmem => hcovers.child hmem) values results value
              result hvalues hresults hleft hright hfollows
  | sequence op items ih =>
      intro value result hvalue hresult
      obtain ⟨values, hvalues, hleft⟩ := (builds_sequence_iff hrepeat).1 hvalue
      obtain ⟨results, hresults, hright⟩ := (instantiates_sequence_iff hrepeat).1 hresult
      have hitems : ∀ item ∈ items, ∀ value result, machine.Evaluates item value →
          machine.Instantiates θ item result → machine.Settles θ value result :=
        fun item hmem => ih item hmem (hcovers.child hmem)
      obtain ⟨others, hothers, hequal⟩ :=
        exists_of_forall₂_comp (forall₂_of_forall_mem hitems hvalues hresults)
      exact ⟨.flatten op others, (instantiates_flatten hrepeat hothers).congr hrepeat hleft.symm rfl,
        (Term.equal_flatten op hequal).congr rfl hright.symm⟩
  | collection cells frame ih =>
      intro value result hvalue hresult
      obtain ⟨built, hbuilt, hleft⟩ := (evaluates_collection_iff hrepeat).1 hvalue
      obtain ⟨results, others, inner, hresults, hframe, hright⟩ :=
        (instantiates_collection_iff hrepeat).1 hresult
      have hcontents : ∀ cell ∈ cells, ∀ left right, machine.BuildsCell .empty cell left →
          machine.InstantiatesCell θ cell right →
            ∃ middle, machine.InstantiatesCell θ left middle ∧ Term.CellsEqual middle right := by
        intro cell hmem left right hcell hcell'
        have hcontent := hcovers.child (List.mem_map_of_mem hmem)
        obtain ⟨other, hinstance, hequal⟩ := ih cell hmem hcontent _ _ hcell.2 hcell'.2
        exact ⟨⟨left.id, left.name, other⟩, ⟨rfl, hinstance⟩, hcell.1.symm.trans hcell'.1,
          Term.equal_iff_equals.1 hequal⟩
      obtain ⟨middles, hmiddles, hequal⟩ :=
        exists_of_forall₂_comp (forall₂_of_forall_mem hcontents hbuilt hresults)
      have hframed : Forall₂ Term.CellsEqual (middles ++ others) (results ++ others) :=
        rel_append hequal (forall₂_same.2 fun cell _ => ⟨rfl, cell.content.equals_refl⟩)
      have hinstance := (instantiates_collection_iff hrepeat).2
        ⟨middles, others, inner, hmiddles, hframe, rfl⟩
      exact ⟨.collection (middles ++ others) inner, hinstance.congr hrepeat hleft.symm rfl,
        (Term.equal_collection hframed inner).congr rfl hright.symm⟩

end Commuting

/-- Early evaluation is harmless exactly if every call that its instance does not follow has
nevertheless been answered as the instance is. -/
theorem commutesWith_iff (hfresh : machine.definition.WithoutFresh)
    (hhooks : machine.definition.EveryHook Hook.IgnoresIds) (θ : Substitution) :
    machine.CommutesWith θ ↔ machine.AnswersInTime θ := by
  have hrepeat : machine.definition.Repeatable := ⟨hfresh, hhooks⟩
  rcases isEmpty_or_nonempty σ with hempty | hnonempty
  · constructor
    · intro _ _ _ _ _ _ _ _ result _ _ _ _ _
      exact ⟨result, fun start => hempty.elim start.environment, result.beq_refl⟩
    · intro _ _ _ start
      exact hempty.elim start.environment
  · constructor
    · intro hcommutes label terms hlabel hcovers args instances answer result hargs hinstances
        hanswer hresult _
      have hcall := (builds_call_iff hrepeat hlabel).2 ⟨args, hargs, hanswer⟩
      have hinstance := (instantiates_call_iff hrepeat hlabel).2 ⟨instances, hinstances, hresult⟩
      obtain ⟨start, value, next, hvalue, hsame⟩ := hcall.exists_run
      obtain ⟨result', last, hrun, hsame'⟩ := hinstance start
      obtain ⟨other, final, hother, hequal⟩ := hcommutes (.app label terms)
        (Substitution.covers_app hcovers) start value next hvalue start result' last hrun start
      exact ⟨other, Instantiates.congr hrepeat (builds_of_run hrepeat hother) hsame.symm rfl,
        Term.EqualTo.congr hequal rfl hsame'.symm⟩
    · intro hanswers term hcovers start value next hvalue start' result next' hresult later
      obtain ⟨other, hinstance, hequal⟩ := settles_of_answersInTime hrepeat hanswers term hcovers value
        result (builds_of_run hrepeat hvalue) (builds_of_run hrepeat hresult)
      obtain ⟨other', last, hother, halike⟩ := hinstance later
      exact ⟨other', last, hother, hequal.congr halike rfl⟩

/-- The first rule of `f` applies to zero alone, so it is passed over for an unknown integer. -/
def passing : Machine Unit where
  definition := .assemble
    [.symbol ⟨"a", 0, Symbol.top, .constructor⟩, .symbol ⟨"b", 0, Symbol.top, .constructor⟩,
      .symbol ⟨"f", 1, Symbol.top, .function none⟩,
      .rule { lhs := .app "f" [.int 0], rhs := .app "a" [], priority := 10 },
      .rule { lhs := .app "f" [.var ⟨"X", Symbol.int, .plain⟩], rhs := .app "b" [] }]
  oracle := DecisionProcedure.syntactic.toOracle Unit

def unknown : Variable := ⟨"Y", Symbol.int, .plain⟩

def unknownIsZero : Substitution := { bindings := [(unknown, .int 0)] }

/-- The call with the unknown integer is answered by the second rule, its instance by the first. -/
theorem passes_over_zero : ¬passing.CommutesWith unknownIsZero := by
  have hearly : (passing.evaluate (.app "f" [.var unknown])).succeedsWith { environment := () }
      (fun value => (passing.evaluate (value.applySubst unknownIsZero)).succeedsWith { environment := () }
        fun other => !(other == .app "a" [])) = true := by
    decide +kernel
  have hlate : (passing.evaluate ((Term.app "f" [.var unknown]).applySubst unknownIsZero)).succeedsWith
      { environment := () } (fun result => result == .app "a" []) = true := by
    decide +kernel
  intro hcommutes
  obtain ⟨value, next, hvalue, hother⟩ := Run.exists_of_succeedsWith hearly
  obtain ⟨result, next', hresult, ha⟩ := Run.exists_of_succeedsWith hlate
  obtain ⟨other, last, hrun, hdiffers⟩ := Run.exists_of_succeedsWith hother
  obtain ⟨same, final, hsame, hequal⟩ := hcommutes _ (by unfold Substitution.Covers; decide +kernel)
    _ value next hvalue _ result next' hresult { environment := () }
  rw [hrun] at hsame
  cases hsame
  rw [Term.beq_trans hequal ha] at hdiffers
  cases hdiffers

theorem commutesWith_iff_passing :
    passing.definition.WithoutFresh ∧ ¬passing.AnswersInTime unknownIsZero := by
  have hfresh : passing.definition.WithoutFresh := by
    unfold Definition.WithoutFresh
    decide +kernel
  have hhooks : passing.definition.EveryHook Hook.IgnoresIds :=
    (Definition.onlyBuiltins_assemble [] rfl).everyHook Builtin.ignoresIds
  refine ⟨hfresh, fun hanswers => passes_over_zero ?_⟩
  exact (commutesWith_iff hfresh hhooks unknownIsZero).2 hanswers

/-- A ground substitution that respects sorts need not commute with evaluation. -/
theorem not_commutesWith_passing :
    passing.definition.WithoutFresh ∧
      (∀ binding ∈ unknownIsZero.bindings, binding.2.isGround = true ∧
        passing.definition.admits binding.1 binding.2 = .yes) ∧
      ¬passing.CommutesWith unknownIsZero := by
  refine ⟨?_, ?_, passes_over_zero⟩
  · unfold Definition.WithoutFresh
    decide +kernel
  · decide +kernel

end Machine

end SymbolicRewriting
