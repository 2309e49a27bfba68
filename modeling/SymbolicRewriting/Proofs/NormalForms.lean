import SymbolicRewriting.Oracle.Silent
import SymbolicRewriting.Proofs.BuiltTerms
import SymbolicRewriting.Proofs.EqualSteps
import SymbolicRewriting.Proofs.EqualValues

/-!
Normal forms. What evaluation ends with is normal: each call in it is one that nothing answers, and its
sequences are flat. A normal term is its own value, to the last identity, and a rule whose match binds
normal terms has a normal result. Equality of terms forgets the order of cells, by which a function rule
can choose its match, so a term may be equal to its value and still not be normal.
-/

namespace SymbolicRewriting

open List

variable {σ : Type}

namespace Term

theorem isSequenceOver_withoutIds (op : Label) (term : Term) :
    isSequenceOver op term.withoutIds = isSequenceOver op term := by
  cases term <;> rfl

theorem EqualTo.isSequenceOver_eq {op : Label} {left right : Term} (hequal : left.EqualTo right) :
    left.isSequenceOver op = right.isSequenceOver op := by
  cases hequal.sameForm <;> rfl

end Term

namespace Machine

variable {machine : Machine σ}

/-- The caller that some levels of nesting are left to. -/
def callWithin (machine : Machine σ) (levels : Nat) : Caller σ :=
  machine.definition.callWithin machine.config.maxFunctionDepth levels

/-- Nothing answers the call: its hook has no result, or none of its rules applies within the levels of
nesting that are left for their conditions. -/
inductive Unanswered (machine : Machine σ) (label : Label) (args : List Term) : Prop
  | hook {levels : Nat} (hdepth : machine.config.maxFunctionDepth = levels + 1) {hook : Hook}
      (hhook : machine.definition.hook? label = some hook) (hnone : hook.apply args = none)
  | rules {levels : Nat} (hdepth : machine.config.maxFunctionDepth = levels + 1)
      (hhook : machine.definition.hook? label = none)
      (hnone : (machine.definition.firstApplicable (machine.callWithin levels) (.app label args)
        (machine.definition.functionRulesOf label)).Yields fun choice => choice = none)

/-- There is nothing to evaluate at the root of the term. -/
def Irreducible (machine : Machine σ) : Term → Prop
  | .app label args => machine.definition.isFunction label = true → machine.Unanswered label args
  | .sequence op items => items.any (Term.isSequenceOver op) = false
  | _ => True

/-- There is nothing to evaluate anywhere in the term. -/
abbrev Normal (machine : Machine σ) (term : Term) : Prop :=
  term.Everywhere machine.Irreducible

theorem composable_irreducible : Composable machine.Irreducible where
  token _ _ := True.intro
  var _ := True.intro
  flatten op items hitems := by
    rw [Term.flatten_eq]
    refine List.any_eq_false.2 fun part hpart => ?_
    obtain ⟨item, hmem, hitem⟩ := List.mem_flatMap.1 hpart
    cases hsequence : item.isSequenceOver op with
    | false =>
        rw [Term.itemsOf_of_not_isSequenceOver hsequence, List.mem_singleton] at hitem
        rw [hitem, hsequence]
        exact Bool.false_ne_true
    | true =>
        obtain ⟨parts, rfl⟩ := Term.exists_of_isSequenceOver hsequence
        rw [Term.itemsOf_sequence] at hitem
        have hflat : parts.any (Term.isSequenceOver op) = false := (hitems _ hmem).self
        exact List.any_eq_false.1 hflat part hitem
  collection _ _ := True.intro

/-! A normal term is its own value. -/

theorem Unanswered.yields_call {label : Label} {args : List Term}
    (hunanswered : machine.Unanswered label args) :
    (machine.call label args).Yields fun value => value = .app label args := by
  unfold Machine.call
  cases hunanswered with
  | @hook levels hdepth hook hhook hnone =>
      nth_rewrite 2 [hdepth]
      rw [Definition.callWithin_succ, hhook]
      apply Run.Yields.bind (Run.yields_record _)
      intro _ _
      apply Run.Yields.of_pure
      rw [hnone]
      rfl
  | @rules levels hdepth hhook hnone =>
      nth_rewrite 2 [hdepth]
      rw [Definition.callWithin_succ, hhook]
      apply Run.Yields.bind (Run.yields_record _)
      intro _ _
      apply Run.Yields.bind hnone
      rintro _ rfl
      exact .of_pure rfl

end Machine

namespace Definition

variable {definition : Definition} {call : Caller σ}

theorem yields_buildTerms_self {subst : Substitution} {mode : BuildMode} {terms : List Term}
    (hterms : ∀ term ∈ terms,
      (definition.buildTerm call subst mode term).Yields fun value => value = term) :
    (definition.buildTerms call subst mode terms).Yields fun values => values = terms := by
  induction terms with
  | nil => exact .of_pure rfl
  | cons term terms ih =>
      obtain ⟨hfirst, hothers⟩ := List.forall_mem_cons.1 hterms
      apply Run.Yields.bind hfirst
      rintro _ rfl
      apply Run.Yields.bind (ih hothers)
      rintro _ rfl
      exact .of_pure rfl

/-- Evaluation keeps the identity of each cell. -/
theorem yields_buildCells_self {subst : Substitution} {cells : List (Cell Term)}
    (hcells : ∀ cell ∈ cells, (definition.buildTerm call subst .evaluate cell.content).Yields
      fun value => value = cell.content) :
    (definition.buildCells call subst .evaluate cells).Yields fun built => built = cells := by
  induction cells with
  | nil => exact .of_pure rfl
  | cons cell cells ih =>
      obtain ⟨hfirst, hothers⟩ := List.forall_mem_cons.1 hcells
      apply Run.Yields.bind hfirst
      rintro _ rfl
      apply Run.Yields.bind (ih hothers)
      rintro _ rfl
      exact .of_pure rfl

end Definition

namespace Machine

variable {machine : Machine σ}

theorem Normal.yields_evaluate {term : Term} (hnormal : machine.Normal term) :
    (machine.evaluate term).Yields fun value => value = term := by
  induction term using Term.nestedInduction with
  | token sort value => exact .of_pure rfl
  | var v => exact .of_pure rfl
  | app label args ih =>
      have hargs := fun arg hmem => ih arg hmem (hnormal.children arg hmem)
      apply Run.Yields.bind (Definition.yields_buildTerms_self hargs)
      rintro _ rfl
      split
      · rename_i hlabel
        exact (hnormal.self hlabel).yields_call
      · exact .of_pure rfl
  | sequence op items ih =>
      have hitems := fun item hmem => ih item hmem (hnormal.children item hmem)
      have hflat : items.any (Term.isSequenceOver op) = false := hnormal.self
      apply Run.Yields.bind (Definition.yields_buildTerms_self hitems)
      rintro _ rfl
      apply Run.Yields.of_pure
      rw [Term.flatten, if_neg (by simp [hflat])]
  | collection cells frame ih =>
      have hcells := fun cell hmem =>
        ih cell hmem (hnormal.children cell.content (List.mem_map_of_mem hmem))
      apply Run.Yields.bind (Definition.yields_buildCells_self hcells)
      rintro _ rfl
      apply Run.Yields.of_pure
      cases frame <;> rfl

/-! What evaluation ends with is normal. -/

section Hooked

variable (hrepeat : machine.definition.Repeatable)
  (hkeeps : machine.definition.EveryHook (Hook.Keeps · machine.Irreducible))
include hrepeat hkeeps

/-- By induction on the levels of nesting: a call that is kept has been tried with fewer levels than are
left to a call at the root, and those find no other rule. -/
theorem normal_callWithin {levels : Nat} (hle : levels ≤ machine.config.maxFunctionDepth)
    (label : Label) {args : List Term} (hargs : ∀ arg ∈ args, machine.Normal arg) :
    (machine.callWithin levels label args).Ensures machine.Normal := by
  induction levels generalizing label args with
  | zero =>
      intro start value next hrun
      cases hrun
  | succ levels ih =>
      obtain ⟨most, hdepth⟩ : ∃ most, machine.config.maxFunctionDepth = most + 1 :=
        ⟨machine.config.maxFunctionDepth - 1, by omega⟩
      refine Definition.ensures_callWithin_succ composable_irreducible hkeeps hargs
        (fun hook hhook happly _ => .hook hdepth hhook happly) (fun rule hmem subst hsubst => ?_)
          fun hhook start choice next hrun hnone _ => ?_
      · have hfresh := hrepeat.withoutFresh rule (List.mem_of_mem_filter hmem)
        rw [Definition.buildRight_of_freshVars_eq_nil hfresh]
        refine Definition.ensures_buildTerm composable_irreducible hsubst
          fun inner _ _ built _ hbuilt => ?_
        split
        · exact ih (by omega) inner hbuilt
        · rename_i hlabel
          exact fun hfunction => absurd hfunction hlabel
      · subst hnone
        have hcaller : Caller.RepeatedBy .ofValues (machine.callWithin levels)
            (machine.callWithin most) :=
          Definition.callWithin_repeatedBy hrepeat _ (by omega) False.elim
        have hyields := (Definition.firstApplicable_repeatedBy hcaller
          (rfl : (Term.app label args).Alike _) _).yields hrun
        exact .rules hdepth hhook (hyields.mono fun choice halike =>
          Option.map_eq_none_iff.1 (Eq.symm halike))

/-- Under normal bindings the value of any term is normal. -/
theorem normal_buildTerm {subst : Substitution} (hsubst : subst.Everywhere machine.Irreducible)
    (mode : BuildMode) (term : Term) :
    (machine.definition.buildTerm machine.call subst mode term).Ensures machine.Normal := by
  refine Definition.ensures_buildTerm composable_irreducible hsubst fun label _ _ built _ hbuilt => ?_
  split
  · exact normal_callWithin hrepeat hkeeps (le_refl _) label hbuilt
  · rename_i hlabel
    exact fun hfunction => absurd hfunction hlabel

theorem normal_evaluate (term : Term) : (machine.evaluate term).Ensures machine.Normal :=
  normal_buildTerm hrepeat hkeeps Substitution.everywhere_empty .evaluate term

theorem normal_applyRule {rule : Rule} (hrule : rule.freshVars = []) {subst : Substitution}
    (hsubst : subst.Everywhere machine.Irreducible) :
    (machine.applyRule rule subst).Ensures machine.Normal := by
  unfold applyRule
  rw [Definition.buildRight_of_freshVars_eq_nil hrule]
  exact normal_buildTerm hrepeat hkeeps hsubst .instantiate rule.rhs

end Hooked

/-! A term that is equal to a normal one is normal as well, as far as its calls are not answered by the
order of cells. -/

theorem normal_app_iff {label : Label} {args : List Term} :
    machine.Normal (.app label args) ↔
      (machine.definition.isFunction label = true → machine.Unanswered label args) ∧
        ∀ arg ∈ args, machine.Normal arg :=
  Term.everywhere_iff

theorem normal_sequence_iff {op : Label} {items : List Term} :
    machine.Normal (.sequence op items) ↔
      items.any (Term.isSequenceOver op) = false ∧ ∀ item ∈ items, machine.Normal item :=
  Term.everywhere_iff

theorem normal_collection_iff {cells : List (Cell Term)} {frame : Option Variable} :
    machine.Normal (.collection cells frame) ↔ ∀ cell ∈ cells, machine.Normal cell.content :=
  Term.everywhere_collection_iff composable_irreducible

section Alike

variable (hrepeat : machine.definition.Repeatable)
include hrepeat

theorem Unanswered.congr_of_alike {label : Label} {args args' : List Term}
    (hunanswered : machine.Unanswered label args) (hargs : Term.AlikeAll args args') :
    machine.Unanswered label args' := by
  cases hunanswered with
  | @hook levels hdepth hook hhook hnone =>
      have hsame := hrepeat.ignoresIds label hook hhook args args' hargs
      rw [hnone] at hsame
      exact .hook hdepth hhook (Option.map_eq_none_iff.1 hsame.symm)
  | @rules levels hdepth hhook hnone =>
      have hcaller : Caller.RepeatedBy .ofValues (machine.callWithin levels)
          (machine.callWithin levels) :=
        Definition.callWithin_repeatedBy hrepeat _ (le_refl _) False.elim
      have hrepeated : (machine.definition.firstApplicable (machine.callWithin levels)
          (.app label args) (machine.definition.functionRulesOf label)).RepeatedBy .ofValues
            Definition.ChoiceAlike (machine.definition.firstApplicable (machine.callWithin levels)
              (.app label args') (machine.definition.functionRulesOf label)) :=
        Definition.firstApplicable_repeatedBy hcaller (Term.alike_app hargs) _
      refine .rules hdepth hhook ((hrepeated.yields_of_yields hnone).mono ?_)
      rintro choice' ⟨_, rfl, halike⟩
      exact Option.map_eq_none_iff.1 (Eq.symm halike)

theorem normal_withoutIds_iff {term : Term} :
    machine.Normal term.withoutIds ↔ machine.Normal term := by
  induction term using Term.nestedInduction with
  | token _ _ | var _ => exact Iff.rfl
  | app label args ih =>
      have hsame : Term.AlikeAll (args.map Term.withoutIds) args := by
        simp [Term.AlikeAll]
      rw [Term.withoutIds, Term.withoutIdsAll_eq_map, normal_app_iff, normal_app_iff,
        List.forall_mem_map]
      refine and_congr (imp_congr_right fun _ => ⟨?_, ?_⟩) (forall₂_congr ih)
      · exact fun hunanswered => hunanswered.congr_of_alike hrepeat hsame
      · exact fun hunanswered => hunanswered.congr_of_alike hrepeat hsame.symm
  | sequence op items ih =>
      rw [Term.withoutIds, Term.withoutIdsAll_eq_map, normal_sequence_iff, normal_sequence_iff,
        List.forall_mem_map]
      refine and_congr ?_ (forall₂_congr ih)
      rw [List.any_map, Function.comp_def]
      simp only [Term.isSequenceOver_withoutIds]
  | collection cells frame ih =>
      rw [Term.withoutIds, Term.withoutIdsCells_eq_map, normal_collection_iff,
        normal_collection_iff, List.forall_mem_map]
      exact forall₂_congr ih

theorem Normal.congr_of_alike {term other : Term} (hnormal : machine.Normal term)
    (halike : term.Alike other) : machine.Normal other := by
  rw [← normal_withoutIds_iff hrepeat, ← halike, normal_withoutIds_iff hrepeat]
  exact hnormal

end Alike

section Equal

variable (hcongruent : machine.definition.Congruent)
include hcongruent

theorem Unanswered.congr_of_equalTo {label : Label} {args args' : List Term}
    (hunanswered : machine.Unanswered label args) (hargs : Forall₂ Term.EqualTo args args') :
    machine.Unanswered label args' := by
  cases hunanswered with
  | @hook levels hdepth hook hhook hnone =>
      refine .hook hdepth hhook ?_
      obtain ⟨-, hnone'⟩ | ⟨result, -, hresult, -⟩ :=
        hcongruent.respectsEquality label hook hhook args args' hargs
      · exact hnone'
      · rw [hnone] at hresult
        cases hresult
  | @rules levels hdepth hhook hnone =>
      have hcaller : Caller.Respects .ofValues (machine.callWithin levels)
          (machine.callWithin levels) :=
        Definition.callWithin_respects hcongruent _ levels
      have hrespects : (machine.definition.firstApplicable (machine.callWithin levels)
          (.app label args) (machine.definition.functionRulesOf label)).RepeatedBy .ofValues
            ChoicesAgree (machine.definition.firstApplicable (machine.callWithin levels)
              (.app label args') (machine.definition.functionRulesOf label)) :=
        Definition.firstApplicable_respects hcaller (Term.equal_app label hargs)
          fun rule hmem => hcongruent.ordered rule (List.mem_of_mem_filter hmem)
      refine .rules hdepth hhook ((hrespects.yields_of_yields hnone).mono ?_)
      rintro choice' ⟨_, rfl, ⟨-, hnone'⟩ | ⟨_, _, _, hsome, -⟩⟩
      · exact hnone'
      · cases hsome

theorem Normal.congr_of_equalTo {term other : Term} (hnormal : machine.Normal term)
    (hequal : term.EqualTo other) : machine.Normal other := by
  induction term using Term.nestedInduction generalizing other with
  | token sort value =>
      cases hequal.sameForm
      exact hnormal
  | var v =>
      cases hequal.sameForm
      exact hnormal
  | app label args ih =>
      obtain ⟨hself, hargs⟩ := normal_app_iff.1 hnormal
      cases hequal.sameForm with
      | app _ hequals =>
          refine normal_app_iff.2
            ⟨fun hlabel => (hself hlabel).congr_of_equalTo hcongruent hequals, fun other hmem => ?_⟩
          obtain ⟨arg, harg, hsame⟩ := exists_mem_of_forall₂ hequals hmem
          exact ih arg harg (hargs arg harg) hsame
  | sequence op items ih =>
      obtain ⟨hflat, hitems⟩ := normal_sequence_iff.1 hnormal
      cases hequal.sameForm with
      | sequence _ hequals =>
          refine normal_sequence_iff.2 ⟨List.any_eq_false.2 fun other hmem => ?_, fun other hmem => ?_⟩
          · obtain ⟨item, hitem, hsame⟩ := exists_mem_of_forall₂ hequals hmem
            rw [← Term.EqualTo.isSequenceOver_eq hsame]
            exact List.any_eq_false.1 hflat item hitem
          · obtain ⟨item, hitem, hsame⟩ := exists_mem_of_forall₂ hequals hmem
            exact ih item hitem (hitems item hitem) hsame
  | collection cells frame ih =>
      have hcells := normal_collection_iff.1 hnormal
      cases hequal.sameForm with
      | collection _ hperm hpaired =>
          refine normal_collection_iff.2 fun other hmem => ?_
          obtain ⟨cell, hcell, hsame⟩ := exists_mem_of_forall₂ hpaired (hperm.mem_iff.1 hmem)
          exact ih cell hcell (hcells cell hcell) (Term.cellsEqual_iff.1 hsame).2

end Equal

/-- The term is its own value up to the identities of cells. As far as neither a function rule looks at
the order of cells nor a hook tells equal terms apart, that order may differ as well. -/
def Evaluated (machine : Machine σ) (term : Term) : Prop :=
  ∃ value, machine.HasValue term value ∧
    (term.Alike value ∨ machine.definition.Congruent ∧ (value == term) = true)

section Evaluated

variable (hrepeat : machine.definition.Repeatable)
  (hkeeps : machine.definition.EveryHook (Hook.Keeps · machine.Irreducible))
include hrepeat hkeeps

theorem Evaluated.normal {term : Term} (hevaluated : machine.Evaluated term) :
    machine.Normal term := by
  obtain ⟨value, ⟨start, next, hrun⟩, hsame⟩ := hevaluated
  have hnormal := normal_evaluate hrepeat hkeeps term start value next hrun
  rcases hsame with halike | ⟨hcongruent, hequal⟩
  · exact hnormal.congr_of_alike hrepeat halike.symm
  · exact hnormal.congr_of_equalTo hcongruent hequal

/-- A match in a normal subject binds normal terms, so what it is rewritten to is normal. -/
theorem Normal.rewrites (hfresh : ∀ rule ∈ machine.definition.rewriteRules, rule.freshVars = [])
    {subject : Term} (hsubject : machine.Normal subject) :
    machine.Rewrites machine.Normal subject := by
  intro rule hmem subst hsubst
  have hbound : subst.Everywhere machine.Irreducible :=
    Definition.everywhere_of_mem_concreteMatches composable_irreducible
      (Obligation.subjectEverywhere_term rule.lhs hsubject) hsubst
  exact normal_applyRule hrepeat hkeeps (hfresh rule hmem) hbound

end Evaluated

/-- Evaluation reaches a normal form, if hooks look at no identities and leave nothing to evaluate: the
value of a term has itself as its value, to the last identity, from whatever state. Steps and successors of
a term that has been evaluated lead to terms that are normal in the same sense. -/
theorem evaluation_normalizes (hfresh : machine.definition.NoFreshVars)
    (hhooks : machine.definition.EveryHook Hook.IgnoresIds)
    (hkeeps : machine.definition.EveryHook (Hook.Keeps · machine.Irreducible)) :
    (∀ term value, machine.HasValue term value →
      (machine.evaluate value).Yields fun again => again = value) ∧
    ∀ subject, machine.Evaluated subject →
      (machine.step subject).Ensures (StepResult.Every fun term =>
        (machine.evaluate term).Yields fun value => value = term) ∧
      (machine.successors subject).Ensures fun results => ∀ result ∈ results,
        (machine.evaluate result.2).Yields fun value => value = result.2 := by
  have hrepeat : machine.definition.Repeatable := ⟨hfresh.withoutFresh, hhooks⟩
  constructor
  · rintro term value ⟨start, next, hrun⟩
    exact (normal_evaluate hrepeat hkeeps term start value next hrun).yields_evaluate
  · intro subject hevaluated
    have hrewrites := (hevaluated.normal hrepeat hkeeps).rewrites hrepeat hkeeps fun rule hmem =>
      hfresh rule (List.mem_append_left _ hmem)
    refine ⟨hrewrites.ensures_step.mono fun result hresult => ?_,
      hrewrites.ensures_successors.mono fun results hresults result hmem => ?_⟩
    · cases result with
      | rewrote rule term => exact Normal.yields_evaluate hresult
      | stuck | undecided => exact True.intro
    · exact (hresults result hmem).yields_evaluate

end Machine

/-! The order of cells can keep a term that is equal to its value from being normal. -/

namespace CellOrder

def flag : Variable := ⟨"B", Symbol.bool, .plain⟩

def cells : Variable := ⟨"C", Symbol.top, .plain⟩

def others : Variable := ⟨"R", Symbol.top, .rest⟩

def flags (left right : Bool) : Term :=
  .collection [⟨0, "n", .bool left⟩, ⟨1, "n", .bool right⟩] none

/-- What is started is handed on to the test as it is. -/
def starting : RuleBody where
  lhs := .app "start" [.var cells]
  rhs := .app "test" [.var cells]

/-- The first flag decides: `sort` puts a false one in front, and `test` asks for one. -/
def definition : Definition :=
  .assemble [.symbol (.ofBuiltin .notBool),
    .symbol ⟨"first", 1, Symbol.bool, .function none⟩,
    .symbol ⟨"sort", 1, Symbol.top, .function none⟩,
    .symbol ⟨"test", 1, Symbol.top, .function none⟩,
    .rule
      { lhs := .app "first" [.collection [⟨0, "n", .var flag⟩] (some others)]
        rhs := .var flag },
    .rule
      { lhs := .app "sort" [.var cells]
        rhs := .app "sort" [flags false true]
        requires := some (.app "first" [.var cells]) },
    .rule
      { lhs := .app "test" [.app "sort" [.var cells]]
        rhs := .app "passed" []
        requires := some (.app Builtin.notBool.label [.app "first" [.var cells]]) },
    .rule starting]

def machine : Machine Unit := ⟨definition, DecisionProcedure.silent.toOracle Unit, {}⟩

def start (left right : Bool) : Term := .app "start" [.app "sort" [flags left right]]

theorem noFreshVars : machine.definition.NoFreshVars := by
  unfold Definition.NoFreshVars
  decide +kernel

theorem onlyBuiltins : machine.definition.OnlyBuiltins :=
  Definition.onlyBuiltins_assemble [.notBool] rfl

theorem keeps_irreducible : machine.definition.EveryHook (Hook.Keeps · machine.Irreducible) :=
  onlyBuiltins.everyHook (Builtin.keeps Machine.composable_irreducible)

/-- The flags are swapped, which makes no difference to the equality of terms. -/
theorem exists_hasValue_start :
    ∃ value, machine.HasValue (start true false) value ∧ (value == start true false) = true := by
  have hsucceeds : (machine.evaluate (start true false)).succeedsWith { environment := () }
      (· == start true false) = true := by
    decide +kernel
  obtain ⟨value, next, hrun, hequal⟩ := Run.exists_of_succeedsWith hsucceeds
  exact ⟨value, ⟨_, next, hrun⟩, hequal⟩

/-- The value itself, with the flags in their new order, leads to a normal term. -/
theorem evaluation_normalizes_start :
    machine.definition.NoFreshVars ∧ ∃ value, machine.HasValue (start true false) value ∧
      machine.Evaluated value ∧ (machine.step value).Ensures (StepResult.Every fun term =>
        (machine.evaluate term).Yields fun value => value = term) := by
  obtain ⟨hvalues, hsteps⟩ := Machine.evaluation_normalizes noFreshVars
    (onlyBuiltins.everyHook Builtin.ignoresIds) keeps_irreducible
  obtain ⟨value, hvalue, -⟩ := exists_hasValue_start
  obtain ⟨again, next, hagain, rfl⟩ := hvalues _ value hvalue { environment := () }
  have hevaluated : machine.Evaluated again := ⟨again, ⟨_, next, hagain⟩, .inl rfl⟩
  exact ⟨noFreshVars, again, hvalue, hevaluated, (hsteps again hevaluated).1⟩

/-- Before they are swapped, the term is equal to its value, and still what it is rewritten to has
another value: the test fails on the first flag as it stands, and passes on the one that evaluation puts in
front. -/
theorem not_normal_start :
    machine.definition.NoFreshVars ∧
    (∃ value, machine.HasValue (start true false) value ∧ (value == start true false) = true) ∧
    ∃ rule term value, (∃ state next, machine.step (start true false) state =
        .ok (.rewrote rule term) next) ∧ machine.HasValue term value ∧ (value == term) = false := by
  refine ⟨noFreshVars, exists_hasValue_start, ?_⟩
  have hstep : (match machine.step (start true false) { environment := () } with
      | .ok (.rewrote _ term) _ =>
          (machine.evaluate term).succeedsWith { environment := () } fun value => !(value == term)
      | _ => false) = true := by
    decide +kernel
  split at hstep
  · rename_i rule term next hrun
    obtain ⟨value, last, hvalue, hdiffers⟩ := Run.exists_of_succeedsWith hstep
    exact ⟨rule, term, value, ⟨_, next, hrun⟩, ⟨_, last, hvalue⟩, by simpa using hdiffers⟩
  · cases hstep

end CellOrder

/-! So can a hook that looks at identities, and one that leaves something to evaluate. -/

/-- The term has a value that is not its own value. -/
def Machine.EvaluatesOn (machine : Machine σ) (term : Term) : Prop :=
  ∃ value again, machine.HasValue term value ∧ machine.HasValue value again ∧
    (again == value) = false

namespace Parity

def subject : Variable := ⟨"X", Symbol.top, .plain⟩

def starting : RuleBody where
  lhs := .app "start" [.var subject]
  rhs := .var subject

/-- Each test draws the identity of a new cell, and passes if it is even. -/
def definition : Definition :=
  .assemble [.symbol ⟨"even", 1, Symbol.bool, .function (some Hook.parity)⟩,
    .symbol ⟨"draw", 0, Symbol.top, .function none⟩,
    .symbol ⟨"test", 0, Symbol.top, .function none⟩,
    .rule
      { lhs := .app "draw" []
        rhs := .collection [⟨0, "n", .int 0⟩] none },
    .rule
      { lhs := .app "test" []
        rhs := .app "passed" []
        requires := some (.app "even" [.app "draw" []]) },
    .rule starting]

def machine : Machine Unit := ⟨definition, DecisionProcedure.silent.toOracle Unit, {}⟩

def test : Term := .app "test" []

theorem noFreshVars : machine.definition.NoFreshVars := by
  unfold Definition.NoFreshVars
  decide +kernel

/-- The test is kept as long as the next identity is odd. -/
theorem exists_evaluate_test : ∃ start next value last,
    machine.evaluate test start = .ok test next ∧ machine.evaluate test next = .ok value last ∧
      (value == test) = false := by
  have hevaluate : (match machine.evaluate test { environment := (), cellsDrawn := 1 } with
      | .ok kept next => kept == test &&
          (machine.evaluate test).succeedsWith next fun value => !(value == test)
      | .error _ _ => false) = true := by
    decide +kernel
  split at hevaluate
  · rename_i kept next hrun
    obtain ⟨hkept, hpasses⟩ := Bool.and_eq_true_iff.1 hevaluate
    obtain ⟨value, last, hvalue, hdiffers⟩ := Run.exists_of_succeedsWith hpasses
    cases (show kept.EqualTo test from hkept).sameForm with
    | app _ hargs =>
        cases hargs
        exact ⟨_, next, value, last, hrun, hvalue, by simpa using hdiffers⟩
  · cases hevaluate

end Parity

namespace Deferral

/-- The hook answers by a call that it does not make. -/
def definition : Definition :=
  .assemble [.symbol ⟨"later", 0, Symbol.top, .function (some ⟨fun _ => some (.app "now" [])⟩)⟩,
    .symbol ⟨"now", 0, Symbol.top, .function none⟩,
    .rule
      { lhs := .app "now" []
        rhs := .app "done" [] }]

def machine : Machine Unit := ⟨definition, DecisionProcedure.silent.toOracle Unit, {}⟩

theorem noFreshVars : machine.definition.NoFreshVars := by
  unfold Definition.NoFreshVars
  decide +kernel

theorem evaluatesOn_later : machine.EvaluatesOn (.app "later" []) := by
  have hlater : (machine.evaluate (.app "later" [])).succeedsWith { environment := () } (fun value =>
      (machine.evaluate value).succeedsWith { environment := () } fun again => !(again == value)) =
        true := by
    decide +kernel
  obtain ⟨value, next, hrun, hnow⟩ := Run.exists_of_succeedsWith hlater
  obtain ⟨again, last, hagain, hdiffers⟩ := Run.exists_of_succeedsWith hnow
  exact ⟨value, again, ⟨_, next, hrun⟩, ⟨_, last, hagain⟩, by simpa using hdiffers⟩

end Deferral

/-- Neither the order of cells nor what hooks do can be left out of account. -/
theorem Machine.not_evaluation_normalizes :
    (CellOrder.machine.definition.NoFreshVars ∧
      (∃ value, CellOrder.machine.HasValue (CellOrder.start true false) value ∧
        (value == CellOrder.start true false) = true) ∧
      ∃ rule term value,
        (∃ state next, CellOrder.machine.step (CellOrder.start true false) state =
          .ok (.rewrote rule term) next) ∧
        CellOrder.machine.HasValue term value ∧ (value == term) = false) ∧
    (Parity.machine.definition.NoFreshVars ∧ Parity.machine.EvaluatesOn Parity.test) ∧
    Deferral.machine.definition.NoFreshVars ∧ Deferral.machine.EvaluatesOn (.app "later" []) := by
  obtain ⟨start, next, value, last, hkept, hpassed, hdiffers⟩ := Parity.exists_evaluate_test
  have hparity : Parity.machine.EvaluatesOn Parity.test :=
    ⟨Parity.test, value, ⟨start, next, hkept⟩, ⟨next, last, hpassed⟩, hdiffers⟩
  exact ⟨CellOrder.not_normal_start, ⟨Parity.noFreshVars, hparity⟩, Deferral.noFreshVars,
    Deferral.evaluatesOn_later⟩

end SymbolicRewriting
