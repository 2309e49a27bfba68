import SymbolicRewriting.Oracle.Silent
import SymbolicRewriting.Proofs.BuiltTerms

/-!
Numbers of arguments. They are checked once, when a definition is built from its declarations, and no
application that is put together later is checked again. If the hooks keep to the declarations, everything
that is computed nevertheless has as many arguments as declared, unless the call that asks a generator for a
fresh value has not: that call has one argument, whatever the generator was declared with.
-/

namespace SymbolicRewriting

variable {σ : Type}

namespace Definition

variable {definition : Definition}

/-- An application of a declared label has as many arguments as the label was declared with. -/
def FitsArity (definition : Definition) : Term → Prop
  | .app label args => ∀ signature, definition.signature? label = some signature →
      signature.arity = args.length
  | _ => True

/-- Every application within the term fits its declaration, in the contents of cells as well. -/
abbrev WellFormed (definition : Definition) (term : Term) : Prop :=
  term.Everywhere definition.FitsArity

theorem composable_fitsArity : Composable definition.FitsArity where
  token _ _ := True.intro
  var _ := True.intro
  flatten op items _ := by
    rw [Term.flatten_eq]
    exact True.intro
  collection _ _ := True.intro

theorem rootError?_eq_none_iff {term : Term} :
    definition.rootError? term = none ↔ definition.FitsArity term := by
  cases term with
  | app label args =>
      unfold rootError? FitsArity arityError?
      cases hsignature : definition.signature? label with
      | none => simp [hsignature]
      | some signature => simp [hsignature]
  | token _ _ | var _ | sequence _ _ | collection _ _ => exact iff_of_true rfl True.intro

/-- The check of a term finds every application that does not fit. -/
theorem termError?_eq_none_iff {term : Term} :
    definition.termError? term = none ↔ definition.WellFormed term := by
  unfold termError? WellFormed Term.Everywhere
  rw [Term.visit_eq_subterms, List.findSome?_eq_none_iff]
  simp only [rootError?_eq_none_iff]

end Definition

namespace Rule

theorem mem_insertInOrder_iff {rule other : Rule} {rules : List Rule} :
    other ∈ rule.insertInOrder rules ↔ other = rule ∨ other ∈ rules := by
  induction rules with
  | nil => simp [insertInOrder]
  | cons first rules ih =>
      unfold insertInOrder
      split
      · simp
      · simp only [List.mem_cons, ih]
        tauto

theorem mem_sort_iff {rule : Rule} {rules : List Rule} : rule ∈ sort rules ↔ rule ∈ rules := by
  induction rules with
  | nil => rfl
  | cons first rules ih =>
      change rule ∈ first.insertInOrder (sort rules) ↔ _
      rw [mem_insertInOrder_iff, List.mem_cons, ih]

end Rule

/-- The hook has a result for every number that a counter can be at. -/
def Hook.AnswersNumbers (hook : Hook) : Prop :=
  ∀ number : UInt64, hook.apply [.int number.toInt64.toInt] ≠ none

namespace Definition

variable {definition : Definition} {declarations : List Declaration}

/-- The terms of every rule are well-formed. -/
def Checked (definition : Definition) : Prop :=
  ∀ rule ∈ definition.rewriteRules ++ definition.functionRules, ∀ term ∈ rule.terms,
    definition.WellFormed term

theorem checked_of_build (hbuild : build declarations = .ok definition) : definition.Checked := by
  unfold build at hbuild
  dsimp only at hbuild
  split at hbuild
  · cases hbuild
  · split at hbuild
    · cases hbuild
    · rename_i hrules
      cases hbuild
      rw [List.findSome?_eq_none_iff] at hrules
      intro rule hmem term hterm
      have hdeclared : rule ∈ Rule.number (Declaration.rules declarations) := by
        rcases List.mem_append.1 hmem with hrewrite | hfunction
        · exact List.mem_of_mem_filter (Rule.mem_sort_iff.1 hrewrite)
        · exact List.mem_of_mem_filter (Rule.mem_sort_iff.1 hfunction)
      have hrule := hrules rule hdeclared
      unfold ruleError? at hrule
      rw [List.findSome?_eq_none_iff] at hrule
      exact termError?_eq_none_iff.1 (hrule term hterm)

theorem build_eq_ok
    (hgenerators : (Declaration.generators declarations).findSome?
      (assemble declarations).generatorError? = none)
    (hrules : (Rule.number (Declaration.rules declarations)).findSome?
      (assemble declarations).ruleError? = none) :
    build declarations = .ok (assemble declarations) := by
  unfold build
  dsimp only
  rw [hgenerators]
  dsimp only
  rw [hrules]

/-- A generator takes one argument, or it is computed from whatever number it is called on. -/
def GeneratorsFit (definition : Definition) : Prop :=
  ∀ sort label, definition.generator? sort = some label →
    definition.FitsArity (.app label [.int 0]) ∨
      ∃ hook, definition.hook? label = some hook ∧ hook.AnswersNumbers

end Definition

/-- A call that fits its declaration has a well-formed answer, and so has one that is computed from a
number. -/
structure Caller.KeepsArity (definition : Definition) (call : Caller σ) : Prop where
  fitting : ∀ label args, (∀ arg ∈ args, definition.WellFormed arg) →
    definition.FitsArity (.app label args) → (call label args).Ensures definition.WellFormed
  computed : ∀ label hook, definition.hook? label = some hook → hook.AnswersNumbers →
    ∀ number : UInt64, (call label [.int number.toInt64.toInt]).Ensures definition.WellFormed

namespace Definition

variable {definition : Definition} {call : Caller σ} {subst : Substitution}

section Building

variable (hcall : call.KeepsArity definition)
include hcall

theorem wellFormed_buildTerm (hsubst : subst.Everywhere definition.FitsArity) (mode : BuildMode)
    {term : Term} (hterm : definition.WellFormed term) :
    (definition.buildTerm call subst mode term).Ensures definition.WellFormed := by
  refine ensures_buildTerm composable_fitsArity hsubst fun label args hmem built hlength hbuilt => ?_
  have hfits : definition.FitsArity (.app label built) := by
    intro signature hsignature
    rw [hlength]
    exact hterm _ hmem signature hsignature
  split
  · exact hcall.fitting label built hbuilt hfits
  · exact hfits

variable (hgenerators : definition.GeneratorsFit)
include hgenerators

theorem wellFormed_freshValue (sort : SortName) :
    (definition.freshValue call sort).Ensures definition.WellFormed := by
  unfold freshValue
  cases hgenerator : definition.generator? sort with
  | none =>
      intro start value next hrun
      cases hrun
  | some label =>
      refine Run.Ensures.bind_of_forall fun number => Run.Ensures.bind_of_forall fun _ => ?_
      have hnumber : definition.WellFormed (.int number.toInt64.toInt) :=
        Term.everywhere_token composable_fitsArity _ _
      rcases hgenerators sort label hgenerator with hfits | ⟨hook, hhook, hanswers⟩
      · have hterm : definition.WellFormed (.app label [.int number.toInt64.toInt]) :=
          Term.everywhere_iff.2 ⟨hfits, List.forall_mem_singleton.2 hnumber⟩
        exact wellFormed_buildTerm hcall Substitution.everywhere_empty .evaluate hterm
      · have hbuild : definition.buildTerm call .empty .evaluate
            (.app label [.int number.toInt64.toInt]) = call label [.int number.toInt64.toInt] :=
          if_pos (isFunction_of_hook? hhook)
        rw [hbuild]
        exact hcall.computed label hook hhook hanswers number

theorem wellFormed_buildRight {rule : Rule} (hrule : definition.WellFormed rule.rhs)
    (hsubst : subst.Everywhere definition.FitsArity) :
    (definition.buildRight call rule subst).Ensures definition.WellFormed :=
  Run.Ensures.bind
    (everywhere_bindFreshVars (fun v _ => wellFormed_freshValue hcall hgenerators v.sort) hsubst)
    fun _ hextended => wellFormed_buildTerm hcall hextended .instantiate hrule

end Building

theorem Checked.rhs (hchecked : definition.Checked) {rule : Rule}
    (hmem : rule ∈ definition.rewriteRules ++ definition.functionRules) :
    definition.WellFormed rule.rhs :=
  hchecked rule hmem rule.rhs (by simp [Rule.terms])

end Definition

namespace Definition

variable {definition : Definition}

/-- By induction on the levels of nesting: a call is answered by its hook, by a rule that has been
checked, or not at all. -/
theorem keepsArity_callWithin (hchecked : definition.Checked)
    (hhooks : definition.EveryHook (Hook.Keeps · definition.FitsArity))
    (hgenerators : definition.GeneratorsFit) (limit levels : Nat) :
    (definition.callWithin limit levels : Caller σ).KeepsArity definition := by
  induction levels with
  | zero =>
      refine ⟨fun label args _ _ start value next hrun => ?_,
        fun label _ _ _ number start value next hrun => ?_⟩
      · cases hrun
      · cases hrun
  | succ levels ih =>
      constructor
      · intro label args hargs hfits
        refine ensures_callWithin_succ composable_fitsArity hhooks hargs (fun _ _ _ => hfits)
          (fun rule hmem subst hsubst => ?_) fun _ _ _ _ _ _ => hfits
        have hrule := List.mem_append_right definition.rewriteRules (List.mem_of_mem_filter hmem)
        exact wellFormed_buildRight ih hgenerators (hchecked.rhs hrule) hsubst
      · intro label hook hhook hanswers number
        obtain ⟨result, happly⟩ := Option.ne_none_iff_exists'.1 (hanswers number)
        have hnumber : ∀ arg ∈ [Term.int number.toInt64.toInt], definition.WellFormed arg :=
          List.forall_mem_singleton.2 (Term.everywhere_token composable_fitsArity _ _)
        rw [callWithin_succ]
        refine Run.Ensures.bind_of_forall fun _ => ?_
        rw [hhook]
        apply Run.Ensures.of_pure
        rw [happly]
        exact hhooks label hook hhook _ hnumber result happly

end Definition

namespace Machine

/-- Every application of a declared label has the declared number of arguments, at every depth, in all
that the machine computes from such terms. -/
structure KeepsArity (machine : Machine σ) : Prop where
  evaluate : ∀ term, machine.definition.WellFormed term →
    (machine.evaluate term).Ensures machine.definition.WellFormed
  fresh : ∀ sort, (machine.fresh sort).Ensures machine.definition.WellFormed
  applyRule : ∀ rule ∈ machine.definition.rewriteRules ++ machine.definition.functionRules,
    ∀ subst : Substitution, subst.Everywhere machine.definition.FitsArity →
      (machine.applyRule rule subst).Ensures machine.definition.WellFormed
  applyMatch : ∀ rule ∈ machine.definition.rewriteRules ++ machine.definition.functionRules,
    ∀ subject, machine.definition.WellFormed subject →
      ∀ found ∈ (machine.definition.matchPattern rule.lhs subject).found,
        (machine.applyRule rule found.subst).Ensures machine.definition.WellFormed
  step : ∀ subject, machine.definition.WellFormed subject →
    (machine.step subject).Ensures (StepResult.Every machine.definition.WellFormed)
  successors : ∀ subject, machine.definition.WellFormed subject →
    (machine.successors subject).Ensures fun results =>
      ∀ result ∈ results, machine.definition.WellFormed result.2
  run : ∀ subject, machine.definition.WellFormed subject → ∀ bound,
    (machine.run subject bound).Ensures fun result => machine.definition.WellFormed result.term

section Kept

variable {machine : Machine σ} (hchecked : machine.definition.Checked)
  (hhooks : machine.definition.EveryHook (Hook.Keeps · machine.definition.FitsArity))
  (hgenerators : machine.definition.GeneratorsFit)
include hchecked hhooks hgenerators

theorem keepsArity_call : machine.call.KeepsArity machine.definition :=
  Definition.keepsArity_callWithin hchecked hhooks hgenerators _ _

theorem wellFormed_applyRule {rule : Rule}
    (hmem : rule ∈ machine.definition.rewriteRules ++ machine.definition.functionRules)
    {subst : Substitution} (hsubst : subst.Everywhere machine.definition.FitsArity) :
    (machine.applyRule rule subst).Ensures machine.definition.WellFormed :=
  Definition.wellFormed_buildRight (keepsArity_call hchecked hhooks hgenerators) hgenerators
    (hchecked.rhs hmem) hsubst

theorem rewrites_wellFormed {subject : Term} (hsubject : machine.definition.WellFormed subject) :
    machine.Rewrites machine.definition.WellFormed subject := by
  intro rule hmem subst hsubst
  have hbound : subst.Everywhere machine.definition.FitsArity :=
    Definition.everywhere_of_mem_concreteMatches Definition.composable_fitsArity
      (Obligation.subjectEverywhere_term rule.lhs hsubject) hsubst
  exact wellFormed_applyRule hchecked hhooks hgenerators (List.mem_append_left _ hmem) hbound

theorem keepsArity_of_generatorsFit : machine.KeepsArity where
  evaluate _ hterm :=
    Definition.wellFormed_buildTerm (keepsArity_call hchecked hhooks hgenerators)
      Substitution.everywhere_empty .evaluate hterm
  fresh sort :=
    Definition.wellFormed_freshValue (keepsArity_call hchecked hhooks hgenerators) hgenerators sort
  applyRule _ hmem _ hsubst := wellFormed_applyRule hchecked hhooks hgenerators hmem hsubst
  applyMatch rule hmem _ hsubject _ hfound :=
    wellFormed_applyRule hchecked hhooks hgenerators hmem
      (Definition.everywhere_of_mem_found Definition.composable_fitsArity
        (Obligation.subjectEverywhere_term rule.lhs hsubject) hfound)
  step _ hsubject := (rewrites_wellFormed hchecked hhooks hgenerators hsubject).ensures_step
  successors _ hsubject := (rewrites_wellFormed hchecked hhooks hgenerators hsubject).ensures_successors
  run _ hsubject bound :=
    ensures_run (fun _ hterm => rewrites_wellFormed hchecked hhooks hgenerators hterm) hsubject bound

end Kept

end Machine

/-! Where a generator does not fit, some fresh value is malformed. -/

namespace Definition

variable {definition : Definition} {call : Caller σ} {declarations : List Declaration}

theorem matchPattern_of_length_ne (label : Label) {patterns args : List Term}
    (hlength : patterns.length ≠ args.length) :
    definition.matchPattern (.app label patterns) (.app label args) = {} :=
  matchPattern_of_failed (if_neg fun hboth => hlength hboth.2)

theorem yields_firstApplicable_none {subject : Term} {rules : List Rule}
    (hrules : ∀ rule ∈ rules, definition.concreteMatches rule.lhs subject = []) :
    (definition.firstApplicable call subject rules).Yields fun choice => choice = none := by
  induction rules with
  | nil => exact .of_pure rfl
  | cons rule rules ih =>
      obtain ⟨hfirst, hothers⟩ := List.forall_mem_cons.1 hrules
      unfold firstApplicable
      rw [hfirst]
      exact ih hothers

/-- No rule applies to a call that has another number of arguments than declared. -/
theorem concreteMatches_of_not_fitsArity (hchecked : definition.Checked) {label : Label}
    {args : List Term} (hfits : ¬definition.FitsArity (.app label args)) {rule : Rule}
    (hmem : rule ∈ definition.functionRulesOf label) :
    definition.concreteMatches rule.lhs (.app label args) = [] := by
  obtain ⟨hrule, hlabel⟩ := List.mem_filter.1 hmem
  have hlhs : definition.FitsArity rule.lhs :=
    (hchecked rule (List.mem_append_right _ hrule) rule.lhs (by simp [Rule.terms])).self
  cases hform : rule.lhs with
  | app other patterns =>
      rw [hform] at hlabel hlhs
      obtain rfl : other = label := by simpa [Term.topLabel] using hlabel
      have hlength : patterns.length ≠ args.length := by
        intro heq
        refine hfits fun signature hsignature => ?_
        rw [← heq]
        exact hlhs signature hsignature
      unfold concreteMatches
      rw [matchPattern_of_length_ne other hlength]
      rfl
  | token _ _ | var _ | sequence _ _ | collection _ _ =>
      rw [hform] at hlabel
      cases hlabel

theorem fitsArity_iff_of_length_eq {label : Label} {args args' : List Term}
    (hlength : args.length = args'.length) :
    definition.FitsArity (.app label args) ↔ definition.FitsArity (.app label args') := by
  simp only [FitsArity, hlength]

/-- A generator that does not fit leaves a call on a number unanswered that its hook does not answer. -/
theorem yields_callWithin_generator (hchecked : definition.Checked) {label : Label} {number : Term}
    (hnone : ∀ hook, definition.hook? label = some hook → hook.apply [number] = none)
    (hfits : ¬definition.FitsArity (.app label [number])) (limit levels : Nat) :
    (definition.callWithin limit (levels + 1) label [number] : Run σ Term).Yields fun value =>
      value = .app label [number] := by
  rw [callWithin_succ]
  apply Run.Yields.bind (Run.yields_record _)
  intro _ _
  cases hfound : definition.hook? label with
  | some hook =>
      apply Run.Yields.of_pure
      rw [hnone hook hfound]
      rfl
  | none =>
      apply Run.Yields.bind (yields_firstApplicable_none fun rule hmem =>
        concreteMatches_of_not_fitsArity hchecked hfits hmem)
      rintro _ rfl
      exact .of_pure rfl

theorem exists_number_of_not_answered {label : Label}
    (hanswered : ¬∃ hook, definition.hook? label = some hook ∧ hook.AnswersNumbers) :
    ∃ number : UInt64, ∀ hook, definition.hook? label = some hook →
      hook.apply [.int number.toInt64.toInt] = none := by
  cases hfound : definition.hook? label with
  | none => exact ⟨0, fun hook hhook => by cases hhook⟩
  | some hook =>
      have hsome : ¬hook.AnswersNumbers := fun hanswers => hanswered ⟨hook, hfound, hanswers⟩
      obtain ⟨number, hnumber⟩ := not_forall.1 hsome
      refine ⟨number, fun other hother => ?_⟩
      obtain rfl := Option.some.inj hother
      exact not_not.1 hnumber

theorem generatorsFit_of_keepsArity (hchecked : definition.Checked)
    (hkeeps : ∀ machine : Machine Unit, machine.definition = definition → machine.KeepsArity) :
    definition.GeneratorsFit := by
  intro sort label hgenerator
  by_contra hneither
  obtain ⟨hmisfit, hanswered⟩ := not_or.1 hneither
  obtain ⟨number, hnone⟩ := exists_number_of_not_answered hanswered
  let machine : Machine Unit := ⟨definition, DecisionProcedure.silent.toOracle Unit, {}⟩
  let argument : Term := .int number.toInt64.toInt
  have hfits : ¬definition.FitsArity (.app label [argument]) :=
    fun hfits => hmisfit ((fitsArity_iff_of_length_eq rfl).1 hfits)
  have hcall : (definition.buildTerm machine.call .empty .evaluate
      (.app label [argument])).Yields fun value => value = .app label [argument] := by
    have hbuild : definition.buildTerm machine.call .empty .evaluate (.app label [argument]) =
        if definition.isFunction label then machine.call label [argument]
        else pure (.app label [argument]) := rfl
    rw [hbuild]
    split
    · exact yields_callWithin_generator hchecked hnone hfits _ _
    · exact .of_pure rfl
  obtain ⟨start, hstart⟩ : ∃ start, machine.fresh sort { environment := (), counter := number } =
      definition.buildTerm machine.call .empty .evaluate (.app label [argument]) start := by
    unfold Machine.fresh freshValue
    rw [hgenerator]
    exact ⟨_, rfl⟩
  obtain ⟨value, next, hrun, rfl⟩ := hcall start
  have hvalue := (hkeeps machine rfl).fresh sort _ _ next (hstart.trans hrun)
  exact hfits hvalue.self

/-- Execution preserves the numbers of arguments: of every machine that uses the definition. -/
def KeepsArity (definition : Definition) : Prop :=
  ∀ (σ : Type) (machine : Machine σ), machine.definition = definition → machine.KeepsArity

/-- A definition that has been built, and whose hooks keep to its declarations, preserves numbers of
arguments if and only if each generator takes the one argument that it is called on, or is computed from
it. -/
theorem keepsArity_iff (hbuild : build declarations = .ok definition)
    (hhooks : definition.EveryHook (Hook.Keeps · definition.FitsArity)) :
    definition.KeepsArity ↔ definition.GeneratorsFit := by
  have hchecked := checked_of_build hbuild
  constructor
  · exact fun hkeeps => generatorsFit_of_keepsArity hchecked (hkeeps Unit)
  · rintro hgenerators σ machine rfl
    exact Machine.keepsArity_of_generatorsFit hchecked hhooks hgenerators

end Definition

/-! Of the standard hooks only the one that writes integers has a result for a number by itself. -/

namespace Builtin

theorem answersNumbers_intToString : intToString.hook.AnswersNumbers := by
  intro number
  have hword : Decimal.IsWord number.toInt64.toInt :=
    ⟨number.toInt64.le_toInt, number.toInt64.toInt_lt⟩
  simp [hook, apply, Term.asInt_int hword]

theorem answersNumbers_iff {builtin : Builtin} :
    builtin.hook.AnswersNumbers ↔ builtin = .intToString := by
  constructor
  · intro hanswers
    have hzero : builtin.apply [.int 0] ≠ none := hanswers 0
    cases builtin with
    | intToString => rfl
    | notBool =>
        have hbool : (Term.int 0).asBool = none := by decide
        exact absurd (congrArg (Option.map fun value => Term.bool !value) hbool) hzero
    | _ => exact absurd rfl hzero
  · rintro rfl
    exact answersNumbers_intToString

end Builtin

theorem Definition.OnlyBuiltins.generatorsFit_iff {definition : Definition}
    (honly : definition.OnlyBuiltins) :
    definition.GeneratorsFit ↔ ∀ sort label, definition.generator? sort = some label →
      definition.FitsArity (.app label [.int 0]) ∨
        definition.hook? label = some Builtin.intToString.hook := by
  have hcomputed : ∀ label, (∃ hook, definition.hook? label = some hook ∧ hook.AnswersNumbers) ↔
      definition.hook? label = some Builtin.intToString.hook := by
    intro label
    constructor
    · rintro ⟨hook, hhook, hanswers⟩
      obtain ⟨builtin, rfl⟩ := honly label hook hhook
      rw [hhook, Builtin.answersNumbers_iff.1 hanswers]
    · exact fun hhook => ⟨_, hhook, Builtin.answersNumbers_intToString⟩
  simp only [GeneratorsFit, hcomputed]

namespace Generating

/-- Identifiers are made out of two terms. -/
def pairing : List Declaration :=
  [.symbol ⟨"make", 2, "Id", .function none⟩, .generator "Id" "make"]

/-- Identifiers are made out of a number, and each job gets one. -/
def numbering : List Declaration :=
  [.symbol ⟨"make", 1, "Id", .function none⟩, .symbol ⟨"job", 2, Symbol.top, .constructor⟩,
    .generator "Id" "make",
    .rule { lhs := .app "new" [], rhs := .app "job" [.var ⟨"J", "Id", .fresh⟩, .app "todo" []] }]

theorem keepsArity_iff_numbering :
    Definition.build numbering = .ok (.assemble numbering) ∧
      (Definition.assemble numbering).KeepsArity := by
  have hbuild : Definition.build numbering = .ok (.assemble numbering) :=
    Definition.build_eq_ok (by decide +kernel) (by decide +kernel)
  have hmake : ∀ sort label, (Definition.assemble numbering).generator? sort = some label →
      label = "make" := by
    intro sort label hgenerator
    have hgenerators : (Definition.assemble numbering).generators = [("Id", "make")] := by rfl
    rw [Definition.generator?, hgenerators, List.lookup_cons] at hgenerator
    split at hgenerator
    · exact (Option.some.inj hgenerator).symm
    · cases hgenerator
  have hfits : (Definition.assemble numbering).GeneratorsFit := by
    intro sort label hgenerator
    obtain rfl := hmake sort label hgenerator
    refine .inl fun signature hsignature => ?_
    have hdeclared : (Definition.assemble numbering).signature? "make" =
        some ⟨"make", 1, "Id", .function none⟩ := by rfl
    rw [hdeclared] at hsignature
    cases hsignature
    rfl
  have hhooks : (Definition.assemble numbering).EveryHook
      (Hook.Keeps · (Definition.assemble numbering).FitsArity) :=
    (Definition.onlyBuiltins_assemble [] rfl).everyHook (Builtin.keeps Definition.composable_fitsArity)
  exact ⟨hbuild, (Definition.keepsArity_iff hbuild hhooks).2 hfits⟩

def machine : Machine Unit := ⟨.assemble pairing, DecisionProcedure.silent.toOracle Unit, {}⟩

/-- The generator is accepted, and the first fresh value has one argument in place of two. -/
theorem not_keepsArity_pairing :
    Definition.build pairing = .ok (.assemble pairing) ∧
      ¬(Definition.assemble pairing).KeepsArity := by
  refine ⟨Definition.build_eq_ok (by decide +kernel) (by decide +kernel), fun hkeeps => ?_⟩
  have hsucceeds : (machine.fresh "Id").succeedsWith { environment := () }
      (fun value => (machine.definition.termError? value).isSome) = true := by
    decide +kernel
  obtain ⟨value, next, hrun, htest⟩ := Run.exists_of_succeedsWith hsucceeds
  have hvalue := (hkeeps Unit machine rfl).fresh "Id" _ value next hrun
  rw [Definition.termError?_eq_none_iff.2 hvalue] at htest
  cases htest

end Generating

end SymbolicRewriting
