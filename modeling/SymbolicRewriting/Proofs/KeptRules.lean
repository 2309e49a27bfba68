import Mathlib.Data.List.Nodup
import SymbolicRewriting.Proofs.AllRules

/-!
# Definitions and their declarations

A definition is built from declarations in any order, and of several signatures for one label the last one
counts, also for the rules before it. Building fails exactly if a generator is no function or an application
in a rule does not fit its label (`exists_error_build_iff`). Otherwise the rules are split between the rewrite
rules and those of the functions, and in each list they stand in their order: none is lost and none occurs
twice.
-/

namespace SymbolicRewriting

open List

namespace Declaration

/-- The signature is declared for the label, and no other one for the label later. -/
def LastFor (declarations : List Declaration) (label : Label) (signature : Signature) : Prop :=
  ∃ before after, declarations = before ++ symbol signature :: after ∧ signature.label = label ∧
    ∀ later, symbol later ∈ after → later.label ≠ label

/-- The last signature for the label is that of a function. -/
def DeclaresFunction (declarations : List Declaration) (label : Label) : Prop :=
  ∃ signature, LastFor declarations label signature ∧ signature.isFunction = true

/-- Some generator is registered that is not declared as a function. -/
def HasIdleGenerator (declarations : List Declaration) : Prop :=
  ∃ sort label, generator sort label ∈ declarations ∧ ¬DeclaresFunction declarations label

/-- Some application, at any depth of a side or of the condition of a rule, has another number of arguments
than its label is declared with. -/
def HasMisfit (declarations : List Declaration) : Prop :=
  ∃ body, rule body ∈ declarations ∧
    ∃ term, (term = body.lhs ∨ term = body.rhs ∨ body.requires = some term) ∧
      ∃ label args, .app label args ∈ term.subterms ∧
        ∃ signature, LastFor declarations label signature ∧ signature.arity ≠ args.length

/-- The rule is the one that is added under its number. -/
def Adds (declarations : List Declaration) (rule : Rule) : Prop :=
  (rules declarations)[rule.id]? = some rule.toRuleBody

variable {declarations : List Declaration}

theorem lastFor_concat_iff {last : Declaration} {label : Label} {signature : Signature} :
    LastFor (declarations ++ [last]) label signature ↔
      (last = symbol signature ∧ signature.label = label) ∨
        ((∀ later, last = symbol later → later.label ≠ label) ∧
          LastFor declarations label signature) := by
  constructor
  · rintro ⟨before, after, heq, hlabel, hafter⟩
    rcases eq_nil_or_concat after with rfl | ⟨between, end_, rfl⟩
    · obtain ⟨-, hlast⟩ := append_inj' heq rfl
      exact .inl ⟨head_eq_of_cons_eq hlast, hlabel⟩
    · rw [concat_eq_append] at heq hafter
      rw [← cons_append, ← append_assoc] at heq
      obtain ⟨hdeclarations, hlast⟩ := append_inj' heq rfl
      obtain rfl := head_eq_of_cons_eq hlast
      refine .inr ⟨fun later hlater => hafter later ?_, before, between, hdeclarations, hlabel,
        fun later hmem => hafter later (mem_append_left _ hmem)⟩
      rw [← hlater]
      exact mem_append_right _ mem_cons_self
  · rintro (⟨rfl, hlabel⟩ | ⟨hlast, before, after, rfl, hlabel, hafter⟩)
    · exact ⟨declarations, [], rfl, hlabel, fun _ hmem => absurd hmem not_mem_nil⟩
    · refine ⟨before, after ++ [last], by rw [append_assoc, cons_append], hlabel, fun later hmem => ?_⟩
      rcases mem_append.1 hmem with hold | hnew
      · exact hafter later hold
      · exact hlast later (mem_singleton.1 hnew).symm

end Declaration

theorem Signature.find?_declare (signature : Signature) (signatures : List Signature) (label : Label) :
    (signature.declare signatures).find? (fun other => other.label == label) =
      if signature.label = label then some signature
      else signatures.find? fun other => other.label == label := by
  induction signatures with
  | nil => by_cases hlabel : signature.label = label <;> simp [declare, hlabel]
  | cons earlier rest ih =>
      unfold declare
      by_cases hsame : earlier.label = signature.label
      · rw [if_pos hsame]
        by_cases hlabel : signature.label = label <;> simp [hsame, hlabel]
      · rw [if_neg hsame, find?_cons, find?_cons, ih]
        by_cases hlabel : signature.label = label
        · have hearlier : (earlier.label == label) = false := beq_eq_false_iff_ne.2 (hlabel ▸ hsame)
          simp [hlabel, hearlier]
        · simp [hlabel]

namespace Definition

variable {declarations : List Declaration}

/-- Only a symbol changes the table of signatures, where it takes the place of an earlier one. -/
theorem signatures_assemble_concat (declarations : List Declaration) (last : Declaration) :
    (assemble (declarations ++ [last])).signatures =
      match last with
      | .symbol signature => signature.declare (assemble declarations).signatures
      | _ => (assemble declarations).signatures := by
  change (Declaration.signatures (declarations ++ [last])).foldl _ [] = _
  unfold Declaration.signatures
  rw [filterMap_append, foldl_append]
  cases last <;> rfl

theorem signature?_assemble_iff {label : Label} {signature : Signature} :
    (assemble declarations).signature? label = some signature ↔
      Declaration.LastFor declarations label signature := by
  unfold signature?
  induction declarations using reverseRecOn with
  | nil =>
      refine iff_of_false (by simp [assemble, Declaration.signatures]) ?_
      rintro ⟨before, after, heq, -⟩
      exact absurd heq (by simp)
  | append_singleton declarations last ih =>
      rw [Declaration.lastFor_concat_iff, ← ih, signatures_assemble_concat]
      cases last with
      | symbol new =>
          dsimp only
          rw [Signature.find?_declare]
          by_cases hlabel : new.label = label
          · simp only [if_pos hlabel, Option.some.injEq, Declaration.symbol.injEq]
            constructor
            · rintro rfl
              exact .inl ⟨rfl, hlabel⟩
            · rintro (⟨heq, -⟩ | ⟨hother, -⟩)
              · exact heq
              · exact absurd hlabel (hother new rfl)
          · rw [if_neg hlabel]
            constructor
            · intro hfind
              exact .inr ⟨by rintro _ ⟨⟩; exact hlabel, hfind⟩
            · rintro (⟨heq, hsignature⟩ | ⟨-, hfind⟩)
              · cases heq
                exact absurd hsignature hlabel
              · exact hfind
      | subsort _ _ | generator _ _ | rule _ => simp

theorem isFunction_assemble_iff {label : Label} :
    (assemble declarations).isFunction label = true ↔
      Declaration.DeclaresFunction declarations label := by
  simp only [isFunction, Option.any_eq_true, signature?_assemble_iff, Declaration.DeclaresFunction]

/-! ### What is checked -/

theorem not_wellFormed_assemble_iff {term : Term} :
    ¬(assemble declarations).WellFormed term ↔ ∃ label args, .app label args ∈ term.subterms ∧
      ∃ signature, Declaration.LastFor declarations label signature ∧
        signature.arity ≠ args.length := by
  simp only [WellFormed, Term.Everywhere, not_forall, exists_prop]
  constructor
  · rintro ⟨part, hpart, hmisfit⟩
    cases part with
    | app label args =>
        simp only [FitsArity, signature?_assemble_iff, not_forall] at hmisfit
        obtain ⟨signature, hlast, harity⟩ := hmisfit
        exact ⟨label, args, hpart, signature, hlast, harity⟩
    | token _ _ | var _ | sequence _ _ | collection _ _ => exact absurd True.intro hmisfit
  · rintro ⟨label, args, hpart, signature, hlast, harity⟩
    exact ⟨.app label args, hpart, fun hfits => harity (hfits signature (signature?_assemble_iff.2 hlast))⟩

theorem generatorError?_eq_none_iff {definition : Definition} {generator : SortName × Label} :
    definition.generatorError? generator = none ↔ definition.isFunction generator.2 = true := by
  unfold generatorError?
  by_cases hfunction : definition.isFunction generator.2 = true <;> simp [hfunction]

theorem ruleError?_eq_none_iff {definition : Definition} {rule : Rule} :
    definition.ruleError? rule = none ↔ ∀ term ∈ rule.terms, definition.WellFormed term := by
  rw [ruleError?, findSome?_eq_none_iff]
  simp only [termError?_eq_none_iff]

/-- Without an error the definition is built. -/
theorem exists_error_build_iff_findSome? :
    (∃ error, build declarations = .error error) ↔
      (Declaration.generators declarations).findSome? (assemble declarations).generatorError? ≠ none ∨
        (Rule.number (Declaration.rules declarations)).findSome? (assemble declarations).ruleError? ≠
          none := by
  unfold build
  dsimp only
  cases hgenerators :
      (Declaration.generators declarations).findSome? (assemble declarations).generatorError? with
  | some error => simp
  | none =>
      cases hrules :
          (Rule.number (Declaration.rules declarations)).findSome? (assemble declarations).ruleError? with
      | some error => simp
      | none => simp

end Definition

theorem Declaration.mem_generators_iff {declarations : List Declaration} {sort : SortName}
    {label : Label} : (sort, label) ∈ generators declarations ↔ generator sort label ∈ declarations := by
  rw [generators, mem_filterMap]
  constructor
  · rintro ⟨declaration, hmem, heq⟩
    cases declaration with
    | generator _ _ =>
        cases heq
        exact hmem
    | symbol _ | subsort _ _ | rule _ => cases heq
  · exact fun hmem => ⟨_, hmem, rfl⟩

theorem Declaration.mem_rules_iff {declarations : List Declaration} {body : RuleBody} :
    body ∈ rules declarations ↔ rule body ∈ declarations := by
  rw [rules, mem_filterMap]
  constructor
  · rintro ⟨declaration, hmem, heq⟩
    cases declaration with
    | rule _ =>
        cases heq
        exact hmem
    | symbol _ | subsort _ _ | generator _ _ => cases heq
  · exact fun hmem => ⟨_, hmem, rfl⟩

namespace Rule

/-- A rule is numbered by its place among those that are added. -/
theorem mem_number_iff {bodies : List RuleBody} {rule : Rule} :
    rule ∈ number bodies ↔ bodies[rule.id]? = some rule.toRuleBody := by
  rw [number, mem_map]
  constructor
  · rintro ⟨⟨body, id⟩, hmem, rfl⟩
    exact mem_zipIdx_iff_getElem?.1 hmem
  · exact fun hbody => ⟨(rule.toRuleBody, rule.id), mem_zipIdx_iff_getElem?.2 hbody, rfl⟩

theorem mem_terms_iff {rule : Rule} {term : Term} :
    term ∈ rule.terms ↔ term = rule.lhs ∨ term = rule.rhs ∨ rule.requires = some term := by
  simp only [terms, mem_cons, Option.mem_toList]

theorem exists_mem_number_iff {bodies : List RuleBody} (property : RuleBody → Prop) :
    (∃ rule ∈ number bodies, property rule.toRuleBody) ↔ ∃ body ∈ bodies, property body := by
  constructor
  · rintro ⟨rule, hmem, hrule⟩
    exact ⟨rule.toRuleBody, mem_of_getElem? (mem_number_iff.1 hmem), hrule⟩
  · rintro ⟨body, hmem, hbody⟩
    obtain ⟨id, hid⟩ := mem_iff_getElem?.1 hmem
    exact ⟨{ body with id }, mem_number_iff.2 hid, hbody⟩

end Rule

namespace Definition

variable {declarations : List Declaration}

theorem findSome?_generatorError?_ne_none_iff :
    (Declaration.generators declarations).findSome? (assemble declarations).generatorError? ≠ none ↔
      Declaration.HasIdleGenerator declarations := by
  rw [ne_eq, findSome?_eq_none_iff]
  simp only [generatorError?_eq_none_iff, isFunction_assemble_iff, not_forall, Prod.exists,
    exists_prop, Declaration.mem_generators_iff, Declaration.HasIdleGenerator]

theorem findSome?_ruleError?_ne_none_iff :
    (Rule.number (Declaration.rules declarations)).findSome? (assemble declarations).ruleError? ≠
      none ↔ Declaration.HasMisfit declarations := by
  rw [ne_eq, findSome?_eq_none_iff]
  simp only [ruleError?_eq_none_iff, not_forall, exists_prop, not_wellFormed_assemble_iff,
    Rule.mem_terms_iff]
  rw [Rule.exists_mem_number_iff (fun body =>
    ∃ term, (term = body.lhs ∨ term = body.rhs ∨ body.requires = some term) ∧
      ∃ label args, .app label args ∈ term.subterms ∧ ∃ signature,
        Declaration.LastFor declarations label signature ∧ signature.arity ≠ args.length)]
  simp only [Declaration.mem_rules_iff, Declaration.HasMisfit]

theorem exists_error_build_iff :
    (∃ error, build declarations = .error error) ↔
      Declaration.HasIdleGenerator declarations ∨ Declaration.HasMisfit declarations := by
  rw [exists_error_build_iff_findSome?, findSome?_generatorError?_ne_none_iff,
    findSome?_ruleError?_ne_none_iff]

/-! ### Where the rules are kept -/

theorem definesFunction_assemble_iff {rule : Rule} :
    (assemble declarations).definesFunction rule = true ↔
      ∃ label, rule.lhs.topLabel = some label ∧ Declaration.DeclaresFunction declarations label := by
  simp only [definesFunction, Option.any_eq_true, isFunction_assemble_iff]

theorem mem_rewriteRules_assemble_iff {rule : Rule} :
    rule ∈ (assemble declarations).rewriteRules ↔ Declaration.Adds declarations rule ∧
      ∀ label, rule.lhs.topLabel = some label → ¬Declaration.DeclaresFunction declarations label := by
  have hmem : rule ∈ (assemble declarations).rewriteRules ↔
      rule ∈ Rule.number (Declaration.rules declarations) ∧
        ¬(assemble declarations).definesFunction rule = true := by
    refine Rule.mem_sort_iff.trans (mem_filter.trans ?_)
    rw [Bool.not_eq_true', Bool.not_eq_true]
    rfl
  rw [hmem, Rule.mem_number_iff, definesFunction_assemble_iff, not_exists]
  simp only [not_and, Declaration.Adds]

theorem mem_functionRules_assemble_iff {rule : Rule} :
    rule ∈ (assemble declarations).functionRules ↔ Declaration.Adds declarations rule ∧
      ∃ label, rule.lhs.topLabel = some label ∧ Declaration.DeclaresFunction declarations label := by
  have hmem : rule ∈ (assemble declarations).functionRules ↔
      rule ∈ Rule.number (Declaration.rules declarations) ∧
        (assemble declarations).definesFunction rule = true :=
    Rule.mem_sort_iff.trans mem_filter
  rw [hmem, Rule.mem_number_iff, definesFunction_assemble_iff, Declaration.Adds]

theorem mem_functionRulesOf_assemble_iff {label : Label} {rule : Rule} :
    rule ∈ (assemble declarations).functionRulesOf label ↔ Declaration.Adds declarations rule ∧
      rule.lhs.topLabel = some label ∧ Declaration.DeclaresFunction declarations label := by
  rw [functionRulesOf, mem_filter, mem_functionRules_assemble_iff, beq_iff_eq]
  constructor
  · rintro ⟨⟨hadds, other, hother, hfunction⟩, hlabel⟩
    cases hother.symm.trans hlabel
    exact ⟨hadds, hlabel, hfunction⟩
  · rintro ⟨hadds, hlabel, hfunction⟩
    exact ⟨⟨hadds, label, hlabel, hfunction⟩, hlabel⟩

/-- Every rule that is added is kept, in one list or the other. -/
theorem mem_rules_assemble_iff {rule : Rule} :
    rule ∈ (assemble declarations).rewriteRules ++ (assemble declarations).functionRules ↔
      Declaration.Adds declarations rule := by
  rw [mem_append, mem_rewriteRules_assemble_iff, mem_functionRules_assemble_iff, ← and_or_left,
    and_iff_left_iff_imp]
  intro _
  by_cases hfunction : ∃ label, rule.lhs.topLabel = some label ∧
      Declaration.DeclaresFunction declarations label
  · exact .inr hfunction
  · exact .inl fun label hlabel hdeclared => hfunction ⟨label, hlabel, hdeclared⟩

/-- The number tells the rules apart. -/
theorem rule?_assemble_iff {id : RuleId} {rule : Rule} :
    (assemble declarations).rule? id = some rule ↔ Declaration.Adds declarations rule ∧ rule.id = id := by
  unfold rule?
  constructor
  · intro hfind
    have hid := find?_some hfind
    exact ⟨mem_rules_assemble_iff.1 (mem_of_find?_eq_some hfind), beq_iff_eq.1 hid⟩
  · rintro ⟨hadds, rfl⟩
    cases hfind : ((assemble declarations).rewriteRules ++ (assemble declarations).functionRules).find?
        fun other => other.id == rule.id with
    | none =>
        have hne := find?_eq_none.1 hfind rule (mem_rules_assemble_iff.2 hadds)
        exact absurd (beq_self_eq_true rule.id) hne
    | some other =>
        have hother := mem_rules_assemble_iff.1 (mem_of_find?_eq_some hfind)
        have hid := find?_some hfind
        obtain ⟨body, id⟩ := rule
        obtain ⟨body', id'⟩ := other
        obtain rfl : id' = id := beq_iff_eq.1 hid
        cases hother.symm.trans hadds
        rfl

theorem pairwise_functionRules (declarations : List Declaration) :
    (assemble declarations).functionRules.Pairwise fun rule later => rule.precedes later = true :=
  Rule.pairwise_sort ((Rule.pairwise_number _).filter _)

end Definition

/-- The rule comes before the other one in the order of rules. -/
def Rule.Before (rule other : Rule) : Prop :=
  rule.priority < other.priority ∨ rule.priority = other.priority ∧ rule.id < other.id

/-- Rules that stand in their order are different from each other. -/
theorem Rule.nodup_of_before {rules : List Rule} (hrules : rules.Pairwise Before) : rules.Nodup :=
  hrules.imp fun hbefore heq => by
    subst heq
    rcases hbefore with hlt | ⟨-, hlt⟩ <;> exact absurd hlt (Nat.lt_irrefl _)

/-- Each rule that is added is kept once and found by its number. -/
structure Definition.Keeps (definition : Definition) (declarations : List Declaration) : Prop where
  rewriteRules : ∀ rule, rule ∈ definition.rewriteRules ↔ Declaration.Adds declarations rule ∧
    ∀ label, rule.lhs.topLabel = some label → ¬Declaration.DeclaresFunction declarations label
  functionRules : ∀ label rule, rule ∈ definition.functionRulesOf label ↔
    Declaration.Adds declarations rule ∧ rule.lhs.topLabel = some label ∧
      Declaration.DeclaresFunction declarations label
  once : definition.rewriteRules.Nodup ∧ ∀ label, (definition.functionRulesOf label).Nodup
  ordered : definition.rewriteRules.Pairwise Rule.Before ∧
    ∀ label, (definition.functionRulesOf label).Pairwise Rule.Before
  numbered : ∀ id rule,
    definition.rule? id = some rule ↔ Declaration.Adds declarations rule ∧ rule.id = id

namespace Definition

variable {declarations : List Declaration}

theorem keeps_of_build {definition : Definition} (hbuild : build declarations = .ok definition) :
    definition.Keeps declarations := by
  have hrewrite := (pairwise_rewriteRules hbuild).imp Rule.precedes_iff.1
  obtain rfl := eq_assemble_of_build hbuild
  have hfunction : ∀ label,
      ((assemble declarations).functionRulesOf label).Pairwise Rule.Before := fun label =>
    ((pairwise_functionRules declarations).imp Rule.precedes_iff.1).filter _
  exact {
    rewriteRules := fun _ => mem_rewriteRules_assemble_iff
    functionRules := fun _ _ => mem_functionRulesOf_assemble_iff
    once := ⟨Rule.nodup_of_before hrewrite, fun label => Rule.nodup_of_before (hfunction label)⟩
    ordered := ⟨hrewrite, hfunction⟩
    numbered := fun _ _ => rule?_assemble_iff }

/-- Building a definition fails exactly if a generator is not declared as a function or an application in a
rule does not fit the last declaration of its label. A definition that is built keeps every rule that was
added, once and in its order: with the function at the top of its left side, if that is one, and among the
rewrite rules otherwise. -/
theorem build_accepts_and_keeps (declarations : List Declaration) :
    ((∃ error, build declarations = .error error) ↔
      Declaration.HasIdleGenerator declarations ∨ Declaration.HasMisfit declarations) ∧
    ∀ definition, build declarations = .ok definition → definition.Keeps declarations :=
  ⟨exists_error_build_iff, fun _ => keeps_of_build⟩

end Definition

namespace Toll

/-- When the first rule for `toll` is added, `toll` is still a constructor. -/
def declarations : List Declaration :=
  [.symbol ⟨"toll", 2, Symbol.int, .constructor⟩,
    .rule { lhs := .app "toll" [.var ⟨"C", "Car", .plain⟩], rhs := .int 3 },
    .rule { lhs := .app "gate" [.var ⟨"C", "Car", .plain⟩],
            rhs := .app "paid" [.app "toll" [.var ⟨"C", "Car", .plain⟩]] },
    .symbol ⟨"toll", 1, Symbol.int, .function none⟩,
    .rule { lhs := .app "toll" [.app "bus" []], rhs := .int 0, priority := 10 }]

/-- Both rules for `toll` belong to the function in the end, the exception first. -/
theorem build_accepts_and_keeps_toll :
    ∃ definition, Definition.build declarations = .ok definition ∧ definition.Keeps declarations ∧
      (definition.functionRulesOf "toll").map Rule.id = [2, 0] ∧
      definition.rewriteRules.map Rule.id = [1] := by
  have hbuild : Definition.build declarations = .ok (.assemble declarations) :=
    Definition.build_eq_ok (by decide +kernel) (by decide +kernel)
  exact ⟨_, hbuild, (Definition.build_accepts_and_keeps declarations).2 _ hbuild, by decide +kernel,
    by decide +kernel⟩

end Toll

end SymbolicRewriting
