import SymbolicRewriting.Machine.Step
import SymbolicRewriting.Oracle.Silent
import SymbolicRewriting.Proofs.PropositionalReasoning

/-!
# What spells a truth value

A truth value is read off the text of a token, and the sort of the token is not looked at. Hooks,
conditions of rules and oracles all read truth values in this way, so a token that spells one counts as
one for each of them: a string with the text `true` fulfils a condition. A token that spells neither
value leaves everything open that asks for one.
-/

namespace SymbolicRewriting

variable {σ : Type}

namespace Term

/-- The term is a token of some sort with the text of the truth value. -/
def Spells (term : Term) (truth : Bool) : Prop :=
  ∃ sort, term = token sort (if truth then "true" else "false")

/-- The term is no token with the text of a truth value. -/
def SpellsNothing (term : Term) : Prop :=
  ∀ truth, ¬term.Spells truth

theorem asBool_eq_some_iff {term : Term} {truth : Bool} :
    term.asBool = some truth ↔ term.Spells truth := by
  constructor
  · exact exists_token_of_asBool
  · rintro ⟨sort, rfl⟩
    cases truth <;> simp [asBool]

theorem asBool_eq_none_iff {term : Term} : term.asBool = none ↔ term.SpellsNothing := by
  simp only [SpellsNothing, ← asBool_eq_some_iff, Option.eq_none_iff_forall_ne_some, ne_eq]

theorem eq_of_equalTo_token {term : Term} {sort : SortName} {text : String}
    (hequal : term.EqualTo (token sort text)) : term = token sort text := by
  have hequals : term.equals (token sort text) = true := equal_iff_equals.1 hequal
  cases term with
  | token sort' text' =>
      obtain ⟨rfl, rfl⟩ : sort' = sort ∧ text' = text := by simpa [equals] using hequals
      rfl
  | var _ | app _ _ | sequence _ _ | collection _ _ => cases hequals

end Term

namespace Builtin

theorem apply_notBool_eq_none_iff {term : Term} :
    notBool.apply [term] = none ↔ term.SpellsNothing := by
  rw [apply, Option.map_eq_none_iff, Term.asBool_eq_none_iff]

/-- A connective has a result as soon as one of its arguments has a truth value. -/
theorem connective_eq_none_iff {decisive : Bool} {left right : Term} :
    connective decisive [left, right] = none ↔ left.asBool = none ∧ right.asBool = none := by
  rcases hleft : left.asBool with _ | _ | _ <;> rcases hright : right.asBool with _ | _ | _ <;>
    cases decisive <;> simp [connective, hleft, hright]

theorem apply_connective_eq_none_iff {builtin : Builtin} (hbuiltin : builtin ∈ [andBool, orBool])
    {left right : Term} : builtin.apply [left, right] = none ↔
      left.SpellsNothing ∧ right.SpellsNothing := by
  simp only [List.mem_cons, List.not_mem_nil, or_false] at hbuiltin
  rcases hbuiltin with rfl | rfl
  all_goals rw [apply, connective_eq_none_iff, Term.asBool_eq_none_iff, Term.asBool_eq_none_iff]

end Builtin

/-! ### Conditions of rules -/

namespace Definition

variable {definition : Definition} {call : Caller σ} {rule : Rule} {subst : Substitution}
  {start next : RunState σ} {value : Term}

/-- For this match the condition of the rule evaluates to the value. -/
def ConditionComesTo (definition : Definition) (call : Caller σ) (rule : Rule)
    (subst : Substitution) (start : RunState σ) (value : Term) (next : RunState σ) : Prop :=
  ∃ requires, rule.requires = some requires ∧
    definition.buildTerm call subst .evaluate requires start = .ok value next

/-- Whatever matches come later, a function call is not answered by this one. -/
def PassesOver (definition : Definition) (call : Caller σ) (rule : Rule) (subst : Substitution)
    (start next : RunState σ) : Prop :=
  ∀ others, definition.firstHolding call rule (subst :: others) start =
    definition.firstHolding call rule others next

theorem condition_of_comesTo (hvalue : definition.ConditionComesTo call rule subst start value next) :
    definition.condition call rule subst start = .ok (match value.asBool with
      | some true => .holds
      | some false => .fails
      | none => .unsettled value) next := by
  obtain ⟨requires, hrequires, hbuilt⟩ := hvalue
  rw [condition, hrequires]
  refine (Run.bind_of_ok hbuilt _).trans ?_
  rcases value.asBool with _ | _ | _ <;> rfl

theorem condition_eq_unsettled_iff
    (hvalue : definition.ConditionComesTo call rule subst start value next) :
    definition.condition call rule subst start = .ok (.unsettled value) next ↔
      value.SpellsNothing := by
  rw [condition_of_comesTo hvalue, ← Term.asBool_eq_none_iff]
  rcases value.asBool with _ | _ | _ <;> simp

theorem passesOver_iff (hvalue : definition.ConditionComesTo call rule subst start value next) :
    definition.PassesOver call rule subst start next ↔ ¬value.Spells true := by
  have hcondition := condition_of_comesTo hvalue
  rw [← Term.asBool_eq_some_iff]
  constructor
  · intro hpasses htrue
    have halone : definition.firstHolding call rule [subst] start = .ok none next := hpasses []
    obtain ⟨condition, between, hagain, hrest⟩ := Run.bind_eq_ok.1 halone
    cases hagain.symm.trans hcondition
    rw [htrue] at hrest
    cases hrest
  · intro htrue others
    refine (Run.bind_of_ok hcondition _).trans ?_
    rcases htruth : value.asBool with _ | _ | _
    · rfl
    · rfl
    · exact absurd htruth htrue

end Definition

namespace Machine

variable {machine : Machine σ} {rule : Rule} {found : RuleMatch} {start next : RunState σ}
  {value : Term}

/-- Whatever matches come later, this one leaves the step undecided. -/
def StopsAt (machine : Machine σ) (rule : Rule) (found : RuleMatch) (start next : RunState σ) :
    Prop :=
  ∀ others, machine.stepByMatches rule (found :: others) start = .ok (some .undecided) next

/-- Whatever matches come later, this one gives no successor. -/
def GivesNone (machine : Machine σ) (rule : Rule) (found : RuleMatch) (start next : RunState σ) :
    Prop :=
  ∀ others, machine.successorsByMatches rule (found :: others) start =
    machine.successorsByMatches rule others next

theorem stopsAt_iff (htrivial : found.condition.isTrivial = true)
    (hvalue : machine.definition.ConditionComesTo machine.call rule found.subst start value next) :
    machine.StopsAt rule found start next ↔ value.SpellsNothing := by
  have hcondition := Definition.condition_of_comesTo hvalue
  rw [← Term.asBool_eq_none_iff]
  constructor
  · intro hstops
    have halone : machine.stepByMatches rule [found] start = .ok (some .undecided) next := hstops []
    rw [stepByMatches, htrivial] at halone
    obtain ⟨condition, between, hagain, hrest⟩ := Run.bind_eq_ok.1 halone
    cases hagain.symm.trans hcondition
    rcases htruth : value.asBool with _ | _ | _
    · rfl
    · rw [htruth] at hrest
      cases hrest
    · rw [htruth] at hrest
      obtain ⟨term, built, -, hrest⟩ := Run.bind_eq_ok.1 hrest
      cases hrest
  · intro hnone others
    rw [hnone] at hcondition
    rw [stepByMatches, htrivial]
    exact Run.bind_of_ok hcondition _

theorem givesNone_iff (htrivial : found.condition.isTrivial = true)
    (hvalue : machine.definition.ConditionComesTo machine.call rule found.subst start value next) :
    machine.GivesNone rule found start next ↔ ¬value.Spells true := by
  have hcondition := Definition.condition_of_comesTo hvalue
  rw [← Term.asBool_eq_some_iff]
  constructor
  · intro hgives htrue
    have halone : machine.successorsByMatches rule [found] start = .ok [] next := hgives []
    rw [successorsByMatches, htrivial] at halone
    obtain ⟨condition, between, hagain, hrest⟩ := Run.bind_eq_ok.1 halone
    cases hagain.symm.trans hcondition
    rw [htrue] at hrest
    obtain ⟨term, built, -, hrest⟩ := Run.bind_eq_ok.1 hrest
    cases hrest
  · intro htrue others
    rw [successorsByMatches, htrivial]
    refine (Run.bind_of_ok hcondition _).trans ?_
    rcases htruth : value.asBool with _ | _ | _
    · rfl
    · rfl
    · exact absurd htruth htrue

end Machine

/-! ### Oracles -/

namespace DecisionProcedure

variable {path : PathCondition} {sort : SortName} {text : String}

theorem silentDecide_eq_unknown_iff {proposition : Term} :
    silent.decide path proposition = .unknown ↔ proposition.SpellsNothing := by
  change silentDecide path proposition = .unknown ↔ _
  rw [silentDecide, ← Term.asBool_eq_none_iff]
  rcases proposition.asBool with _ | _ | _ <;> simp [Decision.ofBool]

theorem syntacticDecide_eq_unknown_iff
    (hpath : ∀ conjunct ∈ path.conjuncts, Term.token sort text ∉ conjunct.subterms) :
    syntactic.decide path (.token sort text) = .unknown ↔
      (Term.token sort text).SpellsNothing := by
  have hcontains : path.contains (.token sort text) = false := by
    rw [Bool.eq_false_iff]
    intro hcontains
    obtain ⟨conjunct, hmem, hequal⟩ := PathCondition.contains_iff.1 hcontains
    obtain rfl := Term.eq_of_equalTo_token hequal
    exact hpath _ hmem (Term.self_mem_subterms _)
  have hdenies : path.denies (.token sort text) = false := by
    rw [Bool.eq_false_iff]
    intro hdenies
    obtain ⟨inner, hmem, hequal⟩ := PathCondition.denies_iff.1 hdenies
    obtain rfl := Term.eq_of_equalTo_token hequal
    exact hpath _ hmem (Term.subterms_subset_negated _ (Term.self_mem_subterms _))
  change syntacticDecideWithin path (32 + 1) (.token sort text) = .unknown ↔ _
  rw [syntacticDecideWithin, ← Term.asBool_eq_none_iff]
  rcases (Term.token sort text).asBool with _ | _ | _
  · simp [hcontains, hdenies, Term.negationOf?, Term.equalityOf?, Term.conjunctionOf?]
  · simp [Decision.ofBool]
  · simp [Decision.ofBool]

end DecisionProcedure

/-- The text of a token alone makes it a truth value, for the Boolean hooks, for the condition of a rule
in a function call, in a step and among the successors, and for both oracles. -/
theorem Machine.unsettled_iff_spellsNothing (machine : Machine σ) {token : Term}
    (htoken : token.IsToken) :
    (Builtin.notBool.apply [token] = none ↔ token.SpellsNothing) ∧
    (∀ builtin ∈ [Builtin.andBool, .orBool], ∀ other : Term,
      (builtin.apply [token, other] = none ↔ token.SpellsNothing ∧ other.SpellsNothing) ∧
      (builtin.apply [other, token] = none ↔ other.SpellsNothing ∧ token.SpellsNothing)) ∧
    (∀ (call : Caller σ) rule subst start next,
      machine.definition.ConditionComesTo call rule subst start token next →
        (machine.definition.condition call rule subst start = .ok (.unsettled token) next ↔
          token.SpellsNothing) ∧
        (machine.definition.PassesOver call rule subst start next ↔ ¬token.Spells true)) ∧
    (∀ rule (found : RuleMatch) start next, found.condition.isTrivial = true →
      machine.definition.ConditionComesTo machine.call rule found.subst start token next →
        (machine.StopsAt rule found start next ↔ token.SpellsNothing) ∧
        (machine.GivesNone rule found start next ↔ ¬token.Spells true)) ∧
    ∀ path : PathCondition, (∀ conjunct ∈ path.conjuncts, token ∉ conjunct.subterms) →
      (DecisionProcedure.silent.decide path token = .unknown ↔ token.SpellsNothing) ∧
      (DecisionProcedure.syntactic.decide path token = .unknown ↔ token.SpellsNothing) := by
  refine ⟨Builtin.apply_notBool_eq_none_iff, fun builtin hbuiltin other => ?_, ?_, ?_, fun path hpath => ?_⟩
  · exact ⟨Builtin.apply_connective_eq_none_iff hbuiltin, Builtin.apply_connective_eq_none_iff hbuiltin⟩
  · intro call rule subst start next hvalue
    exact ⟨Definition.condition_eq_unsettled_iff hvalue, Definition.passesOver_iff hvalue⟩
  · intro rule found start next htrivial hvalue
    exact ⟨stopsAt_iff htrivial hvalue, givesNone_iff htrivial hvalue⟩
  · obtain ⟨sort, text, rfl⟩ := htoken
    exact ⟨DecisionProcedure.silentDecide_eq_unknown_iff,
      DecisionProcedure.syntacticDecide_eq_unknown_iff hpath⟩

namespace Gate

def answer : Variable := ⟨"Answer", Symbol.string, .plain⟩

def rule : Rule where
  lhs := .app "gate" [.var answer]
  rhs := .app "open" []
  requires := some (.var answer)
  id := 0

/-- The gate opens if the answer is true. The answer is a string. -/
def machine : Machine Unit where
  definition := .assemble [.rule rule.toRuleBody]
  oracle := DecisionProcedure.silent.toOracle Unit

def start : RunState Unit := { environment := () }

def answered (text : String) : RuleMatch := ⟨⟨[(answer, .string text)], []⟩, .trivial⟩

theorem conditionComesTo (text : String) :
    machine.definition.ConditionComesTo machine.call rule (answered text).subst start (.string text)
      start :=
  ⟨.var answer, rfl, rfl⟩

/-- The answer `yes` settles nothing, though it is not a truth value of another kind either. -/
theorem unsettled_iff_spellsNothing_yes :
    Symbol.string ≠ Symbol.bool ∧ (Term.string "yes").IsToken ∧
      (Term.string "yes").SpellsNothing ∧ Builtin.notBool.apply [.string "yes"] = none ∧
      machine.StopsAt rule (answered "yes") start start ∧
      machine.GivesNone rule (answered "yes") start start ∧
      machine.definition.PassesOver machine.call rule (answered "yes").subst start start ∧
      DecisionProcedure.syntactic.decide ⟨[Term.negated (.string "no")]⟩ (.string "yes") =
        .unknown := by
  have htoken : (Term.string "yes").IsToken := ⟨Symbol.string, "yes", rfl⟩
  have hnothing : (Term.string "yes").SpellsNothing := Term.asBool_eq_none_iff.1 rfl
  obtain ⟨hnegation, -, hconditions, hmatches, horacles⟩ :=
    machine.unsettled_iff_spellsNothing htoken
  have hmatch := hmatches rule (answered "yes") start start rfl (conditionComesTo "yes")
  have hcondition := hconditions machine.call rule _ start start (conditionComesTo "yes")
  have hpath : ∀ conjunct ∈ [Term.negated (.string "no")], .string "yes" ∉ conjunct.subterms := by
    simp [Term.negated, Term.string, Term.subterms, Term.subtermsAll]
  exact ⟨by decide, htoken, hnothing, hnegation.2 hnothing, hmatch.1.2 hnothing,
    hmatch.2.2 (hnothing true), hcondition.2.2 (hnothing true), (horacles _ hpath).2.2 hnothing⟩

/-- The answer `true` opens the gate. -/
theorem string_answer_settles :
    Symbol.string ≠ Symbol.bool ∧ Builtin.notBool.apply [.string "true"] ≠ none ∧
      Builtin.andBool.apply [.string "true", .string "yes"] ≠ none ∧
      machine.condition rule (answered "true").subst start = .ok .holds start ∧
      (machine.step (.app "gate" [.string "true"])).succeedsWith start
        (fun result => match result with
          | .rewrote _ _ => true
          | _ => false) = true ∧
      DecisionProcedure.silent.decide .trivial (.string "true") = .holds ∧
      DecisionProcedure.syntactic.decide .trivial (.string "true") = .holds :=
  ⟨by decide, nofun, nofun, rfl, by decide +kernel, rfl, rfl⟩

end Gate

end SymbolicRewriting
