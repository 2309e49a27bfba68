import SymbolicRewriting.Proofs.Arities
import SymbolicRewriting.Proofs.StepAgreement

/-!
# Steps by all rules

The rewrite rules of a definition stand in a strict order, by priority and then by identifier, and the
index of rules picks some of them for a subject. A rule that it leaves out would have recorded a failed
attempt and nothing else. Hence the loops of a step over the candidates end as the loops over all rules
would, apart from what has been counted.
-/

namespace SymbolicRewriting

open List

variable {σ : Type}

/-! ### The order of the rules -/

namespace Rule

theorem precedes_iff {rule other : Rule} : rule.precedes other = true ↔
    rule.priority < other.priority ∨ rule.priority = other.priority ∧ rule.id < other.id := by
  simp [precedes]

theorem precedes_trans {rule other third : Rule} (hfirst : rule.precedes other = true)
    (hsecond : other.precedes third = true) : rule.precedes third = true := by
  rw [precedes_iff] at hfirst hsecond ⊢
  grind

/-- Rules with different identifiers are comparable. -/
theorem precedes_of_not_precedes {rule other : Rule} (hne : rule.id ≠ other.id)
    (hnot : ¬rule.precedes other = true) : other.precedes rule = true := by
  rw [precedes_iff] at hnot ⊢
  grind

theorem pairwise_insertInOrder {rule : Rule} {rules : List Rule}
    (hrules : rules.Pairwise fun rule later => rule.precedes later = true)
    (hids : ∀ other ∈ rules, rule.id ≠ other.id) :
    (rule.insertInOrder rules).Pairwise fun rule later => rule.precedes later = true := by
  induction rules with
  | nil => exact pairwise_singleton _ _
  | cons first rules ih =>
      obtain ⟨hfirst, hothers⟩ := pairwise_cons.1 hrules
      obtain ⟨hid, hids⟩ := forall_mem_cons.1 hids
      unfold insertInOrder
      split
      · rename_i hprecedes
        refine pairwise_cons.2 ⟨fun other hmem => ?_, hrules⟩
        rcases mem_cons.1 hmem with rfl | hlater
        · exact hprecedes
        · exact precedes_trans hprecedes (hfirst other hlater)
      · rename_i hnot
        refine pairwise_cons.2 ⟨fun other hmem => ?_, ih hothers hids⟩
        rcases mem_insertInOrder_iff.1 hmem with rfl | hlater
        · exact precedes_of_not_precedes hid hnot
        · exact hfirst other hlater

theorem pairwise_sort {rules : List Rule}
    (hids : rules.Pairwise fun rule later => rule.id ≠ later.id) :
    (sort rules).Pairwise fun rule later => rule.precedes later = true := by
  induction rules with
  | nil => exact Pairwise.nil
  | cons rule rules ih =>
      obtain ⟨hid, hids⟩ := pairwise_cons.1 hids
      exact pairwise_insertInOrder (ih hids) fun other hmem => hid other (mem_sort_iff.1 hmem)

/-- Rules that are numbered have different numbers. -/
theorem pairwise_number (bodies : List RuleBody) :
    (number bodies).Pairwise fun rule later => rule.id ≠ later.id := by
  have hids : (number bodies).map Rule.id = range' 0 bodies.length := by
    rw [← zipIdx_map_snd, number, map_map]
    rfl
  rw [← pairwise_map (f := Rule.id) (R := (· ≠ ·)), hids]
  exact nodup_range'

end Rule

theorem Definition.pairwise_rewriteRules {declarations : List Declaration} {definition : Definition}
    (hbuild : build declarations = .ok definition) :
    definition.rewriteRules.Pairwise fun rule later => rule.precedes later = true := by
  rw [eq_assemble_of_build hbuild]
  exact Rule.pairwise_sort ((Rule.pairwise_number _).filter _)

/-! ### Rules that are left out -/

namespace Machine

variable {machine : Machine σ} {subject : Term} {start start' : RunState σ}

/-- The attempt to match a rule that is left out changes nothing but what has been counted. -/
theorem matchRuleUnder_of_not_mayMatchTop {rule : Rule}
    (hmay : ¬Definition.mayMatchTop subject rule = true) (path : PathCondition)
    (start : RunState σ) :
    ∃ next, machine.matchRuleUnder rule subject path start = .ok {} next ∧
      start.SameCounters next := by
  unfold matchRuleUnder
  rw [Definition.matchPattern_of_not_mayMatchTop hmay]
  exact ⟨_, rfl, rfl, rfl, rfl⟩

theorem stepByRules_filter (rules : List Rule) (hsame : start.SameCounters start') :
    Run.EndsSame
      (machine.stepByRules subject (rules.filter (Definition.mayMatchTop subject)) start)
      (machine.stepByRules subject rules start') := by
  induction rules generalizing start start' with
  | nil => exact .ok _ hsame
  | cons rule rules ih =>
      rw [filter_cons]
      split
      · refine (matchRule_determined rule subject start start' hsame).bind ?_
        intro results next next' hnext
        have hmatches := Run.compositional_determined.stepByMatches machine rule results.found.toList
        refine (hmatches next next' hnext).bind fun outcome last last' hlast => ?_
        cases outcome with
        | some result => exact .ok _ hlast
        | none =>
            dsimp only
            split
            · exact .ok _ hlast
            · exact ih hlast
      · rename_i hmay
        obtain ⟨next, hmatch, hnext⟩ :=
          machine.matchRuleUnder_of_not_mayMatchTop hmay .trivial start'
        have hskip : machine.stepByRules subject (rule :: rules) start' =
            machine.stepByRules subject rules next := Run.bind_of_ok hmatch _
        rw [hskip]
        exact ih (hsame.trans hnext)

theorem successorsByRules_filter (rules : List Rule) (hsame : start.SameCounters start') :
    Run.EndsSame
      (machine.successorsByRules subject (rules.filter (Definition.mayMatchTop subject)) start)
      (machine.successorsByRules subject rules start') := by
  induction rules generalizing start start' with
  | nil => exact .ok _ hsame
  | cons rule rules ih =>
      rw [filter_cons]
      split
      · refine (matchRule_determined rule subject start start' hsame).bind ?_
        intro results next next' hnext
        have hmatches :=
          Run.compositional_determined.successorsByMatches machine rule results.found.toList
        refine (hmatches next next' hnext).bind fun first last last' hlast => ?_
        exact (ih hlast).bind fun later _ _ hended => .ok (first ++ later) hended
      · rename_i hmay
        obtain ⟨next, hmatch, hnext⟩ :=
          machine.matchRuleUnder_of_not_mayMatchTop hmay .trivial start'
        have hskip : machine.successorsByRules subject (rule :: rules) start' =
            (machine.successorsByRules subject rules >>= fun later => pure ([] ++ later)) next :=
          Run.bind_of_ok hmatch _
        have hnone : (fun later : List (RuleId × Term) => (pure ([] ++ later) : Run σ _)) = pure := rfl
        rw [hskip, hnone, bind_pure]
        exact ih (hsame.trans hnext)

theorem symbolicRules_filter (state : ConstrainedTerm) (rules : List Rule) (guarded : Guarded)
    (hsame : start.SameCounters start') :
    Run.EndsSame
      (machine.symbolicRules state (rules.filter (Definition.mayMatchTop state.term)) guarded start)
      (machine.symbolicRules state rules guarded start') := by
  induction rules generalizing guarded start start' with
  | nil => exact .ok _ hsame
  | cons rule rules ih =>
      rw [filter_cons]
      split
      · have hmatch :=
          Run.compositional_determined.matchRuleUnder machine rule state.term state.condition
        refine (hmatch start start' hsame).bind fun results next next' hnext => ?_
        have hmatches := Run.compositional_determined.symbolicMatches machine state rule
          results.found.toList { guarded with undecided := guarded.undecided + results.undecided }
        exact (hmatches next next' hnext).bind fun extended _ _ hlast => ih extended hlast
      · rename_i hmay
        obtain ⟨next, hmatch, hnext⟩ :=
          machine.matchRuleUnder_of_not_mayMatchTop hmay state.condition start'
        have hskip : machine.symbolicRules state (rule :: rules) guarded start' =
            machine.symbolicRules state rules guarded next := Run.bind_of_ok hmatch _
        rw [hskip]
        exact ih guarded (hsame.trans hnext)

/-- The rules stand in a strict order, and the candidates for a subject are a part of them. The others
have no match, no undecided branch and no conflict, and the loops of a step end as they would over all
rules. -/
theorem candidates_suffice {declarations : List Declaration}
    (hbuild : Definition.build declarations = .ok machine.definition) :
    (machine.definition.rewriteRules.Pairwise fun rule later =>
      rule.priority < later.priority ∨ rule.priority = later.priority ∧ rule.id < later.id) ∧
    ∀ subject,
      (machine.definition.candidates subject).Sublist machine.definition.rewriteRules ∧
      (∀ rule ∈ machine.definition.rewriteRules, rule ∉ machine.definition.candidates subject →
        (machine.definition.matchPattern rule.lhs subject).found = #[] ∧
          (machine.definition.matchPattern rule.lhs subject).undecided = 0 ∧
          (machine.definition.matchPattern rule.lhs subject).conflicts = 0) ∧
      ∀ start : RunState σ,
        Run.EndsSame (machine.step subject start)
          (machine.stepByRules subject machine.definition.rewriteRules start) ∧
        Run.EndsSame (machine.successors subject start)
          (machine.successorsByRules subject machine.definition.rewriteRules start) ∧
        ∀ condition, Run.EndsSame (machine.stepSymbolic ⟨subject, condition⟩ start)
          ((machine.symbolicRules ⟨subject, condition⟩ machine.definition.rewriteRules {} >>=
            machine.completeStep ⟨subject, condition⟩) start) := by
  have horder := Definition.pairwise_rewriteRules hbuild
  refine ⟨horder.imp Rule.precedes_iff.1, fun subject => ?_⟩
  refine ⟨machine.definition.candidates_sublist subject, fun rule hmem hout => ?_, fun start => ?_⟩
  · rw [Definition.matchPattern_of_not_mem_candidates hmem hout]
    exact ⟨rfl, rfl, rfl⟩
  · have hsame : start.SameCounters start := ⟨rfl, rfl, rfl⟩
    unfold step successors stepSymbolic
    dsimp only
    rw [machine.definition.candidates_eq_filter]
    refine ⟨stepByRules_filter _ hsame, successorsByRules_filter _ hsame, fun condition => ?_⟩
    refine (symbolicRules_filter ⟨subject, condition⟩ _ {} hsame).bind fun guarded => ?_
    exact Run.compositional_determined.completeStep machine ⟨subject, condition⟩ guarded

end Machine

namespace Shelving

def subject : Term := .app "book" [.token "Id" "7"]

/-- Anything may be dusted at last, books are shelved, and pens are kept unless they are lent first. -/
def declarations : List Declaration :=
  [.rule { lhs := .var ⟨"X", Symbol.top, .plain⟩, rhs := .app "dusted" [], priority := 90 },
    .rule { lhs := .app "book" [.var ⟨"I", "Id", .plain⟩], rhs := .app "shelf" [] },
    .rule { lhs := .app "pen" [.var ⟨"I", "Id", .plain⟩], rhs := .app "drawer" [] },
    .rule { lhs := .app "pen" [.var ⟨"I", "Id", .plain⟩], rhs := .app "lent" [], priority := 10 }]

def machine : Machine Unit :=
  { definition := .assemble declarations, oracle := DecisionProcedure.silent.toOracle Unit }

/-- Both rules for pens are left out for a book. -/
theorem candidates_suffice_book :
    Definition.build declarations = .ok machine.definition ∧
    machine.definition.rewriteRules.map Rule.id = [3, 1, 2, 0] ∧
    (machine.definition.candidates subject).map Rule.id = [1, 0] ∧
    ∀ start, Run.EndsSame (machine.step subject start)
      (machine.stepByRules subject machine.definition.rewriteRules start) := by
  have hbuild : Definition.build declarations = .ok machine.definition :=
    Definition.build_eq_ok (by decide +kernel) (by decide +kernel)
  obtain ⟨-, hsubjects⟩ := Machine.candidates_suffice hbuild
  obtain ⟨-, -, hloops⟩ := hsubjects subject
  exact ⟨hbuild, by decide +kernel, by decide +kernel, fun start => (hloops start).1⟩

end Shelving

end SymbolicRewriting
