import SymbolicRewriting.Oracle.Syntactic
import SymbolicRewriting.Proofs.TruthValues

/-!
The answers that are read off the syntax, compared with evaluation. What the path assumes is read
rightly, but two ground terms that look different may have the same value as long as there are calls
in them. A wrong answer always comes from such an equality, through negations and conjunctions.
-/

namespace SymbolicRewriting

variable {σ : Type}

namespace Decision

theorem ofBool_injective {value other : Bool} (hsame : ofBool value = ofBool other) :
    value = other := by
  cases value <;> cases other <;> first | rfl | cases hsame

/-- An answer is unknown or right unless it is wrong. -/
theorem agrees_iff {answer : Decision} {truth : Bool} :
    (answer = .unknown ∨ answer = ofBool truth) ↔ answer ≠ ofBool !truth := by
  cases answer <;> cases truth <;> simp [ofBool]

theorem negate_eq_ofBool_iff {answer : Decision} {value : Bool} :
    answer.negate = ofBool value ↔ answer = ofBool !value := by
  cases answer <;> cases value <;> simp [negate, ofBool]

theorem conjoin_eq_holds_iff {left right : Decision} :
    left.conjoin right = .holds ↔ left = .holds ∧ right = .holds := by
  cases left <;> cases right <;> simp [conjoin]

theorem conjoin_eq_fails_iff {left right : Decision} :
    left.conjoin right = .fails ↔ left = .fails ∨ right = .fails := by
  cases left <;> cases right <;> simp [conjoin]

theorem conjoin_eq_ofBool_of_left {left right : Decision} {answer : Bool}
    (hleft : left = ofBool answer) (hright : answer = true → right = .holds) :
    left.conjoin right = ofBool answer := by
  cases answer with
  | true => exact conjoin_eq_holds_iff.2 ⟨hleft, hright rfl⟩
  | false => exact conjoin_eq_fails_iff.2 (.inl hleft)

theorem conjoin_eq_ofBool_of_right {left right : Decision} {answer : Bool}
    (hright : right = ofBool answer) (hleft : answer = true → left = .holds) :
    left.conjoin right = ofBool answer := by
  cases answer with
  | true => exact conjoin_eq_holds_iff.2 ⟨hleft rfl, hright⟩
  | false => exact conjoin_eq_fails_iff.2 (.inr hright)

end Decision

namespace Term

theorem negationOf?_eq_some_iff {proposition inner : Term} :
    proposition.negationOf? = some inner ↔ proposition = inner.negated := by
  constructor
  · intro hsome
    unfold negationOf? at hsome
    split at hsome
    · obtain ⟨rfl, hinner⟩ := Option.ite_none_right_eq_some.1 hsome
      cases hinner
      rfl
    · cases hsome
  · rintro rfl
    rfl

theorem conjunctionOf?_eq_some_iff {proposition left right : Term} :
    proposition.conjunctionOf? = some (left, right) ↔ proposition = left.conjoined right := by
  constructor
  · intro hsome
    unfold conjunctionOf? at hsome
    split at hsome
    · obtain ⟨rfl, hsides⟩ := Option.ite_none_right_eq_some.1 hsome
      cases hsides
      rfl
    · cases hsome
  · rintro rfl
    rfl

theorem isGround_negated (inner : Term) : inner.negated.isGround = inner.isGround := by
  simp [negated, isGround, isGroundAll]

theorem isGround_equal (left right : Term) :
    (left.equal right).isGround = (left.isGround && right.isGround) := by
  simp [equal, isGround, isGroundAll]

theorem isGround_conjoined (left right : Term) :
    (left.conjoined right).isGround = (left.isGround && right.isGround) := by
  simp [conjoined, isGround, isGroundAll]

theorem subterms_subset_negated (inner : Term) : inner.subterms ⊆ inner.negated.subterms :=
  subterms_subset_of_mem_children (List.mem_singleton_self inner)

theorem subterms_left_subset (label : Label) (left right : Term) :
    left.subterms ⊆ (app label [left, right]).subterms :=
  subterms_subset_of_mem_children List.mem_cons_self

theorem subterms_right_subset (label : Label) (left right : Term) :
    right.subterms ⊆ (app label [left, right]).subterms :=
  subterms_subset_of_mem_children (List.mem_cons_of_mem _ (List.mem_singleton_self right))

end Term

namespace PathCondition

variable {path : PathCondition} {proposition : Term}

/-- The path assumes neither the proposition nor its negation. -/
structure Silent (path : PathCondition) (proposition : Term) : Prop where
  contains : path.contains proposition = false
  denies : path.denies proposition = false

theorem contains_iff :
    path.contains proposition = true ↔ ∃ conjunct ∈ path.conjuncts, conjunct.EqualTo proposition :=
  List.any_eq_true

theorem denies_iff :
    path.denies proposition = true ↔
      ∃ inner : Term, inner.negated ∈ path.conjuncts ∧ inner.EqualTo proposition := by
  unfold denies
  rw [List.any_eq_true]
  constructor
  · rintro ⟨conjunct, hmem, hdenies⟩
    cases hinner : conjunct.negationOf? with
    | none =>
        rw [hinner] at hdenies
        cases hdenies
    | some inner =>
        rw [hinner] at hdenies
        exact ⟨inner, Term.negationOf?_eq_some_iff.1 hinner ▸ hmem, hdenies⟩
  · rintro ⟨inner, hmem, hequal⟩
    exact ⟨inner.negated, hmem, hequal⟩

end PathCondition

namespace DecisionProcedure

variable {path : PathCondition} {depth : Nat}

theorem syntacticDecideWithin_negated {inner : Term}
    (hopen : path.contains inner.negated = false) :
    syntacticDecideWithin path (depth + 1) inner.negated =
      (syntacticDecideWithin path depth inner).negate := by
  rw [syntacticDecideWithin, hopen]
  rfl

theorem syntacticDecideWithin_equal {left right : Term} (hsilent : path.Silent (.equal left right)) :
    syntacticDecideWithin path (depth + 1) (.equal left right) = left.decideEqual right := by
  rw [syntacticDecideWithin, hsilent.contains, hsilent.denies]
  rfl

theorem syntacticDecideWithin_conjoined {left right : Term}
    (hsilent : path.Silent (.conjoined left right)) :
    syntacticDecideWithin path (depth + 1) (.conjoined left right) =
      (syntacticDecideWithin path depth left).conjoin (syntacticDecideWithin path depth right) := by
  rw [syntacticDecideWithin, hsilent.contains, hsilent.denies]
  rfl

/-- How a definite answer is found, with so many levels left below the proposition. -/
inductive Finds (path : PathCondition) (depth : Nat) : Term → Bool → Prop
  | value {proposition : Term} {answer : Bool} (hvalue : proposition.asBool = some answer) :
      Finds path depth proposition answer
  | assumed {proposition : Term} (hassumed : path.contains proposition = true) :
      Finds path depth proposition true
  | negation {inner : Term} {answer : Bool} (hopen : path.contains inner.negated = false)
      (hinner : syntacticDecideWithin path depth inner = .ofBool !answer) :
      Finds path depth inner.negated answer
  | denied {proposition : Term} (hdenied : path.denies proposition = true) :
      Finds path depth proposition false
  | equality {left right : Term} {answer : Bool} (hsilent : path.Silent (.equal left right))
      (hanswer : left.decideEqual right = .ofBool answer) :
      Finds path depth (.equal left right) answer
  | conjunction {left right : Term} {answer : Bool} (hsilent : path.Silent (.conjoined left right))
      (hanswer : (syntacticDecideWithin path depth left).conjoin
        (syntacticDecideWithin path depth right) = .ofBool answer) :
      Finds path depth (.conjoined left right) answer

theorem finds_of_eq_ofBool {proposition : Term} {answer : Bool}
    (hanswer : syntacticDecideWithin path (depth + 1) proposition = .ofBool answer) :
    Finds path depth proposition answer := by
  rw [syntacticDecideWithin] at hanswer
  split at hanswer
  · rename_i value hvalue
    exact .value (Decision.ofBool_injective hanswer ▸ hvalue)
  split at hanswer
  · rename_i hcontains
    obtain rfl : true = answer := Decision.ofBool_injective hanswer
    exact .assumed hcontains
  rename_i hcontains
  have hopen : path.contains proposition = false := Bool.eq_false_iff.2 hcontains
  split at hanswer
  · rename_i inner hinner
    obtain rfl := Term.negationOf?_eq_some_iff.1 hinner
    exact .negation hopen (Decision.negate_eq_ofBool_iff.1 hanswer)
  split at hanswer
  · rename_i hdenies
    obtain rfl : false = answer := Decision.ofBool_injective hanswer
    exact .denied hdenies
  rename_i hdenies
  have hsilent : path.Silent proposition := ⟨hopen, Bool.eq_false_iff.2 hdenies⟩
  split at hanswer
  · rename_i left right _ hsides
    obtain rfl := PathCondition.equalityOf?_eq_some_iff.1 hsides
    exact .equality hsilent hanswer
  · rename_i left right _ hsides
    obtain rfl := Term.conjunctionOf?_eq_some_iff.1 hsides
    exact .conjunction hsilent hanswer
  · cases answer <;> cases hanswer

end DecisionProcedure

namespace Machine

open DecisionProcedure

variable {machine : Machine σ} {path : PathCondition}

/-- The answer follows from taking two terms for different that have the same value. A conjunction is
answered with `true` only if the other side is as well. -/
inductive Misled (machine : Machine σ) (path : PathCondition) : Nat → Term → Bool → Prop
  | equality {depth : Nat} {left right value value' : Term}
      (hsilent : path.Silent (.equal left right)) (hunequal : (left == right) = false)
      (hleft : machine.HasValue left value) (hright : machine.HasValue right value')
      (hvalues : (value == value') = true) :
      Misled machine path (depth + 1) (.equal left right) false
  | negation {depth : Nat} {inner : Term} {answer : Bool}
      (hopen : path.contains inner.negated = false)
      (hinner : Misled machine path depth inner !answer) :
      Misled machine path (depth + 1) inner.negated answer
  | left {depth : Nat} {left right : Term} {answer : Bool}
      (hsilent : path.Silent (.conjoined left right)) (hleft : Misled machine path depth left answer)
      (hright : answer = true → syntacticDecideWithin path depth right = .holds) :
      Misled machine path (depth + 1) (.conjoined left right) answer
  | right {depth : Nat} {left right : Term} {answer : Bool}
      (hsilent : path.Silent (.conjoined left right))
      (hright : Misled machine path depth right answer)
      (hleft : answer = true → syntacticDecideWithin path depth left = .holds) :
      Misled machine path (depth + 1) (.conjoined left right) answer

variable {depth : Nat} {proposition : Term} {answer : Bool}

theorem Misled.eq_ofBool (hmisled : machine.Misled path depth proposition answer)
    (hground : proposition.isGround = true) :
    syntacticDecideWithin path depth proposition = .ofBool answer := by
  induction hmisled with
  | @equality _ left right _ _ hsilent hunequal _ _ _ =>
      rw [Term.isGround_equal] at hground
      rw [syntacticDecideWithin_equal hsilent, Term.decideEqual, hunequal, hground]
      rfl
  | negation hopen _ ih =>
      rw [Term.isGround_negated] at hground
      rw [syntacticDecideWithin_negated hopen]
      exact Decision.negate_eq_ofBool_iff.2 (ih hground)
  | left hsilent _ hright ih =>
      rw [Term.isGround_conjoined, Bool.and_eq_true] at hground
      rw [syntacticDecideWithin_conjoined hsilent]
      exact Decision.conjoin_eq_ofBool_of_left (ih hground.1) hright
  | right hsilent _ hleft ih =>
      rw [Term.isGround_conjoined, Bool.and_eq_true] at hground
      rw [syntacticDecideWithin_conjoined hsilent]
      exact Decision.conjoin_eq_ofBool_of_right (ih hground.2) hleft

section Agreement

variable {terms : List Term} (hrespects : machine.RespectsEquality terms)
include hrespects

variable (hassumed : ∀ conjunct ∈ path.conjuncts,
  conjunct.subterms ⊆ terms ∧ machine.HasTruth conjunct true)
include hassumed

theorem HasTruth.eq_true_of_contains (hmem : proposition ∈ terms) {truth : Bool}
    (htruth : machine.HasTruth proposition truth) (hcontains : path.contains proposition = true) :
    truth = true := by
  obtain ⟨conjunct, hconjunct, hequal⟩ := PathCondition.contains_iff.1 hcontains
  obtain ⟨hsubset, htrue⟩ := hassumed conjunct hconjunct
  exact (hrespects.truth_eq (hsubset conjunct.self_mem_subterms) hmem hequal htrue htruth).symm

variable (hbuiltins : machine.definition.HasBuiltins)
include hbuiltins

theorem HasTruth.eq_false_of_denies (hmem : proposition ∈ terms) {truth : Bool}
    (htruth : machine.HasTruth proposition truth) (hdenies : path.denies proposition = true) :
    truth = false := by
  obtain ⟨inner, hinner, hequal⟩ := PathCondition.denies_iff.1 hdenies
  obtain ⟨hsubset, htrue⟩ := hassumed inner.negated hinner
  have hmem' : inner ∈ terms := hsubset (inner.subterms_subset_negated inner.self_mem_subterms)
  exact (hrespects.truth_eq hmem' hmem hequal (htrue.of_negated hbuiltins) htruth).symm

/-- An answer against the truth is one that the oracle is misled to. -/
theorem misled_of_eq_ofBool (hterms : proposition.subterms ⊆ terms)
    (htruth : machine.HasTruth proposition !answer)
    (hanswer : syntacticDecideWithin path depth proposition = .ofBool answer) :
    machine.Misled path depth proposition answer := by
  induction depth generalizing proposition answer with
  | zero => cases answer <;> cases hanswer
  | succ depth ih =>
      have hwrong : (!answer) ≠ answer := Bool.not_ne_self answer
      have hmem : proposition ∈ terms := hterms proposition.self_mem_subterms
      cases finds_of_eq_ofBool hanswer with
      | value hvalue => exact absurd (htruth.eq_of_asBool hvalue) hwrong
      | assumed hcontains =>
          exact absurd (htruth.eq_true_of_contains hrespects hassumed hmem hcontains) hwrong
      | denied hdenies =>
          exact absurd (htruth.eq_false_of_denies hrespects hassumed hbuiltins hmem hdenies) hwrong
      | @negation inner _ hopen hinner =>
          have hsubset := List.Subset.trans inner.subterms_subset_negated hterms
          exact .negation hopen (ih hsubset (htruth.of_negated hbuiltins) hinner)
      | @equality left right _ hsilent hcompared =>
          obtain ⟨value, value', hleft, hright, hvalues⟩ := htruth.of_equal hbuiltins
          unfold Term.decideEqual at hcompared
          split at hcompared
          · rename_i hequal
            obtain rfl : true = answer := Decision.ofBool_injective hcompared
            have hmem := hterms (Term.subterms_left_subset _ _ _ left.self_mem_subterms)
            have hmem' := hterms (Term.subterms_right_subset _ _ _ right.self_mem_subterms)
            have hsame := hrespects left hmem right hmem' hequal value value' hleft hright
            exact absurd (hvalues.symm.trans hsame) hwrong
          · rename_i hunequal
            split at hcompared
            · obtain rfl : false = answer := Decision.ofBool_injective hcompared
              exact .equality hsilent (Bool.eq_false_iff.2 hunequal) hleft hright hvalues
            · cases answer <;> cases hcompared
      | @conjunction left right _ hsilent hboth =>
          have hsubset := List.Subset.trans (Term.subterms_left_subset _ left right) hterms
          have hsubset' := List.Subset.trans (Term.subterms_right_subset _ left right) hterms
          rcases htruth.of_conjoined hbuiltins with ⟨htrue, hleft, hright⟩ | ⟨hfalse, hsides⟩
          · obtain rfl : answer = false := by simpa using htrue
            rcases Decision.conjoin_eq_fails_iff.1 hboth with hfails | hfails
            · exact .left hsilent (ih hsubset hleft hfails) nofun
            · exact .right hsilent (ih hsubset' hright hfails) nofun
          · obtain rfl : answer = true := by simpa using hfalse
            obtain ⟨hholds, hholds'⟩ := Decision.conjoin_eq_holds_iff.1 hboth
            rcases hsides with hleft | hright
            · exact .left hsilent (ih hsubset hleft hholds) fun _ => hholds'
            · exact .right hsilent (ih hsubset' hright hholds') fun _ => hholds

theorem eq_ofBool_iff_misled (hterms : proposition.subterms ⊆ terms)
    (hground : proposition.isGround = true) (htruth : machine.HasTruth proposition !answer) :
    syntacticDecideWithin path depth proposition = .ofBool answer ↔
      machine.Misled path depth proposition answer :=
  ⟨misled_of_eq_ofBool hrespects hassumed hbuiltins hterms htruth,
    fun hmisled => hmisled.eq_ofBool hground⟩

/-- No conjunct of a true path clashes with another one: what is refuted is refuted by itself. -/
theorem refutes_iff_misled {conjunct : Term} (hmem : conjunct ∈ path.conjuncts)
    (hground : conjunct.isGround = true) :
    refutes path conjunct = true ↔ machine.Misled .trivial syntacticDepth conjunct false := by
  obtain ⟨hterms, htrue⟩ := hassumed conjunct hmem
  have hnotFalse : machine.HasTruth conjunct !false := htrue
  have hmisled : syntacticDecide .trivial conjunct = .fails ↔
      machine.Misled .trivial syntacticDepth conjunct false :=
    eq_ofBool_iff_misled hrespects (List.forall_mem_nil _) hbuiltins hterms hground hnotFalse
  rw [refutes, Bool.or_eq_true, beq_iff_eq, hmisled, or_iff_left_iff_imp]
  intro hclash
  cases hinner : conjunct.negationOf? with
  | none =>
      rw [hinner] at hclash
      cases hclash
  | some inner =>
      rw [hinner] at hclash
      obtain rfl := Term.negationOf?_eq_some_iff.1 hinner
      have hfalse : machine.HasTruth inner false := htrue.of_negated hbuiltins
      have hmem' := hterms (inner.subterms_subset_negated inner.self_mem_subterms)
      exact absurd (hfalse.eq_true_of_contains hrespects hassumed hmem' hclash) Bool.false_ne_true

theorem syntacticRefine_ne_unsat_iff
    (hground : ∀ conjunct ∈ path.conjuncts, conjunct.isGround = true) :
    (∀ subst, syntacticRefine subst path ≠ .unsat) ↔
      ∀ conjunct ∈ path.conjuncts, ¬machine.Misled .trivial syntacticDepth conjunct false := by
  have hrefutes : (∀ subst, syntacticRefine subst path ≠ .unsat) ↔
      path.conjuncts.any (refutes path) = false := by
    simp [syntacticRefine]
  rw [hrefutes, List.any_eq_false]
  refine forall₂_congr fun conjunct hmem => ?_
  rw [refutes_iff_misled hrespects hassumed hbuiltins hmem (hground conjunct hmem)]

end Agreement

/-- Under a path of true ground propositions, the answer on a ground proposition with a truth value
is right or unknown, and the path is not refused, exactly when nothing misleads the oracle. What
occurs in them must not change its value with the order of cells or the state of the run. -/
theorem syntactic_agrees_iff (hbuiltins : machine.definition.HasBuiltins)
    (hrespects : machine.RespectsEquality (Term.subtermsAll (proposition :: path.conjuncts)))
    (hpath : ∀ conjunct ∈ path.conjuncts, conjunct.isGround = true ∧
      ∃ start next, machine.evaluate conjunct start = .ok (.bool true) next)
    (hground : proposition.isGround = true) {truth : Bool} {start next : RunState σ}
    (hrun : machine.evaluate proposition start = .ok (.bool truth) next) :
    ((syntactic.decide path proposition = .unknown ∨
          syntactic.decide path proposition = .ofBool truth) ∧
        ∀ subst, syntactic.refine subst path ≠ .unsat) ↔
      ¬machine.Misled path syntacticDepth proposition (!truth) ∧
        ∀ conjunct ∈ path.conjuncts, ¬machine.Misled .trivial syntacticDepth conjunct false := by
  have hterms : ∀ term ∈ proposition :: path.conjuncts,
      term.subterms ⊆ Term.subtermsAll (proposition :: path.conjuncts) :=
    fun term hmem part hpart => Term.mem_subtermsAll_iff.2 ⟨term, hmem, hpart⟩
  obtain ⟨hsubset, hsubsets⟩ := List.forall_mem_cons.1 hterms
  have hassumed : ∀ conjunct ∈ path.conjuncts,
      conjunct.subterms ⊆ Term.subtermsAll (proposition :: path.conjuncts) ∧
        machine.HasTruth conjunct true :=
    fun conjunct hmem =>
      ⟨hsubsets conjunct hmem, .bool true, (hpath conjunct hmem).2, Term.asBool_bool true⟩
  have htruth : machine.HasTruth proposition !!truth :=
    ⟨.bool truth, ⟨start, next, hrun⟩, by rw [Term.asBool_bool, Bool.not_not]⟩
  apply and_congr
  · rw [Decision.agrees_iff]
    exact not_congr (eq_ofBool_iff_misled hrespects hassumed hbuiltins hsubset hground htruth)
  · exact syntacticRefine_ne_unsat_iff hrespects hassumed hbuiltins fun conjunct hmem =>
      (hpath conjunct hmem).1

end Machine

namespace Traffic

def red : Term := .app "red" []

def green : Term := .app "green" []

/-- What follows red is green. -/
def machine : Machine Unit where
  definition := .assemble (Signature.builtins.map .symbol ++
    [.symbol ⟨"red", 0, Symbol.top, .constructor⟩,
      .symbol ⟨"green", 0, Symbol.top, .constructor⟩,
      .symbol ⟨"after", 1, Symbol.top, .function none⟩,
      .rule { lhs := .app "after" [red], rhs := green }])
  oracle := DecisionProcedure.syntactic.toOracle Unit

def turnsGreen : Term := .equal (.app "after" [red]) green

def assumption : Term := .equal green green

theorem hasBuiltins : machine.definition.HasBuiltins := by
  intro signature hmem
  obtain ⟨builtin, -, rfl⟩ := List.mem_map.1 hmem
  cases builtin <;> rfl

theorem respectsEquality (terms : List Term) : machine.RespectsEquality terms := by
  have honly : machine.definition.OnlyBuiltins :=
    Definition.onlyBuiltins_assemble Builtin.standard rfl
  have hfresh : machine.definition.WithoutFresh := by
    unfold Definition.WithoutFresh
    decide +kernel
  have hordered : machine.definition.OrderedFunctions := by
    unfold Definition.OrderedFunctions
    decide +kernel
  exact Machine.respectsEquality_of_congruent ⟨hfresh, honly.everyHook Builtin.ignoresIds⟩
    ⟨hfresh, hordered, honly.everyHook Builtin.respectsEquality⟩ terms

/-- A run that is seen to end with a truth value. -/
theorem exists_evaluate_eq {proposition : Term} {truth : Bool}
    (hsucceeds : (machine.evaluate proposition).succeedsWith { environment := () }
      (fun value => value == .bool truth) = true) :
    ∃ start next, machine.evaluate proposition start = .ok (.bool truth) next := by
  obtain ⟨value, next, hrun, hequal⟩ := Run.exists_of_succeedsWith hsucceeds
  cases truth <;> cases Term.EqualTo.sameForm hequal <;> exact ⟨_, next, hrun⟩

theorem exists_hasValue {term : Term}
    (hsucceeds : (machine.evaluate term).succeedsWith { environment := () }
      (fun value => value == green) = true) :
    ∃ value, machine.HasValue term value ∧ value.EqualTo green := by
  obtain ⟨value, next, hrun, hequal⟩ := Run.exists_of_succeedsWith hsucceeds
  exact ⟨value, ⟨_, next, hrun⟩, hequal⟩

theorem misled_turnsGreen (path : PathCondition) (depth : Nat) (hsilent : path.Silent turnsGreen) :
    machine.Misled path (depth + 1) turnsGreen false := by
  obtain ⟨value, hvalue, hgreen⟩ :=
    exists_hasValue (by decide +kernel : (machine.evaluate (.app "after" [red])).succeedsWith _ _ = true)
  obtain ⟨value', hvalue', hgreen'⟩ :=
    exists_hasValue (by decide +kernel : (machine.evaluate green).succeedsWith _ _ = true)
  exact .equality hsilent (by decide +kernel) hvalue hvalue' (hgreen.trans hgreen'.symm)

theorem syntactic_agrees_iff_traffic :
    machine.definition.HasBuiltins ∧
      machine.RespectsEquality (Term.subtermsAll [turnsGreen.negated, assumption]) ∧
      (∀ conjunct ∈ [assumption], conjunct.isGround = true ∧
        ∃ start next, machine.evaluate conjunct start = .ok (.bool true) next) ∧
      turnsGreen.negated.isGround = true ∧
      (∃ start next, machine.evaluate turnsGreen.negated start = .ok (.bool false) next) ∧
      machine.Misled ⟨[assumption]⟩ DecisionProcedure.syntacticDepth turnsGreen.negated true ∧
      ¬((DecisionProcedure.syntactic.decide ⟨[assumption]⟩ turnsGreen.negated = .unknown ∨
          DecisionProcedure.syntactic.decide ⟨[assumption]⟩ turnsGreen.negated = .ofBool false) ∧
        ∀ subst, DecisionProcedure.syntactic.refine subst ⟨[assumption]⟩ ≠ .unsat) := by
  have hpath : ∀ conjunct ∈ [assumption], conjunct.isGround = true ∧
      ∃ start next, machine.evaluate conjunct start = .ok (.bool true) next :=
    List.forall_mem_singleton.2 ⟨by decide +kernel, exists_evaluate_eq (by decide +kernel)⟩
  have hground : turnsGreen.negated.isGround = true := by decide +kernel
  have hvalue : ∃ start next, machine.evaluate turnsGreen.negated start = .ok (.bool false) next :=
    exists_evaluate_eq (by decide +kernel)
  have hmisled : machine.Misled ⟨[assumption]⟩ DecisionProcedure.syntacticDepth turnsGreen.negated
      true :=
    .negation (by decide +kernel) (misled_turnsGreen _ _ ⟨by decide +kernel, by decide +kernel⟩)
  obtain ⟨start, next, hrun⟩ := hvalue
  have hiff := Machine.syntactic_agrees_iff hasBuiltins (respectsEquality _) hpath hground hrun
  exact ⟨hasBuiltins, respectsEquality _, hpath, hground, ⟨start, next, hrun⟩, hmisled,
    fun hagrees => (hiff.1 hagrees).1 hmisled⟩

/-- What follows red is green, but the oracle denies it, and refuses a path that assumes it. -/
theorem not_syntactic_agrees_traffic :
    machine.definition.HasBuiltins ∧ turnsGreen.isGround = true ∧
      (∃ start next, machine.evaluate turnsGreen start = .ok (.bool true) next) ∧
      DecisionProcedure.syntactic.decide .trivial turnsGreen = .fails ∧
      DecisionProcedure.syntactic.refine .empty ⟨[turnsGreen]⟩ = .unsat := by
  refine ⟨hasBuiltins, by decide +kernel, exists_evaluate_eq (by decide +kernel), ?_, ?_⟩
  · decide +kernel
  · rfl

end Traffic

end SymbolicRewriting
