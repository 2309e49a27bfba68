import SymbolicRewriting.Proofs.SyntacticAnswers
import SymbolicRewriting.Proofs.Valuation

/-!
What the syntactic oracle answers is true under every reading of the terms that makes the path true.
A reading need not come from evaluation: equality may hold between terms with variables as it likes,
as long as it holds between equal terms and fails between different ground ones.
-/

namespace SymbolicRewriting

variable {σ : Type}

theorem Term.exists_token_of_asBool {term : Term} {truth : Bool} (hvalue : term.asBool = some truth) :
    ∃ sort, term = .token sort (if truth then "true" else "false") := by
  unfold Term.asBool at hvalue
  split at hvalue
  · split at hvalue
    · rename_i htrue
      cases hvalue
      exact ⟨_, by rw [htrue]; rfl⟩
    · obtain ⟨hfalse, hsome⟩ := Option.ite_none_right_eq_some.1 hvalue
      cases hsome
      exact ⟨_, by rw [hfalse]; rfl⟩
  · cases hvalue

/-- A valuation that knows the truth values, and the equalities that the two sides alone decide. -/
structure Valuation.ReadsSyntax (valuation : Valuation) : Prop where
  value_of_asBool : ∀ {term : Term} {truth : Bool}, term.asBool = some truth →
    valuation.value term = truth
  value_equal : ∀ {left right : Term}, (left == right) = true →
    valuation.value (.equal left right) = true
  value_unequal : ∀ {left right : Term}, left.isGround = true → right.isGround = true →
    (left == right) = false → valuation.value (.equal left right) = false

namespace Valuation

variable {valuation : Valuation} {path : PathCondition} {proposition : Term} {answer : Bool}

theorem value_of_denies (hpath : valuation.Satisfies path)
    (hdenies : path.denies proposition = true) : valuation.value proposition = false := by
  obtain ⟨inner, hmem, hequal⟩ := PathCondition.denies_iff.1 hdenies
  have htrue : valuation.value inner.negated = true := hpath _ hmem
  rw [valuation.value_negated, Bool.not_eq_true'] at htrue
  rw [← valuation.value_eq_of_beq hequal, htrue]

namespace ReadsSyntax

theorem value_of_decideEqual (hreads : valuation.ReadsSyntax) {left right : Term}
    (hanswer : left.decideEqual right = .ofBool answer) :
    valuation.value (.equal left right) = answer := by
  unfold Term.decideEqual at hanswer
  split at hanswer
  · rename_i hequal
    obtain rfl : true = answer := Decision.ofBool_injective hanswer
    exact hreads.value_equal hequal
  · rename_i hunequal
    split at hanswer
    · rename_i hground
      rw [Bool.and_eq_true] at hground
      obtain rfl : false = answer := Decision.ofBool_injective hanswer
      exact hreads.value_unequal hground.1 hground.2 (Bool.eq_false_iff.2 hunequal)
    · cases answer <;> cases hanswer

/-- By induction on the levels that are left: at the last one nothing is answered, and what is
answered above it rests on what is answered below. -/
theorem value_of_syntacticDecideWithin (hreads : valuation.ReadsSyntax)
    (hpath : valuation.Satisfies path) {depth : Nat}
    (hanswer : DecisionProcedure.syntacticDecideWithin path depth proposition = .ofBool answer) :
    valuation.value proposition = answer := by
  induction depth generalizing proposition answer with
  | zero => cases answer <;> cases hanswer
  | succ depth ih =>
      cases DecisionProcedure.finds_of_eq_ofBool hanswer with
      | value hvalue => exact hreads.value_of_asBool hvalue
      | assumed hcontains => exact value_of_contains hpath hcontains
      | denied hdenies => exact value_of_denies hpath hdenies
      | equality _ hcompared => exact hreads.value_of_decideEqual hcompared
      | negation _ hinner => rw [valuation.value_negated, ih hinner, Bool.not_not]
      | @conjunction left right _ _ hboth =>
          rw [valuation.value_conjoined]
          cases answer with
          | true =>
              obtain ⟨hleft, hright⟩ := Decision.conjoin_eq_holds_iff.1 hboth
              have htrue : valuation.value left = true := ih hleft
              have htrue' : valuation.value right = true := ih hright
              rw [htrue, htrue', Bool.and_self]
          | false =>
              rcases Decision.conjoin_eq_fails_iff.1 hboth with hleft | hright
              · have hfalse : valuation.value left = false := ih hleft
                rw [hfalse, Bool.false_and]
              · have hfalse : valuation.value right = false := ih hright
                rw [hfalse, Bool.and_false]

/-- A true path has neither a conjunct that is false by itself nor two that deny each other. -/
theorem refutes_eq_false (hreads : valuation.ReadsSyntax) (hpath : valuation.Satisfies path)
    {conjunct : Term} (hmem : conjunct ∈ path.conjuncts) :
    DecisionProcedure.refutes path conjunct = false := by
  have htrue : valuation.value conjunct = true := hpath conjunct hmem
  rw [DecisionProcedure.refutes, Bool.or_eq_false_iff]
  constructor
  · rw [beq_eq_false_iff_ne]
    intro hfails
    have hfalse : valuation.value conjunct = false :=
      hreads.value_of_syntacticDecideWithin (satisfies_of_isTrivial valuation rfl) hfails
    exact absurd (hfalse.symm.trans htrue) Bool.false_ne_true
  · cases hinner : conjunct.negationOf? with
    | none => rfl
    | some inner =>
        obtain rfl := Term.negationOf?_eq_some_iff.1 hinner
        rw [valuation.value_negated, Bool.not_eq_true'] at htrue
        rw [Option.any_some, Bool.eq_false_iff]
        intro hcontains
        exact absurd (htrue.symm.trans (value_of_contains hpath hcontains)) Bool.false_ne_true

end ReadsSyntax

end Valuation

/-- If all of the conclusions are said to hold, then each of them is decided to. -/
theorem Decision.holds_of_ofAll_eq_holds {decide : Term → Decision} {conclusions : List Term}
    {result : Decision} (hholds : (ofAll (fun conclusion (_ : Unit) => (decide conclusion, ()))
      conclusions result ()).1 = .holds) :
    result = .holds ∧ ∀ conclusion ∈ conclusions, decide conclusion = .holds := by
  induction conclusions generalizing result with
  | nil => exact ⟨hholds, List.forall_mem_nil _⟩
  | cons conclusion conclusions ih =>
      unfold ofAll at hholds
      cases hdecided : decide conclusion with
      | holds =>
          rw [hdecided] at hholds
          obtain ⟨hresult, hothers⟩ := ih hholds
          exact ⟨hresult, List.forall_mem_cons.2 ⟨hdecided, hothers⟩⟩
      | fails =>
          rw [hdecided] at hholds
          cases hholds
      | unknown =>
          rw [hdecided] at hholds
          cases (ih hholds).1

namespace Valuation

/-- Are there two arguments that are equal terms? -/
def looksEqual (args : List Term) : Bool :=
  match args with
  | [left, right] => left == right
  | _ => false

/-- A connective by the truth values of its arguments, an equality by the arguments themselves. -/
def interpret (label : Label) (args : List Term) (values : List Bool) : Bool :=
  if label = Symbol.equality then looksEqual args else connect label values

mutual

/-- The truth value of a term, if two terms are equal exactly when they look equal. -/
def atFaceValue : Term → Bool
  | .token _ value => value == "true"
  | .app label args => interpret label args (atFaceValueAll args)
  | .var _ => false
  | .sequence _ _ => false
  | .collection _ _ => false

def atFaceValueAll : List Term → List Bool
  | [] => []
  | term :: terms => atFaceValue term :: atFaceValueAll terms

end

theorem looksEqual_of_equalsAll {args args' : List Term} (hequal : Term.equalsAll args args' = true) :
    looksEqual args = looksEqual args' := by
  match args, args', Term.forall₂_of_equalsAll hequal with
  | [], [], _ => rfl
  | [_], [_], _ => rfl
  | [_, _], [_, _], .cons hleft (.cons hright _) => exact hleft.beq_eq hright
  | _ :: _ :: _ :: _, _ :: _ :: _ :: _, _ => rfl

mutual

theorem atFaceValue_of_equals : (left right : Term) → left.equals right = true →
    atFaceValue left = atFaceValue right
  | .token _ _, .token _ _, hequal => by
      simp only [Term.equals, Bool.and_eq_true, beq_iff_eq] at hequal
      simp [atFaceValue, hequal.2]
  | .app _ args, .app _ args', hequal => by
      simp only [Term.equals, Bool.and_eq_true, beq_iff_eq] at hequal
      simp [atFaceValue, interpret, hequal.1, looksEqual_of_equalsAll hequal.2,
        atFaceValueAll_of_equalsAll args args' hequal.2]
  | .var _, .var _, _ => rfl
  | .sequence _ _, .sequence _ _, _ => rfl
  | .collection _ _, .collection _ _, _ => rfl

theorem atFaceValueAll_of_equalsAll : (left right : List Term) →
    Term.equalsAll left right = true → atFaceValueAll left = atFaceValueAll right
  | [], [], _ => rfl
  | term :: terms, term' :: terms', hequal => by
      simp only [Term.equalsAll, Bool.and_eq_true] at hequal
      simp [atFaceValueAll, atFaceValue_of_equals term term' hequal.1,
        atFaceValueAll_of_equalsAll terms terms' hequal.2]

end

def faceValue : Valuation where
  value := atFaceValue
  value_eq_of_beq hequal := by
    rw [Term.beq_eq_equals] at hequal
    exact atFaceValue_of_equals _ _ hequal
  value_negated term := by
    simp [Term.negated, atFaceValue, atFaceValueAll, interpret, connect, Symbol.negation,
      Symbol.equality]
  value_conjoined left right := by
    simp [Term.conjoined, atFaceValue, atFaceValueAll, interpret, connect, Symbol.conjunction,
      Symbol.equality]

theorem value_faceValue_equal (left right : Term) :
    faceValue.value (.equal left right) = (left == right) := by
  simp [faceValue, Term.equal, atFaceValue, interpret, looksEqual]

theorem faceValue_readsSyntax : faceValue.ReadsSyntax where
  value_of_asBool {term truth} hvalue := by
    obtain ⟨sort, rfl⟩ := Term.exists_token_of_asBool hvalue
    cases truth <;> rfl
  value_equal {left right} hequal := by rw [value_faceValue_equal, hequal]
  value_unequal {left right} _ _ hunequal := by rw [value_faceValue_equal, hunequal]

/-- Every definite answer is true wherever the path is. -/
theorem ReadsSyntax.syntactic_sound {valuation : Valuation} {path : PathCondition}
    (hreads : valuation.ReadsSyntax) (hpath : valuation.Satisfies path) :
    (∀ proposition,
        (DecisionProcedure.syntactic.decide path proposition = .holds →
          valuation.value proposition = true) ∧
        (DecisionProcedure.syntactic.decide path proposition = .fails →
          valuation.value proposition = false)) ∧
      (∀ (conclusion : PathCondition) (state : σ),
        ((DecisionProcedure.syntactic.toOracle σ).implies path conclusion state).1 = .holds →
          valuation.Satisfies conclusion) ∧
      ∀ subst, DecisionProcedure.syntactic.refine subst path ≠ .unsat := by
  have hdecides : ∀ proposition answer, DecisionProcedure.syntactic.decide path proposition =
      .ofBool answer → valuation.value proposition = answer :=
    fun _ _ hanswer => hreads.value_of_syntacticDecideWithin hpath hanswer
  refine ⟨fun proposition => ⟨hdecides proposition true, hdecides proposition false⟩, ?_, ?_⟩
  · intro conclusion state hholds conjunct hmem
    have hdecided := (Decision.holds_of_ofAll_eq_holds hholds).2 conjunct hmem
    exact hdecides conjunct true hdecided
  · intro subst hunsat
    have hnone : path.conjuncts.any (DecisionProcedure.refutes path) = false :=
      List.any_eq_false.2 fun conjunct hmem =>
        Bool.eq_false_iff.1 (hreads.refutes_eq_false hpath hmem)
    change DecisionProcedure.syntacticRefine subst path = .unsat at hunsat
    rw [DecisionProcedure.syntacticRefine, hnone] at hunsat
    cases hunsat

end Valuation

namespace Riddle

def guess : Term := .var ⟨"Guess", Symbol.int, .plain⟩

def other : Term := .var ⟨"Other", Symbol.bool, .plain⟩

/-- The guess is not one, and one is not two. -/
def path : PathCondition :=
  ⟨[(Term.equal guess (.int 1)).negated, (Term.equal (.int 1) (.int 2)).negated.negated.negated]⟩

/-- It is not the case that the guess is one and the rest holds. -/
def conclusion : PathCondition :=
  ⟨[((Term.equal guess (.int 1)).conjoined other).negated, .equal guess guess]⟩

theorem satisfies_path : Valuation.faceValue.Satisfies path := by
  unfold Valuation.Satisfies
  decide +kernel

theorem syntactic_sound_path :
    Valuation.faceValue.ReadsSyntax ∧ Valuation.faceValue.Satisfies path ∧
      DecisionProcedure.syntactic.decide path (.equal guess (.int 1)) = .fails ∧
      Valuation.faceValue.value (.equal guess (.int 1)) = false ∧
      ((DecisionProcedure.syntactic.toOracle Unit).implies path conclusion ()).1 = .holds ∧
      Valuation.faceValue.Satisfies conclusion ∧
      DecisionProcedure.syntactic.refine .empty path ≠ .unsat := by
  obtain ⟨hdecided, himplied, hrefined⟩ :=
    Valuation.faceValue_readsSyntax.syntactic_sound satisfies_path
  have hfails : DecisionProcedure.syntactic.decide path (.equal guess (.int 1)) = .fails := by
    decide +kernel
  have hholds : ((DecisionProcedure.syntactic.toOracle Unit).implies path conclusion ()).1 =
      .holds := by
    decide +kernel
  exact ⟨Valuation.faceValue_readsSyntax, satisfies_path, hfails, (hdecided _).2 hfails, hholds,
    himplied conclusion () hholds, hrefined .empty⟩

end Riddle

end SymbolicRewriting
