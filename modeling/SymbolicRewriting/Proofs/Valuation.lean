import SymbolicRewriting.Machine.Symbolic

/-!
Valuations of propositions by truth values. A valuation satisfies a path condition if it makes every
conjunct true, and it satisfies the negation of a guard exactly if it does not satisfy the guard.
-/

namespace SymbolicRewriting

/-- An assignment of truth values to terms that respects the equality of terms, negation and
conjunction. -/
structure Valuation where
  value : Term → Bool
  value_eq_of_beq : ∀ {left right : Term}, (left == right) = true → value left = value right
  value_negated : ∀ term, value (.negated term) = !value term
  value_conjoined : ∀ left right, value (.conjoined left right) = (value left && value right)

namespace Valuation

def Satisfies (valuation : Valuation) (path : PathCondition) : Prop :=
  ∀ conjunct ∈ path.conjuncts, valuation.value conjunct = true

theorem satisfies_of_isTrivial {path : PathCondition} (valuation : Valuation)
    (htrivial : path.isTrivial = true) : valuation.Satisfies path := by
  intro conjunct hmem
  rw [List.isEmpty_iff.1 htrivial] at hmem
  cases hmem

theorem value_of_contains {valuation : Valuation} {path : PathCondition} {proposition : Term}
    (hpath : valuation.Satisfies path) (hcontains : path.contains proposition = true) :
    valuation.value proposition = true := by
  obtain ⟨conjunct, hmem, hequal⟩ := List.any_eq_true.1 hcontains
  rw [← valuation.value_eq_of_beq hequal]
  exact hpath conjunct hmem

/-- Whether or not the path has the proposition already. -/
theorem satisfies_assume {valuation : Valuation} {path : PathCondition} {proposition : Term} :
    valuation.Satisfies (path.assume proposition) ↔
      valuation.Satisfies path ∧ valuation.value proposition = true := by
  unfold PathCondition.assume
  split
  · rename_i hcontains
    exact ⟨fun hpath => ⟨hpath, value_of_contains hpath hcontains⟩, And.left⟩
  · simp only [Satisfies, List.mem_append, List.mem_singleton, or_imp, forall_and, forall_eq]

theorem satisfies_assumeAll {valuation : Valuation} {path : PathCondition}
    {propositions : List Term} :
    valuation.Satisfies (path.assumeAll propositions) ↔
      valuation.Satisfies path ∧
        ∀ proposition ∈ propositions, valuation.value proposition = true := by
  induction propositions generalizing path with
  | nil => simp [PathCondition.assumeAll]
  | cons proposition propositions ih =>
      change valuation.Satisfies ((path.assume proposition).assumeAll propositions) ↔ _
      rw [ih, satisfies_assume, List.forall_mem_cons, and_assoc]

theorem satisfies_and {valuation : Valuation} {path other : PathCondition} :
    valuation.Satisfies (path.and other) ↔
      valuation.Satisfies path ∧ valuation.Satisfies other :=
  satisfies_assumeAll

theorem value_foldl_conjoined (valuation : Valuation) (first : Term) (others : List Term) :
    valuation.value (others.foldl Term.conjoined first) =
      (valuation.value first && others.all valuation.value) := by
  induction others generalizing first with
  | nil => simp
  | cons other others ih =>
      rw [List.foldl_cons, ih, valuation.value_conjoined, List.all_cons, Bool.and_assoc]

/-- The negation of a guard is true exactly where one of its conjuncts is false. -/
theorem value_negation {valuation : Valuation} {guard : PathCondition}
    (hguard : guard.isTrivial = false) :
    valuation.value guard.negation = true ↔ ¬valuation.Satisfies guard := by
  obtain ⟨conjuncts⟩ := guard
  cases conjuncts with
  | nil => simp [PathCondition.isTrivial] at hguard
  | cons first others =>
      simp only [PathCondition.negation, valuation.value_negated, value_foldl_conjoined,
        Satisfies, List.forall_mem_cons]
      rw [Bool.not_eq_true', ← Bool.not_eq_true, Bool.and_eq_true, List.all_eq_true]

/-- The truth value of an application whose arguments have the given ones. -/
def connect (label : Label) (values : List Bool) : Bool :=
  match values with
  | [value] => label == Symbol.negation && !value
  | [left, right] => label == Symbol.conjunction && left && right
  | _ => false

mutual

/-- The truth value of a term, if nothing holds that is not written out. -/
def literally : Term → Bool
  | .token _ value => value == "true"
  | .app label args => connect label (literallyAll args)
  | .var _ => false
  | .sequence _ _ => false
  | .collection _ _ => false

def literallyAll : List Term → List Bool
  | [] => []
  | term :: terms => literally term :: literallyAll terms

end

mutual

theorem literally_of_equals : (left right : Term) → left.equals right = true →
    literally left = literally right
  | .token _ _, .token _ _, hequal => by
      simp only [Term.equals, Bool.and_eq_true, beq_iff_eq] at hequal
      simp [literally, hequal.2]
  | .app _ args, .app _ args', hequal => by
      simp only [Term.equals, Bool.and_eq_true, beq_iff_eq] at hequal
      simp [literally, hequal.1, literallyAll_of_equalsAll args args' hequal.2]
  | .var _, .var _, _ => rfl
  | .sequence _ _, .sequence _ _, _ => rfl
  | .collection _ _, .collection _ _, _ => rfl

theorem literallyAll_of_equalsAll : (left right : List Term) →
    Term.equalsAll left right = true → literallyAll left = literallyAll right
  | [], [], _ => rfl
  | term :: terms, term' :: terms', hequal => by
      simp only [Term.equalsAll, Bool.and_eq_true] at hequal
      simp [literallyAll, literally_of_equals term term' hequal.1,
        literallyAll_of_equalsAll terms terms' hequal.2]

end

def literal : Valuation where
  value := literally
  value_eq_of_beq hequal := by
    rw [Term.beq_eq_equals] at hequal
    exact literally_of_equals _ _ hequal
  value_negated term := by simp [Term.negated, literally, literallyAll, connect]
  value_conjoined left right := by simp [Term.conjoined, literally, literallyAll, connect]

end Valuation

end SymbolicRewriting
