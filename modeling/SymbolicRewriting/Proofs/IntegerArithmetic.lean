import Mathlib.Data.Nat.Digits.Defs
import SymbolicRewriting.Builtin
import SymbolicRewriting.Proofs.TermEquality

/-!
# Arithmetic on words

The integers of a definition are decimal texts. A hook reads its arguments, works on the integers that
they say and writes the result, so it is exact wherever the result is a word: nothing wraps around, and
nothing is lost between the text and the number. Text with a plus or with leading zeros is read as well,
but never written.
-/

namespace SymbolicRewriting

namespace Decimal

/-- At least one digit, and the number that the digits say, the first of them counting most. -/
structure Digits (digits : List Char) (number : Nat) : Prop where
  ne_nil : digits ≠ []
  isDigit : ∀ digit ∈ digits, digit.isDigit = true
  number_eq : number = Nat.ofDigits 10 (digits.reverse.map fun digit => digit.toNat - '0'.toNat)

/-- At most one sign before the digits. -/
inductive Numeral : List Char → Int → Prop
  | unsigned {digits : List Char} {number : Nat} (hdigits : Digits digits number) :
      Numeral digits number
  | positive {digits : List Char} {number : Nat} (hdigits : Digits digits number) :
      Numeral ('+' :: digits) number
  | negative {digits : List Char} {number : Nat} (hdigits : Digits digits number) :
      Numeral ('-' :: digits) (-number)

theorem ofDigitChars_eq (digits : List Char) (before : Nat) :
    Nat.ofDigitChars 10 digits before =
      Nat.ofDigits 10 (digits.reverse.map fun digit => digit.toNat - '0'.toNat) +
        10 ^ digits.length * before := by
  induction digits generalizing before with
  | nil => simp
  | cons digit digits ih =>
      rw [Nat.ofDigitChars_cons, ih, List.reverse_cons, List.map_append, Nat.ofDigits_append,
        List.length_map, List.length_reverse, List.map_singleton, Nat.ofDigits_singleton,
        List.length_cons, Nat.pow_succ]
      ring

theorem magnitude?_eq_some_iff {digits : List Char} {number : Nat} :
    magnitude? digits = some number ↔ Digits digits number := by
  have hvalue := ofDigitChars_eq digits 0
  rw [Nat.mul_zero, Nat.add_zero] at hvalue
  unfold magnitude?
  constructor
  · intro hnumber
    obtain ⟨hdigits, hnumber⟩ := Option.ite_none_left_eq_some.1 hnumber
    rw [Bool.or_eq_true, not_or, List.isEmpty_iff, Bool.not_eq_true', Bool.not_eq_false,
      List.all_eq_true] at hdigits
    exact ⟨hdigits.1, hdigits.2, by rw [← hvalue, Option.some.inj hnumber]⟩
  · rintro ⟨hne, hdigits, rfl⟩
    rw [if_neg (by simp [hne, List.all_eq_true.2 hdigits]), hvalue]

theorem Digits.ne_cons {digits : List Char} {number : Nat} (hdigits : Digits digits number)
    {sign : Char} (hsign : sign.isDigit = false) (rest : List Char) : digits ≠ sign :: rest := by
  rintro rfl
  have hdigit := hdigits.isDigit sign List.mem_cons_self
  rw [hsign] at hdigit
  cases hdigit

theorem read?_eq_some_iff {text : String} {value : Int} :
    read? text = some value ↔ Numeral text.toList value := by
  unfold read?
  constructor
  · intro hvalue
    split at hvalue
    all_goals obtain ⟨number, hnumber, rfl⟩ := Option.map_eq_some_iff.1 hvalue
    all_goals rw [magnitude?_eq_some_iff] at hnumber
    · rename_i hsign
      exact hsign ▸ .negative hnumber
    · rename_i hsign
      exact hsign ▸ .positive hnumber
    · exact .unsigned hnumber
  · generalize text.toList = chars
    rintro (hdigits | hdigits | hdigits)
    · have hminus : ∀ rest, chars ≠ '-' :: rest := hdigits.ne_cons rfl
      have hplus : ∀ rest, chars ≠ '+' :: rest := hdigits.ne_cons rfl
      split
      · exact absurd rfl (hminus _)
      · exact absurd rfl (hplus _)
      · rw [magnitude?_eq_some_iff.2 hdigits]
        rfl
    · simp [magnitude?_eq_some_iff.2 hdigits]
    · simp [magnitude?_eq_some_iff.2 hdigits]

theorem readWord?_eq_some_iff {text : String} {value : Int} :
    readWord? text = some value ↔ Numeral text.toList value ∧ IsWord value := by
  rw [readWord?_eq, Option.filter_eq_some_iff, read?_eq_some_iff, decide_eq_true_eq]

end Decimal

namespace Term

/-- An `Int` token that says the word. -/
def SaysWord (term : Term) (value : Int) : Prop :=
  ∃ text, term = .token Symbol.int text ∧ Decimal.Numeral text.toList value ∧ Decimal.IsWord value

theorem asInt_eq_some_iff {term : Term} {value : Int} :
    term.asInt = some value ↔ term.SaysWord value := by
  constructor
  · intro hvalue
    cases term with
    | token sort text =>
        obtain ⟨rfl, hword⟩ := Option.ite_none_right_eq_some.1 hvalue
        exact ⟨text, rfl, Decimal.readWord?_eq_some_iff.1 hword⟩
    | var _ | app _ _ | sequence _ _ | collection _ _ => cases hvalue
  · rintro ⟨text, rfl, hword⟩
    rw [asInt, if_pos rfl, Decimal.readWord?_eq_some_iff]
    exact hword

theorem asInt_eq_none_iff {term : Term} : term.asInt = none ↔ ∀ value, ¬term.SaysWord value := by
  simp only [← asInt_eq_some_iff, Option.eq_none_iff_forall_ne_some, ne_eq]

theorem beq_int (left right : Int) : (int left == int right) = decide (left = right) := by
  rw [beq_eq_equals, Bool.eq_iff_iff, decide_eq_true_eq]
  simp only [int, equals, beq_self_eq_true, Bool.true_and, beq_iff_eq]
  constructor
  · intro hwritten
    have hread := congrArg Decimal.read? hwritten
    rw [Decimal.read?_write, Decimal.read?_write] at hread
    exact Option.some.inj hread
  · rintro rfl
    rfl

theorem saysWord_int {value : Int} (hword : Decimal.IsWord value) : (int value).SaysWord value :=
  asInt_eq_some_iff.1 (asInt_int hword)

end Term

/-! ### Division -/

namespace Decimal

variable {left right : Int}

/-- The quotient exists and is a word: nothing is divided by zero, and the least word is not divided by
minus one. -/
def Divides (left right : Int) : Prop :=
  right ≠ 0 ∧ ¬(left = -0x8000000000000000 ∧ right = -1)

/-- The division rounded toward zero: the remainder is smaller than the divisor, and it has the sign of
the dividend. -/
structure Division (left right quotient remainder : Int) : Prop where
  eq : left = quotient * right + remainder
  lt : |remainder| < |right|
  sign : remainder = 0 ∨ remainder.sign = left.sign

theorem division_tdiv_tmod (hright : right ≠ 0) :
    Division left right (left.tdiv right) (left.tmod right) where
  eq := (Int.tdiv_mul_add_tmod left right).symm
  lt := by
    rw [Int.abs_eq_natAbs, Int.abs_eq_natAbs, Int.natAbs_tmod, Int.ofNat_lt]
    exact Nat.mod_lt _ (Int.natAbs_pos.2 hright)
  sign := by
    rw [Int.sign_tmod]
    split
    · rename_i hdvd
      exact .inl (Int.tmod_eq_zero_of_dvd hdvd)
    · exact .inr rfl

/-- A remainder is no larger than the dividend, and of the same sign. -/
theorem isWord_tmod (hleft : IsWord left) : IsWord (left.tmod right) := by
  have hle : (left.tmod right).natAbs ≤ left.natAbs := by
    rw [Int.natAbs_tmod]
    exact Nat.mod_le _ _
  unfold IsWord at hleft ⊢
  rcases Int.le_total 0 left with hpositive | hnegative
  · have := Int.tmod_nonneg right hpositive
    omega
  · have := Int.tmod_nonneg right (Int.neg_nonneg_of_nonpos hnegative)
    rw [Int.neg_tmod] at this
    omega

/-- A quotient is at most half as large as the dividend, unless the divisor is one or minus one. -/
theorem isWord_tdiv_iff (hleft : IsWord left) (hright : right ≠ 0) :
    IsWord (left.tdiv right) ↔ ¬(left = -0x8000000000000000 ∧ right = -1) := by
  unfold IsWord at hleft ⊢
  by_cases hone : right.natAbs = 1
  · rcases Int.natAbs_eq_iff.1 hone with rfl | rfl
    · rw [Int.ofNat_one, Int.tdiv_one]
      exact iff_of_true hleft fun hover => absurd hover.2 (by decide)
    · rw [Int.ofNat_one, Int.tdiv_neg, Int.tdiv_one]
      omega
  · have hhalf : (left.tdiv right).natAbs ≤ left.natAbs / 2 := by
      rw [Int.natAbs_tdiv]
      exact Nat.div_le_div_left (by omega) (by omega)
    omega

end Decimal

namespace Builtin

/-- The hooks that work on two integers. -/
def onWords : List Builtin :=
  [addInt, subInt, mulInt, divInt, modInt, ltInt, leInt, gtInt, geInt, eqInt]

/-- Each of them reads its arguments first. -/
theorem exists_operation {builtin : Builtin} (hbuiltin : builtin ∈ onWords) :
    ∃ operation, ∀ args, builtin.apply args = onInts args operation := by
  simp only [onWords, List.mem_cons, List.not_mem_nil, or_false] at hbuiltin
  rcases hbuiltin with rfl | rfl | rfl | rfl | rfl | rfl | rfl | rfl | rfl | rfl
  all_goals exact ⟨_, fun _ => rfl⟩

theorem apply_eq_none_of_not_saysWord {builtin : Builtin} (hbuiltin : builtin ∈ onWords) {left right : Term}
    (hother : (∀ value, ¬left.SaysWord value) ∨ ∀ value, ¬right.SaysWord value) :
    builtin.apply [left, right] = none := by
  obtain ⟨operation, happly⟩ := exists_operation hbuiltin
  rw [happly, onInts]
  rcases hother with hleft | hright
  · rw [Term.asInt_eq_none_iff.2 hleft]
    rfl
  · rw [Term.asInt_eq_none_iff.2 hright]
    cases left.asInt <;> rfl

variable {left right : Term} {a b : Int}

theorem onInts_of_saysWord (hleft : left.SaysWord a) (hright : right.SaysWord b)
    (operation : Int → Int → Option Term) : onInts [left, right] operation = operation a b := by
  rw [onInts, Term.asInt_eq_some_iff.2 hleft, Term.asInt_eq_some_iff.2 hright]
  rfl

/-- The quotient and the remainder of two words are there together or not at all. -/
theorem quotient_and_remainder (ha : Decimal.IsWord a) :
    (quotient a b ≠ none ↔ Decimal.Divides a b) ∧ (remainder a b ≠ none ↔ Decimal.Divides a b) ∧
      (Decimal.Divides a b → quotient a b = some (.int (a.tdiv b)) ∧
        remainder a b = some (.int (a.tmod b))) := by
  by_cases hb : b = 0
  · simp [quotient, remainder, Decimal.Divides, hb]
  · have hquotient := Decimal.isWord_tdiv_iff ha hb
    have hremainder : Decimal.IsWord (a.tmod b) := Decimal.isWord_tmod ha
    by_cases hword : Decimal.IsWord (a.tdiv b)
    · simp [quotient, remainder, intResult, Decimal.Divides, hb, hword, hremainder, hquotient.1 hword]
    · simp [quotient, remainder, intResult, Decimal.Divides, hb, hword, mt hquotient.2 hword]

theorem equality_int (left right : Int) :
    equality [.int left, .int right] = some (decide (left = right)) := by
  have hground : ((Term.int left).isGround && (Term.int right).isGround) = true := rfl
  rw [equality, Term.beq_int, hground]
  by_cases hequal : left = right <;> simp [hequal]

/-- **Exactness.** On the tokens of two words every hook has the result of the integers, if that is a
word, and on anything but two words it has none. -/
theorem integers_exact (ha : Decimal.IsWord a) (hb : Decimal.IsWord b) :
    (Term.int a).asInt = some a ∧
    (addInt.apply [.int a, .int b] =
      if Decimal.IsWord (a + b) then some (.int (a + b)) else none) ∧
    (subInt.apply [.int a, .int b] =
      if Decimal.IsWord (a - b) then some (.int (a - b)) else none) ∧
    (mulInt.apply [.int a, .int b] =
      if Decimal.IsWord (a * b) then some (.int (a * b)) else none) ∧
    (divInt.apply [.int a, .int b] ≠ none ↔ Decimal.Divides a b) ∧
    (modInt.apply [.int a, .int b] ≠ none ↔ Decimal.Divides a b) ∧
    (Decimal.Divides a b → ∃ quotient remainder,
      divInt.apply [.int a, .int b] = some (.int quotient) ∧
      modInt.apply [.int a, .int b] = some (.int remainder) ∧
      Decimal.Division a b quotient remainder) ∧
    ltInt.apply [.int a, .int b] = some (.bool (decide (a < b))) ∧
    leInt.apply [.int a, .int b] = some (.bool (decide (a ≤ b))) ∧
    gtInt.apply [.int a, .int b] = some (.bool (decide (a > b))) ∧
    geInt.apply [.int a, .int b] = some (.bool (decide (a ≥ b))) ∧
    eqInt.apply [.int a, .int b] = some (.bool (decide (a = b))) ∧
    eqInt.apply [.int a, .int b] = eqTerm.apply [.int a, .int b] ∧
    ∀ builtin ∈ onWords, ∀ left right : Term,
      ((∀ value, ¬left.SaysWord value) ∨ ∀ value, ¬right.SaysWord value) →
        builtin.apply [left, right] = none := by
  have hreads := onInts_of_saysWord (Term.saysWord_int ha) (Term.saysWord_int hb)
  obtain ⟨hquotient, hremainder, hdivision⟩ := quotient_and_remainder (b := b) ha
  refine ⟨Term.asInt_int ha, hreads _, hreads _, hreads _, ?_, ?_, ?_, hreads _, hreads _, hreads _,
    hreads _, hreads _, ?_, fun builtin hbuiltin left right => apply_eq_none_of_not_saysWord hbuiltin⟩
  · rw [apply, hreads, hquotient]
  · rw [apply, hreads, hremainder]
  · intro hdivides
    obtain ⟨hdiv, hmod⟩ := hdivision hdivides
    exact ⟨_, _, (hreads _).trans hdiv, (hreads _).trans hmod,
      Decimal.division_tdiv_tmod hdivides.1⟩
  · rw [apply, compareInts, hreads, apply, equality_int, Option.map_some]

/-- The least word divided by two words, of which only one divides it. -/
theorem integers_exact_least :
    Decimal.IsWord (-0x8000000000000000) ∧ Decimal.IsWord (-1) ∧ Decimal.IsWord 7 ∧
      (Term.int (-0x8000000000000000)).asInt = some (-0x8000000000000000) ∧
      divInt.apply [.int (-0x8000000000000000), .int (-1)] = none ∧
      modInt.apply [.int (-0x8000000000000000), .int (-1)] = none ∧
      mulInt.apply [.int (-0x8000000000000000), .int (-1)] = none ∧
      (∃ quotient remainder,
        divInt.apply [.int (-0x8000000000000000), .int 7] = some (.int quotient) ∧
        modInt.apply [.int (-0x8000000000000000), .int 7] = some (.int remainder) ∧
        Decimal.Division (-0x8000000000000000) 7 quotient remainder) ∧
      addInt.apply [.string "1", .int 7] = none := by
  have hleast : Decimal.IsWord (-0x8000000000000000) := by decide
  have hminus : Decimal.IsWord (-1) := by decide
  have hseven : Decimal.IsWord 7 := by decide
  obtain ⟨hread, -, -, hmul, hdiv, hmod, -⟩ := integers_exact hleast hminus
  obtain ⟨-, -, -, -, -, -, hdivision, -, -, -, -, -, -, hother⟩ := integers_exact hleast hseven
  have hundivided : ¬Decimal.Divides (-0x8000000000000000) (-1) := fun hdivides =>
    hdivides.2 ⟨rfl, rfl⟩
  have hstring : ∀ value, ¬(Term.string "1").SaysWord value := Term.asInt_eq_none_iff.1 rfl
  exact ⟨hleast, hminus, hseven, hread, not_not.1 (mt hdiv.1 hundivided),
    not_not.1 (mt hmod.1 hundivided), hmul.trans (if_neg (by decide)),
    hdivision ⟨by decide, by decide⟩, hother addInt (by decide) _ _ (.inl hstring)⟩

end Builtin

end SymbolicRewriting
