/-!
Decimal text of 64-bit signed integers. Written text has no sign but a leading minus; read text
may also carry a plus and leading zeros. Reading gives back every integer that was written.
-/

namespace SymbolicRewriting.Decimal

/-- The integers of a signed 64-bit word. -/
def IsWord (value : Int) : Prop :=
  -0x8000000000000000 ≤ value ∧ value < 0x8000000000000000

instance (value : Int) : Decidable (IsWord value) := by
  unfold IsWord
  infer_instance

def write (value : Int) : String :=
  match value with
  | .ofNat magnitude => String.ofList (Nat.toDigits 10 magnitude)
  | .negSucc below => String.ofList ('-' :: Nat.toDigits 10 (below + 1))

/-- The value of a nonempty run of the digits 0 to 9. -/
def magnitude? (digits : List Char) : Option Nat :=
  if digits.isEmpty || !digits.all Char.isDigit then none
  else some (Nat.ofDigitChars 10 digits 0)

/-- At most one sign, then digits. -/
def read? (text : String) : Option Int :=
  match text.toList with
  | '-' :: digits => (magnitude? digits).map fun magnitude => -Int.ofNat magnitude
  | '+' :: digits => (magnitude? digits).map Int.ofNat
  | digits => (magnitude? digits).map Int.ofNat

/-- The value of the digits from a position on, where those before it have the given value. A value
beyond the limit is given up at once, for no further digit makes it smaller. -/
def magnitudeFrom? {text : String} (limit value : Nat) (position : text.Pos) : Option Nat :=
  if hend : position = text.endPos then some value
  else
    let digit := position.get hend
    let extended := 10 * value + (digit.toNat - '0'.toNat)
    if digit.isDigit && extended ≤ limit then magnitudeFrom? limit extended (position.next hend)
    else none
termination_by position

/-- The value of the digits from a position on, of which there has to be one. -/
def digitsFrom? {text : String} (limit : Nat) (position : text.Pos) : Option Nat :=
  if position = text.endPos then none else magnitudeFrom? limit 0 position

/-- Reads a word; text of an integer outside the range has no value. Long text is not read to its
end once its value has left the range. -/
def readWord? (text : String) : Option Int :=
  if hend : text.startPos = text.endPos then none
  else
    match text.startPos.get hend with
    | '-' =>
        (digitsFrom? 0x8000000000000000 (text.startPos.next hend)).map fun magnitude =>
          -Int.ofNat magnitude
    | '+' => (digitsFrom? 0x7fffffffffffffff (text.startPos.next hend)).map Int.ofNat
    | _ => (digitsFrom? 0x7fffffffffffffff text.startPos).map Int.ofNat

theorem le_ofDigitChars (digits : List Char) (value : Nat) :
    value ≤ Nat.ofDigitChars 10 digits value := by
  induction digits generalizing value with
  | nil => simp
  | cons digit digits ih =>
      rw [Nat.ofDigitChars_cons]
      exact Nat.le_trans (by omega) (ih _)

theorem magnitudeFrom?_eq {text before after : String} {limit value : Nat} {position : text.Pos}
    (hsplits : position.Splits before after) (hvalue : value ≤ limit) :
    magnitudeFrom? limit value position =
      if after.toList.all Char.isDigit && Nat.ofDigitChars 10 after.toList value ≤ limit then
        some (Nat.ofDigitChars 10 after.toList value)
      else none := by
  induction position using String.Pos.next_induction generalizing before after value with
  | endPos =>
      obtain rfl := (String.splits_endPos_iff.1 hsplits).2
      simp [magnitudeFrom?, hvalue]
  | next position hend ih =>
      obtain ⟨later, rfl⟩ := hsplits.exists_eq_singleton_append hend
      rw [magnitudeFrom?, dif_neg hend]
      simp only [String.toList_append, String.toList_singleton, List.singleton_append,
        List.all_cons, Nat.ofDigitChars_cons]
      by_cases hdigit : (position.get hend).isDigit
      · by_cases hextended : 10 * value + ((position.get hend).toNat - '0'.toNat) ≤ limit
        · simp only [hdigit, hextended, decide_true, Bool.and_self, if_true, Bool.true_and]
          exact ih hsplits.next hextended
        · have hbeyond := le_ofDigitChars later.toList
            (10 * value + ((position.get hend).toNat - '0'.toNat))
          rw [if_neg (by simp only [hextended, decide_false, Bool.and_false]; simp), if_neg]
          simp only [Bool.and_eq_true, decide_eq_true_eq, not_and]
          omega
      · simp [hdigit]

theorem digitsFrom?_eq {text before after : String} {limit : Nat} {position : text.Pos}
    (hsplits : position.Splits before after) :
    digitsFrom? limit position =
      (magnitude? after.toList).filter fun magnitude => decide (magnitude ≤ limit) := by
  rw [digitsFrom?, magnitude?, magnitudeFrom?_eq hsplits (Nat.zero_le _)]
  by_cases hempty : after = ""
  · simp [hsplits.eq_endPos_iff, hempty]
  · rw [if_neg (by simp [hsplits.eq_endPos_iff, hempty])]
    cases hdigits : after.toList.all Char.isDigit <;>
      simp [hempty, Option.filter_some]

theorem map_filter_magnitude {limit : Nat} {sign : Nat → Int}
    (hlimit : ∀ magnitude, magnitude ≤ limit ↔ IsWord (sign magnitude)) (found : Option Nat) :
    (found.filter fun magnitude => decide (magnitude ≤ limit)).map sign =
      (found.map sign).filter fun value => decide (IsWord value) := by
  cases found with
  | none => rfl
  | some magnitude => simp only [hlimit, Option.filter, Option.map_some]; split <;> simp_all

/-- The words are what is read of the integers in the range. -/
theorem readWord?_eq (text : String) :
    readWord? text = (read? text).filter fun value => decide (IsWord value) := by
  by_cases hend : text.startPos = text.endPos
  · have hempty : text = "" := by simpa using hend
    simp [readWord?, hempty, read?, magnitude?]
  · have hnext := @String.splits_next_startPos text hend
    have htext : text.toList =
        text.startPos.get hend :: (text.sliceFrom (text.startPos.next hend)).copy.toList := by
      simpa using congrArg String.toList hnext.eq_append
    have hnegative := @map_filter_magnitude 0x8000000000000000
      (fun magnitude => -Int.ofNat magnitude)
      (by unfold IsWord; simp only [Int.ofNat_eq_natCast]; omega)
    have hpositive := @map_filter_magnitude 0x7fffffffffffffff Int.ofNat
      (by unfold IsWord; simp only [Int.ofNat_eq_natCast]; omega)
    rw [readWord?, dif_neg hend]
    simp only [digitsFrom?_eq hnext, digitsFrom?_eq text.splits_startPos, hnegative, hpositive]
    rw [read?, htext]
    split <;> simp_all

theorem magnitude?_toDigits (magnitude : Nat) :
    magnitude? (Nat.toDigits 10 magnitude) = some magnitude := by
  have hdigits : (Nat.toDigits 10 magnitude).all Char.isDigit = true := by
    simp only [List.all_eq_true]
    exact fun digit hmem => Nat.isDigit_of_mem_toDigits (by decide) (by decide) hmem
  simp [magnitude?, hdigits, Nat.ofDigitChars_ten_toDigits]

theorem toDigits_ne_cons_sign (magnitude : Nat) (sign : Char) (hsign : sign.isDigit = false)
    (rest : List Char) : Nat.toDigits 10 magnitude ≠ sign :: rest := by
  intro heq
  have hmem : sign ∈ Nat.toDigits 10 magnitude := by simp [heq]
  have := Nat.isDigit_of_mem_toDigits (by decide) (by decide) hmem
  simp [hsign] at this

theorem read?_write (value : Int) : read? (write value) = some value := by
  cases value with
  | ofNat magnitude =>
      simp only [write, read?, String.toList_ofList]
      split
      · exact absurd ‹_› (toDigits_ne_cons_sign magnitude '-' (by decide) _)
      · exact absurd ‹_› (toDigits_ne_cons_sign magnitude '+' (by decide) _)
      · simp [magnitude?_toDigits]
  | negSucc below =>
      simp [write, read?, magnitude?_toDigits, Int.negSucc_eq]

theorem readWord?_write {value : Int} (hword : IsWord value) :
    readWord? (write value) = some value := by
  simp [readWord?_eq, read?_write, hword]

end SymbolicRewriting.Decimal
