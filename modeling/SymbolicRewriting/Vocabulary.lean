import SymbolicRewriting.Symbol

/-!
The names met so far. A name is added once, at the end, so its key never changes, and two names have
the same key only if they are the same: terms are written with names themselves.
-/

namespace SymbolicRewriting

structure Vocabulary where
  names : List String
deriving DecidableEq

namespace Vocabulary

def initial : Vocabulary := ⟨Symbol.known⟩

def key? (vocabulary : Vocabulary) (name : String) : Option Nat :=
  vocabulary.names.idxOf? name

def resolve? (vocabulary : Vocabulary) (key : Nat) : Option String :=
  vocabulary.names[key]?

def contains (vocabulary : Vocabulary) (name : String) : Bool :=
  (vocabulary.key? name).isSome

def intern (vocabulary : Vocabulary) (name : String) : Nat × Vocabulary :=
  match vocabulary.key? name with
  | some key => (key, vocabulary)
  | none => (vocabulary.names.length, ⟨vocabulary.names ++ [name]⟩)

theorem key?_intern (vocabulary : Vocabulary) (name : String) :
    (vocabulary.intern name).2.key? name = some (vocabulary.intern name).1 := by
  unfold intern
  split
  · assumption
  · rename_i habsent
    simp only [key?, List.idxOf?] at habsent
    simp [key?, List.idxOf?, List.findIdx?_append, habsent]

theorem intern_of_key? {vocabulary : Vocabulary} {name : String} {key : Nat}
    (hkey : vocabulary.key? name = some key) : vocabulary.intern name = (key, vocabulary) := by
  simp [intern, hkey]

theorem resolve?_of_key? {vocabulary : Vocabulary} {name : String} {key : Nat}
    (hkey : vocabulary.key? name = some key) : vocabulary.resolve? key = some name := by
  obtain ⟨hlength, hname, -⟩ := List.findIdx?_eq_some_iff_getElem.1 hkey
  rw [resolve?, List.getElem?_eq_getElem hlength]
  exact congrArg some (eq_of_beq hname)

theorem resolve?_intern (vocabulary : Vocabulary) (name : String) :
    (vocabulary.intern name).2.resolve? (vocabulary.intern name).1 = some name :=
  resolve?_of_key? (vocabulary.key?_intern name)

/-- Every key of the earlier vocabulary names the same in the later one. -/
def Extends (earlier later : Vocabulary) : Prop :=
  ∃ more, later.names = earlier.names ++ more

theorem extends_intern (vocabulary : Vocabulary) (name : String) :
    vocabulary.Extends (vocabulary.intern name).2 := by
  unfold intern
  split
  · exact ⟨[], (List.append_nil _).symm⟩
  · exact ⟨[name], rfl⟩

theorem Extends.trans {earlier middle later : Vocabulary} (hmiddle : earlier.Extends middle)
    (hlater : middle.Extends later) : earlier.Extends later := by
  obtain ⟨added, hadded⟩ := hmiddle
  obtain ⟨more, hmore⟩ := hlater
  exact ⟨added ++ more, by rw [hmore, hadded, List.append_assoc]⟩

theorem Extends.resolve?_eq {earlier later : Vocabulary} (hextends : earlier.Extends later)
    {key : Nat} {name : String} (hname : earlier.resolve? key = some name) :
    later.resolve? key = some name := by
  obtain ⟨more, hmore⟩ := hextends
  obtain ⟨hlength, -⟩ := List.getElem?_eq_some_iff.1 hname
  rw [resolve?, hmore, List.getElem?_append_left hlength]
  exact hname

theorem Extends.key?_eq {earlier later : Vocabulary} (hextends : earlier.Extends later)
    {name : String} {key : Nat} (hkey : earlier.key? name = some key) :
    later.key? name = some key := by
  obtain ⟨more, hmore⟩ := hextends
  rw [key?, List.idxOf?] at hkey ⊢
  rw [hmore, List.findIdx?_append, hkey]
  rfl

def internAll (vocabulary : Vocabulary) (names : List String) : Vocabulary :=
  names.foldl (fun vocabulary name => (vocabulary.intern name).2) vocabulary

theorem extends_internAll (vocabulary : Vocabulary) (names : List String) :
    vocabulary.Extends (vocabulary.internAll names) := by
  induction names generalizing vocabulary with
  | nil => exact ⟨[], (List.append_nil _).symm⟩
  | cons name names ih => exact (vocabulary.extends_intern name).trans (ih _)

/-- Keys may be compared in place of names, however many names are added between two uses. -/
theorem key_eq_iff (vocabulary : Vocabulary) (first second : String) (between : List String) :
    (((vocabulary.intern first).2.internAll between).intern second).1 =
      (vocabulary.intern first).1 ↔ second = first := by
  let once := vocabulary.intern first
  let later := once.2.internAll between
  have hextends : once.2.Extends later := once.2.extends_internAll between
  constructor
  · intro hkey
    have hfirst := (hextends.trans (later.extends_intern second)).resolve?_eq
      (vocabulary.resolve?_intern first)
    have hsecond := later.resolve?_intern second
    rw [hkey] at hsecond
    exact Option.some.inj (hsecond.symm.trans hfirst)
  · rintro rfl
    rw [intern_of_key? (hextends.key?_eq (vocabulary.key?_intern second))]

end Vocabulary

end SymbolicRewriting
