import SymbolicRewriting.Proofs.Recovery

/-!
When a plain failure to match is definite. A pattern that matches an instance of the subject has a match
with the subject itself or an undecided one, unless a branch drops the match of the instance because it
takes the segments of the subject for one item each, or looks for a cell only among those that the
subject shows.
-/

namespace SymbolicRewriting

variable {definition : Definition} {patterns : Grammar} {subjects : Variable → Place → Prop}
  {ρ θ : Substitution}

theorem PatternMatches.not_decides {results : PatternMatches}
    (hfails : results.found.size = 0 ∧ results.undecided = 0) :
    ¬(results.found ≠ #[] ∨ 0 < results.undecided) := by
  rintro (hfound | hundecided)
  · exact hfound (Array.size_eq_zero_iff.1 hfails.1)
  · exact Nat.ne_of_gt hundecided hfails.2

/-- The match of the instance is followed to the end of a branch, unless it is dropped. -/
theorem Definition.decides_of_not_loses
    (hcompatible : Compatible definition patterns subjects ρ θ) {pattern subject : Term}
    (hstands : (Branch.start pattern subject).Stands patterns subjects ρ θ)
    (hkept : ∀ last, (Branch.start pattern subject).Reaches definition last →
      last.Conforms patterns subjects → last.Drops definition ρ θ →
        ¬(last.LosesSegment ∨ last.LosesCell)) :
    (definition.matchPattern pattern subject).found ≠ #[] ∨
      0 < (definition.matchPattern pattern subject).undecided := by
  rw [found_matchPattern_ne_empty_iff, undecided_matchPattern_pos_iff]
  obtain ⟨last, hreaches, hundecided | ⟨hlast, haccepted | ⟨hdrops, hloses⟩⟩⟩ :=
    hstands.ends hcompatible
  · exact .inr ⟨last, hreaches, hundecided⟩
  · exact .inl ⟨last, hreaches, haccepted⟩
  · exact absurd hloses (hkept last hreaches hlast.conforms hdrops)

theorem Branch.stands_start_of_found {pattern subject : Term}
    (hpattern : pattern.Conforms patterns .alone)
    (hsubject : subject.Conforms (.over subjects) .alone)
    (hfills : ∀ v place, subjects v place → θ.Fills v place) (hsegregated : patterns.Segregated)
    {found : StructuralMatch}
    (hfound : found ∈ (definition.matchPattern pattern (subject.applySubst θ)).found) :
    (Branch.start pattern subject).Stands patterns subjects found.subst θ := by
  obtain ⟨last, hreaches, haccepted, rfl⟩ := mem_found_matchPattern_iff.1 hfound
  rw [hsubject.applySubst_eq] at hreaches
  have hinstance := Branch.conforms_start (.inl hpattern)
    (.inl (hsubject.instantiate_conforms hfills))
  refine ⟨⟨fun v term hget => ?_, ?_⟩, Branch.conforms_start (.inl hpattern) (.inl hsubject)⟩
  · cases hget
  · rw [Branch.start, List.forall_mem_singleton]
    exact Branch.accepted_of_reaches hreaches hsegregated hinstance haccepted _ List.mem_cons_self

/-- Variables of the top sort stand for everything. -/
theorem compatible_of_top (hplain : ∀ v, patterns.occurs v .alone → v.isRest = false)
    (hpatterns : ∀ v place, patterns.occurs v place → v.isRest = false → v.sort = Symbol.top)
    (hfills : ∀ v place, subjects v place → θ.Fills v place)
    (hsubjects : ∀ v place, subjects v place → place ≠ .frame → v.sort = Symbol.top) :
    Compatible definition patterns subjects ρ θ where
  plain := hplain
  admits v place term hoccurs hrest _ _ := by
    rw [Definition.admits_eq_yes_iff.2 (.inl (hpatterns v place hoccurs hrest))]
    rintro ⟨⟩
  fills := hfills
  overlaps v place hoccurs hplace pattern := by
    have htop := hsubjects v place hoccurs hplace
    unfold Definition.sortsOverlap
    split
    · rfl
    · rw [Definition.isSubsort, htop, beq_self_eq_true, Bool.or_true, Bool.true_or, Bool.true_or]

namespace Branch

variable {branch : Branch}

theorem Conforms.exists_sequence (hconforms : branch.Conforms patterns subjects)
    (hloses : branch.LosesSegment) : ∃ op, patterns.sequence op := by
  obtain ⟨obligation, pending, hpending, hloses⟩ := hloses
  obtain ⟨op, left, parts, rfl⟩ := hloses.exists_items
  have hobligation := hconforms.pending _ (hpending ▸ List.mem_cons_self)
  exact ⟨op, (Term.conforms_sequence_iff.1 hobligation.1).2.1⟩

theorem Conforms.collection (hconforms : branch.Conforms patterns subjects)
    (hloses : branch.LosesCell) : patterns.collection := by
  obtain ⟨obligation, pending, hpending, hloses⟩ := hloses
  have hobligation := hconforms.pending obligation (hpending ▸ List.mem_cons_self)
  cases hloses with
  | hidden _ => exact (Term.conforms_collection_iff.1 hobligation.1).1

end Branch

/-- Terms without collections, in which each rest variable is an item of sequences over one operator. -/
def Grammar.sequential (ops : Variable → Label) : Grammar where
  occurs v place := v.sort = Symbol.top ∧ (v.isRest = true → place = .item (ops v))
  collection := False

/-- A pattern without collections that matches an instance of the subject has a match with the subject or
an undecided one, unless the match of the instance is dropped at a segment of the subject. -/
theorem Definition.matchPattern_decides_of_not_losesSegment (definition : Definition)
    {ops : Variable → Label} {pattern subject : Term} {θ : Substitution}
    (hpattern : pattern.Conforms (.sequential ops) .alone)
    (hsubject : subject.Conforms
      (.over fun v place => v.sort = Symbol.top ∧ θ.Fills v place) .alone)
    {found : StructuralMatch}
    (hfound : found ∈ (definition.matchPattern pattern (subject.applySubst θ)).found)
    (hkept : ∀ last, (Branch.start pattern subject).Reaches definition last →
      last.Drops definition found.subst θ → ¬last.LosesSegment) :
    (definition.matchPattern pattern subject).found ≠ #[] ∨
      0 < (definition.matchPattern pattern subject).undecided := by
  have hsegregated : (Grammar.sequential ops).Segregated := fun v op place hrest hitem hplace =>
    (hplace.2 hrest).trans (hitem.2 hrest).symm
  have hfills : ∀ v place, v.sort = Symbol.top ∧ θ.Fills v place → θ.Fills v place :=
    fun _ _ hoccurs => hoccurs.2
  have hplain : ∀ v, (Grammar.sequential ops).occurs v .alone → v.isRest = false := by
    intro v hoccurs
    rw [← Bool.not_eq_true]
    intro hrest
    cases hoccurs.2 hrest
  have hcompatible : Compatible definition (.sequential ops)
      (fun v place => v.sort = Symbol.top ∧ θ.Fills v place) found.subst θ :=
    compatible_of_top hplain (fun _ _ hoccurs _ => hoccurs.1) hfills fun _ _ hoccurs _ => hoccurs.1
  have hstands := Branch.stands_start_of_found hpattern hsubject hfills hsegregated hfound
  refine decides_of_not_loses hcompatible hstands fun last hreaches hconforms hdrops hloses => ?_
  exact hkept last hreaches hdrops (hloses.resolve_right fun hcell => hconforms.collection hcell)

namespace Growing

def segment : Variable := ⟨"S", Symbol.top, .rest⟩

def others : Variable := ⟨"R", Symbol.top, .rest⟩

/-- A sequence of at least one item. -/
def pattern : Term := .sequence Symbol.sequencing [.int 1, .var others]

def subject : Term := .sequence Symbol.sequencing [.int 1, .var segment]

def longer : Substitution :=
  { bindings := [(segment, .sequence Symbol.sequencing [.int 2, .int 3])] }

theorem conforms_pattern : pattern.Conforms (.sequential fun _ => Symbol.sequencing) .alone := by
  simp [pattern, Grammar.sequential, Term.int, others]

theorem conforms_subject : subject.Conforms
    (.over fun v place => v.sort = Symbol.top ∧ longer.Fills v place) .alone := by
  have hsegment : longer.Fills segment (.item Symbol.sequencing) :=
    ⟨_, rfl, by simp [Term.Flattened, Term.int], rfl, rfl⟩
  have hsort : segment.sort = Symbol.top := rfl
  simp [subject, Term.int, hsegment, hsort]

def entered : Branch :=
  { pending := [.items Symbol.sequencing [.int 1, .var others] [.int 1, .var segment]] }

def first : Branch :=
  { pending := [.term (.int 1) (.int 1), .items Symbol.sequencing [.var others] [.var segment]] }

def later : Branch := { pending := [.items Symbol.sequencing [.var others] [.var segment]] }

/-- The rest variable has taken the segment as it is. -/
def taken : Branch :=
  { subst := { bindings := [(others, .sequence Symbol.sequencing [.var segment])] }
    pending := [.items Symbol.sequencing [] []] }

theorem mem_of_reaches {last : Branch}
    (hreaches : (Branch.start pattern subject).Reaches (.assemble []) last) :
    last ∈ [.start pattern subject, entered, first, later, taken, { taken with pending := [] }] := by
  refine hreaches.mem_line ?_ ?_
  · exact .cons_cons rfl <| .cons_cons rfl <| .cons_cons rfl <| .cons_cons rfl <|
      .cons_cons rfl <| .singleton _
  · rintro final ⟨⟩ branches ⟨⟩

theorem not_losesSegment {last : Branch}
    (hreaches : (Branch.start pattern subject).Reaches (.assemble []) last) :
    ¬last.LosesSegment := by
  have hlast := mem_of_reaches hreaches
  simp only [List.mem_cons, List.not_mem_nil, or_false] at hlast
  rintro ⟨obligation, pending, hpending, hloses⟩
  rcases hlast with rfl | rfl | rfl | rfl | rfl | rfl
  all_goals cases hpending
  all_goals cases hloses
  case kept hsegment => simp [Term.needed] at hsegment
  case returning hget _ _ => cases hget
  case leftOver hitems _ => exact hitems rfl

theorem matchPattern_decides_growing : ∃ found,
    found ∈ ((Definition.assemble []).matchPattern pattern (subject.applySubst longer)).found ∧
      (∀ last, (Branch.start pattern subject).Reaches (.assemble []) last →
        last.Drops (.assemble []) found.subst longer → ¬last.LosesSegment) ∧
      (((Definition.assemble []).matchPattern pattern subject).found ≠ #[] ∨
        0 < ((Definition.assemble []).matchPattern pattern subject).undecided) := by
  have hsize : 0 < ((Definition.assemble []).matchPattern pattern
      (subject.applySubst longer)).found.size := by
    decide +kernel
  obtain ⟨found, hfound⟩ := Array.exists_mem_of_size_pos hsize
  have hkept : ∀ last, (Branch.start pattern subject).Reaches (.assemble []) last →
      last.Drops (.assemble []) found.subst longer → ¬last.LosesSegment :=
    fun last hreaches _ => not_losesSegment hreaches
  exact ⟨found, hfound, hkept, Definition.matchPattern_decides_of_not_losesSegment (.assemble [])
    conforms_pattern conforms_subject hfound hkept⟩

end Growing

namespace LeftOver

def segment : Variable := ⟨"S", Symbol.top, .rest⟩

/-- A sequence of exactly one item. -/
def pattern : Term := .sequence Symbol.sequencing [.int 1]

def subject : Term := .sequence Symbol.sequencing [.int 1, .var segment]

def empty : Substitution := { bindings := [(segment, .sequence Symbol.sequencing [])] }

theorem conforms_pattern : pattern.Conforms (.sequential fun _ => Symbol.sequencing) .alone := by
  simp [pattern, Grammar.sequential, Term.int]

theorem conforms_subject : subject.Conforms
    (.over fun v place => v.sort = Symbol.top ∧ empty.Fills v place) .alone := by
  have hsegment : empty.Fills segment (.item Symbol.sequencing) :=
    ⟨_, rfl, by simp [Term.Flattened], rfl, rfl⟩
  have hsort : segment.sort = Symbol.top := rfl
  simp [subject, Term.int, hsegment, hsort]

/-- The segment may be empty, but the pattern fails. -/
theorem fails_leftOver :
    pattern.Conforms (.sequential fun _ => Symbol.sequencing) .alone ∧
      subject.Conforms (.over fun v place => v.sort = Symbol.top ∧ empty.Fills v place) .alone ∧
      ((Definition.assemble []).matchPattern pattern (subject.applySubst empty)).found ≠ #[] ∧
      ¬(((Definition.assemble []).matchPattern pattern subject).found ≠ #[] ∨
        0 < ((Definition.assemble []).matchPattern pattern subject).undecided) := by
  have hfails : ((Definition.assemble []).matchPattern pattern subject).found.size = 0 ∧
      ((Definition.assemble []).matchPattern pattern subject).undecided = 0 := by
    decide +kernel
  have hfound : 0 < ((Definition.assemble []).matchPattern pattern
      (subject.applySubst empty)).found.size := by
    decide +kernel
  exact ⟨conforms_pattern, conforms_subject, Array.size_pos_iff.1 hfound,
    PatternMatches.not_decides hfails⟩

end LeftOver

/-- Terms without sequences, in which the rest variables are the frames of collections. -/
def Grammar.cellular : Grammar where
  occurs v place :=
    (place = .frame ↔ v.isRest = true) ∧ (v.isRest = false → v.sort = Symbol.top)
  sequence _ := False

/-- A pattern without sequences that matches an instance of the subject has a match with the subject or
an undecided one, unless the match of the instance is dropped where a frame of the subject hides a cell. -/
theorem Definition.matchPattern_decides_of_not_losesCell (definition : Definition)
    {pattern subject : Term} {θ : Substitution} (hpattern : pattern.Conforms .cellular .alone)
    (hsubject : subject.Conforms (.over fun v place =>
      (place = .frame ∨ v.sort = Symbol.top) ∧ θ.Fills v place) .alone)
    {found : StructuralMatch}
    (hfound : found ∈ (definition.matchPattern pattern (subject.applySubst θ)).found)
    (hkept : ∀ last, (Branch.start pattern subject).Reaches definition last →
      last.Drops definition found.subst θ → ¬last.LosesCell) :
    (definition.matchPattern pattern subject).found ≠ #[] ∨
      0 < (definition.matchPattern pattern subject).undecided := by
  have hsegregated : Grammar.cellular.Segregated := fun v op place hrest hitem _ => by
    cases hitem.1.2 hrest
  have hfills : ∀ v place, (place = .frame ∨ v.sort = Symbol.top) ∧ θ.Fills v place →
      θ.Fills v place := fun _ _ hoccurs => hoccurs.2
  have hplain : ∀ v, Grammar.cellular.occurs v .alone → v.isRest = false := by
    intro v hoccurs
    rw [← Bool.not_eq_true]
    intro hrest
    cases hoccurs.1.2 hrest
  have hcompatible : Compatible definition .cellular (fun v place =>
      (place = .frame ∨ v.sort = Symbol.top) ∧ θ.Fills v place) found.subst θ :=
    compatible_of_top hplain (fun _ _ hoccurs hrest => hoccurs.2 hrest) hfills
      fun _ _ hoccurs hplace => hoccurs.1.resolve_left hplace
  have hstands := Branch.stands_start_of_found hpattern hsubject hfills hsegregated hfound
  refine decides_of_not_loses hcompatible hstands fun last hreaches hconforms hdrops hloses => ?_
  exact hkept last hreaches hdrops (hloses.resolve_left fun hsegment =>
    (hconforms.exists_sequence hsegment).elim fun _ hop => hop)

namespace AbsentCell

def frame : Variable := ⟨"F", Symbol.top, .rest⟩

def others : Variable := ⟨"R", Symbol.top, .rest⟩

def pattern : Term := .collection [⟨0, "a", .int 1⟩] (some others)

/-- The subject shows no cell of the name that the pattern asks for. -/
def subject : Term := .collection [⟨1, "b", .int 2⟩] (some frame)

def another : Substitution := { bindings := [(frame, .collection [⟨2, "a", .int 1⟩] none)] }

theorem conforms_pattern : pattern.Conforms .cellular .alone := by
  simp [pattern, Grammar.cellular, Term.int, others, Variable.isRest]

theorem conforms_subject : subject.Conforms (.over fun v place =>
    (place = .frame ∨ v.sort = Symbol.top) ∧ another.Fills v place) .alone := by
  have hframe : another.Fills frame .frame :=
    ⟨_, rfl, by simp [Term.Flattened, Term.int], rfl, _, rfl⟩
  simp [subject, Term.int, hframe]

/-- The frame may hide the cell, so the branch is undecided. -/
def entered : Branch :=
  { pending := [.cells [⟨0, "a", .int 1⟩] (some others) { after := [⟨1, "b", .int 2⟩] }
      (some frame)] }

theorem not_losesCell {last : Branch}
    (hreaches : (Branch.start pattern subject).Reaches (.assemble []) last) : ¬last.LosesCell := by
  have hlast : last ∈ [.start pattern subject, entered] := by
    refine hreaches.mem_line (.cons_cons rfl (.singleton _)) ?_
    rintro final ⟨⟩ branches ⟨⟩
  simp only [List.mem_cons, List.not_mem_nil, or_false] at hlast
  rintro ⟨obligation, pending, hpending, hloses⟩
  rcases hlast with rfl | rfl
  · cases hpending
    cases hloses
  · cases hpending
    cases hloses with
    | hidden hshown => simp [FreeCells.toList] at hshown

theorem matchPattern_decides_absentCell : ∃ found,
    found ∈ ((Definition.assemble []).matchPattern pattern (subject.applySubst another)).found ∧
      (∀ last, (Branch.start pattern subject).Reaches (.assemble []) last →
        last.Drops (.assemble []) found.subst another → ¬last.LosesCell) ∧
      (((Definition.assemble []).matchPattern pattern subject).found ≠ #[] ∨
        0 < ((Definition.assemble []).matchPattern pattern subject).undecided) := by
  have hsize : 0 < ((Definition.assemble []).matchPattern pattern
      (subject.applySubst another)).found.size := by
    decide +kernel
  obtain ⟨found, hfound⟩ := Array.exists_mem_of_size_pos hsize
  have hkept : ∀ last, (Branch.start pattern subject).Reaches (.assemble []) last →
      last.Drops (.assemble []) found.subst another → ¬last.LosesCell :=
    fun last hreaches _ => not_losesCell hreaches
  exact ⟨found, hfound, hkept, Definition.matchPattern_decides_of_not_losesCell (.assemble [])
    conforms_pattern conforms_subject hfound hkept⟩

end AbsentCell

namespace HiddenCell

def frame : Variable := ⟨"F", Symbol.top, .rest⟩

def others : Variable := ⟨"R", Symbol.top, .rest⟩

def pattern : Term := .collection [⟨0, "a", .int 1⟩] (some others)

/-- The cell that is shown is not the one that the pattern asks for. -/
def subject : Term := .collection [⟨1, "a", .int 2⟩] (some frame)

def another : Substitution := { bindings := [(frame, .collection [⟨2, "a", .int 1⟩] none)] }

theorem conforms_pattern : pattern.Conforms .cellular .alone := by
  simp [pattern, Grammar.cellular, Term.int, others, Variable.isRest]

theorem conforms_subject : subject.Conforms (.over fun v place =>
    (place = .frame ∨ v.sort = Symbol.top) ∧ another.Fills v place) .alone := by
  have hframe : another.Fills frame .frame :=
    ⟨_, rfl, by simp [Term.Flattened, Term.int], rfl, _, rfl⟩
  simp [subject, Term.int, hframe]

/-- The frame may hold the cell, but the pattern fails. -/
theorem fails_hiddenCell :
    pattern.Conforms .cellular .alone ∧
      subject.Conforms (.over fun v place =>
        (place = .frame ∨ v.sort = Symbol.top) ∧ another.Fills v place) .alone ∧
      ((Definition.assemble []).matchPattern pattern (subject.applySubst another)).found ≠ #[] ∧
      ¬(((Definition.assemble []).matchPattern pattern subject).found ≠ #[] ∨
        0 < ((Definition.assemble []).matchPattern pattern subject).undecided) := by
  have hfails : ((Definition.assemble []).matchPattern pattern subject).found.size = 0 ∧
      ((Definition.assemble []).matchPattern pattern subject).undecided = 0 := by
    decide +kernel
  have hfound : 0 < ((Definition.assemble []).matchPattern pattern
      (subject.applySubst another)).found.size := by
    decide +kernel
  exact ⟨conforms_pattern, conforms_subject, Array.size_pos_iff.1 hfound,
    PatternMatches.not_decides hfails⟩

end HiddenCell

end SymbolicRewriting
