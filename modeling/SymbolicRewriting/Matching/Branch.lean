import SymbolicRewriting.Total
import SymbolicRewriting.PathCondition
import SymbolicRewriting.Definition.Basic

/-!
One branch of the search for matches. A branch holds the bindings found so far and the obligations
that are left, and it advances by taking up the topmost one. A subject variable is an unknown value:
where one meets a pattern that is not a variable, the match holds only under an equality, which
becomes a constraint as soon as the pattern has no unbound variable.

`weight_lt_of_advance` says that each alternative of a choice has less left to do.
-/

namespace SymbolicRewriting

/-- Whether a term is of a sort that a variable stands for. -/
inductive Admission where
  | yes
  | no
  | maybe
deriving DecidableEq, Repr

namespace Definition

/-- A term without a sort is always admitted, and an unknown value of a wider sort may fit. -/
def admits (definition : Definition) (v : Variable) (subject : Term) : Admission :=
  if v.sort = Symbol.top then .yes
  else
    match definition.sortOf subject with
    | none => .yes
    | some sort =>
        if definition.isSubsort sort v.sort then .yes
        else if subject.asVar.isSome && definition.isSubsort v.sort sort then .maybe
        else .no

/-- Can an instance of the pattern be a value of the variable? -/
def sortsOverlap (definition : Definition) (pattern : Term) (v : Variable) : Bool :=
  match definition.sortOf pattern with
  | none => true
  | some sort => definition.isSubsort sort v.sort || definition.isSubsort v.sort sort

end Definition

/-- A list of cells in two parts, the first of them in reverse order. -/
structure FreeCells where
  before : List (Cell Term) := []
  after : List (Cell Term)

def FreeCells.toList (free : FreeCells) : List (Cell Term) := free.before.reverseAux free.after

/-- What is left to match: a term, the items of a sequence that no pattern has taken, or the cells
of a collection that are still free. -/
inductive Obligation where
  | term (pattern subject : Term)
  | items (op : Label) (patterns subjects : List Term)
  | cells (patterns : List (Cell Term)) (frame : Option Variable) (free : FreeCells)
      (subjectFrame : Option Variable)

structure Branch where
  subst : Substitution := {}
  pending : List Obligation
  /-- Patterns with unbound variables and the unknown values that they have met. -/
  deferred : List (Term × Term) := []
  constraints : PathCondition := {}

/-- A branch ends, or it goes on as the given branches, to be taken up in their order. -/
inductive Progress where
  | accepted
  | failed
  | conflicting
  | undecided
  | branches (next : List Branch)

/-- Each way of choosing a cell of the given name after the cells `before`, which stand in reverse
order, with the cells that it leaves. -/
def selections (name : Label) (before : List (Cell Term)) :
    List (Cell Term) → List (Cell Term × FreeCells)
  | [] => []
  | cell :: after =>
      let later := selections name (cell :: before) after
      if cell.name = name then (cell, ⟨before, after⟩) :: later else later

/-- A choice takes one cell of the name, and every other cell keeps its place. -/
theorem of_mem_selections {name : Label} {before cells : List (Cell Term)} {chosen : Cell Term}
    {free : FreeCells} (hmem : (chosen, free) ∈ selections name before cells) :
    chosen.name = name ∧
      free.before.reverseAux (chosen :: free.after) = before.reverseAux cells := by
  fun_induction selections name before cells with
  | case1 => simp at hmem
  | case2 before cell after later hname ih =>
      rcases List.mem_cons.1 hmem with heq | hlater
      · cases heq
        exact ⟨hname, rfl⟩
      · exact ih hlater
  | case3 before cell after later hname ih => exact ih hmem

/-- The constraint that the subject is the instance of a pattern whose variables are all bound. -/
def Substitution.constrain? (subst : Substitution) (constraints : PathCondition)
    (pattern subject : Term) : Option PathCondition :=
  if pattern.vars.all subst.isBound then
    some (constraints.assume (.equal subject (pattern.applySubst subst)))
  else none

def Substitution.settle (subst : Substitution) (constraints : PathCondition) :
    List (Term × Term) → Option PathCondition
  | [] => some constraints
  | (pattern, subject) :: rest =>
      match subst.constrain? constraints pattern subject with
      | some extended => subst.settle extended rest
      | none => none

namespace Branch

def start (pattern subject : Term) : Branch := { pending := [.term pattern subject] }

def enter (branch : Branch) (obligations : List Obligation) : Branch :=
  { branch with pending := obligations ++ branch.pending }

def goOn (branch : Branch) : Progress := .branches [branch]

/-- Unequal ground terms are in conflict; others become a constraint. -/
def bind (definition : Definition) (branch : Branch) (v : Variable) (subject : Term) : Progress :=
  match definition.admits v subject with
  | .no => .failed
  | .maybe => .undecided
  | .yes =>
      match branch.subst.bind v subject with
      | .ok subst => goOn { branch with subst }
      | .error conflict =>
          if conflict.existing.isGround && conflict.incoming.isGround then .conflicting
          else
            let equality := Term.equal conflict.existing conflict.incoming
            goOn { branch with constraints := branch.constraints.assume equality }

def meetUnknown (definition : Definition) (branch : Branch) (pattern : Term) (v : Variable) :
    Progress :=
  if v.isRest then .undecided
  else if !definition.sortsOverlap pattern v then .failed
  else
    match branch.subst.constrain? branch.constraints pattern (.var v) with
    | some constraints => goOn { branch with constraints }
    | none => goOn { branch with deferred := branch.deferred ++ [(pattern, .var v)] }

/-- A sequence pattern takes any other term as a sequence of one item. -/
def advanceTerm (definition : Definition) (branch : Branch) (pattern subject : Term) : Progress :=
  match pattern, subject with
  | .var v, _ => branch.bind definition v subject
  | _, .var v => branch.meetUnknown definition pattern v
  | .token sort value, .token sort' value' =>
      if sort = sort' ∧ value = value' then branch.goOn else .failed
  | .app label args, .app label' args' =>
      if label = label' ∧ args.length = args'.length then
        (branch.enter (List.zipWith Obligation.term args args')).goOn
      else .failed
  | .sequence op patterns, _ => (branch.enter [.items op patterns (subject.itemsOf op)]).goOn
  | .collection patterns frame, .collection free subjectFrame =>
      (branch.enter [.cells patterns frame { after := free } subjectFrame]).goOn
  | _, _ => .failed

/-- One pattern takes the next item, but no segment of unknown length. -/
def takeItem (branch : Branch) (op : Label) (pattern : Term) (patterns subjects : List Term) :
    Progress :=
  match subjects with
  | [] => .failed
  | item :: later =>
      if item.isRestVar then .undecided
      else (branch.enter [.term pattern item, .items op patterns later]).goOn

/-- A bound rest variable takes the items that it is bound to, if as many are left. -/
def takeBoundSegment (branch : Branch) (op : Label) (bound : Term) (patterns subjects : List Term) :
    Progress :=
  let segment := bound.itemsOf op
  if segment.length ≤ subjects.length && subjects.take segment.length == segment then
    (branch.enter [.items op patterns (subjects.drop segment.length)]).goOn
  else .failed

def takeSegment (branch : Branch) (op : Label) (v : Variable) (patterns subjects : List Term)
    (count : Nat) : Branch :=
  { branch with
    subst := branch.subst.push v (Term.flatten op (subjects.take count))
    pending := .items op patterns (subjects.drop count) :: branch.pending }

/-- An unbound rest variable leaves an item for each later pattern that needs one. Shorter segments
come first, and without a later rest variable only the longest is left. -/
def takeSegments (branch : Branch) (op : Label) (v : Variable) (patterns subjects : List Term) :
    Progress :=
  let needed := patterns.countP fun pattern => !pattern.isRestVar
  if needed ≤ subjects.length then
    let most := subjects.length - needed
    let least := if patterns.any Term.isRestVar then 0 else most
    .branches ((List.range' least (most + 1 - least)).map
      (branch.takeSegment op v patterns subjects))
  else .failed

def advanceItems (branch : Branch) (op : Label) (patterns subjects : List Term) : Progress :=
  match patterns with
  | [] => if subjects.isEmpty then branch.goOn else .failed
  | pattern :: patterns =>
      match pattern.asVar with
      | some v =>
          if v.isRest then
            match branch.subst.get? v with
            | some bound => branch.takeBoundSegment op bound patterns subjects
            | none => branch.takeSegments op v patterns subjects
          else branch.takeItem op pattern patterns subjects
      | none => branch.takeItem op pattern patterns subjects

def takeCell (branch : Branch) (pattern : Cell Term) (patterns : List (Cell Term))
    (frame subjectFrame : Option Variable) (choice : Cell Term × FreeCells) : Branch :=
  { branch with
    subst := branch.subst.recordCell pattern.id choice.1.id
    pending := .term pattern.content choice.1.content ::
      .cells patterns frame choice.2 subjectFrame :: branch.pending }

/-- The cells that no pattern has taken go to the frame of the pattern. A cell that is not among
the free ones may still be hidden in the frame of the subject. -/
def advanceCells (definition : Definition) (branch : Branch) (patterns : List (Cell Term))
    (frame : Option Variable) (free : FreeCells) (subjectFrame : Option Variable) : Progress :=
  match patterns with
  | [] =>
      match frame with
      | some v => branch.bind definition v (.collection free.toList subjectFrame)
      | none =>
          if !free.toList.isEmpty then .failed
          else if subjectFrame.isSome then .undecided
          else branch.goOn
  | pattern :: patterns =>
      match selections pattern.name [] free.toList with
      | [] => if subjectFrame.isSome then .undecided else .failed
      | choices => .branches (choices.map (branch.takeCell pattern patterns frame subjectFrame))

/-- A branch without obligations has to settle what it has deferred before it is accepted. -/
def finish (branch : Branch) : Progress :=
  if branch.deferred.isEmpty then .accepted
  else
    match branch.subst.settle branch.constraints branch.deferred with
    | some constraints => goOn { branch with constraints, deferred := [] }
    | none => .undecided

def advance (definition : Definition) (branch : Branch) : Progress :=
  match branch.pending with
  | [] => branch.finish
  | obligation :: pending =>
      let rest := { branch with pending }
      match obligation with
      | .term pattern subject => rest.advanceTerm definition pattern subject
      | .items op patterns subjects => rest.advanceItems op patterns subjects
      | .cells patterns frame free subjectFrame =>
          rest.advanceCells definition patterns frame free subjectFrame

end Branch

/-! What is left to do, measured by the patterns alone. -/

def Obligation.weight : Obligation → Nat
  | term pattern _ => 3 * pattern.size - 1
  | items _ patterns _ => 1 + 3 * Term.sizeAll patterns
  | cells patterns _ _ _ => 1 + 3 * Term.sizeCells patterns

namespace Branch

def weight (branch : Branch) : Nat :=
  total Obligation.weight branch.pending + branch.deferred.length

/-- Every branch that an end of this kind leaves weighs less than the bound. -/
def Lighter (bound : Nat) (progress : Progress) : Prop :=
  ∀ next, progress = .branches next → ∀ branch ∈ next, branch.weight < bound

theorem lighter_goOn {branch : Branch} {bound : Nat} (hweight : branch.weight < bound) :
    Lighter bound branch.goOn := by
  rintro next ⟨⟩ other hmem
  rwa [List.mem_singleton.1 hmem]

theorem lighter_of_forall {branches : List Branch} {bound : Nat}
    (hweight : ∀ branch ∈ branches, branch.weight < bound) :
    Lighter bound (.branches branches) := by
  rintro next ⟨⟩
  exact hweight

theorem lighter_bind (definition : Definition) {branch : Branch} (v : Variable) (subject : Term)
    {bound : Nat} (hweight : branch.weight < bound) :
    Lighter bound (branch.bind definition v subject) := by
  unfold bind
  split
  · rintro _ ⟨⟩
  · rintro _ ⟨⟩
  · split
    · exact lighter_goOn hweight
    · split
      · rintro _ ⟨⟩
      · exact lighter_goOn hweight

theorem lighter_meetUnknown (definition : Definition) {branch : Branch} (pattern : Term)
    (v : Variable) {bound : Nat} (hweight : branch.weight + 1 < bound) :
    Lighter bound (branch.meetUnknown definition pattern v) := by
  unfold meetUnknown
  split
  · rintro _ ⟨⟩
  · split
    · rintro _ ⟨⟩
    · split
      · exact lighter_goOn (Nat.lt_of_succ_lt hweight)
      · refine lighter_goOn ?_
        simpa [weight, Nat.add_assoc] using hweight

theorem total_weight_zipWith_le (patterns subjects : List Term) :
    total Obligation.weight (List.zipWith Obligation.term patterns subjects) ≤
      3 * Term.sizeAll patterns := by
  induction patterns generalizing subjects with
  | nil => simp
  | cons pattern patterns ih =>
      cases subjects with
      | nil => simp
      | cons subject subjects =>
          have := ih subjects
          simp only [List.zipWith_cons_cons, total_cons, Obligation.weight, Term.sizeAll]
          omega

theorem weight_enter (branch : Branch) (obligations : List Obligation) :
    (branch.enter obligations).weight =
      total Obligation.weight obligations + branch.weight := by
  simp [weight, enter, Nat.add_assoc]

theorem lighter_advanceTerm (definition : Definition) (branch : Branch) (pattern subject : Term) :
    Lighter (3 * pattern.size - 1 + branch.weight)
      (branch.advanceTerm definition pattern subject) := by
  have hpos := pattern.size_pos
  unfold advanceTerm
  split
  · exact lighter_bind definition _ _ (by omega)
  · exact lighter_meetUnknown definition _ _ (by omega)
  · split
    · exact lighter_goOn (by omega)
    · rintro _ ⟨⟩
  · rename_i _ args _ args'
    have hargs := total_weight_zipWith_le args args'
    split
    · refine lighter_goOn ?_
      rw [weight_enter]
      simp only [Term.size]
      omega
    · rintro _ ⟨⟩
  · refine lighter_goOn ?_
    rw [weight_enter]
    simp only [total_cons, total_nil, Obligation.weight, Term.size]
    omega
  · refine lighter_goOn ?_
    rw [weight_enter]
    simp only [total_cons, total_nil, Obligation.weight, Term.size]
    omega
  · rintro _ ⟨⟩

theorem lighter_takeItem (branch : Branch) (op : Label) (pattern : Term)
    (patterns subjects : List Term) :
    Lighter (1 + 3 * Term.sizeAll (pattern :: patterns) + branch.weight)
      (branch.takeItem op pattern patterns subjects) := by
  have hpos := pattern.size_pos
  unfold takeItem
  split
  · rintro _ ⟨⟩
  · split
    · rintro _ ⟨⟩
    · refine lighter_goOn ?_
      rw [weight_enter]
      simp only [total_cons, total_nil, Obligation.weight, Term.sizeAll]
      omega

theorem lighter_advanceItems (branch : Branch) (op : Label) (patterns subjects : List Term) :
    Lighter (1 + 3 * Term.sizeAll patterns + branch.weight)
      (branch.advanceItems op patterns subjects) := by
  unfold advanceItems
  split
  · split
    · exact lighter_goOn (by omega)
    · rintro _ ⟨⟩
  · rename_i pattern patterns
    have hpos := pattern.size_pos
    split
    · split
      · split
        · unfold takeBoundSegment
          dsimp only
          split
          · refine lighter_goOn ?_
            rw [weight_enter]
            simp only [total_cons, total_nil, Obligation.weight, Term.sizeAll]
            omega
          · rintro _ ⟨⟩
        · unfold takeSegments
          dsimp only
          split
          · refine lighter_of_forall fun other hmem => ?_
            obtain ⟨count, -, rfl⟩ := List.mem_map.1 hmem
            simp only [takeSegment, weight, total_cons, Obligation.weight, Term.sizeAll]
            omega
          · rintro _ ⟨⟩
      · exact branch.lighter_takeItem op pattern patterns subjects
    · exact branch.lighter_takeItem op pattern patterns subjects

theorem lighter_advanceCells (definition : Definition) (branch : Branch)
    (patterns : List (Cell Term)) (frame : Option Variable) (free : FreeCells)
    (subjectFrame : Option Variable) :
    Lighter (1 + 3 * Term.sizeCells patterns + branch.weight)
      (branch.advanceCells definition patterns frame free subjectFrame) := by
  unfold advanceCells
  split
  · split
    · exact lighter_bind definition _ _ (by omega)
    · split
      · rintro _ ⟨⟩
      · split
        · rintro _ ⟨⟩
        · exact lighter_goOn (by omega)
  · rename_i pattern patterns
    have hpos := pattern.content.size_pos
    split
    · split <;> rintro _ ⟨⟩
    · refine lighter_of_forall fun other hmem => ?_
      obtain ⟨choice, -, rfl⟩ := List.mem_map.1 hmem
      simp only [takeCell, weight, total_cons, Obligation.weight, Term.sizeCells_cons]
      omega

theorem lighter_finish {branch : Branch} (hpending : branch.pending = []) :
    Lighter branch.weight branch.finish := by
  unfold finish
  split
  · rintro _ ⟨⟩
  · rename_i hdeferred
    have hlength : 0 < branch.deferred.length := by
      cases hcase : branch.deferred <;> simp_all
    split
    · exact lighter_goOn (by simpa [weight, hpending] using hlength)
    · rintro _ ⟨⟩

theorem weight_lt_of_advance {definition : Definition} {branch next : Branch}
    {branches : List Branch} (hadvance : branch.advance definition = .branches branches)
    (hmem : next ∈ branches) : next.weight < branch.weight := by
  suffices hlighter : Lighter branch.weight (branch.advance definition) from
    hlighter branches hadvance next hmem
  unfold advance
  split
  · rename_i hpending
    exact lighter_finish hpending
  · rename_i obligation pending hpending
    have hweight : branch.weight =
        obligation.weight + ({ branch with pending } : Branch).weight := by
      simp [weight, hpending, Nat.add_assoc]
    rw [hweight]
    dsimp only
    split
    · exact lighter_advanceTerm definition _ _ _
    · exact lighter_advanceItems _ _ _ _
    · exact lighter_advanceCells definition _ _ _ _ _

end Branch

end SymbolicRewriting
