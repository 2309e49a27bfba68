import SymbolicRewriting.Proofs.MatchSteps

/-!
# The worklist of the matcher

A branch holds the items of a sequence that no pattern has taken. The loops of the matcher hold all items
instead, with the place of the next one, and cut segments out of them: there a segment that reaches beyond
the items would be a fault. In this module the items stay together as well, and to cut a segment is a
checked operation.

The worklist has the branch at hand in front. The inner loop takes up one obligation of it after another
until it ends; the alternatives of a choice that it has left behind stand next. The outer loop records the
end and turns to the next branch. A turn is one round of the inner loop, with what the outer loop does if
the branch ends in it.

The items from a place on are what is left of the sequence. Read so, every turn is one step of the branch
at hand (`PlacedBranch.tracks_advance`): no segment is out of range, and the loops end after as many turns
as there are branches to go through.
-/

namespace SymbolicRewriting

open List

/-- The items between two places. There are none unless both places are within the list, in this order. -/
def segment? {α : Type} (items : List α) (first last : Nat) : Option (List α) :=
  if first ≤ last ∧ last ≤ items.length then some ((items.drop first).take (last - first)) else none

theorem segment?_of_le {α : Type} {items : List α} {place count : Nat}
    (hcount : place + count ≤ items.length) :
    segment? items place (place + count) = some ((items.drop place).take count) := by
  rw [segment?, if_pos ⟨Nat.le_add_right place count, hcount⟩, Nat.add_sub_cancel_left]

theorem mapM_eq_some_map {α β : Type} {items : List α} {f : α → Option β} {g : α → β}
    (hitems : ∀ item ∈ items, f item = some (g item)) : items.mapM f = some (items.map g) := by
  induction items with
  | nil => rfl
  | cons item items ih =>
      obtain ⟨hitem, hitems⟩ := forall_mem_cons.1 hitems
      rw [mapM_cons, hitem, ih hitems]
      rfl

/-- An obligation, where a sequence has all its items and the place of the next one. -/
inductive PlacedObligation where
  | term (pattern subject : Term)
  | items (op : Label) (patterns subjects : List Term) (place : Nat)
  | cells (patterns : List (Cell Term)) (frame : Option Variable) (free : FreeCells)
      (subjectFrame : Option Variable)

/-- A new sequence is taken up at its first item. -/
def Obligation.placed : Obligation → PlacedObligation
  | term pattern subject => .term pattern subject
  | items op patterns subjects => .items op patterns subjects 0
  | cells patterns frame free subjectFrame => .cells patterns frame free subjectFrame

namespace PlacedObligation

/-- What is left of a sequence are the items from the place on. -/
def unplaced : PlacedObligation → Obligation
  | term pattern subject => .term pattern subject
  | items op patterns subjects place => .items op patterns (subjects.drop place)
  | cells patterns frame free subjectFrame => .cells patterns frame free subjectFrame

/-- The place in a sequence is at most the number of its items. -/
def InRange : PlacedObligation → Prop
  | items _ _ subjects place => place ≤ subjects.length
  | term _ _ | cells _ _ _ _ => True

@[simp]
theorem unplaced_placed (obligation : Obligation) : obligation.placed.unplaced = obligation := by
  cases obligation <;> rfl

theorem inRange_placed (obligation : Obligation) : obligation.placed.InRange := by
  cases obligation with
  | items op patterns subjects => exact Nat.zero_le _
  | term _ _ | cells _ _ _ _ => trivial

end PlacedObligation

structure PlacedBranch extends Findings where
  pending : List PlacedObligation

inductive PlacedProgress where
  | accepted
  | halted (halt : Halt)
  | branches (next : List PlacedBranch)

namespace PlacedBranch

def start (pattern subject : Term) : PlacedBranch := { pending := [.term pattern subject] }

def unplaced (branch : PlacedBranch) : Branch :=
  branch.toFindings.branch (branch.pending.map PlacedObligation.unplaced)

def InRange (branch : PlacedBranch) : Prop := ∀ obligation ∈ branch.pending, obligation.InRange

def enter (branch : PlacedBranch) (obligations : List PlacedObligation) : PlacedBranch :=
  { branch with pending := obligations ++ branch.pending }

end PlacedBranch

namespace PlacedProgress

/-- What a step without places comes to, if these obligations wait behind those that it opens. -/
def ofProgress (pending : List PlacedObligation) : Progress → PlacedProgress
  | .accepted => .accepted
  | .failed => .halted .failed
  | .conflicting => .halted .conflicting
  | .undecided => .halted .undecided
  | .branches next =>
      .branches (next.map fun branch =>
        { branch.findings with pending := branch.pending.map Obligation.placed ++ pending })

def unplaced : PlacedProgress → Progress
  | accepted => .accepted
  | halted halt => Findings.progress [] (.error halt)
  | branches next => .branches (next.map PlacedBranch.unplaced)

def InRange : PlacedProgress → Prop
  | branches next => ∀ branch ∈ next, branch.InRange
  | accepted | halted _ => True

end PlacedProgress

namespace PlacedBranch

def goOn (branch : PlacedBranch) : PlacedProgress := .branches [branch]

def takeItem (branch : PlacedBranch) (op : Label) (pattern : Term) (patterns subjects : List Term)
    (place : Nat) : PlacedProgress :=
  match subjects[place]? with
  | none => .halted .failed
  | some item =>
      if item.isRestVar then .halted .undecided
      else (branch.enter [.term pattern item, .items op patterns subjects (place + 1)]).goOn

def takeBoundSegment (branch : PlacedBranch) (op : Label) (bound : Term)
    (patterns subjects : List Term) (place : Nat) : Option PlacedProgress :=
  let last := place + (bound.itemsOf op).length
  if last ≤ subjects.length then do
    let segment ← segment? subjects place last
    if segment == bound.itemsOf op then
      return (branch.enter [.items op patterns subjects last]).goOn
    else
      return .halted .failed
  else some (.halted .failed)

def takeSegment (branch : PlacedBranch) (op : Label) (v : Variable) (patterns subjects : List Term)
    (place count : Nat) : Option PlacedBranch := do
  let segment ← segment? subjects place (place + count)
  return {
    toFindings := branch.bindSegment op v segment
    pending := .items op patterns subjects (place + count) :: branch.pending }

def takeSegments (branch : PlacedBranch) (op : Label) (v : Variable) (patterns subjects : List Term)
    (place : Nat) : Option PlacedProgress :=
  let needed := Term.needed patterns
  if place + needed ≤ subjects.length then do
    let most := subjects.length - (place + needed)
    let least := if patterns.any Term.isRestVar then 0 else most
    let next ← (range' least (most + 1 - least)).mapM
      (branch.takeSegment op v patterns subjects place)
    return .branches next
  else some (.halted .failed)

def advanceItems (branch : PlacedBranch) (op : Label) (patterns subjects : List Term)
    (place : Nat) : Option PlacedProgress :=
  match patterns with
  | [] => some (if place = subjects.length then branch.goOn else .halted .failed)
  | pattern :: patterns =>
      match pattern.asVar with
      | some v =>
          if v.isRest then
            match branch.subst.get? v with
            | some bound => branch.takeBoundSegment op bound patterns subjects place
            | none => branch.takeSegments op v patterns subjects place
          else some (branch.takeItem op pattern patterns subjects place)
      | none => some (branch.takeItem op pattern patterns subjects place)

/-- Takes up the topmost obligation. There is no outcome if a segment is out of range. -/
def advance (definition : Definition) (branch : PlacedBranch) : Option PlacedProgress :=
  match branch.pending with
  | [] => some (.ofProgress [] (branch.toFindings.branch []).finish)
  -- Only sequences have places; any other obligation is met as in a branch without them.
  | .items op patterns subjects place :: pending =>
      { branch with pending }.advanceItems op patterns subjects place
  | .term pattern subject :: pending =>
      some (.ofProgress pending
        ((branch.toFindings.branch []).advanceTerm definition pattern subject))
  | .cells patterns frame free subjectFrame :: pending =>
      some (.ofProgress pending
        ((branch.toFindings.branch []).advanceCells definition patterns frame free subjectFrame))

end PlacedBranch

/-- The branches to be explored, in the order in which they are taken up, and what has come of the
others. -/
structure Worklist where
  branches : List PlacedBranch
  results : PatternMatches := {}

namespace Worklist

def start (pattern subject : Term) : Worklist := { branches := [PlacedBranch.start pattern subject] }

/-- One turn of the loops, which end when the list is empty. -/
def turn (definition : Definition) (work : Worklist) : Option Worklist :=
  match work.branches with
  | [] => some work
  | branch :: later => do
      match ← branch.advance definition with
      | .accepted => return ⟨later, work.results.accept branch.unplaced⟩
      | .halted halt => return ⟨later, work.results.halt halt⟩
      | .branches next => return ⟨next ++ later, work.results⟩

def turns (definition : Definition) : Nat → Worklist → Option Worklist
  | 0, work => some work
  | count + 1, work => (work.turn definition).bind (turns definition count)

/-- Every place in a sequence that is still to be matched is at most the number of its items. -/
def InRange (work : Worklist) : Prop := ∀ branch ∈ work.branches, branch.InRange

/-- The loops end after so many turns with these results. Before each of the turns the list has a branch
and every place is in range, and no turn cuts a segment that is out of range. -/
structure EmptiesAfter (definition : Definition) (work : Worklist) (count : Nat)
    (results : PatternMatches) : Prop where
  emptied : work.turns definition count = some ⟨[], results⟩
  before : ∀ earlier < count, ∃ reached, work.turns definition earlier = some reached ∧
    reached.branches ≠ [] ∧ reached.InRange

end Worklist

/-! ### One turn -/

section Tracking

variable {definition : Definition}

/-- There is an outcome, it is that of the step without places, and every place in it is in range. -/
def PlacedProgress.Tracks (outcome : Option PlacedProgress) (step : Progress) : Prop :=
  ∃ progress, outcome = some progress ∧ progress.unplaced = step ∧ progress.InRange

/-- The step with these obligations waiting behind all others. -/
def Progress.followedBy (later : List Obligation) : Progress → Progress
  | .branches next =>
      .branches (next.map fun branch => { branch with pending := branch.pending ++ later })
  | .accepted => .accepted
  | .failed => .failed
  | .conflicting => .conflicting
  | .undecided => .undecided

namespace Findings

variable (findings : Findings) (later : List Obligation)

theorem followedBy_progress (outcome : Except Halt Findings) :
    (progress [] outcome).followedBy later = progress later outcome := by
  cases outcome with
  | ok next => rfl
  | error halt => cases halt <;> rfl

theorem followedBy_bind (v : Variable) (subject : Term) :
    ((findings.branch []).bind definition v subject).followedBy later =
      (findings.branch later).bind definition v subject := by
  rw [bind_branch, bind_branch, followedBy_progress]

/-- The other obligations of a branch only wait. -/
theorem followedBy_advanceTerm (pattern subject : Term) :
    ((findings.branch []).advanceTerm definition pattern subject).followedBy later =
      (findings.branch later).advanceTerm definition pattern subject := by
  unfold Branch.advanceTerm
  -- The cases of the matcher: a variable, an unknown value, tokens, applications, a sequence, collections,
  -- and terms of different kinds.
  split
  · exact findings.followedBy_bind later _ _
  · rw [meetUnknown_branch, meetUnknown_branch, followedBy_progress]
  · split <;> rfl
  · split
    · simp [Branch.goOn, Branch.enter, Progress.followedBy, branch]
    · rfl
  · rfl
  · rfl
  · rfl

theorem followedBy_advanceCells (patterns : List (Cell Term)) (frame : Option Variable)
    (free : FreeCells) (subjectFrame : Option Variable) :
    ((findings.branch []).advanceCells definition patterns frame free subjectFrame).followedBy later =
      (findings.branch later).advanceCells definition patterns frame free subjectFrame := by
  unfold Branch.advanceCells
  split
  · split
    · exact findings.followedBy_bind later _ _
    · split
      · rfl
      · split <;> rfl
  · split
    · split <;> rfl
    · rw [Progress.followedBy, map_map]
      rfl

end Findings

namespace PlacedBranch

variable {branch : PlacedBranch} {op : Label} {patterns subjects : List Term} {place : Nat}

theorem tracks_ofProgress {pending : List PlacedObligation}
    (hpending : ∀ obligation ∈ pending, obligation.InRange) (step : Progress) :
    PlacedProgress.Tracks (some (.ofProgress pending step))
      (step.followedBy (pending.map PlacedObligation.unplaced)) := by
  refine ⟨_, rfl, ?_, ?_⟩
  · cases step with
    | branches next =>
        have hnext (branch : Branch) : (unplaced { branch.findings with
            pending := branch.pending.map Obligation.placed ++ pending }) =
              { branch with
                pending := branch.pending ++ pending.map PlacedObligation.unplaced } := by
          simp [unplaced, Findings.branch, Branch.findings, Function.comp_def]
        simp only [PlacedProgress.ofProgress, PlacedProgress.unplaced, Progress.followedBy, map_map,
          Function.comp_def, hnext]
    | accepted | failed | conflicting | undecided => rfl
  · cases step with
    | branches next =>
        refine forall_mem_map.2 fun branch _ => forall_mem_append.2 ⟨?_, hpending⟩
        exact forall_mem_map.2 fun obligation _ => PlacedObligation.inRange_placed obligation
    | accepted | failed | conflicting | undecided => trivial

theorem tracks_goOn (hbranch : branch.InRange) :
    PlacedProgress.Tracks (some branch.goOn) branch.unplaced.goOn :=
  ⟨_, rfl, rfl, forall_mem_singleton.2 hbranch⟩

theorem tracks_halted {step : Progress} (halt : Halt)
    (hstep : Findings.progress [] (.error halt) = step) :
    PlacedProgress.Tracks (some (.halted halt)) step :=
  ⟨_, rfl, hstep, trivial⟩

theorem tracks_takeItem (hbranch : branch.InRange) (pattern : Term) :
    PlacedProgress.Tracks (some (branch.takeItem op pattern patterns subjects place))
      (branch.unplaced.takeItem op pattern patterns (subjects.drop place)) := by
  unfold takeItem
  cases hitem : subjects[place]? with
  | none =>
      rw [drop_eq_nil_of_le (getElem?_eq_none_iff.1 hitem)]
      exact tracks_halted .failed rfl
  | some item =>
      have hdrop : subjects.drop place = item :: subjects.drop (place + 1) := by
        rw [drop_eq_getElem?_toList_append, hitem]
        rfl
      have hplace : place + 1 ≤ subjects.length := (List.getElem?_eq_some_iff.1 hitem).1
      rw [hdrop, Branch.takeItem]
      dsimp only
      split
      · exact tracks_halted .undecided rfl
      · exact tracks_goOn (forall_mem_cons.2 ⟨trivial, forall_mem_cons.2 ⟨hplace, hbranch⟩⟩)

theorem tracks_takeBoundSegment (hbranch : branch.InRange) (hplace : place ≤ subjects.length)
    (bound : Term) :
    PlacedProgress.Tracks (branch.takeBoundSegment op bound patterns subjects place)
      (branch.unplaced.takeBoundSegment op bound patterns (subjects.drop place)) := by
  unfold takeBoundSegment Branch.takeBoundSegment
  dsimp only
  generalize bound.itemsOf op = segment
  by_cases hlast : place + segment.length ≤ subjects.length
  · have hlength : segment.length ≤ (subjects.drop place).length := by
      rw [length_drop]
      omega
    rw [if_pos hlast, segment?_of_le hlast, decide_eq_true hlength, Bool.true_and, drop_drop]
    dsimp only [Option.bind_eq_bind, Option.bind_some]
    split
    · exact tracks_goOn (forall_mem_cons.2 ⟨hlast, hbranch⟩)
    · exact tracks_halted .failed rfl
  · have hlength : ¬segment.length ≤ (subjects.drop place).length := by
      rw [length_drop]
      omega
    rw [if_neg hlast, decide_eq_false hlength]
    exact tracks_halted .failed rfl

theorem takeSegment_of_le {count : Nat} (hcount : place + count ≤ subjects.length) (v : Variable) :
    branch.takeSegment op v patterns subjects place count = some {
      toFindings := branch.bindSegment op v ((subjects.drop place).take count)
      pending := .items op patterns subjects (place + count) :: branch.pending } := by
  rw [takeSegment, segment?_of_le hcount]
  rfl

/-- How much can be taken depends on the number of items that are left, and so on their place and number. -/
theorem tracks_takeSegments (hbranch : branch.InRange) (hplace : place ≤ subjects.length)
    (v : Variable) :
    PlacedProgress.Tracks (branch.takeSegments op v patterns subjects place)
      (branch.unplaced.takeSegments op v patterns (subjects.drop place)) := by
  unfold takeSegments Branch.takeSegments
  change PlacedProgress.Tracks _ (if Term.needed patterns ≤ (subjects.drop place).length then _ else _)
  dsimp only
  rw [length_drop]
  by_cases hneeded : place + Term.needed patterns ≤ subjects.length
  · have hmost : subjects.length - place - (patterns.countP fun pattern => !pattern.isRestVar) =
        subjects.length - (place + Term.needed patterns) := Nat.sub_sub _ _ _
    rw [if_pos hneeded, if_pos (Nat.le_sub_of_add_le' hneeded), hmost]
    generalize hcounts : range' _ _ = counts
    have hcount : ∀ count ∈ counts, place + count ≤ subjects.length := by
      intro count hmem
      rw [← hcounts, mem_range'_1] at hmem
      split at hmem <;> omega
    rw [mapM_eq_some_map fun count hmem => takeSegment_of_le (hcount count hmem) v]
    refine ⟨_, rfl, ?_, ?_⟩
    · rw [PlacedProgress.unplaced, map_map]
      congr 1
      refine map_congr_left fun count _ => ?_
      simp [unplaced, PlacedObligation.unplaced, Branch.takeSegment, Findings.branch,
        Findings.bindSegment]
    · exact forall_mem_map.2 fun count hmem => forall_mem_cons.2 ⟨hcount count hmem, hbranch⟩
  · have hlength : ¬Term.needed patterns ≤ subjects.length - place := by omega
    rw [if_neg hneeded, if_neg hlength]
    exact tracks_halted .failed rfl

theorem tracks_advanceItems (hbranch : branch.InRange) (hplace : place ≤ subjects.length) :
    PlacedProgress.Tracks (branch.advanceItems op patterns subjects place)
      (branch.unplaced.advanceItems op patterns (subjects.drop place)) := by
  cases patterns with
  | nil =>
      have hend : (subjects.drop place).isEmpty = true ↔ place = subjects.length := by
        rw [List.isEmpty_iff, drop_eq_nil_iff]
        omega
      rw [advanceItems, Branch.advanceItems]
      by_cases hlast : place = subjects.length
      · rw [if_pos hlast, if_pos (hend.2 hlast)]
        exact tracks_goOn hbranch
      · rw [if_neg hlast, if_neg (mt hend.1 hlast)]
        exact tracks_halted .failed rfl
  | cons pattern patterns =>
      unfold advanceItems Branch.advanceItems
      dsimp only
      cases pattern.asVar with
      | none => exact tracks_takeItem hbranch pattern
      | some v =>
          dsimp only
          split
          · have hget : branch.unplaced.subst.get? v = branch.subst.get? v := rfl
            rw [hget]
            cases branch.subst.get? v with
            | some bound => exact tracks_takeBoundSegment hbranch hplace bound
            | none => exact tracks_takeSegments hbranch hplace v
          · exact tracks_takeItem hbranch pattern

/-- A branch in range takes the step of the branch without places, and stays in range. -/
theorem tracks_advance (definition : Definition) (hbranch : branch.InRange) :
    PlacedProgress.Tracks (branch.advance definition) (branch.unplaced.advance definition) := by
  obtain ⟨findings, pending⟩ := branch
  cases pending with
  | nil =>
      have hfinish : (findings.branch []).finish.followedBy [] = (findings.branch []).finish := by
        cases (findings.branch []).finish <;> simp [Progress.followedBy]
      have htracks := tracks_ofProgress (forall_mem_nil _) (findings.branch []).finish
      rwa [map_nil, hfinish] at htracks
  | cons obligation pending =>
      obtain ⟨hobligation, hpending⟩ := forall_mem_cons.1 hbranch
      cases obligation with
      | term pattern subject =>
          have htracks := tracks_ofProgress hpending
            ((findings.branch []).advanceTerm definition pattern subject)
          rwa [findings.followedBy_advanceTerm] at htracks
      | items op patterns subjects place =>
          exact @tracks_advanceItems ⟨findings, pending⟩ op patterns subjects place hpending hobligation
      | cells patterns frame free subjectFrame =>
          have htracks := tracks_ofProgress hpending
            ((findings.branch []).advanceCells definition patterns frame free subjectFrame)
          rwa [findings.followedBy_advanceCells] at htracks

end PlacedBranch

/-! ### The run of the loops -/

theorem Branch.extent_of_ended {branch : Branch}
    (hended : ∀ next, branch.advance definition ≠ .branches next) :
    branch.extent definition = 1 := by
  rw [extent]
  split
  · rename_i hadvance
    exact absurd hadvance (hended _)
  · rfl

theorem explore_of_halted {branch : Branch} {halt : Halt} (later : List Branch)
    (results : PatternMatches)
    (hadvance : branch.advance definition = Findings.progress [] (.error halt)) :
    explore definition (branch :: later) results = explore definition later (results.halt halt) := by
  cases halt with
  | failed => exact explore_of_failed _ _ hadvance
  | conflicting => exact explore_of_conflicting _ _ hadvance
  | undecided => exact explore_of_undecided _ _ hadvance

namespace Worklist

variable {work next : Worklist} {results : PatternMatches} {count : Nat}

/-- The number of branches that are still to be gone through. -/
def extent (definition : Definition) (work : Worklist) : Nat :=
  extentAll definition (work.branches.map PlacedBranch.unplaced)

/-- What the branches without places come to. -/
def outcome (definition : Definition) (work : Worklist) : PatternMatches :=
  explore definition (work.branches.map PlacedBranch.unplaced) work.results

/-- Each turn goes through one of the branches, and the outcome stays the same. -/
theorem exists_turn (definition : Definition) (hbranches : work.branches ≠ []) (hwork : work.InRange) :
    ∃ next, work.turn definition = some next ∧ next.InRange ∧
      work.extent definition = next.extent definition + 1 ∧
      next.outcome definition = work.outcome definition := by
  obtain ⟨branches, results⟩ := work
  obtain ⟨branch, later, rfl⟩ := exists_cons_of_ne_nil hbranches
  obtain ⟨hbranch, hlater⟩ := forall_mem_cons.1 hwork
  obtain ⟨progress, hprogress, hstep, hrange⟩ :=
    PlacedBranch.tracks_advance definition hbranch
  unfold extent outcome turn
  dsimp only
  rw [hprogress, map_cons, extentAll, total_cons]
  cases progress with
  | accepted =>
      refine ⟨_, rfl, hlater, ?_, (explore_of_accepted _ _ hstep.symm).symm⟩
      rw [Branch.extent_of_ended (by simp [← hstep, PlacedProgress.unplaced]), Nat.add_comm]
      rfl
  | halted halt =>
      refine ⟨_, rfl, hlater, ?_, (explore_of_halted _ _ hstep.symm).symm⟩
      have hended : ∀ next, branch.unplaced.advance definition ≠ .branches next := by
        cases halt <;> simp [← hstep, PlacedProgress.unplaced, Findings.progress]
      rw [Branch.extent_of_ended hended, Nat.add_comm]
      rfl
  | branches opened =>
      refine ⟨_, rfl, forall_mem_append.2 ⟨hrange, hlater⟩, ?_, ?_⟩
      · rw [Branch.extent_of_advance hstep.symm]
        simp only [extentAll, map_append, total_append]
        omega
      · rw [map_append]
        exact (explore_of_branches _ _ hstep.symm).symm

theorem branches_of_extent (hextent : work.extent definition = 0) : work.branches = [] := by
  obtain ⟨branches, results⟩ := work
  cases branches with
  | nil => rfl
  | cons branch later =>
      have hpos := branch.unplaced.extent_pos definition
      simp only [extent, extentAll, map_cons, total_cons] at hextent
      omega

theorem EmptiesAfter.of_turn (hbranches : work.branches ≠ []) (hwork : work.InRange)
    (hturn : work.turn definition = some next) (hnext : next.EmptiesAfter definition count results) :
    work.EmptiesAfter definition (count + 1) results where
  emptied := by
    rw [turns, hturn]
    exact hnext.emptied
  before := by
    rintro (_ | earlier) hearlier
    · exact ⟨work, rfl, hbranches, hwork⟩
    · rw [turns, hturn]
      exact hnext.before earlier (Nat.lt_of_succ_lt_succ hearlier)

theorem emptiesAfter_extent (hwork : work.InRange) :
    work.EmptiesAfter definition (work.extent definition) (work.outcome definition) := by
  -- By induction on the branches that are left to go through: a turn goes through one of them, and in range
  -- there is always a turn.
  generalize hcount : work.extent definition = count
  induction count generalizing work with
  | zero =>
      have hbranches := branches_of_extent hcount
      refine ⟨?_, fun earlier hearlier => absurd hearlier (Nat.not_lt_zero earlier)⟩
      rw [outcome, hbranches, map_nil, explore, turns, ← hbranches]
  | succ count ih =>
      have hbranches : work.branches ≠ [] := by
        intro hnil
        rw [extent, hnil] at hcount
        cases hcount
      obtain ⟨next, hturn, hnext, hextent, houtcome⟩ :=
        exists_turn definition hbranches hwork
      have hlater : next.extent definition = count := Nat.succ.inj (hextent.symm.trans hcount)
      rw [← houtcome]
      exact .of_turn hbranches hwork hturn (ih hnext hlater)

/-- The loops of the matcher end for every definition, pattern and subject, after as many turns as there
are branches to go through. They come to the matches of `Definition.matchPattern`, and until then every
place is in range and no segment reaches beyond the items. -/
theorem matchPattern_empties_worklist (definition : Definition) (pattern subject : Term) :
    (start pattern subject).EmptiesAfter definition ((Branch.start pattern subject).extent definition)
      (definition.matchPattern pattern subject) :=
  have hstart : (start pattern subject).InRange := by
    simp [start, PlacedBranch.start, InRange, PlacedBranch.InRange, PlacedObligation.InRange]
  emptiesAfter_extent hstart

example (definition : Definition) :
    ((start (.sequence "list" [.var ⟨"Xs", Symbol.top, .rest⟩, .token "Int" "2"])
      (.sequence "list" [.token "Int" "1", .token "Int" "2"])).turns definition 6).map
        (fun work => (work.branches.length, work.results.found.size)) = some (0, 1) := by cbv

end Worklist

end Tracking

end SymbolicRewriting
