import Mathlib.Data.List.Sort
import SymbolicRewriting.Proofs.EqualMatches

/-!
# Matching by plain backtracking

The matcher keeps a list of branches, and the alternatives of a choice are put in front of those that are
still to be explored. A direct matcher recurses on the pattern instead: at each choice it tries the
alternatives in their order and puts what they come to one after another. Both find the same matches in
the same order, and give up as many alternatives as undecided or conflicting.

The direct matcher passes on what has been found so far and comes to a list of outcomes: new findings, or
an end for a reason.
-/

namespace SymbolicRewriting

open List

instance (patterns subjects : List Term) (count : Nat) :
    Decidable (SegmentFits patterns subjects count) :=
  inferInstanceAs (Decidable (_ ∧ (_ → _)))

/-- Every outcome that is no end goes on. -/
def Findings.andThen (outcomes : List (Except Halt Findings))
    (next : Findings → List (Except Halt Findings)) : List (Except Halt Findings) :=
  outcomes.flatMap fun outcome =>
    match outcome with
    | .ok findings => next findings
    | .error halt => [.error halt]

/-- What a rest variable may take of the items, shorter segments first, and the items that it leaves. A
bound variable takes what it is bound to. -/
def Findings.segments (findings : Findings) (op : Label) (v : Variable) (patterns items : List Term) :
    List (Findings × List Term) :=
  match findings.subst.get? v with
  | some bound =>
      let segment := bound.itemsOf op
      if segment.length ≤ items.length && items.take segment.length == segment then
        [(findings, items.drop segment.length)]
      else []
  | none =>
      ((range (items.length + 1)).filter fun count => SegmentFits patterns items count).map
        fun count => (findings.bindSegment op v (items.take count), items.drop count)

/-- Each cell of the name, in the order of the collection, with the cells that it leaves. -/
def Term.choices (name : Label) : List (Cell Term) → List (Cell Term × List (Cell Term))
  | [] => []
  | cell :: cells =>
      let later := (choices name cells).map fun choice => (choice.1, cell :: choice.2)
      if cell.name = name then (cell, cells) :: later else later

namespace Term

mutual

/-- What comes of matching the pattern against the subject after the given findings. -/
def backtrack (definition : Definition) (pattern subject : Term) (findings : Findings) :
    List (Except Halt Findings) :=
  match pattern, subject with
  | var v, _ => [findings.meet definition (.bind v subject)]
  | _, var v => [findings.meet definition (.unknown pattern v)]
  | token sort value, token sort' value' =>
      if sort = sort' ∧ value = value' then [.ok findings] else [.error .failed]
  | app label args, app label' args' =>
      if label = label' ∧ args.length = args'.length then
        backtrackArgs definition args args' findings
      else [.error .failed]
  | sequence op patterns, _ =>
      backtrackItems definition op patterns (subject.itemsOf op) findings
  | collection patterns frame, collection cells subjectFrame =>
      backtrackCells definition patterns frame cells subjectFrame findings
  | _, _ => [.error .failed]
termination_by structural pattern

def backtrackArgs (definition : Definition) (patterns subjects : List Term) (findings : Findings) :
    List (Except Halt Findings) :=
  match patterns, subjects with
  | pattern :: patterns, subject :: subjects =>
      Findings.andThen (backtrack definition pattern subject findings)
        (backtrackArgs definition patterns subjects)
  | _, _ => [.ok findings]
termination_by structural patterns

def backtrackItems (definition : Definition) (op : Label) (patterns items : List Term)
    (findings : Findings) : List (Except Halt Findings) :=
  match patterns with
  | [] => if items.isEmpty then [.ok findings] else [.error .failed]
  | pattern :: patterns =>
      match pattern.asVar.filter Variable.isRest, items with
      | some v, _ =>
          (findings.segments op v patterns items).flatMap fun choice =>
            backtrackItems definition op patterns choice.2 choice.1
      | none, [] => [.error .failed]
      | none, item :: items =>
          if item.isRestVar then [.error .undecided]
          else
            Findings.andThen (backtrack definition pattern item findings)
              (backtrackItems definition op patterns items)
termination_by structural patterns

def backtrackCells (definition : Definition) (patterns : List (Cell Term)) (frame : Option Variable)
    (cells : List (Cell Term)) (subjectFrame : Option Variable) (findings : Findings) :
    List (Except Halt Findings) :=
  match patterns with
  | [] =>
      match frame with
      | some v => [findings.meet definition (.bind v (.collection cells subjectFrame))]
      | none =>
          if !cells.isEmpty then [.error .failed]
          else if subjectFrame.isSome then [.error .undecided]
          else [.ok findings]
  | ⟨id, name, content⟩ :: patterns =>
      if cells.any fun cell => cell.name = name then
        (choices name cells).flatMap fun (chosen, others) =>
          Findings.andThen (backtrack definition content chosen.content
              (findings.recordCell id chosen.id))
            (backtrackCells definition patterns frame others subjectFrame)
      else if subjectFrame.isSome then [.error .undecided]
      else [.error .failed]
termination_by structural patterns

end

end Term

/-! ### The alternatives of the matcher -/

theorem takeSegments_counts (patterns items : List Term) :
    ((range (items.length + 1)).filter fun count => SegmentFits patterns items count) =
      if Term.needed patterns ≤ items.length then
        let most := items.length - Term.needed patterns
        let least := if patterns.any Term.isRestVar then 0 else most
        range' least (most + 1 - least)
      else [] := by
  have hfits : ∀ count, count ∈ (range (items.length + 1)).filter (fun count =>
      SegmentFits patterns items count) ↔ SegmentFits patterns items count := by
    intro count
    rw [mem_filter, decide_eq_true_eq, mem_range, and_iff_right_iff_imp]
    intro hfits
    have := hfits.1
    omega
  by_cases hneeded : Term.needed patterns ≤ items.length
  · rw [if_pos hneeded]
    refine Pairwise.eq_of_mem_iff (pairwise_lt_range.filter _) pairwise_lt_range' fun count => ?_
    refine (hfits count).trans ?_
    unfold SegmentFits
    dsimp only
    rw [mem_range'_1]
    cases patterns.any Term.isRestVar with
    | true =>
        simp only [if_true, Bool.true_eq_false, false_implies, and_true]
        omega
    | false =>
        simp only [Bool.false_eq_true, if_false, true_implies]
        omega
  · rw [if_neg hneeded, eq_nil_iff_forall_not_mem]
    intro count hmem
    have := ((hfits count).1 hmem).1
    omega

theorem selections_eq_choices (name : Label) (before cells : List (Cell Term)) :
    (selections name before cells).map (fun choice => (choice.1, choice.2.toList)) =
      (Term.choices name cells).map fun choice => (choice.1, before.reverse ++ choice.2) := by
  induction cells generalizing before with
  | nil => rfl
  | cons cell cells ih =>
      have hlater : (selections name (cell :: before) cells).map
          (fun choice => (choice.1, choice.2.toList)) =
            ((Term.choices name cells).map fun choice => (choice.1, cell :: choice.2)).map
              fun choice => (choice.1, before.reverse ++ choice.2) := by
        rw [ih, map_map]
        simp
      unfold selections Term.choices
      dsimp only
      split
      · rw [map_cons, map_cons, hlater, FreeCells.toList, reverseAux_eq]
      · exact hlater

/-- The cells that can be chosen are those of the name, in the order of the collection. -/
theorem Term.map_fst_choices (name : Label) (cells : List (Cell Term)) :
    (choices name cells).map Prod.fst = cells.filter fun cell => cell.name = name := by
  induction cells with
  | nil => rfl
  | cons cell cells ih =>
      have hlater : ((choices name cells).map fun choice => (choice.1, cell :: choice.2)).map Prod.fst =
          cells.filter fun cell => cell.name = name := by
        rw [map_map]
        exact ih
      unfold choices
      by_cases hname : cell.name = name <;> simp [hname, hlater]

theorem Term.choices_eq_nil_iff {name : Label} {cells : List (Cell Term)} :
    choices name cells = [] ↔ (cells.any fun cell => cell.name = name) = false := by
  rw [← map_eq_nil_iff (f := Prod.fst), map_fst_choices, filter_eq_nil_iff, any_eq_false]

/-! ### One obligation after another -/

section Tracking

variable {definition : Definition}

theorem explore_eq_foldl (branches : List Branch) (results : PatternMatches) :
    explore definition branches results =
      branches.foldl (fun results branch => explore definition [branch] results) results := by
  induction branches generalizing results with
  | nil => rw [explore, foldl_nil]
  | cons branch later ih => rw [← singleton_append, explore_append, ih, foldl_append]; rfl

/-- Exploring a branch from these obligations on goes on with the outcomes, one after another. -/
def ComesTo (definition : Definition) (obligations : List Obligation)
    (outcomes : Findings → List (Except Halt Findings)) : Prop :=
  ∀ findings pending results,
    explore definition [Findings.branch findings (obligations ++ pending)] results =
      (outcomes findings).foldl (exploreFrom definition pending) results

namespace ComesTo

variable {obligation : Obligation} {obligations opened : List Obligation}
  {outcomes next : Findings → List (Except Halt Findings)}

theorem nil : ComesTo definition [] fun findings => [.ok findings] :=
  fun _ _ _ => rfl

theorem foldl_andThen (hnext : ComesTo definition obligations next)
    (outcomes : List (Except Halt Findings)) (pending : List Obligation)
    (results : PatternMatches) :
    (Findings.andThen outcomes next).foldl (exploreFrom definition pending) results =
      outcomes.foldl (exploreFrom definition (obligations ++ pending)) results := by
  unfold Findings.andThen
  rw [foldl_flatMap]
  congr 1
  funext results outcome
  cases outcome with
  | ok findings => exact (hnext findings pending results).symm
  | error halt => rfl

theorem append (hfirst : ComesTo definition obligations outcomes)
    (hnext : ComesTo definition opened next) :
    ComesTo definition (obligations ++ opened) fun findings =>
      Findings.andThen (outcomes findings) next := by
  intro findings pending results
  rw [hnext.foldl_andThen, append_assoc]
  exact hfirst findings (opened ++ pending) results

theorem poses {encounter : Encounter} (hposes : obligation.Poses encounter) :
    ComesTo definition [obligation] fun findings => [findings.meet definition encounter] :=
  fun findings pending results =>
    explore_of_progress results (Findings.advance_of_poses findings pending hposes)

theorem opens (hopens : obligation.Opens opened) (hopened : ComesTo definition opened outcomes) :
    ComesTo definition [obligation] outcomes := by
  intro findings pending results
  have hadvance : (findings.branch (obligation :: pending)).advance definition = _ :=
    Findings.advance_of_opens findings pending hopens
  rw [singleton_append, explore_of_branches _ _ hadvance, append_nil]
  exact hopened findings pending results

/-- A branch that goes on as alternatives comes to what each of them comes to. -/
theorem explore_alternatives {α : Type} {findings : Findings} {pending : List Obligation}
    {alternatives : List α} {extended : α → Findings} {opened : α → List Obligation}
    {outcomes : α → Findings → List (Except Halt Findings)}
    (hadvance : (findings.branch (obligation :: pending)).advance definition =
      .branches (alternatives.map fun choice =>
        (extended choice).branch (opened choice ++ pending)))
    (hopened : ∀ choice, ComesTo definition (opened choice) (outcomes choice))
    (results : PatternMatches) :
    explore definition [findings.branch (obligation :: pending)] results =
      (alternatives.flatMap fun choice => outcomes choice (extended choice)).foldl
        (exploreFrom definition pending) results := by
  rw [explore_of_branches _ _ hadvance, append_nil, explore_eq_foldl, foldl_map, foldl_flatMap]
  congr 1
  funext results choice
  exact hopened choice (extended choice) pending results

theorem halts {halt : Halt} (hadvance : ∀ findings pending,
      (Findings.branch findings (obligation :: pending)).advance definition =
        Findings.progress pending (.error halt)) :
    ComesTo definition [obligation] fun _ => [.error halt] :=
  fun findings pending results => explore_of_progress results (hadvance findings pending)

end ComesTo

/-! ### The recursion on the pattern -/

/-- The direct matcher comes to the same for this pattern, whatever the subject. -/
def Term.Backtracks (definition : Definition) (pattern : Term) : Prop :=
  ∀ subject, ComesTo definition [.term pattern subject] (backtrack definition pattern subject)

theorem comesTo_args {patterns : List Term}
    (hpatterns : ∀ pattern ∈ patterns, pattern.Backtracks definition) (subjects : List Term) :
    ComesTo definition (zipWith .term patterns subjects)
      (Term.backtrackArgs definition patterns subjects) := by
  induction patterns generalizing subjects with
  | nil => exact .nil
  | cons pattern patterns ih =>
      obtain ⟨hpattern, hpatterns⟩ := forall_mem_cons.1 hpatterns
      cases subjects with
      | nil => exact .nil
      | cons subject subjects => exact (hpattern subject).append (ih hpatterns subjects)

section Items

variable {op : Label} {patterns : List Term}
  (hlater : ∀ items, ComesTo definition [.items op patterns items]
    (Term.backtrackItems definition op patterns items))
include hlater

theorem comesTo_item {pattern : Term} (hpattern : pattern.Backtracks definition)
    (hrest : pattern.isRestVar = false) (items : List Term) :
    ComesTo definition [.items op (pattern :: patterns) items]
      (Term.backtrackItems definition op (pattern :: patterns) items) := by
  have hvar : pattern.asVar.filter Variable.isRest = none := by
    cases pattern with
    | var v => exact if_neg (Bool.eq_false_iff.1 hrest)
    | token _ _ | app _ _ | sequence _ _ | collection _ _ => rfl
  have hway : Term.backtrackItems definition op (pattern :: patterns) items = fun findings =>
      match items with
      | [] => [.error .failed]
      | item :: items =>
          if item.isRestVar then [.error .undecided]
          else Findings.andThen (pattern.backtrack definition item findings)
            (Term.backtrackItems definition op patterns items) := by
    funext findings
    cases items <;> simp only [Term.backtrackItems, hvar]
  rw [hway]
  cases items with
  | nil =>
      exact .halts fun findings pending => Findings.advance_item findings pending hrest patterns []
  | cons item items =>
      dsimp only
      cases hitem : item.isRestVar with
      | true =>
          refine .halts fun findings pending => ?_
          rw [Findings.advance_item findings pending hrest, Branch.takeItem, if_pos hitem]
          rfl
      | false =>
          exact .opens (.item op patterns items hrest hitem) ((hpattern item).append (hlater items))

theorem comesTo_segment {v : Variable} (hrest : v.isRest = true) (items : List Term) :
    ComesTo definition [.items op (.var v :: patterns) items]
      (Term.backtrackItems definition op (.var v :: patterns) items) := by
  intro findings pending results
  have hway : Term.backtrackItems definition op (.var v :: patterns) items findings =
      (findings.segments op v patterns items).flatMap fun choice =>
        Term.backtrackItems definition op patterns choice.2 choice.1 := by
    have hvar : (Term.var v).asVar.filter Variable.isRest = some v := if_pos hrest
    simp only [Term.backtrackItems, hvar]
  rw [hway, Findings.segments, singleton_append]
  cases hget : findings.subst.get? v with
  | some bound =>
      have hadvance : (findings.branch (.items op (.var v :: patterns) items :: pending)).advance
          definition = _ :=
        Findings.advance_boundSegment findings pending hrest hget op patterns items
      dsimp only
      split at hadvance
      · rename_i hsegment
        rw [if_pos hsegment, flatMap_singleton, explore_of_branches _ _ hadvance, append_nil]
        exact hlater _ findings pending results
      · rename_i hsegment
        rw [if_neg hsegment, explore_of_failed _ _ hadvance, explore]
        rfl
  | none =>
      have hadvance : (findings.branch (.items op (.var v :: patterns) items :: pending)).advance
          definition = _ :=
        Findings.advance_freeSegment findings pending hrest hget op patterns items
      dsimp only
      rw [takeSegments_counts, flatMap_map]
      unfold Branch.takeSegments at hadvance
      change _ = if Term.needed patterns ≤ items.length then _ else _ at hadvance
      by_cases hneeded : Term.needed patterns ≤ items.length
      · rw [if_pos hneeded]
        rw [if_pos hneeded] at hadvance
        exact ComesTo.explore_alternatives hadvance (fun count => hlater (items.drop count)) results
      · rw [if_neg hneeded]
        rw [if_neg hneeded] at hadvance
        rw [explore_of_failed _ _ hadvance, explore]
        rfl

end Items

theorem comesTo_items (op : Label) {patterns : List Term}
    (hpatterns : ∀ pattern ∈ patterns, pattern.Backtracks definition) (items : List Term) :
    ComesTo definition [.items op patterns items]
      (Term.backtrackItems definition op patterns items) := by
  induction patterns generalizing items with
  | nil =>
      cases items with
      | nil => exact .opens (.exhausted op) .nil
      | cons item items => exact .halts fun _ _ => rfl
  | cons pattern patterns ih =>
      obtain ⟨hpattern, hlater⟩ := forall_mem_cons.1 hpatterns
      cases hrest : pattern.isRestVar with
      | false => exact comesTo_item (ih hlater) hpattern hrest items
      | true =>
          obtain ⟨v, rfl, hrest⟩ := Term.exists_of_isRestVar hrest
          exact comesTo_segment (ih hlater) hrest items

/-- The alternatives for a cell are those of the direct matcher, and without any the branch ends. -/
theorem comesTo_cell {pattern : Cell Term} (hpattern : pattern.content.Backtracks definition)
    {patterns : List (Cell Term)} {frame subjectFrame : Option Variable}
    (hlater : ∀ free, ComesTo definition [.cells patterns frame free subjectFrame]
      (Term.backtrackCells definition patterns frame free.toList subjectFrame)) (free : FreeCells) :
    ComesTo definition [.cells (pattern :: patterns) frame free subjectFrame]
      (Term.backtrackCells definition (pattern :: patterns) frame free.toList subjectFrame) := by
  obtain ⟨id, name, content⟩ := pattern
  intro findings pending results
  have hadvance : (findings.branch (.cells (⟨id, name, content⟩ :: patterns) frame free
      subjectFrame :: pending)).advance definition =
        Branch.advanceCells definition (findings.branch pending) (⟨id, name, content⟩ :: patterns)
          frame free subjectFrame := rfl
  rw [Branch.advanceCells] at hadvance
  have hchoices : Term.choices name free.toList =
      (selections name [] free.toList).map fun choice => (choice.1, choice.2.toList) := by
    rw [selections_eq_choices]
    exact (map_id _).symm
  rw [Term.backtrackCells]
  cases hselections : selections name [] free.toList with
  | nil =>
      rw [hselections] at hadvance hchoices
      rw [if_neg (Bool.eq_false_iff.1 (Term.choices_eq_nil_iff.1 hchoices))]
      cases subjectFrame with
      | none => rw [singleton_append, explore_of_failed _ _ hadvance, explore]; rfl
      | some w => rw [singleton_append, explore_of_undecided _ _ hadvance, explore]; rfl
  | cons first selected =>
      have hany : (free.toList.any fun cell => cell.name = name) = true := by
        rw [← Bool.not_eq_false, ← Term.choices_eq_nil_iff, hchoices, hselections]
        exact cons_ne_nil _ _
      rw [if_pos hany, hchoices, flatMap_map]
      rw [hselections] at hadvance ⊢
      have hopened : ∀ choice : Cell Term × FreeCells, ComesTo definition
          [.term content choice.1.content, .cells patterns frame choice.2 subjectFrame] _ :=
        fun choice => (hpattern choice.1.content).append (hlater choice.2)
      exact ComesTo.explore_alternatives hadvance hopened results

theorem comesTo_cells {patterns : List (Cell Term)}
    (hpatterns : ∀ cell ∈ patterns, cell.content.Backtracks definition) (frame : Option Variable)
    (free : FreeCells) (subjectFrame : Option Variable) :
    ComesTo definition [.cells patterns frame free subjectFrame]
      (Term.backtrackCells definition patterns frame free.toList subjectFrame) := by
  induction patterns generalizing free with
  | nil =>
      cases frame with
      | some v => exact .poses (.frame v free subjectFrame)
      | none =>
          cases hfree : free.toList with
          | nil =>
              cases subjectFrame with
              | none => exact .opens (.closed hfree) .nil
              | some w => exact .halts fun _ _ => if_neg (by simp [hfree])
          | cons cell cells => exact .halts fun _ _ => if_pos (by simp [hfree])
  | cons pattern patterns ih =>
      obtain ⟨hpattern, hpatterns⟩ := forall_mem_cons.1 hpatterns
      exact comesTo_cell hpattern (ih hpatterns) free

theorem Term.backtracks (definition : Definition) (pattern : Term) : pattern.Backtracks definition := by
  induction pattern using nestedInduction with
  | var v => exact fun subject => .poses (.bind v subject)
  | token sort value =>
      intro subject
      cases subject with
      | var w => exact .poses (.unknown rfl w)
      | token sort' value' =>
          by_cases hsame : sort = sort' ∧ value = value'
          · have hgoesOn : backtrack definition (token sort value) (token sort' value') =
                fun findings => [.ok findings] := funext fun _ => if_pos hsame
            obtain ⟨rfl, rfl⟩ := hsame
            rw [hgoesOn]
            exact .opens (.token sort value) .nil
          · have hends : backtrack definition (token sort value) (token sort' value') =
                fun _ => [.error .failed] := funext fun _ => if_neg hsame
            rw [hends]
            exact .halts fun _ _ => if_neg hsame
      | app _ _ | sequence _ _ | collection _ _ => exact .halts fun _ _ => rfl
  | app label args ih =>
      intro subject
      cases subject with
      | var w => exact .poses (.unknown rfl w)
      | app label' args' =>
          by_cases hsame : label = label' ∧ args.length = args'.length
          · have hgoesOn : backtrack definition (app label args) (app label' args') =
                backtrackArgs definition args args' := funext fun _ => if_pos hsame
            obtain ⟨rfl, hlength⟩ := hsame
            rw [hgoesOn]
            exact .opens (.app label hlength) (comesTo_args ih args')
          · have hends : backtrack definition (app label args) (app label' args') =
                fun _ => [.error .failed] := funext fun _ => if_neg hsame
            rw [hends]
            exact .halts fun _ _ => if_neg hsame
      | token _ _ | sequence _ _ | collection _ _ => exact .halts fun _ _ => rfl
  | sequence op patterns ih =>
      intro subject
      cases subject with
      | var w => exact .poses (.unknown rfl w)
      | token _ _ | app _ _ | sequence _ _ | collection _ _ =>
          exact .opens (.sequence op patterns rfl) (comesTo_items op ih _)
  | collection patterns frame ih =>
      intro subject
      cases subject with
      | var w => exact .poses (.unknown rfl w)
      | collection cells subjectFrame =>
          exact .opens (.collection patterns frame cells subjectFrame)
            (comesTo_cells ih frame { after := cells } subjectFrame)
      | token _ _ | app _ _ | sequence _ _ => exact .halts fun _ _ => rfl

end Tracking

/-! ### All matches -/

/-- What the outcomes amount to: the matches in their order, and how many alternatives were given up as
undecided or conflicting. -/
def PatternMatches.gather (outcomes : List (Except Halt StructuralMatch)) : PatternMatches where
  found := (outcomes.filterMap Except.toOption).toArray
  undecided := outcomes.countP fun outcome => outcome matches .error .undecided
  conflicts := outcomes.countP fun outcome => outcome matches .error .conflicting

theorem PatternMatches.foldl_add (outcomes : List (Except Halt StructuralMatch))
    (results : PatternMatches) :
    outcomes.foldl add results =
      { found := results.found ++ (gather outcomes).found
        undecided := results.undecided + (gather outcomes).undecided
        conflicts := results.conflicts + (gather outcomes).conflicts } := by
  induction outcomes generalizing results with
  | nil => simp [gather]
  | cons outcome outcomes ih =>
      rw [foldl_cons, ih]
      cases outcome with
      | ok found => simp [gather, add, Except.toOption]
      | error reason =>
          cases reason <;> simp [gather, add, halt, Except.toOption, filterMap_cons, countConflict,
            countUndecided, Nat.add_assoc, Nat.add_comm 1]

/-- The outcomes of the direct matcher, each with its deferred patterns settled. -/
def Definition.backtrackPattern (definition : Definition) (pattern subject : Term) :
    List (Except Halt StructuralMatch) :=
  (pattern.backtrack definition subject {}).map fun outcome => outcome.bind Findings.complete

theorem Definition.matchPattern_eq_gather (definition : Definition) (pattern subject : Term) :
    definition.matchPattern pattern subject =
      .gather (definition.backtrackPattern pattern subject) := by
  have hexplore := Term.backtracks definition pattern subject {} [] {}
  have hends : exploreFrom definition [] = fun results outcome =>
      results.add (Except.bind outcome Findings.complete) := by
    funext results outcome
    cases outcome with
    | ok findings => exact explore_complete definition findings results
    | error halt => rfl
  refine hexplore.trans ?_
  rw [hends, ← foldl_map]
  refine (PatternMatches.foldl_add _ {}).trans ?_
  simp [Definition.backtrackPattern]

theorem Definition.mem_found_iff_exists_outcome {definition : Definition} {pattern subject : Term}
    {found : StructuralMatch} :
    found ∈ (definition.matchPattern pattern subject).found ↔
      ∃ findings, .ok findings ∈ pattern.backtrack definition subject {} ∧
        findings.complete = .ok found := by
  have hoption : ∀ outcome : Except Halt StructuralMatch,
      outcome.toOption = some found ↔ outcome = .ok found := by
    intro outcome
    cases outcome <;> simp [Except.toOption]
  rw [matchPattern_eq_gather, PatternMatches.gather, List.mem_toArray, mem_filterMap]
  simp only [hoption, exists_eq_right, backtrackPattern, mem_map]
  constructor
  · rintro ⟨outcome, houtcome, hcomplete⟩
    cases outcome with
    | ok findings => exact ⟨findings, houtcome, hcomplete⟩
    | error halt => cases hcomplete
  · rintro ⟨findings, hfindings, hcomplete⟩
    exact ⟨.ok findings, hfindings, hcomplete⟩

end SymbolicRewriting
