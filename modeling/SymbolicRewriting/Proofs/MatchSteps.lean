import SymbolicRewriting.Proofs.Exploration
import SymbolicRewriting.Proofs.MatchFindings

/-!
The steps of a branch. Each of them takes up the topmost obligation: it deals with an encounter, opens
other obligations, gives items to a rest variable or chooses a cell.
-/

namespace SymbolicRewriting

open List

variable {definition : Definition}

namespace Obligation

/-- The obligation is to deal with one encounter. -/
inductive Poses : Obligation → Encounter → Prop
  | bind (v : Variable) (subject : Term) : Poses (.term (.var v) subject) (.bind v subject)
  | frame (v : Variable) (free : FreeCells) (subjectFrame : Option Variable) :
      Poses (.cells [] (some v) free subjectFrame)
        (.bind v (.collection free.toList subjectFrame))
  | unknown {pattern : Term} (hpattern : pattern.asVar = none) (v : Variable) :
      Poses (.term pattern (.var v)) (.unknown pattern v)

/-- The obligation is met by meeting others, without a choice and without a finding. -/
inductive Opens : Obligation → List Obligation → Prop
  | token (sort : SortName) (value : String) : Opens (.term (.token sort value) (.token sort value)) []
  | app (label : Label) {args subjects : List Term} (hlength : args.length = subjects.length) :
      Opens (.term (.app label args) (.app label subjects)) (zipWith .term args subjects)
  | sequence (op : Label) (patterns : List Term) {subject : Term} (hsubject : subject.asVar = none) :
      Opens (.term (.sequence op patterns) subject) [.items op patterns (subject.itemsOf op)]
  | collection (patterns : List (Cell Term)) (frame : Option Variable) (cells : List (Cell Term))
      (subjectFrame : Option Variable) :
      Opens (.term (.collection patterns frame) (.collection cells subjectFrame))
        [.cells patterns frame { after := cells } subjectFrame]
  | exhausted (op : Label) : Opens (.items op [] []) []
  | item (op : Label) {pattern item : Term} (patterns items : List Term)
      (hpattern : pattern.isRestVar = false) (hitem : item.isRestVar = false) :
      Opens (.items op (pattern :: patterns) (item :: items))
        [.term pattern item, .items op patterns items]
  | closed {free : FreeCells} (hfree : free.toList = []) : Opens (.cells [] none free none) []

end Obligation

/-- The number of patterns that need an item: all but the rest variables. -/
def Term.needed (patterns : List Term) : Nat := patterns.countP fun pattern => !pattern.isRestVar

/-- The segment leaves an item for each later pattern that needs one, and no other item unless there
is a later rest variable. -/
def SegmentFits (patterns subjects : List Term) (count : Nat) : Prop :=
  count + Term.needed patterns ≤ subjects.length ∧
    (patterns.any Term.isRestVar = false → count + Term.needed patterns = subjects.length)

theorem Term.exists_of_isRestVar {term : Term} (hrest : term.isRestVar = true) :
    ∃ v, term = .var v ∧ v.isRest = true := by
  cases term with
  | var v => exact ⟨v, rfl, hrest⟩
  | token _ _ | app _ _ | sequence _ _ | collection _ _ => cases hrest

theorem Substitution.get?_recordCell (subst : Substitution) (pattern target : CellId)
    (v : Variable) : (subst.recordCell pattern target).get? v = subst.get? v := by
  unfold recordCell
  split <;> rfl

def Branch.findings (branch : Branch) : Findings :=
  ⟨branch.subst, branch.deferred, branch.constraints⟩

namespace Findings

def bindSegment (findings : Findings) (op : Label) (v : Variable) (segment : List Term) :
    Findings :=
  { findings with subst := findings.subst.push v (Term.flatten op segment) }

def recordCell (findings : Findings) (pattern target : CellId) : Findings :=
  { findings with subst := findings.subst.recordCell pattern target }

/-- What one step makes of the findings and of the obligations. -/
inductive Step (definition : Definition) :
    Findings → List Obligation → Findings → List Obligation → Prop
  | meet {findings next : Findings} {obligation : Obligation} {encounter : Encounter}
      {pending : List Obligation} (hposes : obligation.Poses encounter)
      (hmet : findings.Met definition encounter next) :
      Step definition findings (obligation :: pending) next pending
  | enter {findings : Findings} {obligation : Obligation} {opened pending : List Obligation}
      (hopens : obligation.Opens opened) :
      Step definition findings (obligation :: pending) findings (opened ++ pending)
  | boundSegment {findings : Findings} {op : Label} {v : Variable} {bound : Term}
      {patterns subjects : List Term} {pending : List Obligation} (hrest : v.isRest = true)
      (hget : findings.subst.get? v = some bound)
      (hlength : (bound.itemsOf op).length ≤ subjects.length)
      (hequal : (subjects.take (bound.itemsOf op).length == bound.itemsOf op) = true) :
      Step definition findings (.items op (.var v :: patterns) subjects :: pending)
        findings (.items op patterns (subjects.drop (bound.itemsOf op).length) :: pending)
  | freeSegment {findings : Findings} {op : Label} {v : Variable} {patterns subjects : List Term}
      {count : Nat} {pending : List Obligation} (hrest : v.isRest = true)
      (hget : findings.subst.get? v = none) (hfits : SegmentFits patterns subjects count) :
      Step definition findings (.items op (.var v :: patterns) subjects :: pending)
        (findings.bindSegment op v (subjects.take count))
        (.items op patterns (subjects.drop count) :: pending)
  | cell {findings : Findings} {pattern chosen : Cell Term} {patterns : List (Cell Term)}
      {frame subjectFrame : Option Variable} {free others : FreeCells} {pending : List Obligation}
      (hchoice : (chosen, others) ∈ selections pattern.name [] free.toList) :
      Step definition findings (.cells (pattern :: patterns) frame free subjectFrame :: pending)
        (findings.recordCell pattern.id chosen.id)
        (.term pattern.content chosen.content :: .cells patterns frame others subjectFrame ::
          pending)
  | settle {findings : Findings} {settled : PathCondition} (hdeferred : findings.deferred ≠ [])
      (hsettle : findings.subst.settle findings.constraints findings.deferred = some settled) :
      Step definition findings [] { findings with deferred := [], constraints := settled } []

section Advance

variable (findings : Findings) (pending : List Obligation)

theorem advance_items (op : Label) (patterns subjects : List Term) :
    (findings.branch (.items op patterns subjects :: pending)).advance definition =
      (findings.branch pending).advanceItems op patterns subjects :=
  rfl

theorem advance_of_poses {obligation : Obligation} {encounter : Encounter}
    (hposes : obligation.Poses encounter) :
    (findings.branch (obligation :: pending)).advance definition =
      progress pending (findings.meet definition encounter) := by
  cases hposes with
  | bind v subject => exact findings.bind_branch definition pending v subject
  | frame v free subjectFrame => exact findings.bind_branch definition pending v _
  | @unknown pattern hpattern v =>
      cases pattern with
      | var _ => cases hpattern
      | token _ _ | app _ _ | sequence _ _ | collection _ _ =>
          exact findings.meetUnknown_branch definition pending _ v

theorem advance_item {op : Label} {pattern : Term} (hpattern : pattern.isRestVar = false)
    (patterns subjects : List Term) :
    (findings.branch (.items op (pattern :: patterns) subjects :: pending)).advance definition =
      (findings.branch pending).takeItem op pattern patterns subjects := by
  cases pattern with
  | var v =>
      have hrest : v.isRest = false := hpattern
      rw [advance_items, Branch.advanceItems, Term.asVar]
      dsimp only
      rw [hrest]
      rfl
  | token _ _ | app _ _ | sequence _ _ | collection _ _ => rfl

theorem advance_of_opens {obligation : Obligation} {opened : List Obligation}
    (hopens : obligation.Opens opened) :
    (findings.branch (obligation :: pending)).advance definition =
      .branches [findings.branch (opened ++ pending)] := by
  cases hopens with
  | token sort value => exact if_pos ⟨rfl, rfl⟩
  | app label hlength => exact if_pos ⟨rfl, hlength⟩
  | @sequence op patterns subject hsubject =>
      cases subject with
      | var _ => cases hsubject
      | token _ _ | app _ _ | sequence _ _ | collection _ _ => rfl
  | collection patterns frame cells subjectFrame => rfl
  | exhausted op => rfl
  | @item op pattern item patterns items hpattern hitem =>
      rw [advance_item findings pending hpattern, Branch.takeItem, hitem]
      rfl
  | closed hfree =>
      change Branch.advanceCells definition _ [] none _ none = _
      rw [Branch.advanceCells, hfree]
      rfl

theorem advance_boundSegment {v : Variable} (hrest : v.isRest = true) {bound : Term}
    (hget : findings.subst.get? v = some bound) (op : Label) (patterns subjects : List Term) :
    (findings.branch (.items op (.var v :: patterns) subjects :: pending)).advance definition =
      if (bound.itemsOf op).length ≤ subjects.length &&
          subjects.take (bound.itemsOf op).length == bound.itemsOf op then
        .branches [findings.branch
          (.items op patterns (subjects.drop (bound.itemsOf op).length) :: pending)]
      else .failed := by
  rw [advance_items, Branch.advanceItems, Term.asVar]
  dsimp only
  have hbound : (findings.branch pending).subst.get? v = some bound := hget
  rw [if_pos hrest, hbound]
  rfl

theorem advance_freeSegment {v : Variable} (hrest : v.isRest = true)
    (hget : findings.subst.get? v = none) (op : Label) (patterns subjects : List Term) :
    (findings.branch (.items op (.var v :: patterns) subjects :: pending)).advance definition =
      (findings.branch pending).takeSegments op v patterns subjects := by
  rw [advance_items, Branch.advanceItems, Term.asVar]
  dsimp only
  have hunbound : (findings.branch pending).subst.get? v = none := hget
  rw [if_pos hrest, hunbound]

theorem leads_freeSegment_iff {v : Variable} (hrest : v.isRest = true)
    (hget : findings.subst.get? v = none) {op : Label} {patterns subjects : List Term}
    {next : Branch} :
    (findings.branch (.items op (.var v :: patterns) subjects :: pending)).Leads definition next ↔
      ∃ count, SegmentFits patterns subjects count ∧
        next = (findings.bindSegment op v (subjects.take count)).branch
          (.items op patterns (subjects.drop count) :: pending) := by
  unfold Branch.Leads
  rw [advance_freeSegment findings pending hrest hget]
  unfold Branch.takeSegments SegmentFits Term.needed
  dsimp only
  generalize (patterns.countP fun pattern => !pattern.isRestVar) = needed
  by_cases hneeded : needed ≤ subjects.length
  · rw [if_pos hneeded]
    simp only [Progress.branches.injEq, exists_eq_left', List.mem_map, List.mem_range'_1]
    refine exists_congr fun count => and_congr ?_ eq_comm
    cases patterns.any Term.isRestVar with
    | true =>
        simp only [if_true, Bool.true_eq_false, false_implies, and_true]
        omega
    | false =>
        simp only [Bool.false_eq_true, if_false, true_implies]
        omega
  · rw [if_neg hneeded]
    constructor
    · rintro ⟨branches, ⟨⟩, -⟩
    · rintro ⟨count, ⟨hcount, -⟩, -⟩
      omega

theorem leads_cells_iff {pattern : Cell Term} {patterns : List (Cell Term)}
    {frame subjectFrame : Option Variable} {free : FreeCells} {next : Branch} :
    (findings.branch (.cells (pattern :: patterns) frame free subjectFrame :: pending)).Leads
        definition next ↔
      ∃ chosen others, (chosen, others) ∈ selections pattern.name [] free.toList ∧
        next = (findings.recordCell pattern.id chosen.id).branch
          (.term pattern.content chosen.content :: .cells patterns frame others subjectFrame ::
            pending) := by
  have hadvance : (findings.branch (.cells (pattern :: patterns) frame free subjectFrame ::
      pending)).advance definition = Branch.advanceCells definition (findings.branch pending)
        (pattern :: patterns) frame free subjectFrame := rfl
  unfold Branch.Leads
  rw [hadvance, Branch.advanceCells]
  cases selections pattern.name [] free.toList with
  | nil =>
      constructor
      · rintro ⟨branches, hbranches, -⟩
        dsimp only at hbranches
        split at hbranches <;> cases hbranches
      · rintro ⟨chosen, others, hmem, -⟩
        cases hmem
  | cons first choices =>
      simp only [Progress.branches.injEq, exists_eq_left', List.mem_map, Prod.exists]
      exact exists_congr fun chosen => exists_congr fun others => and_congr_right fun _ => eq_comm

end Advance

/-- Why a branch is undecided. -/
inductive Blocked (definition : Definition) : Findings → List Obligation → Prop
  | meet {findings : Findings} {obligation : Obligation} {encounter : Encounter}
      {pending : List Obligation} (hposes : obligation.Poses encounter)
      (hhalted : findings.Halted definition encounter .undecided) :
      Blocked definition findings (obligation :: pending)
  | segment {findings : Findings} {op : Label} {pattern item : Term} {patterns items : List Term}
      {pending : List Obligation} (hitem : item.isRestVar = true) :
      Blocked definition findings (.items op (pattern :: patterns) (item :: items) :: pending)
  | frame {findings : Findings} {patterns : List (Cell Term)} {frame : Option Variable}
      {free : FreeCells} {v : Variable} {pending : List Obligation} :
      Blocked definition findings (.cells patterns frame free (some v) :: pending)
  | deferred {findings : Findings} (hdeferred : findings.deferred ≠ []) :
      Blocked definition findings []

/-- What becomes of a branch with the given findings and obligations. -/
inductive Advanced (definition : Definition) (findings : Findings) (pending : List Obligation) :
    Progress → Prop
  | accepted (hpending : pending = []) (hdeferred : findings.deferred = []) :
      Advanced definition findings pending .accepted
  | failed : Advanced definition findings pending .failed
  | conflicting : Advanced definition findings pending .conflicting
  | undecided (hblocked : Blocked definition findings pending) :
      Advanced definition findings pending .undecided
  | branches {branches : List Branch} (hsteps : ∀ next ∈ branches,
      Step definition findings pending next.findings next.pending) :
      Advanced definition findings pending (.branches branches)

section Advanced

variable (findings : Findings) (pending : List Obligation)

theorem advanced_of_poses {obligation : Obligation} {encounter : Encounter}
    (hposes : obligation.Poses encounter) :
    Advanced definition findings (obligation :: pending)
      ((findings.branch (obligation :: pending)).advance definition) := by
  rw [advance_of_poses findings pending hposes]
  cases hmeet : findings.meet definition encounter with
  | ok next => exact .branches (List.forall_mem_singleton.2 (.meet hposes (met_of_meet hmeet)))
  | error halt =>
      cases halt with
      | failed => exact .failed
      | conflicting => exact .conflicting
      | undecided => exact .undecided (.meet hposes (halted_of_meet hmeet))

theorem advanced_of_opens {obligation : Obligation} {opened : List Obligation}
    (hopens : obligation.Opens opened) :
    Advanced definition findings (obligation :: pending)
      ((findings.branch (obligation :: pending)).advance definition) := by
  rw [advance_of_opens findings pending hopens]
  exact .branches (List.forall_mem_singleton.2 (.enter hopens))

theorem advanced_of_failed {obligation : Obligation}
    (hfailed : (findings.branch (obligation :: pending)).advance definition = .failed) :
    Advanced definition findings (obligation :: pending)
      ((findings.branch (obligation :: pending)).advance definition) := by
  rw [hfailed]
  exact .failed

theorem advanced_term (pattern subject : Term) :
    Advanced definition findings (.term pattern subject :: pending)
      ((findings.branch (.term pattern subject :: pending)).advance definition) := by
  cases pattern with
  | var v => exact advanced_of_poses findings pending (.bind v subject)
  | token sort value =>
      cases subject with
      | var w => exact advanced_of_poses findings pending (.unknown rfl w)
      | token sort' value' =>
          by_cases hsame : sort = sort' ∧ value = value'
          · obtain ⟨rfl, rfl⟩ := hsame
            exact advanced_of_opens findings pending (.token sort value)
          · exact advanced_of_failed findings pending (if_neg hsame)
      | app _ _ | sequence _ _ | collection _ _ => exact advanced_of_failed findings pending rfl
  | app label args =>
      cases subject with
      | var w => exact advanced_of_poses findings pending (.unknown rfl w)
      | app label' args' =>
          by_cases hsame : label = label' ∧ args.length = args'.length
          · obtain ⟨rfl, hlength⟩ := hsame
            exact advanced_of_opens findings pending (.app label hlength)
          · exact advanced_of_failed findings pending (if_neg hsame)
      | token _ _ | sequence _ _ | collection _ _ => exact advanced_of_failed findings pending rfl
  | sequence op patterns =>
      cases subject with
      | var w => exact advanced_of_poses findings pending (.unknown rfl w)
      | token _ _ | app _ _ | sequence _ _ | collection _ _ =>
          exact advanced_of_opens findings pending (.sequence op patterns rfl)
  | collection patterns frame =>
      cases subject with
      | var w => exact advanced_of_poses findings pending (.unknown rfl w)
      | collection cells subjectFrame =>
          exact advanced_of_opens findings pending (.collection patterns frame cells subjectFrame)
      | token _ _ | app _ _ | sequence _ _ => exact advanced_of_failed findings pending rfl

theorem advanced_item {op : Label} {pattern : Term} (hpattern : pattern.isRestVar = false)
    (patterns items : List Term) :
    Advanced definition findings (.items op (pattern :: patterns) items :: pending)
      ((findings.branch (.items op (pattern :: patterns) items :: pending)).advance definition) := by
  cases items with
  | nil =>
      exact advanced_of_failed findings pending (advance_item findings pending hpattern patterns [])
  | cons item items =>
      cases hitem : item.isRestVar with
      | false =>
          exact advanced_of_opens findings pending (.item op patterns items hpattern hitem)
      | true =>
          rw [advance_item findings pending hpattern, Branch.takeItem, if_pos hitem]
          exact .undecided (.segment hitem)

theorem advanced_segment {v : Variable} (hrest : v.isRest = true) (op : Label)
    (patterns items : List Term) :
    Advanced definition findings (.items op (.var v :: patterns) items :: pending)
      ((findings.branch (.items op (.var v :: patterns) items :: pending)).advance definition) := by
  cases hget : findings.subst.get? v with
  | none =>
      cases hprogress : (findings.branch (.items op (.var v :: patterns) items ::
          pending)).advance definition with
      | branches branches =>
          refine .branches fun next hmem => ?_
          obtain ⟨count, hfits, rfl⟩ :=
            (leads_freeSegment_iff findings pending hrest hget).1 ⟨branches, hprogress, hmem⟩
          exact .freeSegment hrest hget hfits
      | failed => exact .failed
      | accepted | conflicting | undecided =>
          rw [advance_freeSegment findings pending hrest hget, Branch.takeSegments] at hprogress
          dsimp only at hprogress
          split at hprogress <;> cases hprogress
  | some bound =>
      rw [advance_boundSegment findings pending hrest hget]
      split
      · rename_i hsegment
        rw [Bool.and_eq_true, decide_eq_true_eq] at hsegment
        exact .branches (List.forall_mem_singleton.2
          (.boundSegment hrest hget hsegment.1 hsegment.2))
      · exact .failed

theorem advanced_items (op : Label) (patterns items : List Term) :
    Advanced definition findings (.items op patterns items :: pending)
      ((findings.branch (.items op patterns items :: pending)).advance definition) := by
  cases patterns with
  | nil =>
      cases items with
      | nil => exact advanced_of_opens findings pending (.exhausted op)
      | cons _ _ => exact advanced_of_failed findings pending rfl
  | cons pattern patterns =>
      cases hpattern : pattern.isRestVar with
      | false => exact advanced_item findings pending hpattern patterns items
      | true =>
          obtain ⟨v, rfl, hrest⟩ := Term.exists_of_isRestVar hpattern
          exact advanced_segment findings pending hrest op patterns items

theorem advanced_cells (patterns : List (Cell Term)) (frame : Option Variable) (free : FreeCells)
    (subjectFrame : Option Variable) :
    Advanced definition findings (.cells patterns frame free subjectFrame :: pending)
      ((findings.branch (.cells patterns frame free subjectFrame :: pending)).advance
        definition) := by
  cases patterns with
  | nil =>
      cases frame with
      | some v => exact advanced_of_poses findings pending (.frame v free subjectFrame)
      | none =>
          cases hfree : free.toList with
          | cons _ _ =>
              refine advanced_of_failed findings pending (if_pos ?_)
              rw [hfree]
              rfl
          | nil =>
              cases subjectFrame with
              | none => exact advanced_of_opens findings pending (.closed hfree)
              | some w =>
                  have hundecided : (findings.branch (.cells [] none free (some w) ::
                      pending)).advance definition = .undecided := by
                    refine if_neg ?_
                    rw [hfree]
                    exact Bool.false_ne_true
                  rw [hundecided]
                  exact .undecided .frame
  | cons pattern patterns =>
      cases hprogress : (findings.branch (.cells (pattern :: patterns) frame free subjectFrame ::
          pending)).advance definition with
      | branches branches =>
          refine .branches fun next hmem => ?_
          obtain ⟨chosen, others, hchoice, rfl⟩ :=
            (leads_cells_iff findings pending).1 ⟨branches, hprogress, hmem⟩
          exact .cell hchoice
      | failed => exact .failed
      | undecided =>
          cases subjectFrame with
          | some w => exact .undecided .frame
          | none =>
              change Branch.advanceCells definition _ (pattern :: patterns) frame free none = _
                at hprogress
              rw [Branch.advanceCells] at hprogress
              split at hprogress <;> cases hprogress
      | accepted | conflicting =>
          change Branch.advanceCells definition _ (pattern :: patterns) frame free subjectFrame = _
            at hprogress
          rw [Branch.advanceCells] at hprogress
          split at hprogress
          · split at hprogress <;> cases hprogress
          · cases hprogress

theorem advanced_nil :
    Advanced definition findings [] ((findings.branch []).advance definition) := by
  change Advanced definition findings [] (Branch.finish _)
  unfold Branch.finish
  split
  · rename_i hdeferred
    exact .accepted rfl (List.isEmpty_iff.1 hdeferred)
  · rename_i hdeferred
    have hne : findings.deferred ≠ [] := fun hnil => hdeferred (List.isEmpty_iff.2 hnil)
    split
    · rename_i settled hsettle
      exact .branches (List.forall_mem_singleton.2 (.settle hne hsettle))
    · exact .undecided (.deferred hne)

end Advanced

end Findings

namespace Branch

theorem advanced (definition : Definition) (branch : Branch) :
    Findings.Advanced definition branch.findings branch.pending (branch.advance definition) := by
  obtain ⟨subst, pending, deferred, constraints⟩ := branch
  cases pending with
  | nil => exact Findings.advanced_nil _
  | cons obligation pending =>
      cases obligation with
      | term pattern subject => exact Findings.advanced_term _ pending pattern subject
      | items op patterns items => exact Findings.advanced_items _ pending op patterns items
      | cells patterns frame free subjectFrame =>
          exact Findings.advanced_cells _ pending patterns frame free subjectFrame

theorem step_of_leads {branch next : Branch} (hleads : branch.Leads definition next) :
    Findings.Step definition branch.findings branch.pending next.findings next.pending := by
  obtain ⟨branches, hadvance, hmem⟩ := hleads
  have hadvanced := branch.advanced definition
  rw [hadvance] at hadvanced
  cases hadvanced with
  | branches hsteps => exact hsteps next hmem

theorem blocked_of_undecided {branch : Branch}
    (hundecided : branch.advance definition = .undecided) :
    Findings.Blocked definition branch.findings branch.pending := by
  have hadvanced := branch.advanced definition
  rw [hundecided] at hadvanced
  cases hadvanced with
  | undecided hblocked => exact hblocked

theorem ended_of_accepted {branch : Branch} (haccepted : branch.advance definition = .accepted) :
    branch.pending = [] ∧ branch.deferred = [] := by
  have hadvanced := branch.advanced definition
  rw [haccepted] at hadvanced
  cases hadvanced with
  | accepted hpending hdeferred => exact ⟨hpending, hdeferred⟩

end Branch

namespace Findings

theorem Grows.refl (findings : Findings) : findings.Grows findings :=
  ⟨fun _ _ hget => hget, fun _ hcontains => hcontains⟩

theorem Grows.trans {findings middle last : Findings} (hfirst : findings.Grows middle)
    (hsecond : middle.Grows last) : findings.Grows last :=
  ⟨fun v subject hget => hsecond.subst v subject (hfirst.subst v subject hget),
    fun equation hcontains => hsecond.constraints equation (hfirst.constraints equation hcontains)⟩

theorem Step.grows {findings next : Findings} {pending later : List Obligation}
    (hstep : Step definition findings pending next later) : findings.Grows next := by
  cases hstep with
  | meet _ hmet => exact hmet.grows
  | enter _ | boundSegment _ _ _ _ => exact .refl _
  | @freeSegment op v _ subjects count _ _ hget _ =>
      refine ⟨fun w part hpart => ?_, fun _ hcontains => hcontains⟩
      rw [bindSegment, Substitution.get?_push hget]
      by_cases heq : v = w
      · rw [← heq, hget] at hpart
        cases hpart
      · rw [if_neg heq, hpart]
  | cell _ =>
      refine ⟨fun w part hpart => ?_, fun _ hcontains => hcontains⟩
      rwa [recordCell, Substitution.get?_recordCell]
  | settle _ hsettle =>
      exact ⟨fun _ _ hget => hget, (Substitution.contains_of_settle hsettle).1⟩

end Findings

theorem Branch.grows_of_reaches {branch last : Branch} (hreaches : branch.Reaches definition last) :
    branch.findings.Grows last.findings := by
  induction hreaches with
  | refl => exact .refl _
  | tail _ hleads ih => exact ih.trans (Branch.step_of_leads hleads).grows

end SymbolicRewriting
