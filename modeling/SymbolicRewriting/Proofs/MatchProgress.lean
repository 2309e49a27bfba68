import SymbolicRewriting.Proofs.Acceptance

/-!
Progress of matching. If a pattern accepts an instance of the subject, then some branch follows what the
pattern accepts until it is accepted or undecided, or until it gives up a possibility that only the
instance shows: what a segment of the subject or its frame stands for.
-/

namespace SymbolicRewriting

open List

/-- An obligation in which segments of the subject are taken for one item each. -/
inductive Obligation.LosesSegment (subst : Substitution) : Obligation → Prop
  /-- No pattern is left for segments that may all be empty. -/
  | leftOver {op : Label} {items : List Term} (hitems : items ≠ [])
      (hsegments : ∀ item ∈ items, item.isRestVar = true) : LosesSegment subst (.items op [] items)
  /-- A rest variable leaves the last items to later patterns that need one each, and beyond the first
  of these items there is a segment. -/
  | kept {op : Label} {v : Variable} {patterns items : List Term} (hrest : v.isRest = true)
      (hget : subst.get? v = none)
      (hsegment : ∃ item ∈ items.drop (items.length + 1 - Term.needed patterns),
        item.isRestVar = true) : LosesSegment subst (.items op (.var v :: patterns) items)
  /-- Two rest variables may divide what a segment stands for. -/
  | adjacent {op : Label} {v next : Variable} {patterns items : List Term} (hrest : v.isRest = true)
      (hnext : next.isRest = true) (hget : subst.get? v = none)
      (hsegment : ∃ item ∈ items, item.isRestVar = true) :
      LosesSegment subst (.items op (.var v :: .var next :: patterns) items)
  /-- A rest variable that is bound finds other items, but some of these or of its own are unknown. -/
  | returning {op : Label} {v : Variable} {bound : Term} {patterns items : List Term}
      (hrest : v.isRest = true) (hget : subst.get? v = some bound)
      (hdiffers : (items.take (bound.itemsOf op).length == bound.itemsOf op) = false)
      (hopen : ¬(bound.isGround = true ∧
        ∀ item ∈ items.take (bound.itemsOf op).length, item.isGround = true)) :
      LosesSegment subst (.items op (.var v :: patterns) items)

theorem Obligation.LosesSegment.exists_items {subst : Substitution} {obligation : Obligation}
    (hloses : obligation.LosesSegment subst) :
    ∃ op patterns parts, obligation = .items op patterns parts := by
  cases hloses with
  | leftOver _ _ | kept _ _ _ | adjacent _ _ _ _ | returning _ _ _ _ => exact ⟨_, _, _, rfl⟩

/-- An obligation in which a cell is chosen among those that the subject shows, although another one of
the name may be hidden in its frame. -/
inductive Obligation.LosesCell : Obligation → Prop
  | hidden {pattern : Cell Term} {patterns : List (Cell Term)} {frame : Option Variable}
      {free : FreeCells} {v : Variable} (hshown : ∃ cell ∈ free.toList, cell.name = pattern.name) :
      LosesCell (.cells (pattern :: patterns) frame free (some v))

def Branch.LosesSegment (branch : Branch) : Prop :=
  ∃ obligation pending, branch.pending = obligation :: pending ∧
    obligation.LosesSegment branch.subst

def Branch.LosesCell (branch : Branch) : Prop :=
  ∃ obligation pending, branch.pending = obligation :: pending ∧ obligation.LosesCell

/-- The cells that the frame of a collection stands for. -/
def Term.hiddenCells (θ : Substitution) (frame : Option Variable) : List (Cell Term) :=
  match Term.frameBinding θ frame with
  | some (.collection cells _) => cells
  | _ => []

theorem Term.instantiate_collection_of_fills {θ : Substitution} {frame : Option Variable}
    (hfills : ∀ v, frame = some v → θ.Fills v .frame) (cells : List (Cell Term)) :
    (collection cells frame).instantiate θ =
      collection (cells.map (Cell.instantiate θ) ++ hiddenCells θ frame) none := by
  cases frame with
  | none =>
      rw [instantiate_collection_none]
      exact (congrArg (collection · none) (append_nil _)).symm
  | some v =>
      obtain ⟨value, hget, -, -, more, rfl⟩ := hfills v rfl
      rw [instantiate_collection_some hget, hiddenCells, frameBinding, Option.bind_some, hget]

/-- What is left to match of the instance of the subject. -/
def Obligation.instantiate (θ : Substitution) : Obligation → Obligation
  | term pattern subject => term pattern (subject.instantiate θ)
  | items op patterns parts => items op patterns (Term.spread op θ parts)
  | cells patterns frame free subjectFrame =>
      cells patterns frame
        { after := free.toList.map (Cell.instantiate θ) ++ Term.hiddenCells θ subjectFrame } none

/-- The subject is instantiated by `θ`, and the variables of the pattern may be bound to the terms whose
instances `ρ` gives. -/
structure Compatible (definition : Definition) (patterns : Grammar)
    (subjects : Variable → Place → Prop) (ρ θ : Substitution) : Prop where
  plain : ∀ v, patterns.occurs v .alone → v.isRest = false
  admits : ∀ v place term, patterns.occurs v place → v.isRest = false → ρ.Binds v (term.instantiate θ) →
    term.Single (.over subjects) → definition.admits v term ≠ .no
  fills : ∀ v place, subjects v place → θ.Fills v place
  overlaps : ∀ v place, subjects v place → place ≠ .frame →
    ∀ pattern, definition.sortsOverlap pattern v = true

/-- The branch agrees with the match of the instance in what it has bound, and can still be completed
to it. -/
structure Branch.Keeps (ρ θ : Substitution) (branch : Branch) : Prop where
  agrees : ∀ v term, branch.subst.get? v = some term → ρ.Binds v (term.instantiate θ)
  accepted : ∀ obligation ∈ branch.pending, (obligation.instantiate θ).Accepted ρ

/-- The branch keeps the match of the instance, but it goes on as no branch that does. -/
structure Branch.Drops (definition : Definition) (ρ θ : Substitution) (branch : Branch) : Prop where
  keeps : branch.Keeps ρ θ
  leads : ∀ next, branch.Leads definition next → ¬next.Keeps ρ θ

structure Branch.Stands (patterns : Grammar) (subjects : Variable → Place → Prop)
    (ρ θ : Substitution) (branch : Branch) : Prop extends branch.Keeps ρ θ where
  conforms : branch.Conforms patterns subjects

/-- The branch stands, or it is undecided. -/
def Branch.Lasts (definition : Definition) (patterns : Grammar)
    (subjects : Variable → Place → Prop) (ρ θ : Substitution) (branch : Branch) : Prop :=
  branch.Stands patterns subjects ρ θ ∨ branch.advance definition = .undecided

/-- The branch goes on and lasts, is undecided or loses something. -/
def Branch.Proceeds (definition : Definition) (patterns : Grammar)
    (subjects : Variable → Place → Prop) (ρ θ : Substitution) (branch : Branch) : Prop :=
  branch.advance definition = .undecided ∨ (branch.LosesSegment ∨ branch.LosesCell) ∨
    ∃ next, branch.Leads definition next ∧ next.Lasts definition patterns subjects ρ θ

section Progress

variable {definition : Definition} {patterns : Grammar} {subjects : Variable → Place → Prop}
  {ρ θ : Substitution}

theorem Branch.Stands.of_leads {branch next : Branch}
    (hstands : branch.Stands patterns subjects ρ θ) (hleads : branch.Leads definition next)
    (hagrees : ∀ v term, next.subst.get? v = some term → ρ.Binds v (term.instantiate θ))
    (haccepted : ∀ obligation ∈ next.pending, (obligation.instantiate θ).Accepted ρ) :
    next.Stands patterns subjects ρ θ :=
  ⟨⟨hagrees, haccepted⟩, hstands.conforms.reaches (.single hleads)⟩

theorem Branch.Stands.proceeds_of_leads {branch next : Branch}
    (hstands : branch.Stands patterns subjects ρ θ) (hleads : branch.Leads definition next)
    (hagrees : ∀ v term, next.subst.get? v = some term → ρ.Binds v (term.instantiate θ))
    (haccepted : ∀ obligation ∈ next.pending, (obligation.instantiate θ).Accepted ρ) :
    branch.Proceeds definition patterns subjects ρ θ :=
  .inr (.inr ⟨next, hleads, .inl (hstands.of_leads hleads hagrees haccepted)⟩)

/-- A ground term is its own instance. -/
theorem Term.Single.instantiate_of_isGround {term : Term} (hterm : term.Single (.over subjects))
    (hground : term.isGround = true) (θ : Substitution) : term.instantiate θ = term := by
  obtain ⟨place, hplace⟩ := hterm.exists_conforms
  have hflattened : term.Conforms (.over fun _ _ => True) place :=
    hplace.mono (fun _ _ _ => True.intro) (fun _ hop => hop) fun hcollection => hcollection
  exact (conforms_ground_iff.2 ⟨hflattened, hground⟩).instantiate_ground θ

namespace Findings

variable {findings : Findings} {pending : List Obligation}

theorem leads_of_opens {obligation : Obligation} {opened : List Obligation}
    (hopens : obligation.Opens opened) :
    (findings.branch (obligation :: pending)).Leads definition (findings.branch (opened ++ pending)) :=
  ⟨_, advance_of_opens findings pending hopens, List.mem_singleton_self _⟩

theorem proceeds_of_opens {obligation : Obligation} {opened : List Obligation}
    (hstands : (findings.branch (obligation :: pending)).Stands patterns subjects ρ θ)
    (hopens : obligation.Opens opened)
    (hopened : ∀ other ∈ opened, (other.instantiate θ).Accepted ρ) :
    (findings.branch (obligation :: pending)).Proceeds definition patterns subjects ρ θ :=
  hstands.proceeds_of_leads (leads_of_opens hopens) hstands.agrees
    (List.forall_mem_append.2 ⟨hopened, (List.forall_mem_cons.1 hstands.accepted).2⟩)

theorem admits_collection (definition : Definition) (v : Variable) (cells : List (Cell Term))
    (frame : Option Variable) : definition.admits v (.collection cells frame) = .yes := by
  unfold Definition.admits
  split <;> rfl

/-- A variable that is to be bound to the term that the solution gives is bound, or the term may be of a
sort that does not fit. -/
theorem proceeds_of_bind {obligation : Obligation} {v : Variable} {part : Term}
    (hstands : (findings.branch (obligation :: pending)).Stands patterns subjects ρ θ)
    (hposes : obligation.Poses (.bind v part)) (hpart : ρ.Binds v (part.instantiate θ))
    (hadmits : definition.admits v part ≠ .no) :
    (findings.branch (obligation :: pending)).Proceeds definition patterns subjects ρ θ := by
  have hadvance : (findings.branch (obligation :: pending)).advance definition =
      progress pending (findings.meet definition (.bind v part)) :=
    advance_of_poses findings pending hposes
  have hlater := (List.forall_mem_cons.1 hstands.accepted).2
  have hencounter := hposes.conforms (hstands.conforms.pending _ List.mem_cons_self)
  cases hmeet : findings.meet definition (.bind v part) with
  | ok next =>
      rw [hmeet] at hadvance
      have hleads : (findings.branch (obligation :: pending)).Leads definition
          (next.branch pending) := ⟨_, hadvance, List.mem_singleton_self _⟩
      refine hstands.proceeds_of_leads hleads (fun w term hget => ?_) hlater
      cases met_of_meet hmeet with
      | bound _ hunbound =>
          change (findings.subst.push v part).get? w = some term at hget
          rw [Substitution.get?_push hunbound] at hget
          by_cases heq : v = w
          · rw [if_pos heq] at hget
            cases hget
            exact heq ▸ hpart
          · rw [if_neg heq] at hget
            exact hstands.agrees w term hget
      | repeated _ _ _ | equated _ _ _ => exact hstands.agrees w term hget
  | error halt =>
      rw [hmeet] at hadvance
      cases halted_of_meet hmeet with
      | refused hno => exact absurd hno hadmits
      | unsure _ => exact .inl hadvance
      | @conflicting _ _ existing _ hget hdiffers hground =>
          rw [Bool.and_eq_true] at hground
          have hexisting := (hstands.conforms.findings.bound v existing hget).1
          obtain ⟨value, hvalue, hequal⟩ := hstands.agrees v existing hget
          obtain ⟨value', hvalue', hequal'⟩ := hpart
          cases hvalue.symm.trans hvalue'
          rw [hexisting.instantiate_of_isGround hground.1] at hequal
          rw [hencounter.1.instantiate_of_isGround hground.2] at hequal'
          exact absurd (hequal.symm.trans hequal') hdiffers

theorem proceeds_of_unknown {pattern : Term} {v : Variable}
    (hcompatible : Compatible definition patterns subjects ρ θ) (hpattern : pattern.asVar = none)
    (hstands : (findings.branch (.term pattern (.var v) :: pending)).Stands patterns subjects ρ θ) :
    (findings.branch (.term pattern (.var v) :: pending)).Proceeds definition patterns subjects
      ρ θ := by
  have hadvance : (findings.branch (.term pattern (.var v) :: pending)).advance definition =
      progress pending (findings.meet definition (.unknown pattern v)) :=
    advance_of_poses findings pending (.unknown hpattern v)
  have hlater := (List.forall_mem_cons.1 hstands.accepted).2
  cases hmeet : findings.meet definition (.unknown pattern v) with
  | ok next =>
      rw [hmeet] at hadvance
      have hleads : (findings.branch (.term pattern (.var v) :: pending)).Leads definition
          (next.branch pending) := ⟨_, hadvance, List.mem_singleton_self _⟩
      refine hstands.proceeds_of_leads hleads (fun w term hget => ?_) hlater
      cases met_of_meet hmeet with
      | constrained _ | deferred => exact hstands.agrees w term hget
  | error halt =>
      rw [hmeet] at hadvance
      cases halted_of_meet hmeet with
      | rest _ => exact .inl hadvance
      | apart _ hsorts =>
          obtain ⟨-, hsubject⟩ := hstands.conforms.pending _ List.mem_cons_self
          have hoverlaps : definition.sortsOverlap pattern v = true := by
            rcases hsubject with halone | ⟨-, op, hitem⟩
            · exact hcompatible.overlaps v .alone (by simpa using halone) (by simp) pattern
            · exact hcompatible.overlaps v (.item op) (by simpa using hitem) (by simp) pattern
          rw [hoverlaps] at hsorts
          cases hsorts

end Findings

namespace Obligation

theorem exists_opens {pattern subject : Term} (hpattern : pattern.asVar = none)
    (hsubject : subject.asVar = none) (hsingle : subject.Single (.over subjects))
    (hfills : ∀ v place, subjects v place → θ.Fills v place)
    (haccepted : (term pattern (subject.instantiate θ)).Accepted ρ) :
    ∃ opened, (term pattern subject).Opens opened ∧
      ∀ other ∈ opened, (other.instantiate θ).Accepted ρ := by
  have hform := Term.instanceForm_of_asVar hsubject θ
  generalize hvalue : subject.instantiate θ = value at haccepted hform
  cases haccepted with
  | bind hposes _ =>
      cases hposes
      cases hpattern
  | enter hopens hopened =>
      cases hopens with
      | token sort token =>
          cases hform with
          | token _ _ => exact ⟨[], .token sort token, List.forall_mem_nil _⟩
      | @app _ args _ hlength =>
          cases hform with
          | app _ subjects =>
              refine ⟨_, .app _ (hlength.trans (length_map _)), fun other hmem => ?_⟩
              have hmap : (zipWith term args subjects).map (instantiate θ) =
                  zipWith term args (subjects.map (Term.instantiate θ)) := by
                rw [map_zipWith, zipWith_map_right]
                rfl
              exact hopened _ (hmap ▸ mem_map_of_mem hmem)
      | sequence op patterns _ =>
          refine ⟨_, .sequence op patterns hsubject, List.forall_mem_singleton.2 ?_⟩
          rw [instantiate, Term.spread_itemsOf, hvalue]
          exact hopened _ List.mem_cons_self
      | collection patterns frame cells inner =>
          cases hform with
          | collection shown subjectFrame more _ =>
              obtain ⟨-, hframe, -⟩ := Term.conforms_collection_iff.1 (hsingle.conforms rfl)
              rw [Term.instantiate_collection_of_fills fun v heq => hfills v _ (hframe v heq),
                Term.collection.injEq] at hvalue
              obtain ⟨hcells, rfl⟩ := hvalue
              have hchoice := hopened _ List.mem_cons_self
              rw [← hcells] at hchoice
              exact ⟨_, .collection patterns frame shown subjectFrame,
                List.forall_mem_singleton.2 hchoice⟩

end Obligation

end Progress

end SymbolicRewriting
