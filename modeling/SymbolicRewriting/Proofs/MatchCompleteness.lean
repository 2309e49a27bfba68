import SymbolicRewriting.Proofs.SegmentProgress

/-!
Completeness of matching. A branch that stands leads to one that stands and is accepted, to an undecided
one, or to one that stands and loses something.
-/

namespace SymbolicRewriting

open List

variable {definition : Definition} {patterns : Grammar} {subjects : Variable → Place → Prop}
  {ρ θ : Substitution}

theorem selections_eq_nil {name : Label} {cells : List (Cell Term)}
    (hother : ∀ cell ∈ cells, cell.name ≠ name) (before : List (Cell Term)) :
    selections name before cells = [] := by
  induction cells generalizing before with
  | nil => rfl
  | cons cell cells ih =>
      obtain ⟨hfirst, hcells⟩ := List.forall_mem_cons.1 hother
      rw [selections, if_neg hfirst]
      exact ih hcells (cell :: before)

namespace Obligation

/-- The order of the cells does not matter. -/
theorem Accepted.perm {left : List (Cell Term)} {frame inner : Option Variable}
    {free other : FreeCells} (haccepted : (cells left frame free inner).Accepted ρ)
    (hperm : free.toList.Perm other.toList) : (cells left frame other inner).Accepted ρ := by
  cases haccepted with
  | bind hposes hbinds =>
      cases hposes with
      | frame _ _ _ =>
          exact .bind (.frame _ other inner) (hbinds.congr (Term.equal_collection_of_perm hperm inner))
  | enter hopens _ =>
      cases hopens with
      | closed hfree =>
          rw [hfree] at hperm
          exact .enter (.closed hperm.symm.eq_nil) (List.forall_mem_nil _)
  | cell hfree hname hcontent hothers => exact .cell (hperm.symm.trans hfree) hname hcontent hothers

theorem Accepted.exists_cell {pattern : Cell Term} {left : List (Cell Term)}
    {frame inner : Option Variable} {free : FreeCells}
    (haccepted : (cells (pattern :: left) frame free inner).Accepted ρ) :
    ∃ chosen others, free.toList.Perm (chosen :: FreeCells.toList others) ∧
      chosen.name = pattern.name ∧ (term pattern.content chosen.content).Accepted ρ ∧
        (cells left frame others inner).Accepted ρ := by
  cases haccepted with
  | bind hposes _ => cases hposes
  | enter hopens _ => cases hopens
  | cell hperm hname hcontent hothers => exact ⟨_, _, hperm, hname, hcontent, hothers⟩

theorem Accepted.binds_frame {v : Variable} {free : FreeCells} {inner : Option Variable}
    (haccepted : (cells [] (some v) free inner).Accepted ρ) :
    ρ.Binds v (.collection free.toList inner) := by
  cases haccepted with
  | bind hposes hbinds =>
      cases hposes with
      | frame _ _ _ => exact hbinds
  | enter hopens _ => cases hopens

theorem Accepted.toList_eq_nil {free : FreeCells} {inner : Option Variable}
    (haccepted : (cells [] none free inner).Accepted ρ) : free.toList = [] := by
  cases haccepted with
  | bind hposes _ => cases hposes
  | enter hopens _ =>
      cases hopens with
      | closed hfree => exact hfree

theorem Accepted.binds {v : Variable} {value : Term}
    (haccepted : (term (.var v) value).Accepted ρ) : ρ.Binds v value := by
  cases haccepted with
  | bind hposes hbinds =>
      cases hposes with
      | bind _ _ => exact hbinds
  | enter hopens _ => cases hopens

end Obligation

namespace Findings

variable {findings : Findings} {pending : List Obligation}

theorem proceeds_of_term (hcompatible : Compatible definition patterns subjects ρ θ)
    {pattern subject : Term}
    (hstands : (findings.branch (.term pattern subject :: pending)).Stands patterns subjects ρ θ) :
    (findings.branch (.term pattern subject :: pending)).Proceeds definition patterns subjects
      ρ θ := by
  have haccepted : (Obligation.term pattern (subject.instantiate θ)).Accepted ρ :=
    hstands.accepted _ List.mem_cons_self
  obtain ⟨hpattern, hsubject⟩ := hstands.conforms.pending _ List.mem_cons_self
  cases hvar : pattern.asVar with
  | some v =>
      obtain rfl : pattern = .var v := by
        cases pattern <;> cases hvar
        rfl
      have hbinds := haccepted.binds
      refine proceeds_of_bind hstands (.bind v subject) hbinds ?_
      rcases hpattern with halone | ⟨hrest, op, hitem⟩
      · have hoccurs := Term.conforms_var_iff.1 halone
        exact hcompatible.admits v .alone subject hoccurs (hcompatible.plain v hoccurs) hbinds hsubject
      · have hoccurs := Term.conforms_var_iff.1 hitem
        exact hcompatible.admits v (.item op) subject hoccurs hrest hbinds hsubject
  | none =>
      cases hunknown : subject.asVar with
      | some v =>
          obtain rfl : subject = .var v := by
            cases subject <;> cases hunknown
            rfl
          exact proceeds_of_unknown hcompatible hvar hstands
      | none =>
          obtain ⟨opened, hopens, hopened⟩ := Obligation.exists_opens hvar hunknown hsubject
            hcompatible.fills haccepted
          exact proceeds_of_opens hstands hopens hopened

theorem proceeds_of_cells_nil (hcompatible : Compatible definition patterns subjects ρ θ)
    {frame inner : Option Variable} {free : FreeCells}
    (hstands : (findings.branch (.cells [] frame free inner :: pending)).Stands patterns subjects
      ρ θ) :
    (findings.branch (.cells [] frame free inner :: pending)).Proceeds definition patterns subjects
      ρ θ := by
  have haccepted : (Obligation.instantiate θ (.cells [] frame free inner)).Accepted ρ :=
    hstands.accepted _ List.mem_cons_self
  cases frame with
  | some v =>
      have hinner := (Term.conforms_collection_iff.1
        (hstands.conforms.pending _ List.mem_cons_self).2).2.1
      have hbinds : ρ.Binds v ((Term.collection free.toList inner).instantiate θ) := by
        rw [Term.instantiate_collection_of_fills fun w heq => hcompatible.fills w _ (hinner w heq)]
        exact haccepted.binds_frame
      refine proceeds_of_bind hstands (.frame v free inner) hbinds ?_
      rw [admits_collection]
      simp
  | none =>
      have hfree : free.toList = [] :=
        map_eq_nil_iff.1 (append_eq_nil_iff.1 haccepted.toList_eq_nil).1
      cases inner with
      | none => exact proceeds_of_opens hstands (.closed hfree) (List.forall_mem_nil _)
      | some w =>
          refine .inl ?_
          change Branch.advanceCells definition _ [] none free (some w) = _
          rw [Branch.advanceCells, hfree]
          rfl

theorem undecided_of_hidden {pattern : Cell Term} {left : List (Cell Term)}
    {frame : Option Variable} {free : FreeCells} {w : Variable}
    (hother : ∀ cell ∈ free.toList, cell.name ≠ pattern.name) :
    (findings.branch (.cells (pattern :: left) frame free (some w) :: pending)).advance definition =
      .undecided := by
  change Branch.advanceCells definition _ (pattern :: left) frame free (some w) = _
  rw [Branch.advanceCells, selections_eq_nil hother]
  rfl

theorem proceeds_of_cell {pattern : Cell Term} {left : List (Cell Term)}
    {frame inner : Option Variable} {free : FreeCells}
    (hstands : (findings.branch (.cells (pattern :: left) frame free inner :: pending)).Stands
      patterns subjects ρ θ) :
    (findings.branch (.cells (pattern :: left) frame free inner :: pending)).Proceeds definition
      patterns subjects ρ θ := by
  have haccepted : (Obligation.instantiate θ (.cells (pattern :: left) frame free inner)).Accepted
      ρ := hstands.accepted _ List.mem_cons_self
  obtain ⟨chosen, others, hperm, hname, hcontent, hothers⟩ := haccepted.exists_cell
  have hchosen : chosen ∈ free.toList.map (Cell.instantiate θ) ++ Term.hiddenCells θ inner :=
    hperm.mem_iff.2 List.mem_cons_self
  rcases List.mem_append.1 hchosen with hshown | hhidden
  · obtain ⟨cell, hcell, rfl⟩ := List.mem_map.1 hshown
    obtain ⟨remaining, hchoice⟩ := exists_mem_selections hcell hname []
    refine hstands.proceeds_of_leads
      ((leads_cells_iff findings pending).2 ⟨cell, remaining, hchoice, rfl⟩) ?_ ?_
    · intro v term hget
      change (findings.subst.recordCell pattern.id cell.id).get? v = some term at hget
      rw [Substitution.get?_recordCell] at hget
      exact hstands.agrees v term hget
    · have hremaining : others.toList ~
          remaining.toList.map (Cell.instantiate θ) ++ Term.hiddenCells θ inner := by
        have hcells := (perm_of_mem_selections hchoice).map (Cell.instantiate θ)
        exact (hperm.symm.trans (hcells.append_right _)).cons_inv
      exact List.forall_mem_cons.2 ⟨hcontent, List.forall_mem_cons.2 ⟨hothers.perm hremaining,
        (List.forall_mem_cons.1 hstands.accepted).2⟩⟩
  · obtain ⟨w, rfl⟩ : ∃ w, inner = some w := by
      cases inner with
      | none => cases hhidden
      | some w => exact ⟨w, rfl⟩
    by_cases hshown : ∃ cell ∈ free.toList, cell.name = pattern.name
    · exact .inr (.inl (.inr ⟨_, _, rfl, .hidden hshown⟩))
    · exact .inl (undecided_of_hidden fun cell hmem heq => hshown ⟨cell, hmem, heq⟩)

theorem accepted_or_proceeds_of_nil (hstands : (findings.branch []).Stands patterns subjects ρ θ) :
    (findings.branch []).advance definition = .accepted ∨
      (findings.branch []).Proceeds definition patterns subjects ρ θ := by
  have hadvance : (findings.branch []).advance definition = (findings.branch []).finish := rfl
  by_cases hdeferred : (findings.branch []).deferred.isEmpty
  · exact .inl (hadvance.trans (if_pos hdeferred))
  · rw [Branch.finish, if_neg hdeferred] at hadvance
    refine .inr ?_
    cases hsettle : (findings.branch []).subst.settle (findings.branch []).constraints
        (findings.branch []).deferred with
    | none =>
        rw [hsettle] at hadvance
        exact .inl hadvance
    | some settled =>
        rw [hsettle] at hadvance
        exact hstands.proceeds_of_leads ⟨_, hadvance, List.mem_singleton_self _⟩ hstands.agrees
          (List.forall_mem_nil _)

end Findings

namespace Branch

theorem Stands.accepted_or_proceeds (hcompatible : Compatible definition patterns subjects ρ θ)
    {branch : Branch} (hstands : branch.Stands patterns subjects ρ θ) :
    branch.advance definition = .accepted ∨ branch.Proceeds definition patterns subjects ρ θ := by
  obtain ⟨subst, pending, deferred, constraints⟩ := branch
  have hstands : (Findings.branch ⟨subst, deferred, constraints⟩ pending).Stands patterns subjects
      ρ θ := hstands
  change (Findings.branch ⟨subst, deferred, constraints⟩ pending).advance definition = .accepted ∨
    (Findings.branch ⟨subst, deferred, constraints⟩ pending).Proceeds definition patterns subjects
      ρ θ
  cases pending with
  | nil => exact Findings.accepted_or_proceeds_of_nil hstands
  | cons obligation pending =>
      refine .inr ?_
      cases obligation with
      | term pattern subject => exact Findings.proceeds_of_term hcompatible hstands
      | items op left parts => exact Findings.proceeds_of_items hcompatible hstands
      | cells left frame free inner =>
          cases left with
          | nil => exact Findings.proceeds_of_cells_nil hcompatible hstands
          | cons pattern left => exact Findings.proceeds_of_cell hstands

/-- A branch that stands comes to an end that is undecided, to one that stands and is accepted, or to
one that drops the match of the instance where it loses something. -/
theorem Stands.ends (hcompatible : Compatible definition patterns subjects ρ θ) {branch : Branch}
    (hstands : branch.Stands patterns subjects ρ θ) :
    ∃ last, branch.Reaches definition last ∧ (last.advance definition = .undecided ∨
      last.Stands patterns subjects ρ θ ∧ (last.advance definition = .accepted ∨
        last.Drops definition ρ θ ∧ (last.LosesSegment ∨ last.LosesCell))) := by
  -- on the weight of what is left to match, which every step lowers
  induction hweight : branch.weight using Nat.strongRecOn generalizing branch with
  | _ weight ih =>
      have hlater : ∀ next, branch.Leads definition next → next.Stands patterns subjects ρ θ →
          ∃ last, branch.Reaches definition last ∧ (last.advance definition = .undecided ∨
            last.Stands patterns subjects ρ θ ∧ (last.advance definition = .accepted ∨
              last.Drops definition ρ θ ∧ (last.LosesSegment ∨ last.LosesCell))) := by
        rintro next ⟨branches, hadvance, hmem⟩ hnext
        have hlighter : next.weight < weight := hweight ▸ weight_lt_of_advance hadvance hmem
        obtain ⟨last, hreaches, hlast⟩ := ih next.weight hlighter hnext rfl
        exact ⟨last, .head ⟨branches, hadvance, hmem⟩ hreaches, hlast⟩
      rcases hstands.accepted_or_proceeds hcompatible with
        haccepted | hundecided | hloses | ⟨next, hleads, hnext | hundecided⟩
      · exact ⟨branch, .refl, .inr ⟨hstands, .inl haccepted⟩⟩
      · exact ⟨branch, .refl, .inl hundecided⟩
      · by_cases hkept : ∃ next, branch.Leads definition next ∧ next.Keeps ρ θ
        · obtain ⟨next, hleads, hnext⟩ := hkept
          exact hlater next hleads (hstands.of_leads hleads hnext.agrees hnext.accepted)
        · have hdrops : branch.Drops definition ρ θ :=
            ⟨hstands.toKeeps, fun next hleads hnext => hkept ⟨next, hleads, hnext⟩⟩
          exact ⟨branch, .refl, .inr ⟨hstands, .inr ⟨hdrops, hloses⟩⟩⟩
      · exact hlater next hleads hnext
      · exact ⟨next, .single hleads, .inl hundecided⟩

end Branch

end SymbolicRewriting
