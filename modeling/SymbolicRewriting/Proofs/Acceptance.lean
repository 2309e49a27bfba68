import SymbolicRewriting.Proofs.Conformance

/-!
Which terms a pattern accepts under given bindings, and what matching has to do with it. A ground term
that is matched is accepted under the bindings of the match, and every instance of a pattern is accepted
under the bindings that it comes from.
-/

namespace SymbolicRewriting

open List

/-- The variable is bound to a term equal to the given one. -/
def Substitution.Binds (subst : Substitution) (v : Variable) (term : Term) : Prop :=
  ∃ value, subst.get? v = some value ∧ value.EqualTo term

theorem Substitution.Binds.congr {subst : Substitution} {v : Variable} {term other : Term}
    (hbinds : subst.Binds v term) (hequal : term.EqualTo other) : subst.Binds v other := by
  obtain ⟨value, hget, hvalue⟩ := hbinds
  exact ⟨value, hget, hvalue.trans hequal⟩

theorem Substitution.binds_of_get? {subst : Substitution} {v : Variable} {term : Term}
    (hget : subst.get? v = some term) : subst.Binds v term :=
  ⟨term, hget, term.beq_refl⟩

/-- What is left of the pattern accepts what is left of the subject: each variable takes what it is
bound to, and the cells may be chosen in any order. -/
inductive Obligation.Accepted (ρ : Substitution) : Obligation → Prop
  | bind {obligation : Obligation} {v : Variable} {part : Term}
      (hposes : obligation.Poses (.bind v part)) (hbinds : ρ.Binds v part) : Accepted ρ obligation
  | enter {obligation : Obligation} {opened : List Obligation} (hopens : obligation.Opens opened)
      (hopened : ∀ other ∈ opened, Accepted ρ other) : Accepted ρ obligation
  | segment {op : Label} {v : Variable} {patterns run later : List Term} (hrest : v.isRest = true)
      (hbinds : ρ.Binds v (.sequence op run)) (hlater : Accepted ρ (.items op patterns later)) :
      Accepted ρ (.items op (.var v :: patterns) (run ++ later))
  | cell {pattern chosen : Cell Term} {patterns : List (Cell Term)}
      {frame subjectFrame : Option Variable} {free others : FreeCells}
      (hperm : free.toList.Perm (chosen :: others.toList)) (hname : chosen.name = pattern.name)
      (hcontent : Accepted ρ (.term pattern.content chosen.content))
      (hothers : Accepted ρ (.cells patterns frame others subjectFrame)) :
      Accepted ρ (.cells (pattern :: patterns) frame free subjectFrame)

section Ground

variable {definition : Definition} {patterns : Grammar}

/-- Each rest variable that is an item is one of sequences over one operator, and nothing else. -/
def Grammar.Segregated (grammar : Grammar) : Prop :=
  ∀ v op place, v.isRest = true → grammar.occurs v (.item op) → grammar.occurs v place →
    place = .item op

theorem Term.Single.conforms_ground {term : Term} (hsingle : term.Single .ground) :
    term.Conforms .ground .alone := by
  rcases hsingle with halone | ⟨-, op, hitem⟩
  · exact halone
  · exact hitem.alone hitem.asVar_of_ground

theorem Term.not_single_ground_var {v : Variable} : ¬(Term.var v).Single .ground := by
  intro hsingle
  cases hsingle.conforms_ground with
  | var hoccurs => exact hoccurs

namespace Findings

/-- On a ground subject all that is met is variables, which are bound without an equation. -/
theorem Met.binds_of_ground {findings next : Findings} {encounter : Encounter}
    (hmet : findings.Met definition encounter next)
    (hfindings : findings.Conforms patterns fun _ _ => False)
    (hencounter : encounter.Conforms patterns fun _ _ => False) :
    ∃ v part, encounter = .bind v part ∧ next.subst.Binds v part ∧
      next.constraints = findings.constraints := by
  cases hmet with
  | @bound v part hadmits hget =>
      have hnext : (findings.subst.push v part).get? v = some part := by
        rw [Substitution.get?_push hget, if_pos rfl]
      exact ⟨v, part, rfl, Substitution.binds_of_get? hnext, rfl⟩
  | @repeated v part existing hadmits hget hequal => exact ⟨v, part, rfl, ⟨existing, hget, hequal⟩, rfl⟩
  | @equated v part existing hadmits hget hground =>
      have hexisting := (hfindings.bound v existing hget).1.conforms_ground
      have hpart := hencounter.1.conforms_ground
      rw [hexisting.isGround_eq_true_of_ground, hpart.isGround_eq_true_of_ground] at hground
      exact absurd rfl hground
  | constrained _ | deferred => exact absurd hencounter.2 Term.not_single_ground_var

/-- On a ground subject, whatever is accepted after a step was accepted before it. -/
theorem Step.accepted {findings next last : Findings} {pending later : List Obligation}
    (hstep : Step definition findings pending next later) (hsegregated : patterns.Segregated)
    (hfindings : findings.Conforms patterns fun _ _ => False)
    (hpending : ∀ obligation ∈ pending, obligation.Conforms patterns fun _ _ => False)
    (hgrows : next.Grows last) (haccepted : ∀ obligation ∈ later, obligation.Accepted last.subst) :
    ∀ obligation ∈ pending, obligation.Accepted last.subst := by
  cases hstep with
  | meet hposes hmet =>
      have hencounter := hposes.conforms (List.forall_mem_cons.1 hpending).1
      obtain ⟨v, part, rfl, ⟨value, hget, hequal⟩, -⟩ := hmet.binds_of_ground hfindings hencounter
      exact List.forall_mem_cons.2 ⟨.bind hposes ⟨value, hgrows.subst v value hget, hequal⟩,
        haccepted⟩
  | enter hopens =>
      obtain ⟨hopened, hothers⟩ := List.forall_mem_append.1 haccepted
      exact List.forall_mem_cons.2 ⟨.enter hopens hopened, hothers⟩
  | @boundSegment op v bound _ subjects _ hrest hget hlength hequal =>
      obtain ⟨hitems, hothers⟩ := List.forall_mem_cons.1 haccepted
      refine List.forall_mem_cons.2 ⟨?_, hothers⟩
      have hoccurs : patterns.occurs v (.item op) := by
        cases (List.forall_mem_cons.1 hpending).1.1.items _ List.mem_cons_self with
        | var hoccurs => exact hoccurs
      obtain ⟨-, place, hplace, hyields⟩ := hfindings.bound v bound hget
      obtain rfl := hsegregated v op place hrest hoccurs hplace
      obtain ⟨run, rfl⟩ := hyields hrest
      rw [Term.itemsOf, if_pos rfl] at hequal hitems
      rw [← List.take_append_drop run.length subjects]
      refine .segment hrest ⟨.sequence op run, hgrows.subst v _ hget, ?_⟩ hitems
      exact Term.equal_sequence op (Term.forall₂_equalTo_symm (Term.list_beq_iff.1 hequal))
  | @freeSegment op v _ subjects count _ hrest hget hfits =>
      obtain ⟨hitems, hothers⟩ := List.forall_mem_cons.1 haccepted
      refine List.forall_mem_cons.2 ⟨?_, hothers⟩
      have hparts := (List.forall_mem_cons.1 hpending).1.2.items
      have hnext : (findings.bindSegment op v (subjects.take count)).subst.get? v =
          some (.sequence op (subjects.take count)) := by
        rw [bindSegment, Substitution.get?_push hget, if_pos rfl, Term.Conforms.flatten_eq
          fun item hmem => hparts item (List.mem_of_mem_take hmem)]
      rw [← List.take_append_drop count subjects]
      exact .segment hrest (Substitution.binds_of_get? (hgrows.subst v _ hnext)) hitems
  | cell hchoice =>
      obtain ⟨hcontent, hothers⟩ := List.forall_mem_cons.1 haccepted
      obtain ⟨hcells, hothers⟩ := List.forall_mem_cons.1 hothers
      exact List.forall_mem_cons.2 ⟨.cell (perm_of_mem_selections hchoice)
        (of_mem_selections hchoice).1 hcontent hcells, hothers⟩
  | settle _ _ => exact haccepted

end Findings

theorem Branch.accepted_of_reaches {branch last : Branch}
    (hreaches : branch.Reaches definition last) (hsegregated : patterns.Segregated)
    (hconforms : branch.Conforms patterns fun _ _ => False)
    (haccepted : last.advance definition = .accepted) :
    ∀ obligation ∈ branch.pending, obligation.Accepted last.subst := by
  induction hreaches using Relation.ReflTransGen.head_induction_on with
  | refl =>
      rw [(ended_of_accepted haccepted).1]
      exact List.forall_mem_nil _
  | head hleads hreaches ih =>
      exact (step_of_leads hleads).accepted hsegregated hconforms.findings hconforms.pending
        (grows_of_reaches hreaches) (ih (hconforms.reaches (.single hleads)))

end Ground

section Instance

variable {patterns : Grammar} {ρ : Substitution}

theorem Term.Conforms.isRestVar_of_ground {place : Place} {term : Term}
    (hterm : term.Conforms .ground place) : term.isRestVar = false := by
  cases hterm with
  | var hoccurs => exact hoccurs.elim
  | token _ _ | app _ | sequence _ _ _ | collection _ _ _ => rfl

theorem Obligation.accepted_spread {op : Label} {items : List Term}
    (hitems : ∀ item ∈ items, item.Conforms patterns (.item op))
    (hfills : ∀ v place, patterns.occurs v place → ρ.Fills v place)
    (haccepted : ∀ item ∈ items, (term item (item.instantiate ρ)).Accepted ρ) :
    (Obligation.items op items (Term.spread op ρ items)).Accepted ρ := by
  induction items with
  | nil => exact .enter (.exhausted op) (List.forall_mem_nil _)
  | cons item items ih =>
      obtain ⟨hfirst, hothers⟩ := List.forall_mem_cons.1 hitems
      obtain ⟨haccepts, hlater⟩ := List.forall_mem_cons.1 haccepted
      have htail := ih hothers hlater
      rw [Term.spread_cons]
      cases hrest : item.isRestVar with
      | true =>
          obtain ⟨v, rfl, hv⟩ := Term.exists_of_isRestVar hrest
          rw [Term.conforms_var_iff] at hfirst
          obtain ⟨value, hget, -, -, htakes⟩ := hfills v _ hfirst
          have hover : value.isSequenceOver op = true := htakes.trans hv
          obtain ⟨run, rfl⟩ := Term.exists_of_isSequenceOver hover
          rw [Term.instantiate_var hget, Term.itemsOf_sequence]
          exact .segment hv (Substitution.binds_of_get? hget) htail
      | false =>
          rw [hfirst.itemsOf_instantiate_eq hfills hrest]
          have hground := hfirst.instantiate_conforms hfills
          exact .enter (.item op _ _ hrest hground.isRestVar_of_ground)
            (List.forall_mem_cons.2 ⟨haccepts, List.forall_mem_singleton.2 htail⟩)

theorem Obligation.accepted_cells {cells more : List (Cell Term)} {frame inner : Option Variable}
    (hframe : (Obligation.cells [] frame { after := more } inner).Accepted ρ)
    (haccepted : ∀ cell ∈ cells, (term cell.content (cell.content.instantiate ρ)).Accepted ρ) :
    (Obligation.cells cells frame { after := cells.map (Cell.instantiate ρ) ++ more }
      inner).Accepted ρ := by
  induction cells with
  | nil => exact hframe
  | cons cell cells ih =>
      obtain ⟨haccepts, hlater⟩ := List.forall_mem_cons.1 haccepted
      have hperm : FreeCells.toList { after := (cell :: cells).map (Cell.instantiate ρ) ++ more } ~
          cell.instantiate ρ :: FreeCells.toList { after := cells.map (Cell.instantiate ρ) ++ more } :=
        .refl _
      exact .cell hperm rfl haccepts (ih hlater)

/-- A pattern accepts its own instance. -/
theorem Obligation.accepted_instantiate {place : Place} {pattern : Term}
    (hpattern : pattern.Conforms patterns place)
    (hfills : ∀ v place, patterns.occurs v place → ρ.Fills v place) :
    (term pattern (pattern.instantiate ρ)).Accepted ρ := by
  induction hpattern with
  | token sort value => exact .enter (.token sort value) (List.forall_mem_nil _)
  | @var place v hoccurs =>
      obtain ⟨value, hget, -⟩ := hfills v place hoccurs
      rw [Term.instantiate_var hget]
      exact .bind (.bind v value) (Substitution.binds_of_get? hget)
  | @app _ label args _ ih =>
      rw [Term.instantiate, Term.instantiateAll_eq_map]
      refine .enter (.app label (length_map _).symm) fun obligation hmem => ?_
      rw [zipWith_map_right, zipWith_self] at hmem
      obtain ⟨arg, harg, rfl⟩ := List.mem_map.1 hmem
      exact ih arg harg
  | @sequence _ op items hplace hop hitems ih =>
      rw [Term.instantiate_sequence]
      refine .enter (.sequence op items rfl) (List.forall_mem_singleton.2 ?_)
      rw [Term.itemsOf, if_pos rfl]
      exact accepted_spread hitems hfills ih
  | @collection _ cells frame _ hframe _ ih =>
      cases frame with
      | none =>
          rw [Term.instantiate_collection_none]
          have haccepted := accepted_cells (.enter (.closed rfl) (List.forall_mem_nil _)) ih
          rw [append_nil] at haccepted
          exact .enter (.collection _ _ _ _) (List.forall_mem_singleton.2 haccepted)
      | some v =>
          obtain ⟨value, hget, -, -, more, rfl⟩ := hfills v .frame (hframe v rfl)
          rw [Term.instantiate_collection_some hget]
          have hbind : (Obligation.cells [] (some v) { after := more } none).Accepted ρ :=
            .bind (.frame v _ none) (Substitution.binds_of_get? hget)
          exact .enter (.collection _ _ _ _) (List.forall_mem_singleton.2 (accepted_cells hbind ih))

end Instance

end SymbolicRewriting
