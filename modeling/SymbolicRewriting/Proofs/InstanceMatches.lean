import SymbolicRewriting.Proofs.MatchSoundness
import SymbolicRewriting.Proofs.Recovery
import SymbolicRewriting.Proofs.RuleIndexing
import SymbolicRewriting.Proofs.SortOrder

/-!
Matches of instances. If the equations of a match hold under a ground substitution, then the instance
of the subject is matched as well, and each variable is bound to the instance of what it was bound to.
There is one exception: instantiating an item by a sequence over the same operator splices that
sequence, but a variable takes a single item.
-/

namespace SymbolicRewriting

open List

variable {definition : Definition} {ρ θ : Substitution}

namespace Term

theorem EqualTo.asVar_eq {left right : Term} (hequal : left.EqualTo right) :
    left.asVar = right.asVar := by
  cases hequal.sameForm <;> rfl

theorem EqualTo.isRestVar_eq {left right : Term} (hequal : left.EqualTo right) :
    left.isRestVar = right.isRestVar := by
  cases hequal.sameForm <;> rfl

end Term

/-! A pattern does not tell equal subjects apart. -/

namespace Obligation

/-- The same patterns are left, and equal subjects. -/
inductive EqualTo : Obligation → Obligation → Prop
  | term (pattern : Term) {subject other : Term} (hequal : subject.EqualTo other) :
      EqualTo (.term pattern subject) (.term pattern other)
  | items (op : Label) (patterns : List Term) {parts others : List Term}
      (hequal : Forall₂ Term.EqualTo parts others) :
      EqualTo (.items op patterns parts) (.items op patterns others)
  | cells (patterns : List (Cell Term)) (frame subjectFrame : Option Variable)
      {free other : FreeCells}
      (hequal : (Term.collection free.toList subjectFrame).EqualTo
        (.collection other.toList subjectFrame)) :
      EqualTo (.cells patterns frame free subjectFrame) (.cells patterns frame other subjectFrame)

theorem Poses.congr {obligation other : Obligation} {v : Variable} {part : Term}
    (hposes : obligation.Poses (.bind v part)) (hequal : obligation.EqualTo other) :
    ∃ part', other.Poses (.bind v part') ∧ part.EqualTo part' := by
  cases hposes with
  | bind _ _ =>
      cases hequal with
      | term _ hsubject => exact ⟨_, .bind v _, hsubject⟩
  | frame _ _ _ =>
      cases hequal with
      | cells _ _ _ hfree => exact ⟨_, .frame v _ _, hfree⟩

theorem forall₂_equalTo_zipWith {args parts others : List Term}
    (hparts : Forall₂ Term.EqualTo parts others) :
    Forall₂ EqualTo (zipWith Obligation.term args parts) (zipWith Obligation.term args others) := by
  induction hparts generalizing args with
  | nil => simp
  | cons hfirst _ ih =>
      cases args with
      | nil => exact .nil
      | cons arg args => exact .cons (.term arg hfirst) ih

theorem Opens.congr {obligation other : Obligation} {opened : List Obligation}
    (hopens : obligation.Opens opened) (hequal : obligation.EqualTo other) :
    ∃ opened', other.Opens opened' ∧ Forall₂ EqualTo opened opened' := by
  cases hopens with
  | token sort value =>
      cases hequal with
      | term _ hsubject =>
          cases hsubject.sameForm with
          | token _ _ => exact ⟨[], .token sort value, .nil⟩
  | app label hlength =>
      cases hequal with
      | term _ hsubject =>
          cases hsubject.sameForm with
          | app _ hargs =>
              exact ⟨_, .app label (hlength.trans hargs.length_eq), forall₂_equalTo_zipWith hargs⟩
  | sequence op patterns hvar =>
      cases hequal with
      | term _ hsubject =>
          exact ⟨_, .sequence op patterns (hsubject.asVar_eq ▸ hvar),
            .cons (.items op patterns (Term.forall₂_itemsOf op hsubject)) .nil⟩
  | collection patterns frame cells inner =>
      cases hequal with
      | term _ hsubject =>
          cases hsubject.sameForm with
          | @collection _ _ others _ _ _ =>
              exact ⟨_, .collection patterns frame others inner,
                .cons (.cells patterns frame inner hsubject) .nil⟩
  | exhausted op =>
      cases hequal with
      | items _ _ hparts =>
          cases hparts
          exact ⟨[], .exhausted op, .nil⟩
  | item op patterns items hpattern hitem =>
      cases hequal with
      | items _ _ hparts =>
          cases hparts with
          | cons hfirst hothers =>
              exact ⟨_, .item op patterns _ hpattern (hfirst.isRestVar_eq ▸ hitem),
                .cons (.term _ hfirst) (.cons (.items op patterns hothers) .nil)⟩
  | closed hfree =>
      cases hequal with
      | cells _ _ _ hcells =>
          obtain ⟨-, paired, hperm, hpaired⟩ := Term.equal_collection_iff.1 hcells
          rw [hfree, forall₂_nil_left_iff] at hpaired
          rw [hpaired] at hperm
          exact ⟨[], .closed hperm.eq_nil, .nil⟩

theorem Accepted.congr {obligation other : Obligation} (haccepted : obligation.Accepted ρ)
    (hequal : obligation.EqualTo other) : other.Accepted ρ := by
  induction haccepted generalizing other with
  | bind hposes hbinds =>
      obtain ⟨part, hposes', hpart⟩ := hposes.congr hequal
      exact .bind hposes' (hbinds.congr hpart)
  | enter hopens _ ih =>
      obtain ⟨opened, hopens', hopened⟩ := hopens.congr hequal
      refine .enter hopens' fun next hmem => ?_
      obtain ⟨former, hformer, hsame⟩ := exists_mem_of_forall₂ hopened hmem
      exact ih former hformer hsame
  | segment hrest hbinds _ ih =>
      cases hequal with
      | items _ _ hparts =>
          obtain ⟨run, later, rfl, hrun, hlater⟩ := exists_of_forall₂_append hparts
          exact .segment hrest (hbinds.congr (Term.equal_sequence _ hrun)) (ih (.items _ _ hlater))
  | cell hperm hname _ _ ihcontent ihothers =>
      cases hequal with
      | cells _ _ _ hcells =>
          have hchosen := (Term.equal_collection_of_perm hperm.symm _).trans hcells
          obtain ⟨-, paired, hpaired, hall⟩ := Term.equal_collection_iff.1 hchosen
          obtain ⟨cell, others, hcell, hothers, rfl⟩ := forall₂_cons_left_iff.1 hall
          obtain ⟨hsame, hcontent⟩ := Term.cellsEqual_iff.1 hcell
          have hlater := ihothers
            (@EqualTo.cells _ _ _ _ { after := others } (Term.equal_collection hothers _))
          exact .cell hpaired (hsame.symm.trans hname) (ihcontent (.term _ hcontent)) hlater

end Obligation

/-- What a variable is bound to was admitted, unless the variable takes segments. -/
def Findings.Admits (definition : Definition) (findings : Findings) : Prop :=
  ∀ v term, findings.subst.get? v = some term → v.isRest = false → definition.admits v term = .yes

namespace Findings

variable {findings next : Findings} {pending later : List Obligation}

theorem Step.admits (hstep : Step definition findings pending next later)
    (hadmits : findings.Admits definition) : next.Admits definition := by
  cases hstep with
  | meet _ hmet =>
      cases hmet with
      | @bound v term hyes hget =>
          intro w part hpart hrest
          rw [Substitution.get?_push hget] at hpart
          by_cases hsame : v = w
          · rw [if_pos hsame] at hpart
            cases hpart
            exact hsame ▸ hyes
          · rw [if_neg hsame] at hpart
            exact hadmits w part hpart hrest
      | repeated _ _ _ | equated _ _ _ | constrained _ | deferred => exact hadmits
  | enter _ | boundSegment _ _ _ _ | settle _ _ => exact hadmits
  | @freeSegment op v _ _ _ _ hv hget _ =>
      intro w part hpart hrest
      have hne : v ≠ w := by
        rintro rfl
        exact absurd (hv.symm.trans hrest) (by simp)
      rw [bindSegment, Substitution.get?_push hget, if_neg hne] at hpart
      exact hadmits w part hpart hrest
  | cell _ =>
      intro w part hpart hrest
      rw [recordCell, Substitution.get?_recordCell] at hpart
      exact hadmits w part hpart hrest

end Findings

theorem Branch.admits_of_reaches {branch last : Branch} (hreaches : branch.Reaches definition last)
    (hadmits : branch.findings.Admits definition) : last.findings.Admits definition := by
  induction hreaches with
  | refl => exact hadmits
  | tail _ hleads ih => exact (step_of_leads hleads).admits ih

section Instance

variable {occurs subjects : Variable → Place → Prop}

theorem Substitution.binds_of_equalTo {v : Variable} {term : Term}
    (hequal : ((Term.var v).instantiate ρ).EqualTo term) (hvar : term.asVar = none) :
    ρ.Binds v term := by
  cases hget : ρ.get? v with
  | none =>
      rw [Term.instantiate, hget, Option.getD_none] at hequal
      cases hequal.asVar_eq.trans hvar
  | some value =>
      rw [Term.instantiate_var hget] at hequal
      exact ⟨value, hget, hequal⟩

theorem Term.Single.instantiate_conforms {term : Term} (hterm : term.Single (.over subjects))
    (hsubjects : ∀ v place, subjects v place → θ.Fills v place) :
    (term.instantiate θ).Conforms .ground .alone := by
  obtain ⟨place, hplace⟩ := hterm.exists_conforms
  exact hplace.instantiate_conforms hsubjects

namespace Obligation

variable {obligation : Obligation}

theorem Poses.accepted_instantiate {v : Variable} {part : Term}
    (hposes : obligation.Poses (.bind v part)) (hconforms : obligation.Conforms (.over occurs) subjects)
    (hsubjects : ∀ v place, subjects v place → θ.Fills v place)
    (hbinds : ρ.Binds v (part.instantiate θ)) : (obligation.instantiate θ).Accepted ρ := by
  cases hposes with
  | bind _ _ => exact .bind (.bind v _) hbinds
  | frame _ free inner =>
      obtain ⟨-, hframe, -⟩ := Term.conforms_collection_iff.1 hconforms.2
      rw [Term.instantiate_collection_of_fills fun w heq => hsubjects w _ (hframe w heq)] at hbinds
      exact .bind (.frame v _ none) hbinds

theorem Opens.accepted_instantiate {opened : List Obligation} (hopens : obligation.Opens opened)
    (hconforms : obligation.Conforms (.over occurs) subjects)
    (hsubjects : ∀ v place, subjects v place → θ.Fills v place)
    (hopened : ∀ other ∈ opened, (other.instantiate θ).Accepted ρ) :
    (obligation.instantiate θ).Accepted ρ := by
  cases hopens with
  | token sort value => exact .enter (.token sort value) (List.forall_mem_nil _)
  | @app label args parts hlength =>
      rw [instantiate, Term.instantiate_app]
      refine .enter (.app label (hlength.trans (length_map _).symm)) ?_
      have hmap : (zipWith term args parts).map (instantiate θ) =
          zipWith term args (parts.map (Term.instantiate θ)) := by
        rw [map_zipWith, zipWith_map_right]
        rfl
      rw [← hmap]
      exact List.forall_mem_map.2 hopened
  | @sequence op patterns subject hvar =>
      have hground := hconforms.2.instantiate_conforms hsubjects
      have hitems := hopened _ List.mem_cons_self
      rw [instantiate, Term.spread_itemsOf] at hitems
      exact .enter (.sequence op patterns hground.asVar_of_ground)
        (List.forall_mem_singleton.2 hitems)
  | collection patterns frame cells inner =>
      obtain ⟨-, hframe, -⟩ := Term.conforms_collection_iff.1 (hconforms.2.conforms rfl)
      rw [instantiate, Term.instantiate_collection_of_fills fun w heq => hsubjects w _ (hframe w heq)]
      exact .enter (.collection _ _ _ _) (List.forall_mem_singleton.2 (hopened _ List.mem_cons_self))
  | exhausted op => exact .enter (.exhausted op) (List.forall_mem_nil _)
  | @item op pattern item patterns items hpattern hitem =>
      have hfirst := hconforms.2.items item List.mem_cons_self
      have hground := hfirst.instantiate_conforms hsubjects
      rw [instantiate, Term.spread_cons, hfirst.itemsOf_instantiate_eq hsubjects hitem]
      exact .enter (.item op _ _ hpattern hground.isRestVar_of_ground)
        (List.forall_mem_cons.2 ⟨hopened _ List.mem_cons_self,
          List.forall_mem_singleton.2 (hopened _ (List.mem_cons_of_mem _ List.mem_cons_self))⟩)
  | @closed free hfree =>
      refine .enter (.closed ?_) (List.forall_mem_nil _)
      rw [hfree]
      rfl

end Obligation

/-- A pattern whose variables are bound accepts whatever is equal to its instance. -/
theorem Term.Single.accepted_of_equalTo {pattern value : Term}
    (hpattern : pattern.Single (.over occurs))
    (hfills : ∀ v place, occurs v place → ρ.isBound v = true → ρ.Fills v place)
    (hcovers : ρ.Covers pattern) (hequal : (pattern.instantiate ρ).EqualTo value) :
    (Obligation.term pattern value).Accepted ρ := by
  obtain ⟨place, hconforms⟩ := hpattern.exists_conforms
  have haccepted := Obligation.accepted_instantiate (hconforms.restrict hcovers) fun v place hoccurs =>
    hfills v place hoccurs.2 hoccurs.1
  exact haccepted.congr (.term pattern hequal)

theorem Substitution.Realizes.covers {subst : Substitution} (hρ : ρ.Realizes subst θ) {term : Term}
    (hcovers : subst.Covers term) : ρ.Covers term := by
  intro v hv
  obtain ⟨bound, hget⟩ := Option.isSome_iff_exists.1 (hcovers v hv)
  exact Option.isSome_of_eq_some (hρ v bound hget)

namespace Findings

variable {findings next last : Findings} {pending later : List Obligation}

/-! What each kind of step leaves open says enough about what it has done. -/

section Steps

variable (hfindings : findings.Conforms (.over occurs) subjects)
  (hframes : (Grammar.over occurs).FramesApart) (hsegregated : (Grammar.over occurs).Segregated)
  (hfills : ∀ v place, occurs v place → ρ.isBound v = true → ρ.Fills v place)
  (hsubjects : ∀ v place, subjects v place → θ.Fills v place)
  (hρ : ρ.Realizes last.subst θ) (hholds : last.constraints.HoldsAt θ)

include hfindings hframes hfills hρ hholds in
/-- A pattern that became an equation is accepted because the equation holds. -/
theorem Conforms.accepted_of_equation {pattern : Term} {v : Variable}
    (hpattern : pattern.Single (.over occurs)) (hv : (Term.var v).Single (.over subjects))
    (hcovers : findings.subst.Covers pattern) (hgrows : findings.Grows last)
    (hcontains :
      last.constraints.contains (.equal (.var v) (pattern.applySubst findings.subst)) = true) :
    ((Obligation.term pattern (.var v)).instantiate θ).Accepted ρ := by
  have hbindings : ρ.Realizes findings.subst θ := fun w part hget =>
    hρ w part (hgrows.subst w part hget)
  exact hpattern.accepted_of_equalTo hfills (hbindings.covers hcovers)
    (hfindings.equalTo_of_equation hframes hpattern hcovers hbindings hholds hv hcontains)

include hfindings hframes hfills hsubjects hρ hholds in
theorem Met.accepted_instantiate {obligation : Obligation} {encounter : Encounter}
    (hmet : findings.Met definition encounter next) (hposes : obligation.Poses encounter)
    (hobligation : obligation.Conforms (.over occurs) subjects) (hgrows : next.Grows last)
    (hdeferred : ∀ pattern subject, (pattern, subject) ∈ next.deferred →
      ((Obligation.term pattern subject).instantiate θ).Accepted ρ) :
    (obligation.instantiate θ).Accepted ρ := by
  have hencounter := hposes.conforms hobligation
  cases encounter with
  | bind v part =>
      have hground := hencounter.1.instantiate_conforms hsubjects
      exact hposes.accepted_instantiate hobligation hsubjects (Substitution.binds_of_equalTo
        (hmet.equalTo_of_bind hfindings hencounter.1 hgrows hρ hholds) hground.asVar_of_ground)
  | unknown pattern v =>
      have hgrown : findings.Grows last := hmet.grows.trans hgrows
      cases hposes with
      | unknown _ _ =>
          cases hmet with
          | constrained hcovers =>
              exact hfindings.accepted_of_equation hframes hfills hρ hholds hencounter.1 hencounter.2
                hcovers hgrown (hgrows.constraints _ (PathCondition.contains_assume _ _))
          | deferred => exact hdeferred _ _ (List.mem_append_right _ (List.mem_singleton.2 rfl))
  | clash _ => cases hmet

variable {op : Label} {v : Variable} {patterns parts : List Term}

include hfindings hsegregated hρ in
/-- A segment that equals what its variable is bound to does so in the instance. -/
theorem Conforms.accepted_boundSegment {bound : Term} (hgrows : findings.Grows last)
    (hobligation : (Obligation.items op (.var v :: patterns) parts).Conforms (.over occurs) subjects)
    (hrest : v.isRest = true) (hget : findings.subst.get? v = some bound)
    (hequal : (parts.take (bound.itemsOf op).length == bound.itemsOf op) = true)
    (hitems : ((Obligation.items op patterns (parts.drop (bound.itemsOf op).length)).instantiate
      θ).Accepted ρ) :
    ((Obligation.items op (.var v :: patterns) parts).instantiate θ).Accepted ρ := by
  obtain ⟨hsingle, place, hplace, hyields⟩ := hfindings.bound v bound hget
  have hoccurs := Term.conforms_var_iff.1 (hobligation.1.items _ List.mem_cons_self)
  obtain rfl := hsegregated v op place hrest hoccurs hplace
  obtain ⟨run, rfl⟩ := hyields hrest
  have hbound := hρ v _ (hgrows.subst v _ hget)
  rw [hsingle.applySubst_eq, Term.instantiate_sequence] at hbound
  rw [Term.itemsOf, if_pos rfl] at hequal hitems
  have hsegment := Term.forall₂_spread op θ (Term.list_beq_iff.1 hequal)
  rw [Obligation.instantiate, ← Term.spread_take_append_drop op θ run.length parts]
  exact .segment hrest ⟨_, hbound, Term.equal_sequence op (Term.forall₂_equalTo_symm hsegment)⟩ hitems

include hρ in
/-- A segment that its variable is bound to is what the instance of the variable is. -/
theorem accepted_freeSegment {count : Nat}
    (hgrows : (findings.bindSegment op v (parts.take count)).Grows last)
    (hobligation : (Obligation.items op (.var v :: patterns) parts).Conforms (.over occurs) subjects)
    (hrest : v.isRest = true) (hget : findings.subst.get? v = none)
    (hitems : ((Obligation.items op patterns (parts.drop count)).instantiate θ).Accepted ρ) :
    ((Obligation.items op (.var v :: patterns) parts).instantiate θ).Accepted ρ := by
  have hsegment : ∀ item ∈ parts.take count, item.Conforms (.over subjects) (.item op) :=
    fun item hmem => hobligation.2.items item (List.mem_of_mem_take hmem)
  have hnext : (findings.bindSegment op v (parts.take count)).subst.get? v =
      some (.sequence op (parts.take count)) := by
    rw [bindSegment, Substitution.get?_push hget, if_pos rfl, Term.Conforms.flatten_eq hsegment]
  have hbound := hρ v _ (hgrows.subst v _ hnext)
  rw [(Term.Conforms.sequence_of_items True.intro hsegment).applySubst_eq,
    Term.instantiate_sequence] at hbound
  rw [Obligation.instantiate, ← Term.spread_take_append_drop op θ count parts]
  exact .segment hrest (Substitution.binds_of_get? hbound) hitems

/-- A chosen cell can be chosen in the instance. -/
theorem accepted_cell {pattern chosen : Cell Term} {others : FreeCells} {cells : List (Cell Term)}
    {frame inner : Option Variable} {free : FreeCells}
    (hchoice : (chosen, others) ∈ selections pattern.name [] free.toList)
    (hcontent : ((Obligation.term pattern.content chosen.content).instantiate θ).Accepted ρ)
    (hcells : ((Obligation.cells cells frame others inner).instantiate θ).Accepted ρ) :
    ((Obligation.cells (pattern :: cells) frame free inner).instantiate θ).Accepted ρ := by
  have hperm : FreeCells.toList
        { after := free.toList.map (Cell.instantiate θ) ++ Term.hiddenCells θ inner } ~
      chosen.instantiate θ :: FreeCells.toList
        { after := others.toList.map (Cell.instantiate θ) ++ Term.hiddenCells θ inner } :=
    ((perm_of_mem_selections hchoice).map (Cell.instantiate θ)).append_right _
  exact .cell hperm (of_mem_selections hchoice).1 hcontent hcells

include hfindings hframes hsegregated hfills hsubjects hρ hholds in
/-- Whatever is accepted of the instance after a step was accepted before it. -/
theorem Step.accepted_instance (hstep : Step definition findings pending next later)
    (hpending : ∀ obligation ∈ pending, obligation.Conforms (.over occurs) subjects)
    (hgrows : next.Grows last)
    (haccepted : ∀ obligation ∈ later, (obligation.instantiate θ).Accepted ρ)
    (hdeferred : ∀ pattern subject, (pattern, subject) ∈ next.deferred →
      ((Obligation.term pattern subject).instantiate θ).Accepted ρ) :
    (∀ obligation ∈ pending, (obligation.instantiate θ).Accepted ρ) ∧
      ∀ pattern subject, (pattern, subject) ∈ findings.deferred →
        ((Obligation.term pattern subject).instantiate θ).Accepted ρ := by
  have hgrown : findings.Grows last := hstep.grows.trans hgrows
  cases hstep with
  | meet hposes hmet =>
      have htop := (List.forall_mem_cons.1 hpending).1
      have hfirst := hmet.accepted_instantiate hfindings hframes hfills hsubjects hρ hholds hposes
        htop hgrows hdeferred
      exact ⟨List.forall_mem_cons.2 ⟨hfirst, haccepted⟩,
        fun pattern subject hmem => hdeferred pattern subject (hmet.deferred_subset hmem)⟩
  | enter hopens =>
      have htop := (List.forall_mem_cons.1 hpending).1
      obtain ⟨hopened, hothers⟩ := List.forall_mem_append.1 haccepted
      exact ⟨List.forall_mem_cons.2 ⟨hopens.accepted_instantiate htop hsubjects hopened, hothers⟩,
        hdeferred⟩
  | boundSegment hrest hget _ hequal =>
      have htop := (List.forall_mem_cons.1 hpending).1
      obtain ⟨hitems, hothers⟩ := List.forall_mem_cons.1 haccepted
      have hfirst := hfindings.accepted_boundSegment hsegregated hρ hgrown htop hrest hget hequal hitems
      exact ⟨List.forall_mem_cons.2 ⟨hfirst, hothers⟩, hdeferred⟩
  | freeSegment hrest hget _ =>
      have htop := (List.forall_mem_cons.1 hpending).1
      obtain ⟨hitems, hothers⟩ := List.forall_mem_cons.1 haccepted
      exact ⟨List.forall_mem_cons.2 ⟨accepted_freeSegment hρ hgrows htop hrest hget hitems, hothers⟩,
        hdeferred⟩
  | cell hchoice =>
      obtain ⟨hcontent, hothers⟩ := List.forall_mem_cons.1 haccepted
      obtain ⟨hcells, hothers⟩ := List.forall_mem_cons.1 hothers
      exact ⟨List.forall_mem_cons.2 ⟨accepted_cell hchoice hcontent hcells, hothers⟩, hdeferred⟩
  | settle _ hsettle =>
      refine ⟨haccepted, fun pattern subject hmem => ?_⟩
      obtain ⟨hcovers, hcontains⟩ := (Substitution.contains_of_settle hsettle).2 pattern _ hmem
      obtain ⟨hpattern, v, rfl, hsubject⟩ := hfindings.deferred pattern subject hmem
      exact hfindings.accepted_of_equation hframes hfills hρ hholds hpattern hsubject hcovers hgrown
        (hgrows.constraints _ hcontains)

end Steps

end Findings

/-- The instance of what is left to match is accepted under the instances of what is found. -/
theorem Branch.accepted_instance_of_reaches {branch last : Branch}
    (hreaches : branch.Reaches definition last)
    (hframes : (Grammar.over occurs).FramesApart) (hsegregated : (Grammar.over occurs).Segregated)
    (hfills : ∀ v place, occurs v place → ρ.isBound v = true → ρ.Fills v place)
    (hsubjects : ∀ v place, subjects v place → θ.Fills v place)
    (hconforms : branch.Conforms (.over occurs) subjects)
    (haccepted : last.advance definition = .accepted) (hρ : ρ.Realizes last.subst θ)
    (hholds : last.constraints.HoldsAt θ) :
    (∀ obligation ∈ branch.pending, (obligation.instantiate θ).Accepted ρ) ∧
      ∀ pattern subject, (pattern, subject) ∈ branch.deferred →
        ((Obligation.term pattern subject).instantiate θ).Accepted ρ := by
  induction hreaches using Relation.ReflTransGen.head_induction_on with
  | refl =>
      obtain ⟨hpending, hdeferred⟩ := ended_of_accepted haccepted
      rw [hpending, hdeferred]
      exact ⟨List.forall_mem_nil _, fun _ _ hmem => (List.not_mem_nil hmem).elim⟩
  | head hleads hreaches ih =>
      obtain ⟨hpending, hdeferred⟩ := ih (hconforms.reaches (.single hleads))
      exact Findings.Step.accepted_instance hconforms.findings hframes hsegregated hfills hsubjects hρ
        hholds (step_of_leads hleads) hconforms.pending (grows_of_reaches hreaches) hpending hdeferred

end Instance

/-! What a match must be like for its instances to be matches of instances. -/

/-- A rest variable has one use, as an item of the sequences over one operator or as a frame, and any
other variable is used for frames only or not at all. -/
def Variable.UsedAs (use : Variable → Place) (v : Variable) (place : Place) : Prop :=
  (place = .frame ↔ use v = .frame) ∧ (v.isRest = true → place = use v ∧ place ≠ .alone)

/-- Single items are not bound to whole sequences over the operator they are items of. -/
def Substitution.KeepsItems (subst : Substitution) (v : Variable) (place : Place) : Prop :=
  ∀ op bound, place = .item op → v.isRest = false → subst.get? v = some bound →
    bound.isSequenceOver op = false

/-- The variable stands for a ground term that fits into its place and, unless it is a rest variable,
is of its sort. -/
structure Definition.Grounds (definition : Definition) (θ : Substitution) (v : Variable)
    (place : Place) : Prop where
  fills : θ.Fills v place
  admits : v.isRest = false → ∀ value, θ.get? v = some value → definition.admits v value = .yes

theorem Term.Conforms.and {occurs others : Variable → Place → Prop} {place : Place} {term : Term}
    (hterm : term.Conforms (.over occurs) place) (hother : term.Conforms (.over others) place) :
    term.Conforms (.over fun v place => occurs v place ∧ others v place) place := by
  induction hterm with
  | token sort value => exact .token sort value
  | var hoccurs => exact .var ⟨hoccurs, conforms_var_iff.1 hother⟩
  | app _ ih => exact .app fun arg hmem => ih arg hmem (conforms_app_iff.1 hother arg hmem)
  | sequence hplace _ _ ih =>
      exact .sequence hplace True.intro fun item hmem => ih item hmem (hother.items item hmem)
  | collection _ hframe _ ih =>
      obtain ⟨-, hframe', hcells⟩ := conforms_collection_iff.1 hother
      exact .collection True.intro (fun v heq => ⟨hframe v heq, hframe' v heq⟩)
        fun cell hmem => ih cell hmem (hcells cell hmem)

/-- A pattern that is an application accepts applications of the same label only. -/
theorem Obligation.Accepted.mayMatchTop {rule : Rule} {value : Term}
    (haccepted : (term rule.lhs value).Accepted ρ) :
    Definition.mayMatchTop value rule = true := by
  unfold Definition.mayMatchTop
  cases haccepted with
  | bind hposes _ =>
      generalize rule.lhs = pattern at hposes ⊢
      cases hposes with
      | bind _ _ => cases value <;> rfl
  | enter hopens _ =>
      generalize rule.lhs = pattern at hopens ⊢
      cases hopens with
      | token _ _ | collection _ _ _ _ => rfl
      | sequence _ _ _ => cases value <;> rfl
      | app label _ => simp [Term.topLabel]

section Grounds

variable {declarations : List Declaration} (hdefinition : definition = .assemble declarations)
  (htop : ∀ pair ∈ Declaration.subsorts declarations, pair.1 ≠ Symbol.top)

namespace Term.Single

/-- A variable of the subject that is met on its own stands for a term of its sort. -/
theorem exists_value {v : Variable} (hsingle : (Term.var v).Single (.over (definition.Grounds θ))) :
    ∃ value, θ.get? v = some value ∧ definition.admits v value = .yes := by
  obtain ⟨place, hgrounds, hrest⟩ : ∃ place, definition.Grounds θ v place ∧ v.isRest = false := by
    rcases hsingle with halone | ⟨hrest, op, hitem⟩
    · have hgrounds : definition.Grounds θ v .alone := conforms_var_iff.1 halone
      obtain ⟨_, -, -, -, htakes⟩ := hgrounds.fills
      exact ⟨.alone, hgrounds, htakes⟩
    · exact ⟨.item op, conforms_var_iff.1 hitem, hrest⟩
  obtain ⟨value, hget, -⟩ := hgrounds.fills
  exact ⟨value, hget, hgrounds.admits hrest value hget⟩

include hdefinition htop in
/-- What is admitted stays so when its variables are replaced by terms of their sorts. -/
theorem admits_instantiate {term : Term} (hsingle : term.Single (.over (definition.Grounds θ)))
    {v : Variable} (hadmits : definition.admits v term = .yes) :
    definition.admits v (term.instantiate θ) = .yes := by
  rw [Definition.admits_eq_yes_iff] at *
  refine hadmits.imp_right fun hsorts sort hsort => ?_
  cases hvar : term.asVar with
  | none =>
      refine hsorts sort (Eq.trans ?_ hsort)
      have hform := instanceForm_of_asVar hvar θ
      generalize term.instantiate θ = value at hform ⊢
      cases hform <;> rfl
  | some w =>
      obtain rfl : term = .var w := by
        cases term <;> cases hvar
        rfl
      obtain ⟨value, hget, hvalue⟩ := hsingle.exists_value
      rw [instantiate_var hget] at hsort
      have hbelow : definition.isSubsort sort w.sort = true := by
        rcases Definition.admits_eq_yes_iff.1 hvalue with htop | hsorts
        · simp [Definition.isSubsort, htop]
        · exact hsorts sort hsort
      subst hdefinition
      exact Definition.isSubsort_trans htop hbelow (hsorts w.sort rfl)

end Term.Single

/-- A variable of the pattern stands for a ground term that fits into each of its places. -/
theorem Findings.Conforms.fills {use : Variable → Place} {findings : Findings}
    {others : Variable → Place → Prop}
    (hfindings : findings.Conforms (.over fun v place => v.UsedAs use place ∧ others v place)
      (definition.Grounds θ)) {v : Variable} {place : Place} (hused : v.UsedAs use place)
    (hkeeps : (findings.subst.andThen θ).KeepsItems v place)
    (hbound : (findings.subst.andThen θ).isBound v = true) :
    (findings.subst.andThen θ).Fills v place := by
  obtain ⟨value, hvalue⟩ := Option.isSome_iff_exists.1 hbound
  have hmap := hvalue
  rw [Substitution.get?_andThen, Option.map_eq_some_iff] at hmap
  obtain ⟨bound, hget, rfl⟩ := hmap
  obtain ⟨hsingle, place', ⟨hused', -⟩, hyields⟩ := hfindings.bound v bound hget
  rw [hsingle.applySubst_eq] at hvalue
  have hground := hsingle.instantiate_conforms fun w place hgrounds => hgrounds.fills
  obtain ⟨hflattened, hisGround⟩ := Term.conforms_ground_iff.1 hground
  refine ⟨_, hvalue, hflattened, hisGround, ?_⟩
  cases place with
  | alone =>
      cases hrest : v.isRest with
      | false => exact hrest
      | true => exact absurd rfl (hused.2 hrest).2
  | item op =>
      cases hrest : v.isRest with
      | false =>
          exact (hkeeps op _ rfl hrest hvalue).trans hrest.symm
      | true =>
          obtain rfl : place' = .item op := (hused'.2 hrest).1.trans (hused.2 hrest).1.symm
          obtain ⟨items, rfl⟩ := hyields hrest
          rw [Term.instantiate_sequence]
          exact (beq_self_eq_true op).trans hrest.symm
  | frame =>
      obtain rfl : place' = .frame := hused'.1.2 (hused.1.1 rfl)
      obtain ⟨cells, inner, rfl⟩ := hyields
      obtain ⟨-, hframe, -⟩ := Term.conforms_collection_iff.1 (hsingle.conforms rfl)
      rw [Term.instantiate_collection_of_fills fun w heq => (hframe w heq).fills]
      exact ⟨_, rfl⟩

namespace Definition

variable {use : Variable → Place} {pattern subject : Term}
  (hpattern : pattern.Conforms (.over (Variable.UsedAs use)) .alone)
  (hsubject : subject.Conforms (.over (definition.Grounds θ)) .alone) {found : StructuralMatch}
  (hfound : found ∈ (definition.matchPattern pattern subject).found)
  (hkeeps : pattern.Conforms (.over (found.subst.andThen θ).KeepsItems) .alone)
  (hholds : found.constraints.HoldsAt θ)
include hpattern hsubject hfound hkeeps hholds

/-- The pattern accepts the instance of the subject, and its variables are bound to what fits. -/
theorem accepted_instance :
    (Obligation.term pattern (subject.instantiate θ)).Accepted (found.subst.andThen θ) ∧
      pattern.Conforms (.over (found.subst.andThen θ).Fills) .alone := by
  obtain ⟨last, hreaches, haccepted, rfl⟩ := mem_found_matchPattern_iff.1 hfound
  have hboth := hpattern.and hkeeps
  have hconforms := Branch.conforms_start (.inl hboth) (Or.inl hsubject : subject.Single (.over _))
  have hlast := (hconforms.reaches hreaches).findings
  have hfills : ∀ v place, v.UsedAs use place ∧ (last.subst.andThen θ).KeepsItems v place →
      (last.subst.andThen θ).isBound v = true → (last.subst.andThen θ).Fills v place :=
    fun v place hoccurs hbound => hlast.fills hoccurs.1 hoccurs.2 hbound
  have hframes : (Grammar.over fun v place =>
      v.UsedAs use place ∧ (last.subst.andThen θ).KeepsItems v place).FramesApart :=
    fun v place hframe hplace => hplace.1.1.2 (hframe.1.1.1 rfl)
  have hsegregated : (Grammar.over fun v place =>
      v.UsedAs use place ∧ (last.subst.andThen θ).KeepsItems v place).Segregated :=
    fun v op place hrest hitem hplace => (hplace.1.2 hrest).1.trans (hitem.1.2 hrest).1.symm
  obtain ⟨hpending, -⟩ := Branch.accepted_instance_of_reaches hreaches hframes hsegregated hfills
    (fun v place hgrounds => hgrounds.fills) hconforms haccepted (last.subst.realizes_andThen θ) hholds
  have hinstance := hpending _ List.mem_cons_self
  refine ⟨hinstance, (hboth.restrict hinstance.coveredBy).mono ?_ (fun _ hop => hop)
    fun hcollection => hcollection⟩
  exact fun v place hoccurs => hfills v place hoccurs.2 hoccurs.1

include hdefinition htop in
/-- If its equations hold, then a match is one of the instance as well, and each variable is bound to
the instance of what it was bound to. -/
theorem exists_concreteMatch_instance :
    ∃ σ ∈ definition.concreteMatches pattern (subject.instantiate θ), ∀ v ∈ pattern.vars,
      ∃ value recovered, (found.subst.andThen θ).get? v = some value ∧
        σ.get? v = some recovered ∧ (recovered == value) = true := by
  obtain ⟨haccepted, hfilled⟩ := accepted_instance hpattern hsubject hfound hkeeps hholds
  have hground := hsubject.instantiate_conforms fun w place hgrounds => hgrounds.fills
  refine exists_concreteMatch_of_accepted hfilled hground (fun v _ hrest value hget => ?_) haccepted
  obtain ⟨last, hreaches, -, rfl⟩ := mem_found_matchPattern_iff.1 hfound
  have hconforms := Branch.conforms_start (.inl hpattern) (Or.inl hsubject : subject.Single (.over _))
  rw [Substitution.get?_andThen, Option.map_eq_some_iff] at hget
  obtain ⟨bound, hget, rfl⟩ := hget
  have hsingle := ((hconforms.reaches hreaches).findings.bound v bound hget).1
  have hadmits := Branch.admits_of_reaches hreaches (fun _ _ hnone => by cases hnone) v bound hget hrest
  rw [hsingle.applySubst_eq]
  exact hsingle.admits_instantiate hdefinition htop hadmits

end Definition

end Grounds

end SymbolicRewriting
