import SymbolicRewriting.Proofs.MatchCompleteness

/-!
Matching undoes instantiation. On a ground subject a branch is never undecided, loses nothing and leaves
no equation. So the branch that takes the instance of a pattern apart is accepted, and what it binds the
variables to is what they stand for.
-/

namespace SymbolicRewriting

open List

variable {definition : Definition} {patterns : Grammar} {ρ τ : Substitution}

namespace Definition

theorem admits_ne_maybe {term : Term} (hvar : term.asVar = none) (v : Variable) :
    definition.admits v term ≠ .maybe := by
  unfold admits
  rw [hvar]
  split
  · rintro ⟨⟩
  · split
    · rintro ⟨⟩
    · split <;> rintro ⟨⟩

theorem admits_eq_yes_iff {v : Variable} {term : Term} :
    definition.admits v term = .yes ↔ v.sort = Symbol.top ∨
      ∀ sort, definition.sortOf term = some sort → definition.isSubsort sort v.sort = true := by
  unfold admits
  by_cases htop : v.sort = Symbol.top
  · simp [htop]
  · rw [if_neg htop, or_iff_right htop]
    cases definition.sortOf term with
    | none => simp
    | some sort =>
        simp only [Option.some.injEq, forall_eq']
        cases definition.isSubsort sort v.sort with
        | true => simp
        | false =>
            rw [if_neg Bool.false_ne_true]
            split <;> simp

end Definition

/-- A rest variable among items is one of the sequences over their operator, if it is bound to one. -/
theorem Grammar.segregated_of_fills
    (hfills : ∀ v place, patterns.occurs v place → ρ.Fills v place) : patterns.Segregated := by
  intro v op place hrest hitem hplace
  obtain ⟨value, hget, -, -, htakes⟩ := hfills v _ hitem
  obtain ⟨value', hget', -, -, htakes'⟩ := hfills v _ hplace
  cases hget.symm.trans hget'
  have hover : value.isSequenceOver op = true := htakes.trans hrest
  cases place with
  | alone => exact absurd (hrest.symm.trans htakes') (by simp)
  | item other =>
      have hother : value.isSequenceOver other = true := htakes'.trans hrest
      cases value with
      | sequence inner items =>
          rw [Term.isSequenceOver, beq_iff_eq] at hover hother
          rw [← hover, hother]
      | token _ _ | var _ | app _ _ | collection _ _ => cases hover
  | frame =>
      obtain ⟨cells, rfl⟩ := htakes'
      cases hover

/-- Only the variables of a term occur in it. -/
theorem Term.Conforms.restrict {occurs : Variable → Place → Prop} {place : Place} {term : Term}
    (hterm : term.Conforms (.over occurs) place) {property : Variable → Prop}
    (hproperty : ∀ v ∈ term.vars, property v) :
    term.Conforms (.over fun v place => property v ∧ occurs v place) place := by
  induction hterm with
  | token sort value => exact .token sort value
  | @var _ v hoccurs =>
      exact .var ⟨hproperty v (mem_vars_iff.2 ⟨_, self_mem_subterms _, rfl⟩), hoccurs⟩
  | app _ ih =>
      exact .app fun arg hmem => ih arg hmem fun v hv =>
        hproperty v (vars_subset_of_mem_children hmem hv)
  | sequence hplace _ _ ih =>
      exact .sequence hplace True.intro fun item hmem => ih item hmem fun v hv =>
        hproperty v (vars_subset_of_mem_children hmem hv)
  | collection _ hframe _ ih =>
      refine .collection True.intro (fun v heq => ⟨hproperty v ?_, hframe v heq⟩)
        fun cell hmem => ih cell hmem fun v hv => hproperty v ?_
      · exact mem_vars_iff.2 ⟨_, self_mem_subterms _, heq⟩
      · exact vars_subset_of_mem_children (List.mem_map_of_mem hmem) hv

theorem Substitution.Binds.isBound {v : Variable} {term : Term} (hbinds : ρ.Binds v term) :
    ρ.isBound v = true := by
  obtain ⟨value, hget, -⟩ := hbinds
  exact Option.isSome_of_eq_some hget

theorem Substitution.covers_var {v : Variable} (hbound : ρ.isBound v = true) : ρ.Covers (.var v) := by
  refine covers_of_children (fun w hroot => ?_) (List.forall_mem_nil _)
  cases hroot
  exact hbound

theorem Substitution.Binds.covers {v : Variable} {term : Term} (hbinds : ρ.Binds v term) :
    ρ.Covers (.var v) :=
  covers_var hbinds.isBound

namespace Obligation

/-- All variables of the pattern are bound. -/
def CoveredBy (ρ : Substitution) : Obligation → Prop
  | term pattern _ => ρ.Covers pattern
  | items _ patterns _ => ∀ pattern ∈ patterns, ρ.Covers pattern
  | cells patterns frame _ _ =>
      (∀ v, frame = some v → ρ.isBound v = true) ∧ ∀ pattern ∈ patterns, ρ.Covers pattern.content

theorem Opens.coveredBy {obligation : Obligation} {opened : List Obligation}
    (hopens : obligation.Opens opened) (hopened : ∀ next ∈ opened, next.CoveredBy ρ) :
    obligation.CoveredBy ρ := by
  cases hopens with
  | token _ _ =>
      exact Substitution.covers_of_children (fun _ hroot => by cases hroot) (List.forall_mem_nil _)
  | app label hlength =>
      have hargs := forall₂_of_forall_mem_zipWith hlength hopened
      have hcovers := (forall₂_and_left _ _).1 (hargs.imp fun _ _ hcovers => ⟨hcovers, hcovers⟩)
      exact Substitution.covers_app hcovers.1
  | sequence op patterns _ =>
      exact Substitution.covers_of_children (fun _ hroot => by cases hroot)
        (hopened _ List.mem_cons_self)
  | collection patterns frame _ _ =>
      obtain ⟨hframe, hcells⟩ := hopened _ List.mem_cons_self
      exact Substitution.covers_of_children hframe (List.forall_mem_map.2 hcells)
  | exhausted _ => exact List.forall_mem_nil _
  | item _ _ _ _ _ =>
      obtain ⟨hfirst, hothers⟩ := List.forall_mem_cons.1 hopened
      exact List.forall_mem_cons.2 ⟨hfirst, hothers _ List.mem_cons_self⟩
  | closed _ => exact ⟨fun _ heq => (by cases heq), List.forall_mem_nil _⟩

theorem Accepted.coveredBy {obligation : Obligation} (haccepted : obligation.Accepted ρ) :
    obligation.CoveredBy ρ := by
  induction haccepted with
  | bind hposes hbinds =>
      cases hposes with
      | bind v _ => exact hbinds.covers
      | frame v _ _ =>
          refine ⟨fun w heq => ?_, List.forall_mem_nil _⟩
          cases heq
          exact hbinds.isBound
  | enter hopens _ ih => exact hopens.coveredBy ih
  | segment _ hbinds _ ih => exact List.forall_mem_cons.2 ⟨hbinds.covers, ih⟩
  | cell _ _ _ _ hcontent hothers =>
      exact ⟨hothers.1, List.forall_mem_cons.2 ⟨hcontent, hothers.2⟩⟩

end Obligation

/-! On a ground subject there is nothing to be unsure of and nothing to lose. -/

section Ground

namespace Findings

variable {findings next : Findings} {pending later : List Obligation}

theorem Conforms.deferred_eq_nil (hfindings : findings.Conforms patterns fun _ _ => False) :
    findings.deferred = [] := by
  rw [List.eq_nil_iff_forall_not_mem]
  rintro ⟨pattern, subject⟩ hmem
  obtain ⟨-, v, -, hsubject⟩ := hfindings.deferred pattern subject hmem
  exact Term.not_single_ground_var hsubject

theorem not_blocked_of_ground (hfindings : findings.Conforms patterns fun _ _ => False)
    (hpending : ∀ obligation ∈ pending, obligation.Conforms patterns fun _ _ => False) :
    ¬Blocked definition findings pending := by
  intro hblocked
  cases hblocked with
  | meet hposes hhalted =>
      have hencounter := hposes.conforms (List.forall_mem_cons.1 hpending).1
      cases hhalted with
      | @unsure v subject hmaybe =>
          have hground := hencounter.1.conforms_ground
          exact Definition.admits_ne_maybe hground.asVar_of_ground v hmaybe
      | rest _ => exact Term.not_single_ground_var hencounter.2
  | segment hitem =>
      have hitems := (List.forall_mem_cons.1 hpending).1.2.items
      have hground := (hitems _ List.mem_cons_self).isRestVar_of_ground
      exact absurd (hitem.symm.trans hground) (by simp)
  | frame =>
      have hcells := Term.conforms_collection_iff.1 (List.forall_mem_cons.1 hpending).1.2
      exact hcells.2.1 _ rfl
  | deferred hdeferred => exact hdeferred hfindings.deferred_eq_nil

theorem Step.constraints_eq_of_ground (hstep : Step definition findings pending next later)
    (hfindings : findings.Conforms patterns fun _ _ => False)
    (hpending : ∀ obligation ∈ pending, obligation.Conforms patterns fun _ _ => False) :
    next.constraints = findings.constraints := by
  cases hstep with
  | meet hposes hmet =>
      have hencounter := hposes.conforms (List.forall_mem_cons.1 hpending).1
      obtain ⟨v, part, rfl, -, hconstraints⟩ := hmet.binds_of_ground hfindings hencounter
      exact hconstraints
  | enter _ | boundSegment _ _ _ _ | freeSegment _ _ _ | cell _ => rfl
  | settle hdeferred _ => exact absurd hfindings.deferred_eq_nil hdeferred

end Findings

theorem Obligation.not_losesSegment_of_ground {op : Label} {left parts : List Term}
    (hparts : ∀ item ∈ parts, item.Conforms .ground (.item op))
    (hbound : ∀ v bound, ρ.get? v = some bound → bound.isGround = true) :
    ¬(items op left parts).LosesSegment ρ := by
  have hrest : ∀ item ∈ parts, ¬item.isRestVar = true := fun item hmem => by
    rw [(hparts item hmem).isRestVar_of_ground]
    exact Bool.false_ne_true
  intro hloses
  cases hloses with
  | leftOver hne hsegments =>
      obtain ⟨item, hmem⟩ := List.exists_mem_of_ne_nil _ hne
      exact hrest item hmem (hsegments item hmem)
  | kept _ _ hsegment =>
      obtain ⟨item, hmem, hitem⟩ := hsegment
      exact hrest item (List.mem_of_mem_drop hmem) hitem
  | adjacent _ _ _ hsegment =>
      obtain ⟨item, hmem, hitem⟩ := hsegment
      exact hrest item hmem hitem
  | returning _ hget _ hopen =>
      exact hopen ⟨hbound _ _ hget, fun item hmem =>
        (hparts item (List.mem_of_mem_take hmem)).isGround_eq_true_of_ground⟩

namespace Branch

variable {branch last : Branch}

theorem Conforms.not_losesSegment_of_ground (hconforms : branch.Conforms patterns fun _ _ => False) :
    ¬branch.LosesSegment := by
  rintro ⟨obligation, pending, hpending, hloses⟩
  have hobligation := hconforms.pending obligation (hpending ▸ List.mem_cons_self)
  obtain ⟨op, left, parts, rfl⟩ := hloses.exists_items
  refine Obligation.not_losesSegment_of_ground hobligation.2.items (fun v bound hget => ?_) hloses
  exact (hconforms.findings.bound v bound hget).1.conforms_ground.isGround_eq_true_of_ground

theorem Conforms.not_losesCell_of_ground (hconforms : branch.Conforms patterns fun _ _ => False) :
    ¬branch.LosesCell := by
  rintro ⟨obligation, pending, hpending, hloses⟩
  have hobligation := hconforms.pending obligation (hpending ▸ List.mem_cons_self)
  cases hloses with
  | hidden _ => exact (Term.conforms_collection_iff.1 hobligation.2).2.1 _ rfl

theorem constraints_eq_of_reaches_ground (hreaches : branch.Reaches definition last)
    (hconforms : branch.Conforms patterns fun _ _ => False) :
    last.constraints = branch.constraints := by
  induction hreaches with
  | refl => rfl
  | tail hreaches hleads ih =>
      have hmiddle := hconforms.reaches hreaches
      exact ((step_of_leads hleads).constraints_eq_of_ground hmiddle.findings hmiddle.pending).trans ih

end Branch

end Ground

/-- The bindings that an instance of the pattern comes from are compatible with the instance itself. -/
theorem compatible_of_fills {pattern : Term}
    (hadmits : ∀ v ∈ pattern.vars, v.isRest = false → ∀ value, τ.get? v = some value →
      definition.admits v value = .yes) :
    Compatible definition (.over fun v place => v ∈ pattern.vars ∧ τ.Fills v place)
      (fun _ _ => False) τ {} where
  plain v hoccurs := by
    obtain ⟨-, value, -, -, -, htakes⟩ := hoccurs
    exact htakes
  admits v place term hoccurs hrest hbinds hsingle := by
    obtain ⟨value, hget, hequal⟩ := hbinds
    rw [hsingle.conforms_ground.instantiate_ground] at hequal
    have hvalue := hadmits v hoccurs.1 hrest value hget
    rw [Definition.admits_eq_yes_iff, hequal.sortOf_eq, ← Definition.admits_eq_yes_iff] at hvalue
    rw [hvalue]
    rintro ⟨⟩
  fills _ _ hoccurs := hoccurs.elim
  overlaps _ _ hoccurs := hoccurs.elim

theorem Branch.stands_start_ground {pattern subject : Term}
    (hpattern : pattern.Conforms patterns .alone) (hsubject : subject.Conforms .ground .alone)
    (haccepted : (Obligation.term pattern subject).Accepted τ) :
    (Branch.start pattern subject).Stands patterns (fun _ _ => False) τ {} where
  conforms := Branch.conforms_start (.inl hpattern) (.inl hsubject)
  agrees v term hget := by cases hget
  accepted := by
    rw [Branch.start, List.forall_mem_singleton, Obligation.instantiate, hsubject.instantiate_ground]
    exact haccepted

namespace Definition

/-- If a pattern accepts a ground term under bindings that it admits, then matching finds these. -/
theorem exists_concreteMatch_of_accepted {pattern subject : Term}
    (hpattern : pattern.Conforms (.over τ.Fills) .alone) (hsubject : subject.Conforms .ground .alone)
    (hadmits : ∀ v ∈ pattern.vars, v.isRest = false → ∀ value, τ.get? v = some value →
      definition.admits v value = .yes)
    (haccepted : (Obligation.term pattern subject).Accepted τ) :
    ∃ σ ∈ definition.concreteMatches pattern subject, ∀ v ∈ pattern.vars,
      ∃ value recovered, τ.get? v = some value ∧ σ.get? v = some recovered ∧
        (recovered == value) = true := by
  have hrestricted := hpattern.restrict fun v (hv : v ∈ pattern.vars) => hv
  have hfills : ∀ v place, v ∈ pattern.vars ∧ τ.Fills v place → τ.Fills v place :=
    fun _ _ hoccurs => hoccurs.2
  have hstands := Branch.stands_start_ground hrestricted hsubject haccepted
  obtain ⟨last, hreaches, hlast⟩ := hstands.ends (compatible_of_fills hadmits)
  have hconforms := hstands.conforms.reaches hreaches
  rcases hlast with hundecided | ⟨hfollows, hends | ⟨-, hloses | hloses⟩⟩
  · exact absurd (Branch.blocked_of_undecided hundecided)
      (Findings.not_blocked_of_ground hconforms.findings hconforms.pending)
  · refine ⟨last.subst, mem_concreteMatches_iff.2 ⟨last.result,
      mem_found_matchPattern_iff.2 ⟨last, hreaches, hends, rfl⟩, ?_, rfl⟩, fun v hv => ?_⟩
    · rw [Branch.result, Branch.constraints_eq_of_reaches_ground hreaches hstands.conforms]
      rfl
    · have hcovered := Branch.accepted_of_reaches hreaches (Grammar.segregated_of_fills hfills)
        hstands.conforms hends _ List.mem_cons_self
      have hbound : last.subst.isBound v = true := hcovered.coveredBy v hv
      obtain ⟨recovered, hrecovered⟩ := Option.isSome_iff_exists.1 hbound
      obtain ⟨value, hvalue, hequal⟩ := hfollows.agrees v recovered hrecovered
      have hground := (hconforms.findings.bound v recovered hrecovered).1.conforms_ground
      rw [hground.instantiate_ground] at hequal
      exact ⟨value, recovered, hvalue, hrecovered, hequal.symm⟩
  · exact absurd hloses hconforms.not_losesSegment_of_ground
  · exact absurd hloses hconforms.not_losesCell_of_ground

/-- Matching an instance of a pattern finds the bindings again that it comes from. -/
theorem concreteMatches_recovers (definition : Definition) {τ : Substitution}
    {pattern : Term} (hpattern : pattern.Conforms (.over τ.Fills) .alone)
    (hadmits : ∀ v ∈ pattern.vars, v.isRest = false → ∀ value, τ.get? v = some value →
      definition.admits v value = .yes) :
    ∃ σ ∈ definition.concreteMatches pattern (pattern.applySubst τ), ∀ v ∈ pattern.vars,
      ∃ value recovered, τ.get? v = some value ∧ σ.get? v = some recovered ∧
        (recovered == value) = true := by
  have hfills : ∀ v place, τ.Fills v place → τ.Fills v place := fun _ _ hfills => hfills
  rw [hpattern.applySubst_eq]
  exact exists_concreteMatch_of_accepted hpattern (hpattern.instantiate_conforms hfills) hadmits
    (Obligation.accepted_instantiate hpattern hfills)

end Definition

namespace Recovering

def head : Variable := ⟨"H", Symbol.int, .plain⟩

def others : Variable := ⟨"R", Symbol.top, .rest⟩

def frame : Variable := ⟨"F", Symbol.top, .rest⟩

/-- A sequence with a rest variable in the middle, and a cell whose content is the head of the
sequence. -/
def pattern : Term :=
  .app "f" [.sequence Symbol.sequencing [.var head, .var others, .int 3],
    .collection [⟨0, "a", .var head⟩] (some frame)]

/-- The frame has a cell of the name that the pattern asks for, too. -/
def bindings : Substitution :=
  { bindings := [(head, .int 1), (others, .sequence Symbol.sequencing [.int 2, .int 3]),
      (frame, .collection [⟨1, "a", .int 5⟩, ⟨2, "b", .int 7⟩] none)] }

theorem conforms_pattern : pattern.Conforms (.over bindings.Fills) .alone := by
  have hhead : bindings.Fills head (.item Symbol.sequencing) ∧ bindings.Fills head .alone :=
    ⟨⟨.int 1, rfl, by simp [Term.Flattened, Term.int], rfl, rfl⟩,
      ⟨.int 1, rfl, by simp [Term.Flattened, Term.int], rfl, rfl⟩⟩
  have hothers : bindings.Fills others (.item Symbol.sequencing) :=
    ⟨_, rfl, by simp [Term.Flattened, Term.int], rfl, rfl⟩
  have hframe : bindings.Fills frame .frame :=
    ⟨_, rfl, by simp [Term.Flattened, Term.int], rfl, _, rfl⟩
  simp [pattern, Term.int, hhead, hothers, hframe]

theorem admits_head : ∀ v ∈ pattern.vars, v.isRest = false → ∀ value,
    bindings.get? v = some value → (Definition.assemble []).admits v value = .yes := by
  have hvars : pattern.vars = [head, others, frame] := by decide +kernel
  rw [hvars]
  intro v hv hrest value hget
  simp only [List.mem_cons, List.not_mem_nil, or_false] at hv
  rcases hv with rfl | rfl | rfl
  · cases hget
    rfl
  · cases hrest
  · cases hrest

theorem concreteMatches_recovers_frame : pattern.Conforms (.over bindings.Fills) .alone ∧
    (∀ v ∈ pattern.vars, v.isRest = false → ∀ value, bindings.get? v = some value →
      (Definition.assemble []).admits v value = .yes) ∧
    ∃ σ ∈ (Definition.assemble []).concreteMatches pattern (pattern.applySubst bindings),
      ∀ v ∈ pattern.vars, ∃ value recovered, bindings.get? v = some value ∧
        σ.get? v = some recovered ∧ (recovered == value) = true :=
  ⟨conforms_pattern, admits_head,
    Definition.concreteMatches_recovers (.assemble []) conforms_pattern admits_head⟩

end Recovering

end SymbolicRewriting
