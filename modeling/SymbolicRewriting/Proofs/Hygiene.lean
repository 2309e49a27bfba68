import SymbolicRewriting.Proof.Prover
import SymbolicRewriting.Proofs.BoundVariables
import SymbolicRewriting.Proofs.MatchingIdentities
import SymbolicRewriting.Proofs.Renamings

/-!
# Hygiene of matching

The names of the variables of a pattern decide nothing, even where the subject has variables of the
same names: under other names a branch advances to the same branches, so the exploration finds the same
matches. Pattern variables get into a constraint only by an instance, in which none of them is left.
-/

namespace SymbolicRewriting

open List

variable {σ : Type} {definition : Definition} {ρ : Variable → Variable} {pattern : Term}

namespace Obligation

def rename (ρ : Variable → Variable) : Obligation → Obligation
  | term part subject => term (part.rename ρ) subject
  | items op parts subjects => items op (parts.map (Term.rename ρ)) subjects
  | cells parts frame free subjectFrame =>
      cells (parts.map (Cell.rename ρ)) (frame.map ρ) free subjectFrame

/-- What is left of the pattern are parts of it. -/
def Within (pattern : Term) : Obligation → Prop
  | term part _ => part ∈ pattern.subterms
  | items _ parts _ => ∀ part ∈ parts, part ∈ pattern.subterms
  | cells parts frame _ _ =>
      (∀ cell ∈ parts, cell.content ∈ pattern.subterms) ∧ ∀ v, frame = some v → pattern.ClosedBy v

theorem Opens.within {obligation : Obligation} {opened : List Obligation}
    (hopens : obligation.Opens opened) (hwithin : obligation.Within pattern) :
    ∀ next ∈ opened, next.Within pattern := by
  cases hopens with
  | token _ _ | exhausted _ | closed _ => exact List.forall_mem_nil _
  | app _ _ =>
      exact forall_mem_zipWith_term fun _ harg _ _ =>
        Term.mem_subterms_of_mem_children hwithin harg
  | sequence _ _ _ =>
      exact List.forall_mem_singleton.2 fun _ => Term.mem_subterms_of_mem_children hwithin
  | collection patterns _ _ _ =>
      refine List.forall_mem_singleton.2 ⟨fun cell hmem => ?_, ?_⟩
      · exact Term.mem_subterms_of_mem_children hwithin (List.mem_map_of_mem hmem)
      · rintro v rfl
        exact ⟨patterns, hwithin⟩
  | item _ _ _ _ _ =>
      obtain ⟨hfirst, hothers⟩ := List.forall_mem_cons.1 hwithin
      exact List.forall_mem_cons.2 ⟨hfirst, List.forall_mem_singleton.2 hothers⟩

end Obligation

namespace Branch

def rename (ρ : Variable → Variable) (branch : Branch) : Branch where
  subst := branch.subst.rename ρ
  pending := branch.pending.map (Obligation.rename ρ)
  deferred := branch.deferred.map fun entry => (entry.1.rename ρ, entry.2)
  constraints := branch.constraints

end Branch

def Progress.rename (ρ : Variable → Variable) : Progress → Progress
  | .branches next => .branches (next.map (Branch.rename ρ))
  | progress => progress

/-- Frames are used as frames only. -/
def Term.Hygienic (pattern : Term) : Prop :=
  ∀ v, pattern.ClosedBy v → .var v ∉ pattern.subterms

namespace Substitution.Of

variable {subst : Substitution}

theorem empty : Substitution.empty.Of pattern where
  keys := List.forall_mem_nil _
  frames _ _ _ hget := by cases hget

theorem push (hsubst : subst.Of pattern) {v : Variable} (hv : v ∈ pattern.vars)
    (hget : subst.get? v = none) {term : Term}
    (hframe : pattern.ClosedBy v → term.isCollection = true) : (subst.push v term).Of pattern where
  keys := List.forall_mem_append.2 ⟨hsubst.keys, List.forall_mem_singleton.2 hv⟩
  frames w part hclosed hpart := by
    rw [get?_push hget] at hpart
    split at hpart
    · rename_i heq
      cases hpart
      exact hframe (heq ▸ hclosed)
    · exact hsubst.frames w part hclosed hpart

theorem recordCell (hsubst : subst.Of pattern) (cell target : CellId) :
    (subst.recordCell cell target).Of pattern where
  keys := by
    unfold Substitution.recordCell
    split <;> exact hsubst.keys
  frames v term hclosed hget := by
    rw [get?_recordCell] at hget
    exact hsubst.frames v term hclosed hget

end Substitution.Of

theorem Term.mem_vars_of_var_mem {term : Term} {v : Variable} (hmem : .var v ∈ term.subterms) :
    v ∈ term.vars :=
  mem_vars_iff.2 ⟨_, hmem, rfl⟩

theorem Term.ClosedBy.mem_vars {term : Term} {v : Variable} (hclosed : term.ClosedBy v) :
    v ∈ term.vars := by
  obtain ⟨cells, hmem⟩ := hclosed
  exact mem_vars_iff.2 ⟨_, hmem, rfl⟩

/-- What has been found of the pattern, and what has been put off. -/
structure Findings.Within (pattern : Term) (findings : Findings) : Prop where
  subst : findings.subst.Of pattern
  deferred : ∀ entry ∈ findings.deferred, entry.1 ∈ pattern.subterms

theorem Findings.Step.within {findings next : Findings} {pending later : List Obligation}
    (hstep : Step definition findings pending next later) (hhygienic : pattern.Hygienic)
    (hfindings : findings.Within pattern)
    (hpending : ∀ obligation ∈ pending, obligation.Within pattern) :
    next.Within pattern ∧ ∀ obligation ∈ later, obligation.Within pattern := by
  cases hstep with
  | meet hposes hmet =>
      obtain ⟨hfirst, hothers⟩ := List.forall_mem_cons.1 hpending
      refine ⟨?_, hothers⟩
      cases hmet with
      | bound _ hget =>
          refine ⟨?_, hfindings.deferred⟩
          cases hposes with
          | bind _ _ =>
              exact hfindings.subst.push (Term.mem_vars_of_var_mem hfirst) hget fun hclosed =>
                absurd hfirst (hhygienic _ hclosed)
          | frame _ _ _ =>
              exact hfindings.subst.push (hfirst.2 _ rfl).mem_vars hget fun _ => rfl
      | repeated _ _ _ | equated _ _ _ | constrained _ => exact ⟨hfindings.subst, hfindings.deferred⟩
      | deferred =>
          refine ⟨hfindings.subst, List.forall_mem_append.2 ⟨hfindings.deferred, ?_⟩⟩
          cases hposes with
          | unknown _ _ => exact List.forall_mem_singleton.2 hfirst
  | enter hopens =>
      obtain ⟨hfirst, hothers⟩ := List.forall_mem_cons.1 hpending
      exact ⟨hfindings, List.forall_mem_append.2 ⟨hopens.within hfirst, hothers⟩⟩
  | boundSegment _ _ _ _ =>
      obtain ⟨hfirst, hothers⟩ := List.forall_mem_cons.1 hpending
      exact ⟨hfindings, List.forall_mem_cons.2 ⟨(List.forall_mem_cons.1 hfirst).2, hothers⟩⟩
  | @freeSegment op v patterns items count _ _ hget _ =>
      obtain ⟨hfirst, hothers⟩ := List.forall_mem_cons.1 hpending
      obtain ⟨hvar, hpatterns⟩ := List.forall_mem_cons.1 hfirst
      have hsubst : (findings.subst.push v (Term.flatten op (items.take count))).Of pattern :=
        hfindings.subst.push (Term.mem_vars_of_var_mem hvar) hget fun hclosed =>
          absurd hvar (hhygienic v hclosed)
      exact ⟨⟨hsubst, hfindings.deferred⟩, List.forall_mem_cons.2 ⟨hpatterns, hothers⟩⟩
  | @cell cell chosen _ _ _ _ _ _ _ =>
      obtain ⟨⟨hcells, hframe⟩, hothers⟩ := List.forall_mem_cons.1 hpending
      obtain ⟨hcell, hcells⟩ := List.forall_mem_cons.1 hcells
      exact ⟨⟨hfindings.subst.recordCell cell.id chosen.id, hfindings.deferred⟩,
        List.forall_mem_cons.2 ⟨hcell, List.forall_mem_cons.2 ⟨⟨hcells, hframe⟩, hothers⟩⟩⟩
  | settle _ _ => exact ⟨⟨hfindings.subst, List.forall_mem_nil _⟩, hpending⟩

/-- The branch has to do with the pattern alone. -/
structure Branch.Within (pattern : Term) (branch : Branch) : Prop where
  findings : branch.findings.Within pattern
  pending : ∀ obligation ∈ branch.pending, obligation.Within pattern

theorem Branch.within_start (pattern subject : Term) :
    (Branch.start pattern subject).Within pattern where
  findings := ⟨.empty, List.forall_mem_nil _⟩
  pending := List.forall_mem_singleton.2 pattern.self_mem_subterms

theorem Branch.Within.of_advance {branch : Branch} (hwithin : branch.Within pattern)
    (hhygienic : pattern.Hygienic) {next : List Branch}
    (hadvance : branch.advance definition = .branches next) :
    ∀ other ∈ next, other.Within pattern := by
  intro other hmem
  have hstep := Branch.step_of_leads ⟨next, hadvance, hmem⟩
  have hnext := hstep.within hhygienic hwithin.findings hwithin.pending
  exact ⟨hnext.1, hnext.2⟩

/-! ### A step under other names -/

section Steps

variable (hρ : Renaming ρ pattern)
include hρ

theorem Renaming.isRest_eq {v : Variable} (hv : v ∈ pattern.vars) : (ρ v).isRest = v.isRest := by
  rw [Variable.isRest, Variable.isRest, hρ.kind_eq v hv]

theorem Renaming.isRestVar_rename {part : Term} (hpart : part ∈ pattern.subterms) :
    (part.rename ρ).isRestVar = part.isRestVar := by
  cases part with
  | var v => exact hρ.isRest_eq (Term.mem_vars_of_var_mem hpart)
  | token _ _ | app _ _ | sequence _ _ | collection _ _ => rfl

theorem Renaming.sortOf_rename {part : Term} (hpart : part ∈ pattern.subterms) :
    definition.sortOf (part.rename ρ) = definition.sortOf part := by
  cases part with
  | var v => exact congrArg some (hρ.sort_eq v (Term.mem_vars_of_var_mem hpart))
  | token _ _ | app _ _ | sequence _ _ | collection _ _ => rfl

theorem Renaming.admits_eq {v : Variable} (hv : v ∈ pattern.vars) (subject : Term) :
    definition.admits (ρ v) subject = definition.admits v subject := by
  unfold Definition.admits
  rw [hρ.sort_eq v hv]

theorem Substitution.Of.constrain?_rename {subst : Substitution} (hsubst : subst.Of pattern)
    {part : Term} (hpart : part ∈ pattern.subterms) (constraints : PathCondition) (subject : Term) :
    (subst.rename ρ).constrain? constraints (part.rename ρ) subject =
      subst.constrain? constraints part subject := by
  have hover := Term.over_of_mem_subterms hpart
  unfold constrain?
  rw [hsubst.all_isBound_rename hρ hover]
  split
  · rename_i hbound
    rw [hsubst.applySubst_rename hρ hover (List.all_eq_true.1 hbound)]
  · rfl

theorem Substitution.Of.settle_rename {subst : Substitution} (hsubst : subst.Of pattern)
    {deferred : List (Term × Term)} (hdeferred : ∀ entry ∈ deferred, entry.1 ∈ pattern.subterms)
    (constraints : PathCondition) :
    (subst.rename ρ).settle constraints (deferred.map fun entry => (entry.1.rename ρ, entry.2)) =
      subst.settle constraints deferred := by
  induction deferred generalizing constraints with
  | nil => rfl
  | cons entry deferred ih =>
      obtain ⟨hfirst, hothers⟩ := List.forall_mem_cons.1 hdeferred
      simp only [List.map_cons, settle, hsubst.constrain?_rename hρ hfirst]
      cases subst.constrain? constraints entry.1 entry.2 with
      | none => rfl
      | some extended => exact ih hothers extended

namespace Branch

variable {branch : Branch} (hsubst : branch.subst.Of pattern)

omit hρ in
theorem rename_enter (branch : Branch) (obligations : List Obligation) :
    (branch.enter obligations).rename ρ =
      (branch.rename ρ).enter (obligations.map (Obligation.rename ρ)) := by
  simp [enter, rename]

omit hρ in
theorem rename_goOn (branch : Branch) : branch.goOn.rename ρ = (branch.rename ρ).goOn := rfl

include hsubst

theorem bind_rename {v : Variable} (hv : v ∈ pattern.vars) (subject : Term) :
    (branch.rename ρ).bind definition (ρ v) subject =
      (branch.bind definition v subject).rename ρ := by
  cases hadmits : definition.admits v subject with
  | no => simp [bind, hρ.admits_eq hv, hadmits, Progress.rename]
  | maybe => simp [bind, hρ.admits_eq hv, hadmits, Progress.rename]
  | yes =>
      rw [bind_of_admits hadmits, bind_of_admits ((hρ.admits_eq hv subject).trans hadmits)]
      have hget : (branch.rename ρ).subst.get? (ρ v) = branch.subst.get? v :=
        hsubst.get?_rename hρ hv
      rw [hget]
      cases branch.subst.get? v with
      | none => simp [rename_goOn, rename, Substitution.push, Substitution.rename]
      | some existing =>
          dsimp only
          split
          · rfl
          · split <;> rfl

theorem meetUnknown_rename {part : Term} (hpart : part ∈ pattern.subterms) (v : Variable) :
    (branch.rename ρ).meetUnknown definition (part.rename ρ) v =
      (branch.meetUnknown definition part v).rename ρ := by
  have hoverlap : definition.sortsOverlap (part.rename ρ) v = definition.sortsOverlap part v := by
    unfold Definition.sortsOverlap
    rw [hρ.sortOf_rename hpart]
  have hconstrain : (branch.rename ρ).subst.constrain? (branch.rename ρ).constraints
      (part.rename ρ) (.var v) = branch.subst.constrain? branch.constraints part (.var v) :=
    hsubst.constrain?_rename hρ hpart branch.constraints (.var v)
  unfold meetUnknown
  rw [hoverlap, hconstrain]
  split
  · rfl
  · split
    · rfl
    · cases branch.subst.constrain? branch.constraints part (.var v) with
      | none => simp [rename_goOn, rename]
      | some constraints => rfl

theorem advanceTerm_rename {part : Term} (hpart : part ∈ pattern.subterms) (subject : Term) :
    (branch.rename ρ).advanceTerm definition (part.rename ρ) subject =
      (branch.advanceTerm definition part subject).rename ρ := by
  cases part with
  | var v => exact bind_rename hρ hsubst (Term.mem_vars_of_var_mem hpart) subject
  | token sort value =>
      cases subject with
      | var w => exact meetUnknown_rename hρ hsubst hpart w
      | token sort' value' =>
          simp only [advanceTerm, Term.rename]
          split <;> rfl
      | app _ _ | sequence _ _ | collection _ _ => rfl
  | app label args =>
      cases subject with
      | var w => exact meetUnknown_rename hρ hsubst hpart w
      | app label' args' =>
          simp only [advanceTerm, Term.rename, Term.renameAll_eq_map, List.length_map]
          split
          · rw [rename_goOn, rename_enter, List.map_zipWith, List.zipWith_map_left]
            rfl
          · rfl
      | token _ _ | sequence _ _ | collection _ _ => rfl
  | sequence op patterns =>
      have hitems : ∀ items : List Term,
          ((branch.rename ρ).enter [.items op (Term.renameAll ρ patterns) items]).goOn =
            (branch.enter [.items op patterns items]).goOn.rename ρ := by
        intro items
        rw [rename_goOn, rename_enter, Term.renameAll_eq_map]
        rfl
      cases subject with
      | var w => exact meetUnknown_rename hρ hsubst hpart w
      | token _ _ | app _ _ | sequence _ _ | collection _ _ => exact hitems _
  | collection patterns frame =>
      cases subject with
      | var w => exact meetUnknown_rename hρ hsubst hpart w
      | collection free subjectFrame =>
          simp only [advanceTerm, Term.rename, Term.renameCells_eq_map]
          rw [rename_goOn, rename_enter]
          rfl
      | token _ _ | app _ _ | sequence _ _ => rfl

omit hρ hsubst in
theorem takeItem_rename (op : Label) (part : Term) (patterns subjects : List Term) :
    (branch.rename ρ).takeItem op (part.rename ρ) (patterns.map (Term.rename ρ)) subjects =
      (branch.takeItem op part patterns subjects).rename ρ := by
  cases subjects with
  | nil => rfl
  | cons item later =>
      simp only [takeItem]
      split
      · rfl
      · rw [rename_goOn, rename_enter]
        rfl

omit hρ hsubst in
theorem takeBoundSegment_rename (op : Label) (bound : Term) (patterns subjects : List Term) :
    (branch.rename ρ).takeBoundSegment op bound (patterns.map (Term.rename ρ)) subjects =
      (branch.takeBoundSegment op bound patterns subjects).rename ρ := by
  simp only [takeBoundSegment]
  split
  · rw [rename_goOn, rename_enter]
    rfl
  · rfl

omit hsubst in
theorem takeSegments_rename {v : Variable} (op : Label) {patterns : List Term}
    (hpatterns : ∀ part ∈ patterns, part ∈ pattern.subterms) (subjects : List Term) :
    (branch.rename ρ).takeSegments op (ρ v) (patterns.map (Term.rename ρ)) subjects =
      (branch.takeSegments op v patterns subjects).rename ρ := by
  have hneeded : (patterns.map (Term.rename ρ)).countP (fun part => !part.isRestVar) =
      patterns.countP fun part => !part.isRestVar := by
    rw [List.countP_map]
    refine List.countP_congr fun part hmem => ?_
    rw [Function.comp_apply, hρ.isRestVar_rename (hpatterns part hmem)]
  have hany : (patterns.map (Term.rename ρ)).any Term.isRestVar = patterns.any Term.isRestVar := by
    rw [List.any_map, Bool.eq_iff_iff, List.any_eq_true, List.any_eq_true]
    refine exists_congr fun part => and_congr_right fun hmem => ?_
    rw [Function.comp_apply, hρ.isRestVar_rename (hpatterns part hmem)]
  have hsegment : ∀ count, (branch.rename ρ).takeSegment op (ρ v) (patterns.map (Term.rename ρ))
      subjects count = (branch.takeSegment op v patterns subjects count).rename ρ := by
    intro count
    simp [takeSegment, rename, Substitution.push, Substitution.rename, Obligation.rename]
  simp only [takeSegments, hneeded, hany]
  split
  · simp only [Progress.rename, List.map_map]
    exact congrArg Progress.branches (List.map_congr_left fun count _ => hsegment count)
  · rfl

theorem advanceItems_rename (op : Label) {patterns : List Term}
    (hpatterns : ∀ part ∈ patterns, part ∈ pattern.subterms) (subjects : List Term) :
    (branch.rename ρ).advanceItems op (patterns.map (Term.rename ρ)) subjects =
      (branch.advanceItems op patterns subjects).rename ρ := by
  cases patterns with
  | nil =>
      simp only [advanceItems, List.map_nil]
      split <;> rfl
  | cons part patterns =>
      obtain ⟨hpart, hothers⟩ := List.forall_mem_cons.1 hpatterns
      cases part with
      | var v =>
          have hv := Term.mem_vars_of_var_mem hpart
          have hget : (branch.rename ρ).subst.get? (ρ v) = branch.subst.get? v :=
            hsubst.get?_rename hρ hv
          simp only [advanceItems, List.map_cons, Term.rename, Term.asVar, hρ.isRest_eq hv, hget]
          split
          · cases branch.subst.get? v with
            | none => exact takeSegments_rename hρ op hothers subjects
            | some bound => exact takeBoundSegment_rename op bound patterns subjects
          · exact takeItem_rename op (.var v) patterns subjects
      | token _ _ | app _ _ | sequence _ _ | collection _ _ =>
          exact takeItem_rename op _ patterns subjects

theorem advanceCells_rename (patterns : List (Cell Term)) {frame : Option Variable}
    (hframe : ∀ v, frame = some v → pattern.ClosedBy v) (free : FreeCells)
    (subjectFrame : Option Variable) :
    (branch.rename ρ).advanceCells definition (patterns.map (Cell.rename ρ)) (frame.map ρ) free
        subjectFrame =
      (branch.advanceCells definition patterns frame free subjectFrame).rename ρ := by
  cases patterns with
  | nil =>
      cases frame with
      | none =>
          simp only [advanceCells, List.map_nil, Option.map_none]
          split
          · rfl
          · split <;> rfl
      | some v => exact bind_rename hρ hsubst (hframe v rfl).mem_vars _
  | cons cell patterns =>
      have hchoice : ∀ choice : Cell Term × FreeCells,
          (branch.rename ρ).takeCell (cell.rename ρ) (patterns.map (Cell.rename ρ)) (frame.map ρ)
            subjectFrame choice =
              (branch.takeCell cell patterns frame subjectFrame choice).rename ρ := by
        intro choice
        have hrecord : (branch.subst.recordCell cell.id choice.1.id).rename ρ =
            (branch.subst.rename ρ).recordCell cell.id choice.1.id := by
          unfold Substitution.recordCell Substitution.rename
          split <;> rfl
        simp [takeCell, rename, hrecord, Obligation.rename, Cell.rename]
      have hselections : selections (cell.rename ρ).name [] free.toList =
          selections cell.name [] free.toList := rfl
      simp only [advanceCells, List.map_cons, hselections]
      cases selections cell.name [] free.toList with
      | nil =>
          dsimp only
          split <;> rfl
      | cons choice choices =>
          simp only [Progress.rename, List.map_map]
          exact congrArg Progress.branches (List.map_congr_left fun choice _ => hchoice choice)

end Branch

theorem Branch.Within.finish_rename {branch : Branch} (hwithin : branch.Within pattern) :
    (branch.rename ρ).finish = branch.finish.rename ρ := by
  have hsettle : (branch.rename ρ).subst.settle (branch.rename ρ).constraints
      (branch.rename ρ).deferred = branch.subst.settle branch.constraints branch.deferred :=
    hwithin.findings.subst.settle_rename hρ hwithin.findings.deferred branch.constraints
  have hempty : (branch.rename ρ).deferred.isEmpty = branch.deferred.isEmpty := List.isEmpty_map
  unfold finish
  rw [hsettle, hempty]
  split
  · rfl
  · cases branch.subst.settle branch.constraints branch.deferred with
    | none => rfl
    | some constraints => rfl

theorem Branch.Within.advance_rename (definition : Definition) {branch : Branch}
    (hwithin : branch.Within pattern) :
    (branch.rename ρ).advance definition = (branch.advance definition).rename ρ := by
  obtain ⟨subst, pending, deferred, constraints⟩ := branch
  cases pending with
  | nil => exact hwithin.finish_rename hρ
  | cons obligation pending =>
      have hsubst : (Branch.mk subst pending deferred constraints).subst.Of pattern :=
        hwithin.findings.subst
      obtain ⟨hfirst, -⟩ := List.forall_mem_cons.1 hwithin.pending
      cases obligation with
      | term part subject =>
          exact advanceTerm_rename hρ hsubst hfirst subject
      | items op patterns subjects =>
          exact advanceItems_rename hρ hsubst op hfirst subjects
      | cells patterns frame free subjectFrame =>
          exact advanceCells_rename hρ hsubst patterns hfirst.2 free subjectFrame

end Steps

def PatternMatches.rename (ρ : Variable → Variable) (results : PatternMatches) : PatternMatches :=
  { results with found := results.found.map fun found => ⟨found.subst.rename ρ, found.constraints⟩ }

theorem PatternMatches.accept_rename (results : PatternMatches) (branch : Branch) :
    (results.rename ρ).accept (branch.rename ρ) = (results.accept branch).rename ρ := by
  simp [accept, rename, Branch.rename]

/-- Under other names the exploration goes the same way. -/
theorem explore_rename (definition : Definition) (hρ : Renaming ρ pattern)
    (hhygienic : pattern.Hygienic)
    {branches : List Branch} (hbranches : ∀ branch ∈ branches, branch.Within pattern)
    (results : PatternMatches) :
    explore definition (branches.map (Branch.rename ρ)) (results.rename ρ) =
      (explore definition branches results).rename ρ := by
  fun_induction explore definition branches results with
  | case1 results =>
      rw [List.map_nil, explore]
  | case2 results branch later hadvance ih =>
      obtain ⟨hbranch, hlater⟩ := List.forall_mem_cons.1 hbranches
      have hrenamed := hbranch.advance_rename hρ definition
      rw [hadvance] at hrenamed
      rw [List.map_cons, explore_of_accepted _ _ hrenamed, PatternMatches.accept_rename]
      exact ih hlater
  | case3 results branch later hadvance ih =>
      obtain ⟨hbranch, hlater⟩ := List.forall_mem_cons.1 hbranches
      have hrenamed := hbranch.advance_rename hρ definition
      rw [hadvance] at hrenamed
      rw [List.map_cons, explore_of_failed _ _ hrenamed]
      exact ih hlater
  | case4 results branch later hadvance ih =>
      obtain ⟨hbranch, hlater⟩ := List.forall_mem_cons.1 hbranches
      have hrenamed := hbranch.advance_rename hρ definition
      rw [hadvance] at hrenamed
      rw [List.map_cons, explore_of_conflicting _ _ hrenamed]
      exact ih hlater
  | case5 results branch later hadvance ih =>
      obtain ⟨hbranch, hlater⟩ := List.forall_mem_cons.1 hbranches
      have hrenamed := hbranch.advance_rename hρ definition
      rw [hadvance] at hrenamed
      rw [List.map_cons, explore_of_undecided _ _ hrenamed]
      exact ih hlater
  | case6 results branch later next hadvance ih =>
      obtain ⟨hbranch, hlater⟩ := List.forall_mem_cons.1 hbranches
      have hrenamed := hbranch.advance_rename hρ definition
      rw [hadvance] at hrenamed
      rw [List.map_cons, explore_of_branches _ _ hrenamed, ← List.map_append]
      exact ih (List.forall_mem_append.2 ⟨hbranch.of_advance hhygienic hadvance, hlater⟩)

theorem matchPattern_rename (definition : Definition) (hρ : Renaming ρ pattern)
    (hhygienic : pattern.Hygienic) (subject : Term) :
    definition.matchPattern (pattern.rename ρ) subject =
      (definition.matchPattern pattern subject).rename ρ := by
  have hstart := List.forall_mem_singleton.2 (Branch.within_start pattern subject)
  have hexplored := explore_rename definition hρ hhygienic hstart {}
  have hnone : ({} : PatternMatches).rename ρ = {} := by simp [PatternMatches.rename]
  rw [hnone] at hexplored
  exact hexplored

theorem Branch.Within.reaches {branch last : Branch} (hwithin : branch.Within pattern)
    (hhygienic : pattern.Hygienic) (hreaches : branch.Reaches definition last) :
    last.Within pattern := by
  induction hreaches with
  | refl => exact hwithin
  | tail _ hleads ih =>
      obtain ⟨next, hadvance, hmem⟩ := hleads
      exact ih.of_advance hhygienic hadvance _ hmem

theorem Term.Hygienic.of_mem_found (hhygienic : pattern.Hygienic) {subject : Term}
    {found : StructuralMatch} (hmem : found ∈ (definition.matchPattern pattern subject).found) :
    found.subst.Of pattern := by
  obtain ⟨last, hreaches, -, rfl⟩ := mem_found_matchPattern_iff.1 hmem
  exact ((Branch.within_start pattern subject).reaches hhygienic hreaches).findings.subst

/-- The same match, found under other names. -/
structure StructuralMatch.Renamed (ρ : Variable → Variable) (pattern : Term)
    (found renamed : StructuralMatch) : Prop where
  constraints : renamed.constraints = found.constraints
  writes : renamed.subst.writes = found.subst.writes
  bindings : renamed.subst.bindings = found.subst.bindings.map fun binding =>
    (ρ binding.1, binding.2)
  bound : ∀ v ∈ pattern.vars, renamed.subst.get? (ρ v) = found.subst.get? v

namespace Prover

/-- What matters of the matches is the obligation that each of them gives. -/
theorem coversBy_congr (prover : Prover σ) {general other state : ConstrainedTerm}
    {founds others : List StructuralMatch}
    (hsame : Forall₂ (fun found found' => obligation other found' = obligation general found)
      founds others) :
    prover.coversBy other state others = prover.coversBy general state founds := by
  induction hsame with
  | nil => rfl
  | cons hfirst _ ih => simp only [coversBy, hfirst, ih]

end Prover

section Names

variable (hρ : Renaming ρ pattern) (hhygienic : pattern.Hygienic)
include hρ hhygienic

theorem renamed_matchPattern (definition : Definition) (subject : Term) :
    Forall₂ (StructuralMatch.Renamed ρ pattern)
      (definition.matchPattern pattern subject).found.toList
      (definition.matchPattern (pattern.rename ρ) subject).found.toList := by
  rw [matchPattern_rename definition hρ hhygienic, PatternMatches.rename, Array.toList_map,
    forall₂_map_right_iff, forall₂_same]
  intro found hmem
  have hfound := hhygienic.of_mem_found (Array.mem_toList_iff.1 hmem)
  exact ⟨rfl, rfl, rfl, fun v hv => hfound.get?_rename hρ hv⟩

theorem obligation_rename {definition : Definition} {subject : Term} {found : StructuralMatch}
    (hmem : found ∈ (definition.matchPattern pattern subject).found) {condition : PathCondition}
    (hcondition : ∀ conjunct ∈ condition.conjuncts, pattern.Over conjunct) :
    Prover.obligation ⟨pattern.rename ρ, condition.rename ρ⟩
        ⟨found.subst.rename ρ, found.constraints⟩ =
      Prover.obligation ⟨pattern, condition⟩ found := by
  have hconjuncts : (condition.conjuncts.map (Term.rename ρ)).map
      (fun conjunct => conjunct.applySubst (found.subst.rename ρ)) =
        condition.conjuncts.map fun conjunct => conjunct.applySubst found.subst := by
    rw [List.map_map]
    refine List.map_congr_left fun conjunct hconjunct => ?_
    have hover := hcondition conjunct hconjunct
    refine (hhygienic.of_mem_found hmem).applySubst_rename hρ hover fun v hv => ?_
    exact Definition.covers_of_mem_found hmem v (hover.vars v hv)
  unfold Prover.obligation PathCondition.applySubst PathCondition.rename
  rw [hconjuncts]

/-- **Hygiene.** Whatever names the variables of a pattern are given, the matches are the same, in the
same order, and what a variable was bound to its new name is bound to; no name of the subject is in
the way. So a state whose condition is about its own variables covers the same states under other
names. -/
theorem matching_ignores_names :
    (∀ (definition : Definition) (subject : Term),
      (definition.matchPattern (pattern.rename ρ) subject).undecided =
          (definition.matchPattern pattern subject).undecided ∧
        (definition.matchPattern (pattern.rename ρ) subject).conflicts =
          (definition.matchPattern pattern subject).conflicts ∧
        Forall₂ (StructuralMatch.Renamed ρ pattern)
          (definition.matchPattern pattern subject).found.toList
          (definition.matchPattern (pattern.rename ρ) subject).found.toList) ∧
      ∀ (σ : Type) (prover : Prover σ) (condition : PathCondition) (state : ConstrainedTerm),
        (∀ conjunct ∈ condition.conjuncts, pattern.Over conjunct) →
          prover.covers ⟨pattern.rename ρ, condition.rename ρ⟩ state =
            prover.covers ⟨pattern, condition⟩ state := by
  constructor
  · intro definition subject
    refine ⟨?_, ?_, renamed_matchPattern hρ hhygienic definition subject⟩
    · rw [matchPattern_rename definition hρ hhygienic, PatternMatches.rename]
    · rw [matchPattern_rename definition hρ hhygienic, PatternMatches.rename]
  · intro σ prover condition state hcondition
    unfold Prover.covers
    apply prover.coversBy_congr
    rw [matchPattern_rename _ hρ hhygienic, PatternMatches.rename, Array.toList_map,
      forall₂_map_right_iff, forall₂_same]
    intro found hmem
    exact obligation_rename hρ hhygienic (Array.mem_toList_iff.1 hmem) hcondition

end Names

namespace Capturing

def value : Variable := ⟨"X", Symbol.int, .plain⟩

def frame : Variable := ⟨"F", Symbol.top, .rest⟩

def unknown : Variable := ⟨"A", Symbol.int, .plain⟩

def other : Variable := ⟨"B", Symbol.int, .plain⟩

/-- The first argument is put off until the second has bound its variable. -/
def general : Term :=
  .app "f" [.app "g" [.var value], .var value, .collection [⟨0, "a", .var value⟩] (some frame)]

def specific : Term :=
  .app "f" [.var unknown, .var other,
    .collection [⟨1, "a", .var unknown⟩, ⟨2, "b", .int 7⟩] none]

/-- The variable of the pattern gets the name of the unknown value that its own pattern meets. -/
def toSubject (v : Variable) : Variable := if v = value then unknown else v

theorem vars_general : general.vars = [value, frame] := by decide +kernel

theorem renaming_toSubject : Renaming toSubject general where
  injective := by
    rw [vars_general]
    decide +kernel
  sort_eq := by
    rw [vars_general]
    decide +kernel
  kind_eq := by
    rw [vars_general]
    decide +kernel

theorem hygienic_general : general.Hygienic := by
  rintro v ⟨cells, hclosed⟩ hvar
  simp only [general, Term.subterms, Term.subtermsAll, Term.subtermsCells, List.cons_append,
    List.nil_append, List.append_nil, List.mem_cons, List.not_mem_nil, or_false, reduceCtorEq,
    false_or, Term.collection.injEq, Option.some.injEq, Term.var.injEq] at hclosed hvar
  obtain ⟨-, rfl⟩ := hclosed
  revert hvar
  decide +kernel

theorem matching_ignores_captured_name :
    Renaming toSubject general ∧ general.Hygienic ∧
      ((Definition.assemble []).matchPattern (general.rename toSubject) specific).found.toList.map
          (fun found => found.constraints.conjuncts) ==
        [[Term.equal (.var other) (.var unknown),
          Term.equal (.var unknown) (.app "g" [.var other])]] ∧
      Forall₂ (StructuralMatch.Renamed toSubject general)
        ((Definition.assemble []).matchPattern general specific).found.toList
        ((Definition.assemble []).matchPattern (general.rename toSubject) specific).found.toList :=
  ⟨renaming_toSubject, hygienic_general, by decide +kernel,
    ((matching_ignores_names renaming_toSubject hygienic_general).1 (.assemble []) specific).2.2⟩

end Capturing

end SymbolicRewriting
