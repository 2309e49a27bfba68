import SymbolicRewriting.Proofs.Conformance
import SymbolicRewriting.Proofs.Singletons

/-!
Soundness of matching. If the equations of a match hold under a substitution, then the pattern and the
subject have the same instance under it, the variables of the pattern being replaced by the instances
of what the match binds them to.
-/

namespace SymbolicRewriting

open List

/-- The given variables stand for frames of collections only, and no other variable does. -/
def Grammar.framed (frames : Variable → Prop) : Grammar :=
  .over fun v place => place = .frame ↔ frames v

/-- Variables that stand for frames stand for nothing else. -/
def Grammar.FramesApart (grammar : Grammar) : Prop :=
  ∀ v place, grammar.occurs v .frame → grammar.occurs v place → place = .frame

theorem Grammar.framesApart_framed (frames : Variable → Prop) : (framed frames).FramesApart :=
  fun _ _ hframe hplace => hplace.2 (hframe.1 rfl)

/-- Each variable is bound to the instance under the second substitution of what the first one binds
it to. -/
def Substitution.andThen (subst θ : Substitution) : Substitution :=
  { subst with bindings := subst.bindings.map fun binding => (binding.1, binding.2.applySubst θ) }

theorem Substitution.get?_andThen (subst θ : Substitution) (v : Variable) :
    (subst.andThen θ).get? v = (subst.get? v).map fun term => term.applySubst θ := by
  unfold get? andThen
  rw [List.find?_map, Option.map_map, Option.map_map]
  rfl

/-- The one substitution binds whatever the other binds, to its instances. -/
def Substitution.Realizes (ρ subst θ : Substitution) : Prop :=
  ∀ v term, subst.get? v = some term → ρ.get? v = some (term.applySubst θ)

theorem Substitution.realizes_andThen (subst θ : Substitution) :
    (subst.andThen θ).Realizes subst θ := by
  intro v term hget
  rw [get?_andThen, hget, Option.map_some]

namespace Term

theorem EqualTo.applySubst {left right : Term} (hequal : left.EqualTo right)
    (subst : Substitution) : (left.applySubst subst).EqualTo (right.applySubst subst) := by
  unfold Term.applySubst
  split
  · exact hequal
  · exact hequal.instantiate subst

theorem applySubst_collection_none (cells : List (Cell Term)) (subst : Substitution) :
    (collection cells none).applySubst subst =
      collection (cells.map (instantiateCell subst)) none := by
  obtain ⟨more, inner, happly⟩ := exists_applySubst_collection none subst
  have hempty := (happly []).symm.trans (applySubst_collection_nil subst)
  rw [collection.injEq, map_nil, nil_append] at hempty
  rw [happly, hempty.1, hempty.2, append_nil]

/-- Instantiating twice is instantiating once, as long as frames are bound to collections. -/
theorem applySubst_instantiate {grammar : Grammar} {place : Place} {term : Term}
    (hterm : term.Conforms grammar place) {subst θ ρ : Substitution} (hcovers : subst.Covers term)
    (hframes : ∀ v bound, grammar.occurs v .frame → subst.get? v = some bound →
      ∃ cells frame, bound = collection cells frame) (hρ : ρ.Realizes subst θ) :
    (term.instantiate subst).applySubst θ = term.instantiate ρ := by
  induction hterm with
  | token sort value => exact applySubst_token sort value θ
  | var _ =>
      obtain ⟨bound, hget⟩ := Option.isSome_iff_exists.1
        (hcovers _ (mem_vars_iff.2 ⟨_, self_mem_subterms _, rfl⟩))
      rw [instantiate_var hget, instantiate_var (hρ _ bound hget)]
  | app _ ih =>
      rw [instantiate, instantiate, instantiateAll_eq_map, instantiateAll_eq_map, applySubst_app,
        map_map]
      exact congrArg _ (map_congr_left fun arg hmem => ih arg hmem (hcovers.child hmem))
  | sequence _ _ _ ih =>
      rw [instantiate, instantiate, instantiateAll_eq_map, instantiateAll_eq_map,
        applySubst_flatten, map_map]
      exact congrArg _ (map_congr_left fun item hmem => ih item hmem (hcovers.child hmem))
  | @collection _ cells frame _ hframe _ ih =>
      have hcells : (cells.map (Cell.instantiate subst)).map (instantiateCell θ) =
          cells.map (Cell.instantiate ρ) := by
        rw [map_map]
        refine map_congr_left fun cell hmem => ?_
        have hcontent := ih cell hmem (hcovers.child (mem_map_of_mem hmem))
        rw [Function.comp_apply, instantiateCell, Cell.instantiate, hcontent, Cell.instantiate]
      cases frame with
      | none =>
          rw [instantiate_collection_none, instantiate_collection_none, applySubst_collection_none,
            hcells]
      | some v =>
          obtain ⟨bound, hget⟩ := Option.isSome_iff_exists.1
            (hcovers v (mem_vars_iff.2 ⟨_, self_mem_subterms _, rfl⟩))
          obtain ⟨others, inner, rfl⟩ := hframes v bound (hframe v rfl) hget
          obtain ⟨more, last, happly⟩ := exists_applySubst_collection inner θ
          have hget' := hρ v _ hget
          rw [happly] at hget'
          rw [instantiate_collection_some hget, instantiate_collection_some hget', happly, map_append,
            hcells, append_assoc]

end Term

open Term

/-- The instances of what is left of the pattern and of the subject agree. Those of terms are equal,
unless neither is a variable: a variable may stand for a sequence. -/
def Obligation.Solved (ρ θ : Substitution) : Obligation → Prop
  | term pattern subject =>
      (pattern.instantiate ρ).EqualTo (subject.instantiate θ) ∨
        pattern.asVar = none ∧ subject.asVar = none ∧
          (pattern.instantiate ρ).Coincides (subject.instantiate θ)
  | items op patterns parts => Forall₂ Coincides (spread op ρ patterns) (spread op θ parts)
  | cells patterns frame free subjectFrame =>
      ((collection patterns frame).instantiate ρ).Coincides
        ((collection free.toList subjectFrame).instantiate θ)

def Encounter.Solved (ρ θ : Substitution) : Encounter → Prop
  | bind v subject => ((var v).instantiate ρ).EqualTo (subject.instantiate θ)
  | unknown pattern v => (pattern.instantiate ρ).EqualTo ((var v).instantiate θ)
  | clash _ => False

namespace Obligation

variable {ρ θ : Substitution}

theorem Solved.coincides {pattern subject : Term} (hsolved : (term pattern subject).Solved ρ θ) :
    (pattern.instantiate ρ).Coincides (subject.instantiate θ) := by
  rcases hsolved with hequal | ⟨-, -, hcoincides⟩
  · exact hequal.coincides
  · exact hcoincides

theorem solved_collection_nil {v : Variable} {subject : Term} {cells : List (Cell Term)}
    {inner : Option Variable} (hsubject : subject = collection cells inner)
    (hequal : ((var v).instantiate ρ).EqualTo subject) :
    ((collection [] (some v)).instantiate ρ).EqualTo subject := by
  cases hget : ρ.get? v with
  | none =>
      rw [Term.instantiate, hget, hsubject] at hequal
      cases hequal.sameForm
  | some bound =>
      rw [instantiate_var hget] at hequal
      subst hsubject
      cases hequal.symm.sameForm with
      | collection _ _ _ =>
          rw [instantiate_collection_some hget]
          exact hequal

theorem Poses.solved {obligation : Obligation} {encounter : Encounter}
    (hposes : obligation.Poses encounter) (hsolved : encounter.Solved ρ θ) :
    obligation.Solved ρ θ := by
  cases hposes with
  | bind _ _ | unknown _ _ => exact .inl hsolved
  | frame v free subjectFrame =>
      obtain ⟨more, inner, hinstance⟩ := exists_instantiate_collection subjectFrame θ
      exact (solved_collection_nil (hinstance free.toList) hsolved).coincides

/-- Items contribute coinciding items if they are solved. -/
theorem Solved.forall₂_itemsOf {patterns subjects : Grammar} {op : Label} {pattern subject : Term}
    (hsolved : (term pattern subject).Solved ρ θ) (hpattern : pattern.Conforms patterns (.item op))
    (hsubject : subject.Conforms subjects (.item op)) :
    Forall₂ Coincides (itemsOf op (pattern.instantiate ρ)) (itemsOf op (subject.instantiate θ)) := by
  rcases hsolved with hequal | ⟨hvar, hvar', hcoincides⟩
  · exact (Term.forall₂_itemsOf op hequal).imp fun _ _ => EqualTo.coincides
  · rw [itemsOf_instantiate_of_asVar hvar hpattern.isSequenceOver_eq_false,
      itemsOf_instantiate_of_asVar hvar' hsubject.isSequenceOver_eq_false]
    exact .cons hcoincides .nil

theorem Opens.solved {patterns : Grammar} {subjects : Variable → Place → Prop}
    {obligation : Obligation} {opened : List Obligation} (hopens : obligation.Opens opened)
    (hconforms : obligation.Conforms patterns subjects)
    (hsolved : ∀ other ∈ opened, other.Solved ρ θ) : obligation.Solved ρ θ := by
  cases hopens with
  | token sort value => exact .inl (beq_refl _)
  | app label hlength =>
      refine .inr ⟨rfl, rfl, ?_⟩
      rw [Term.instantiate, Term.instantiate, instantiateAll_eq_map, instantiateAll_eq_map]
      apply coincides_app
      rw [forall₂_map_left_iff, forall₂_map_right_iff]
      exact (forall₂_of_forall_mem_zipWith hlength hsolved).imp fun _ _ => Solved.coincides
  | @sequence op _ subject hvar =>
      refine .inr ⟨rfl, hvar, ?_⟩
      have hitems := hsolved _ List.mem_cons_self
      rw [Solved, spread_itemsOf] at hitems
      rw [instantiate_sequence]
      exact coincides_of_itemsOf hitems
  | collection _ _ _ _ => exact .inr ⟨rfl, rfl, hsolved _ List.mem_cons_self⟩
  | exhausted op => exact .nil
  | item op _ _ _ _ =>
      obtain ⟨hfirst, hothers⟩ := List.forall_mem_cons.1 hsolved
      obtain ⟨hpatterns, hparts⟩ := hconforms
      have hitem := hfirst.forall₂_itemsOf (hpatterns.items _ List.mem_cons_self)
        (hparts.items _ List.mem_cons_self)
      rw [Solved, spread_cons, spread_cons]
      exact rel_append hitem (hothers _ List.mem_cons_self)
  | @closed free hfree =>
      rw [Solved, hfree]
      exact coincides_refl _

theorem solved_cell {pattern chosen : Cell Term} {patterns : List (Cell Term)}
    {frame subjectFrame : Option Variable} {free others : FreeCells}
    (hchoice : (chosen, others) ∈ selections pattern.name [] free.toList)
    (hcontent : (term pattern.content chosen.content).Solved ρ θ)
    (hothers : (cells patterns frame others subjectFrame).Solved ρ θ) :
    (cells (pattern :: patterns) frame free subjectFrame).Solved ρ θ := by
  obtain ⟨more, inner, hinstance⟩ := exists_instantiate_collection frame ρ
  obtain ⟨more', inner', hinstance'⟩ := exists_instantiate_collection subjectFrame θ
  rw [Solved, hinstance, hinstance'] at hothers ⊢
  have hname : (pattern.instantiate ρ).name = (chosen.instantiate θ).name :=
    (of_mem_selections hchoice).1.symm
  exact hothers.cons_cell hname hcontent.coincides
    (((perm_of_mem_selections hchoice).map (Cell.instantiate θ)).append_right more')

end Obligation

section Sound

variable {definition : Definition} {patterns : Grammar} {subjects : Variable → Place → Prop}
  {ρ θ : Substitution}

/-- Both sides of each equation have equal instances. -/
def PathCondition.HoldsAt (θ : Substitution) (path : PathCondition) : Prop :=
  ∀ left right, .equal left right ∈ path.conjuncts →
    (left.applySubst θ == right.applySubst θ) = true

theorem PathCondition.HoldsAt.equalTo {path : PathCondition} (hholds : path.HoldsAt θ)
    {left right : Term} (hcontains : path.contains (.equal left right) = true) :
    (left.applySubst θ).EqualTo (right.applySubst θ) := by
  obtain ⟨conjunct, hmem, hsame⟩ := List.any_eq_true.1 hcontains
  have hform : conjunct.SameForm (.equal left right) := EqualTo.sameForm hsame
  cases hform with
  | app _ hargs =>
      obtain ⟨left', others, hleft, hothers, rfl⟩ := forall₂_cons_right_iff.1 hargs
      obtain ⟨right', rest, hright, hrest, rfl⟩ := forall₂_cons_right_iff.1 hothers
      cases hrest
      have hequal : (left'.applySubst θ).EqualTo (right'.applySubst θ) := hholds left' right' hmem
      exact (hleft.applySubst θ).symm.trans (hequal.trans (hright.applySubst θ))

namespace Findings

/-- A pattern that became an equation is equal to the unknown value that it had met. -/
theorem Conforms.equalTo_of_equation {findings : Findings}
    (hfindings : findings.Conforms patterns subjects) (hframes : patterns.FramesApart)
    {pattern : Term} (hpattern : pattern.Single patterns) (hcovers : findings.subst.Covers pattern)
    (hρ : ρ.Realizes findings.subst θ) {path : PathCondition} (hholds : path.HoldsAt θ) {v : Variable}
    (hv : (Term.var v).Single (.over subjects))
    (hcontains : path.contains (.equal (.var v) (pattern.applySubst findings.subst)) = true) :
    (pattern.instantiate ρ).EqualTo ((Term.var v).instantiate θ) := by
  have hcollections : ∀ w bound, patterns.occurs w .frame → findings.subst.get? w = some bound →
      ∃ cells frame, bound = .collection cells frame := by
    intro w bound hoccurs hget
    obtain ⟨-, place, hplace, hyields⟩ := hfindings.bound w bound hget
    obtain rfl : place = .frame := hframes w place hoccurs hplace
    exact hyields
  obtain ⟨place, hconforms⟩ := hpattern.exists_conforms
  have hequal := hholds.equalTo hcontains
  rw [hconforms.applySubst_eq, applySubst_instantiate hconforms hcovers hcollections hρ,
    hv.applySubst_eq] at hequal
  exact hequal.symm

/-- A variable that met a part of the subject stands for its instance. -/
theorem Met.equalTo_of_bind {findings next last : Findings} {v : Variable} {subject : Term}
    (hmet : findings.Met definition (.bind v subject) next)
    (hfindings : findings.Conforms patterns subjects) (hsubject : subject.Single (.over subjects))
    (hgrows : next.Grows last) (hρ : ρ.Realizes last.subst θ)
    (hholds : last.constraints.HoldsAt θ) :
    ((var v).instantiate ρ).EqualTo (subject.instantiate θ) := by
  cases hmet with
  | bound hadmits hget =>
      have hnext : (findings.subst.push v subject).get? v = some subject := by
        rw [Substitution.get?_push hget, if_pos rfl]
      rw [instantiate_var (hρ v subject (hgrows.subst v subject hnext)), hsubject.applySubst_eq]
      exact beq_refl _
  | @repeated _ _ existing hadmits hget hequal =>
      rw [instantiate_var (hρ v existing (hgrows.subst v existing hget)),
        (hfindings.bound v existing hget).1.applySubst_eq]
      exact hequal.instantiate θ
  | @equated _ _ existing hadmits hget hground =>
      have hequal := hholds.equalTo (hgrows.constraints _ (PathCondition.contains_assume _ _))
      rw [instantiate_var (hρ v existing (hgrows.subst v existing hget)), ← hsubject.applySubst_eq]
      exact hequal

theorem Met.solved {findings next last : Findings} {encounter : Encounter}
    (hmet : findings.Met definition encounter next) (hframes : patterns.FramesApart)
    (hfindings : findings.Conforms patterns subjects)
    (hencounter : encounter.Conforms patterns subjects) (hgrows : next.Grows last)
    (hρ : ρ.Realizes last.subst θ) (hholds : last.constraints.HoldsAt θ)
    (hdeferred : ∀ pattern subject, (pattern, subject) ∈ next.deferred →
      (pattern.instantiate ρ).EqualTo (subject.instantiate θ)) : encounter.Solved ρ θ := by
  cases encounter with
  | bind v subject => exact hmet.equalTo_of_bind hfindings hencounter.1 hgrows hρ hholds
  | unknown pattern v =>
      cases hmet with
      | constrained hcovers =>
          have hbindings : ρ.Realizes findings.subst θ := fun w part hget =>
            hρ w part (hgrows.subst w part hget)
          exact hfindings.equalTo_of_equation hframes hencounter.1 hcovers hbindings hholds
            hencounter.2 (hgrows.constraints _ (PathCondition.contains_assume _ _))
      | deferred => exact hdeferred _ _ (List.mem_append_right _ (List.mem_singleton.2 rfl))
  | clash _ => cases hmet

/-- Whatever is solved after a step was solved before it. -/
theorem Step.solved {findings next last : Findings} {pending later : List Obligation}
    (hstep : Step definition findings pending next later) (hframes : patterns.FramesApart)
    (hfindings : findings.Conforms patterns subjects)
    (hpending : ∀ obligation ∈ pending, obligation.Conforms patterns subjects)
    (hgrows : next.Grows last) (hρ : ρ.Realizes last.subst θ) (hholds : last.constraints.HoldsAt θ)
    (hsolved : ∀ obligation ∈ later, obligation.Solved ρ θ)
    (hdeferred : ∀ pattern subject, (pattern, subject) ∈ next.deferred →
      (pattern.instantiate ρ).EqualTo (subject.instantiate θ)) :
    (∀ obligation ∈ pending, obligation.Solved ρ θ) ∧
      ∀ pattern subject, (pattern, subject) ∈ findings.deferred →
        (pattern.instantiate ρ).EqualTo (subject.instantiate θ) := by
  cases hstep with
  | meet hposes hmet =>
      have htop := hposes.conforms (List.forall_mem_cons.1 hpending).1
      have hencounter := hmet.solved hframes hfindings htop hgrows hρ hholds hdeferred
      exact ⟨List.forall_mem_cons.2 ⟨hposes.solved hencounter, hsolved⟩,
        fun pattern subject hmem => hdeferred pattern subject (hmet.deferred_subset hmem)⟩
  | enter hopens =>
      have htop := (List.forall_mem_cons.1 hpending).1
      obtain ⟨hopened, hothers⟩ := List.forall_mem_append.1 hsolved
      exact ⟨List.forall_mem_cons.2 ⟨hopens.solved htop hopened, hothers⟩, hdeferred⟩
  | @boundSegment op v bound _ parts _ hrest hget hlength hequal =>
      obtain ⟨hitems, hothers⟩ := List.forall_mem_cons.1 hsolved
      refine ⟨List.forall_mem_cons.2 ⟨?_, hothers⟩, hdeferred⟩
      have hinstance : (var v).instantiate ρ = bound.instantiate θ := by
        rw [instantiate_var (hρ v bound (hgrows.subst v bound hget))]
        exact (hfindings.bound v bound hget).1.applySubst_eq θ
      have hsegment := forall₂_spread op θ (list_beq_iff.1 hequal)
      rw [spread_itemsOf, ← hinstance] at hsegment
      rw [Obligation.Solved, spread_cons,
        ← spread_take_append_drop op θ (bound.itemsOf op).length parts]
      exact rel_append ((forall₂_equalTo_symm hsegment).imp fun _ _ => EqualTo.coincides) hitems
  | @freeSegment op v _ parts count _ hrest hget hfits =>
      obtain ⟨hitems, hothers⟩ := List.forall_mem_cons.1 hsolved
      refine ⟨List.forall_mem_cons.2 ⟨?_, hothers⟩, hdeferred⟩
      have hparts := (List.forall_mem_cons.1 hpending).1.2.items
      have hsegment : ∀ item ∈ parts.take count,
          item.Conforms (.over subjects) (.item op) :=
        fun item hmem => hparts item (List.mem_of_mem_take hmem)
      have hnext : (findings.bindSegment op v (parts.take count)).subst.get? v =
          some (.sequence op (parts.take count)) := by
        rw [bindSegment, Substitution.get?_push hget, if_pos rfl, Conforms.flatten_eq hsegment]
      have hinstance : (var v).instantiate ρ = .sequence op (spread op θ (parts.take count)) := by
        rw [instantiate_var (hρ v _ (hgrows.subst v _ hnext)),
          (Conforms.sequence_of_items True.intro hsegment).applySubst_eq, instantiate_sequence]
      rw [Obligation.Solved, spread_cons, hinstance, itemsOf, if_pos rfl,
        ← spread_take_append_drop op θ count parts]
      exact rel_append (forall₂_same.2 fun item _ => coincides_refl item) hitems
  | cell hchoice =>
      obtain ⟨hcontent, hothers⟩ := List.forall_mem_cons.1 hsolved
      obtain ⟨hcells, hothers⟩ := List.forall_mem_cons.1 hothers
      exact ⟨List.forall_mem_cons.2 ⟨Obligation.solved_cell hchoice hcontent hcells, hothers⟩,
        hdeferred⟩
  | settle _ hsettle =>
      refine ⟨hsolved, fun pattern subject hmem => ?_⟩
      obtain ⟨hcovers, hcontains⟩ := (Substitution.contains_of_settle hsettle).2 pattern _ hmem
      obtain ⟨hpattern, v, rfl, hsubject⟩ := hfindings.deferred pattern subject hmem
      have hbindings : ρ.Realizes findings.subst θ := fun w part hget =>
        hρ w part (hgrows.subst w part hget)
      exact hfindings.equalTo_of_equation hframes hpattern hcovers hbindings hholds hsubject
        (hgrows.constraints _ hcontains)

end Findings

namespace Branch

/-- All obligations of a branch are solved by what it comes to find, if the equations hold. -/
theorem solved_of_reaches {branch last : Branch} (hreaches : branch.Reaches definition last)
    (hframes : patterns.FramesApart) (hconforms : branch.Conforms patterns subjects)
    (haccepted : last.advance definition = .accepted) (hρ : ρ.Realizes last.subst θ)
    (hholds : last.constraints.HoldsAt θ) :
    (∀ obligation ∈ branch.pending, obligation.Solved ρ θ) ∧
      ∀ pattern subject, (pattern, subject) ∈ branch.deferred →
        (pattern.instantiate ρ).EqualTo (subject.instantiate θ) := by
  induction hreaches using Relation.ReflTransGen.head_induction_on with
  | refl =>
      obtain ⟨hpending, hdeferred⟩ := ended_of_accepted haccepted
      rw [hpending, hdeferred]
      exact ⟨List.forall_mem_nil _, fun _ _ hmem => (List.not_mem_nil hmem).elim⟩
  | head hleads hreaches ih =>
      obtain ⟨hsolved, hdeferred⟩ := ih (hconforms.reaches (.single hleads))
      exact (step_of_leads hleads).solved hframes hconforms.findings hconforms.pending
        (grows_of_reaches hreaches) hρ hholds hsolved hdeferred

end Branch

end Sound

/-- If the equations of a match hold under a substitution, then the pattern, under what the match binds
its variables to, and the subject have the same instance, up to sequences of one item. -/
theorem Definition.matchPattern_sound (definition : Definition) {frames : Variable → Prop}
    {pattern subject : Term} (hpattern : pattern.Conforms (.framed frames) .alone)
    (hsubject : subject.Flattened) {found : StructuralMatch}
    (hfound : found ∈ (definition.matchPattern pattern subject).found) {θ : Substitution}
    (hholds : found.constraints.HoldsAt θ) :
    (pattern.applySubst (found.subst.andThen θ)).Coincides (subject.applySubst θ) := by
  obtain ⟨last, hreaches, haccepted, rfl⟩ := mem_found_matchPattern_iff.1 hfound
  have hconforms : (Branch.start pattern subject).Conforms (.framed frames) fun _ _ => True :=
    Branch.conforms_start (.inl hpattern) (.inl hsubject)
  obtain ⟨hsolved, -⟩ := Branch.solved_of_reaches hreaches (Grammar.framesApart_framed frames) hconforms
    haccepted (last.subst.realizes_andThen θ) hholds
  rw [hpattern.applySubst_eq, hsubject.applySubst_eq]
  exact (hsolved _ List.mem_cons_self).coincides

namespace Repeating

def first : Variable := ⟨"X", Symbol.top, .plain⟩

def others : Variable := ⟨"R", Symbol.top, .rest⟩

def unknown : Variable := ⟨"Y", Symbol.top, .plain⟩

/-- The first item of a sequence is asked for again. -/
def pattern : Term :=
  .app "f" [.sequence Symbol.sequencing [.var first, .var others], .var first]

def subject : Term :=
  .app "f" [.sequence Symbol.sequencing [.int 1, .int 2, .int 3], .var unknown]

def unknownIsOne : Substitution := { bindings := [(unknown, .int 1)] }

theorem conforms_pattern : pattern.Conforms (.framed fun _ => False) .alone := by
  simp [pattern, Grammar.framed]

theorem flattened_subject : subject.Flattened := by
  simp [subject, Flattened, int]

theorem exists_found :
    ∃ found ∈ ((Definition.assemble []).matchPattern pattern subject).found,
      found.constraints.isTrivial = false ∧ found.constraints.HoldsAt unknownIsOne := by
  have htest : ((Definition.assemble []).matchPattern pattern subject).found.toList.any
      (fun found => !found.constraints.isTrivial && found.constraints.conjuncts.all
        (· == .equal (.int 1) (.var unknown))) = true := by
    decide +kernel
  obtain ⟨found, hmem, hconstraints⟩ := List.any_eq_true.1 htest
  rw [Bool.and_eq_true, Bool.not_eq_true', List.all_eq_true] at hconstraints
  refine ⟨found, Array.mem_toList_iff.1 hmem, hconstraints.1, fun left right hequation => ?_⟩
  obtain ⟨-, hsides⟩ := forall₂_of_equal_app (hconstraints.2 _ hequation)
  obtain ⟨hleft, hright⟩ := forall₂_cons.1 hsides
  have hright' := (forall₂_cons.1 hright).1.applySubst unknownIsOne
  exact (hleft.applySubst unknownIsOne).trans hright'.symm

theorem matchPattern_sound_repeating :
    ∃ found ∈ ((Definition.assemble []).matchPattern pattern subject).found,
      found.constraints.isTrivial = false ∧ found.constraints.HoldsAt unknownIsOne ∧
        (pattern.applySubst (found.subst.andThen unknownIsOne)).Coincides
          (subject.applySubst unknownIsOne) := by
  obtain ⟨found, hfound, htrivial, hholds⟩ := exists_found
  exact ⟨found, hfound, htrivial, hholds, Definition.matchPattern_sound (.assemble [])
    conforms_pattern flattened_subject hfound hholds⟩

end Repeating

end SymbolicRewriting
