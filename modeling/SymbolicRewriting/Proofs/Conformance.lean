import SymbolicRewriting.Proofs.MatchSteps
import SymbolicRewriting.Proofs.Places

/-!
What the steps of a branch keep. The patterns that are left stay within the grammar of the pattern, the
subjects and what variables are bound to within that of the subject, and a variable is bound to a term
of the kind that its place in the pattern asks for.
-/

namespace SymbolicRewriting

open List

variable {definition : Definition} {patterns : Grammar} {subjects : Variable → Place → Prop}

/-- The kind of term that a variable is bound to in a place of the pattern. -/
def Place.Yields (v : Variable) (term : Term) : Place → Prop
  | alone => True
  | item op => v.isRest = true → ∃ items, term = .sequence op items
  | frame => ∃ cells frame, term = .collection cells frame

/-- A term on its own, or an item that is no rest variable. -/
def Term.Single (grammar : Grammar) (term : Term) : Prop :=
  term.Conforms grammar .alone ∨ term.isRestVar = false ∧ ∃ op, term.Conforms grammar (.item op)

theorem Term.Single.conforms {grammar : Grammar} {term : Term} (hsingle : term.Single grammar)
    (hvar : term.asVar = none) : term.Conforms grammar .alone := by
  rcases hsingle with halone | ⟨-, op, hitem⟩
  · exact halone
  · exact hitem.alone hvar

theorem Term.Single.exists_conforms {grammar : Grammar} {term : Term}
    (hsingle : term.Single grammar) : ∃ place, term.Conforms grammar place := by
  rcases hsingle with halone | ⟨-, op, hitem⟩
  · exact ⟨.alone, halone⟩
  · exact ⟨.item op, hitem⟩

theorem Term.Single.applySubst_eq {grammar : Grammar} {term : Term} (hsingle : term.Single grammar)
    (subst : Substitution) : term.applySubst subst = term.instantiate subst := by
  obtain ⟨place, hconforms⟩ := hsingle.exists_conforms
  exact hconforms.applySubst_eq subst

theorem Term.Single.exists_place {grammar : Grammar} {v : Variable}
    (hsingle : (Term.var v).Single grammar) :
    ∃ place, grammar.occurs v place ∧ ∀ term, place.Yields v term := by
  rcases hsingle with halone | ⟨hrest, op, hitem⟩
  · cases halone with
    | var hoccurs => exact ⟨.alone, hoccurs, fun _ => True.intro⟩
  · cases hitem with
    | var hoccurs =>
        refine ⟨.item op, hoccurs, fun term hrest' => ?_⟩
        exact absurd (hrest'.symm.trans hrest) (by simp)

/-- What is still to be matched is flattened, the patterns by their grammar and the subjects by
theirs. -/
def Obligation.Conforms (patterns : Grammar) (subjects : Variable → Place → Prop) :
    Obligation → Prop
  | term pattern subject => pattern.Single patterns ∧ subject.Single (.over subjects)
  | items op left parts =>
      (Term.sequence op left).Conforms patterns .alone ∧
        (Term.sequence op parts).Conforms (.over subjects) .alone
  | cells left frame free subjectFrame =>
      (Term.collection left frame).Conforms patterns .alone ∧
        (Term.collection free.toList subjectFrame).Conforms (.over subjects) .alone

def Encounter.Conforms (patterns : Grammar) (subjects : Variable → Place → Prop) :
    Encounter → Prop
  | bind v subject =>
      subject.Single (.over subjects) ∧ ∃ place, patterns.occurs v place ∧ place.Yields v subject
  | unknown pattern v => pattern.Single patterns ∧ (Term.var v).Single (.over subjects)
  | clash _ => True

structure Findings.Conforms (patterns : Grammar) (subjects : Variable → Place → Prop)
    (findings : Findings) : Prop where
  bound : ∀ v subject, findings.subst.get? v = some subject →
    subject.Single (.over subjects) ∧ ∃ place, patterns.occurs v place ∧ place.Yields v subject
  deferred : ∀ pattern subject, (pattern, subject) ∈ findings.deferred →
    pattern.Single patterns ∧ ∃ v, subject = .var v ∧ (Term.var v).Single (.over subjects)

theorem perm_of_mem_selections {name : Label} {free others : FreeCells} {chosen : Cell Term}
    (hchoice : (chosen, others) ∈ selections name [] free.toList) :
    free.toList.Perm (chosen :: others.toList) := by
  have hcells : others.before.reverseAux (chosen :: others.after) = free.toList :=
    (of_mem_selections hchoice).2
  rw [← hcells, FreeCells.toList, List.reverseAux_eq, List.reverseAux_eq]
  exact perm_middle

/-- Every cell of the name can be chosen. -/
theorem exists_mem_selections {name : Label} {cell : Cell Term} {cells : List (Cell Term)}
    (hmem : cell ∈ cells) (hname : cell.name = name) (before : List (Cell Term)) :
    ∃ others, (cell, others) ∈ selections name before cells := by
  induction cells generalizing before with
  | nil => cases hmem
  | cons first cells ih =>
      rw [selections]
      rcases List.mem_cons.1 hmem with rfl | hlater
      · rw [if_pos hname]
        exact ⟨_, List.mem_cons_self⟩
      · obtain ⟨others, hothers⟩ := ih hlater (first :: before)
        refine ⟨others, ?_⟩
        split
        · exact List.mem_cons_of_mem _ hothers
        · exact hothers

theorem Term.Conforms.items {grammar : Grammar} {place : Place} {op : Label} {items : List Term}
    (hterm : (Term.sequence op items).Conforms grammar place) :
    ∀ item ∈ items, item.Conforms grammar (.item op) := by
  cases hterm with
  | sequence _ _ hitems => exact hitems

theorem Term.Conforms.sequence_subset {grammar : Grammar} {op : Label} {items others : List Term}
    (hterm : (Term.sequence op items).Conforms grammar .alone) (hsubset : others ⊆ items) :
    (Term.sequence op others).Conforms grammar .alone := by
  cases hterm with
  | sequence hplace hop hitems =>
      exact .sequence hplace hop fun item hmem => hitems item (hsubset hmem)

theorem Term.Conforms.cells {grammar : Grammar} {place : Place} {cells : List (Cell Term)}
    {frame : Option Variable} (hterm : (Term.collection cells frame).Conforms grammar place) :
    ∀ cell ∈ cells, cell.content.Conforms grammar .alone := by
  cases hterm with
  | collection _ _ hcells => exact hcells

theorem Term.Conforms.collection_subset {grammar : Grammar} {cells others : List (Cell Term)}
    {frame : Option Variable} (hterm : (Term.collection cells frame).Conforms grammar .alone)
    (hsubset : others ⊆ cells) : (Term.collection others frame).Conforms grammar .alone := by
  cases hterm with
  | collection hcollection hframe hcells =>
      exact .collection hcollection hframe fun cell hmem => hcells cell (hsubset hmem)

/-- Items are terms on their own, unless they are rest variables. -/
theorem Term.Conforms.single_of_item {grammar : Grammar} {op : Label} {item : Term}
    (hitem : item.Conforms grammar (.item op)) (hrest : item.isRestVar = false) :
    item.Single grammar :=
  .inr ⟨hrest, op, hitem⟩

namespace Obligation

theorem Poses.conforms {obligation : Obligation} {encounter : Encounter}
    (hposes : obligation.Poses encounter) (hconforms : obligation.Conforms patterns subjects) :
    encounter.Conforms patterns subjects := by
  cases hposes with
  | bind v subject =>
      obtain ⟨hpattern, hsubject⟩ := hconforms
      obtain ⟨place, hoccurs, hyields⟩ := hpattern.exists_place
      exact ⟨hsubject, place, hoccurs, hyields subject⟩
  | frame v free subjectFrame =>
      obtain ⟨hpattern, hsubject⟩ := hconforms
      cases hpattern with
      | collection _ hframe _ => exact ⟨.inl hsubject, .frame, hframe v rfl, _, _, rfl⟩
  | unknown _ v => exact hconforms

theorem forall_mem_zipWith_term {property : Obligation → Prop} {args parts : List Term}
    (hproperty : ∀ arg ∈ args, ∀ part ∈ parts, property (.term arg part)) :
    ∀ obligation ∈ zipWith Obligation.term args parts, property obligation := by
  intro obligation hmem
  rw [List.zipWith_eq_zipWith_take_min, ← List.map_uncurry_zip_eq_zipWith] at hmem
  obtain ⟨⟨arg, part⟩, hpair, rfl⟩ := List.mem_map.1 hmem
  obtain ⟨harg, hpart⟩ := List.of_mem_zip hpair
  exact hproperty arg (List.mem_of_mem_take harg) part (List.mem_of_mem_take hpart)

theorem forall₂_of_forall_mem_zipWith {property : Obligation → Prop} {args parts : List Term}
    (hlength : args.length = parts.length)
    (hproperty : ∀ obligation ∈ zipWith Obligation.term args parts, property obligation) :
    Forall₂ (fun arg part => property (.term arg part)) args parts := by
  induction args generalizing parts with
  | nil =>
      obtain rfl : parts = [] := List.length_eq_zero_iff.1 hlength.symm
      exact .nil
  | cons arg args ih =>
      cases parts with
      | nil => cases hlength
      | cons part parts =>
          rw [zipWith_cons_cons, List.forall_mem_cons] at hproperty
          exact .cons hproperty.1 (ih (Nat.succ.inj hlength) hproperty.2)

theorem Opens.conforms {obligation : Obligation} {opened : List Obligation}
    (hopens : obligation.Opens opened) (hconforms : obligation.Conforms patterns subjects) :
    ∀ other ∈ opened, other.Conforms patterns subjects := by
  cases hopens with
  | token _ _ | exhausted _ | closed _ => exact List.forall_mem_nil _
  | app label _ =>
      obtain ⟨hpattern, hsubject⟩ := hconforms
      cases hpattern.conforms rfl with
      | app hargs =>
          cases hsubject.conforms rfl with
          | app hparts =>
              exact forall_mem_zipWith_term fun arg harg part hpart =>
                ⟨.inl (hargs arg harg), .inl (hparts part hpart)⟩
  | sequence op _ hvar =>
      obtain ⟨hpattern, hsubject⟩ := hconforms
      rw [List.forall_mem_singleton]
      exact ⟨hpattern.conforms rfl,
        .sequence_of_items True.intro ((hsubject.conforms hvar).itemsOf hvar)⟩
  | collection _ _ _ _ =>
      obtain ⟨hpattern, hsubject⟩ := hconforms
      rw [List.forall_mem_singleton]
      exact ⟨hpattern.conforms rfl, hsubject.conforms rfl⟩
  | item op _ _ hpattern hitem =>
      obtain ⟨hpatterns, hitems⟩ := hconforms
      rw [List.forall_mem_cons, List.forall_mem_singleton]
      refine ⟨⟨?_, ?_⟩, hpatterns.sequence_subset (List.subset_cons_self _ _),
        hitems.sequence_subset (List.subset_cons_self _ _)⟩
      · exact (hpatterns.items _ List.mem_cons_self).single_of_item hpattern
      · exact (hitems.items _ List.mem_cons_self).single_of_item hitem

end Obligation

namespace Findings

theorem conforms_empty : Findings.Conforms patterns subjects {} where
  bound _ _ hget := by cases hget
  deferred _ _ hmem := (List.not_mem_nil hmem).elim

theorem Conforms.push {findings : Findings} (hconforms : findings.Conforms patterns subjects)
    {v : Variable} {subject : Term} (hget : findings.subst.get? v = none)
    (hsubject : (Encounter.bind v subject).Conforms patterns subjects) :
    Findings.Conforms patterns subjects { findings with subst := findings.subst.push v subject } := by
  refine ⟨fun w part hpart => ?_, hconforms.deferred⟩
  rw [Substitution.get?_push hget] at hpart
  by_cases heq : v = w
  · rw [if_pos heq] at hpart
    cases hpart
    exact heq ▸ hsubject
  · rw [if_neg heq] at hpart
    exact hconforms.bound w part hpart

theorem Met.conforms {findings next : Findings} {encounter : Encounter}
    (hmet : findings.Met definition encounter next)
    (hconforms : findings.Conforms patterns subjects)
    (hencounter : encounter.Conforms patterns subjects) : next.Conforms patterns subjects := by
  cases hmet with
  | bound _ hget => exact hconforms.push hget hencounter
  | repeated _ _ _ => exact hconforms
  | equated _ _ _ | constrained _ => exact ⟨hconforms.bound, hconforms.deferred⟩
  | @deferred pattern v =>
      refine ⟨hconforms.bound, fun other part hmem => ?_⟩
      rcases List.mem_append.1 hmem with hold | hnew
      · exact hconforms.deferred other part hold
      · cases List.mem_singleton.1 hnew
        exact ⟨hencounter.1, v, rfl, hencounter.2⟩

theorem Step.conforms {findings next : Findings} {pending later : List Obligation}
    (hstep : Step definition findings pending next later)
    (hfindings : findings.Conforms patterns subjects)
    (hpending : ∀ obligation ∈ pending, obligation.Conforms patterns subjects) :
    next.Conforms patterns subjects ∧
      ∀ obligation ∈ later, obligation.Conforms patterns subjects := by
  cases hstep with
  | meet hposes hmet =>
      obtain ⟨htop, hpending⟩ := List.forall_mem_cons.1 hpending
      exact ⟨hmet.conforms hfindings (hposes.conforms htop), hpending⟩
  | enter hopens =>
      obtain ⟨htop, hpending⟩ := List.forall_mem_cons.1 hpending
      exact ⟨hfindings, List.forall_mem_append.2 ⟨hopens.conforms htop, hpending⟩⟩
  | boundSegment _ _ _ _ =>
      obtain ⟨⟨hpatterns, hitems⟩, hpending⟩ := List.forall_mem_cons.1 hpending
      refine ⟨hfindings, List.forall_mem_cons.2 ⟨⟨?_, ?_⟩, hpending⟩⟩
      · exact hpatterns.sequence_subset (List.subset_cons_self _ _)
      · exact hitems.sequence_subset (List.drop_subset _ _)
  | @freeSegment op v _ _ count _ hrest hget _ =>
      obtain ⟨⟨hpatterns, hitems⟩, hpending⟩ := List.forall_mem_cons.1 hpending
      have hsegment := hitems.sequence_subset (List.take_subset count _)
      refine ⟨hfindings.push hget ⟨.inl ?_, .item op, ?_, fun _ => ⟨_, Term.flatten_eq op _⟩⟩,
        List.forall_mem_cons.2 ⟨⟨?_, ?_⟩, hpending⟩⟩
      · rwa [Term.Conforms.flatten_eq hsegment.items]
      · cases hpatterns.items _ List.mem_cons_self with
        | var hoccurs => exact hoccurs
      · exact hpatterns.sequence_subset (List.subset_cons_self _ _)
      · exact hitems.sequence_subset (List.drop_subset _ _)
  | @cell pattern chosen _ frame subjectFrame free others _ hchoice =>
      obtain ⟨⟨hpatterns, hcells⟩, hpending⟩ := List.forall_mem_cons.1 hpending
      have hperm := perm_of_mem_selections hchoice
      have hchosen : chosen ∈ free.toList := hperm.mem_iff.2 List.mem_cons_self
      have hothers : others.toList ⊆ free.toList := fun cell hmem =>
        hperm.mem_iff.2 (List.mem_cons_of_mem _ hmem)
      refine ⟨⟨fun v subject hget => ?_, hfindings.deferred⟩,
        List.forall_mem_cons.2 ⟨⟨?_, ?_⟩, List.forall_mem_cons.2 ⟨⟨?_, ?_⟩, hpending⟩⟩⟩
      · rw [recordCell, Substitution.get?_recordCell] at hget
        exact hfindings.bound v subject hget
      · exact .inl (hpatterns.cells pattern List.mem_cons_self)
      · exact .inl (hcells.cells chosen hchosen)
      · exact hpatterns.collection_subset (List.subset_cons_self _ _)
      · exact hcells.collection_subset hothers
  | settle _ _ =>
      exact ⟨⟨hfindings.bound, fun _ _ hmem => (List.not_mem_nil hmem).elim⟩, hpending⟩

end Findings

structure Branch.Conforms (patterns : Grammar) (subjects : Variable → Place → Prop)
    (branch : Branch) : Prop where
  findings : branch.findings.Conforms patterns subjects
  pending : ∀ obligation ∈ branch.pending, obligation.Conforms patterns subjects

theorem Branch.conforms_start {pattern subject : Term} (hpattern : pattern.Single patterns)
    (hsubject : subject.Single (.over subjects)) :
    (Branch.start pattern subject).Conforms patterns subjects :=
  ⟨Findings.conforms_empty, List.forall_mem_singleton.2 ⟨hpattern, hsubject⟩⟩

theorem Branch.Conforms.reaches {branch last : Branch} (hconforms : branch.Conforms patterns subjects)
    (hreaches : branch.Reaches definition last) : last.Conforms patterns subjects := by
  induction hreaches with
  | refl => exact hconforms
  | tail _ hleads ih =>
      obtain ⟨hfindings, hpending⟩ := (step_of_leads hleads).conforms ih.findings ih.pending
      exact ⟨hfindings, hpending⟩

end SymbolicRewriting
