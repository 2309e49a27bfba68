import SymbolicRewriting.Proofs.EqualSubjects

/-!
Matching equal subjects. A pattern finds the same matches in them, up to equality of what the
variables are bound to; only a choice among the cells of a collection brings them in another order.
-/

namespace SymbolicRewriting

open List

/-! Without collections in the pattern nothing is rearranged. -/

def Term.isCollection (term : Term) : Bool :=
  match term with
  | collection _ _ => true
  | _ => false

def Term.CollectionFree (term : Term) : Prop :=
  ∀ part ∈ term.subterms, part.isCollection = false

instance (term : Term) : Decidable term.CollectionFree :=
  inferInstanceAs (Decidable (∀ part ∈ term.subterms, part.isCollection = false))

theorem Term.CollectionFree.child {term child : Term} (hfree : term.CollectionFree)
    (hchild : child ∈ term.children) : child.CollectionFree :=
  fun part hpart => hfree part (Term.subterms_subset_of_mem_children hchild hpart)

/-- No pattern that is left contains a collection. -/
def Obligation.CollectionFree : Obligation → Prop
  | term pattern _ => pattern.CollectionFree
  | items _ patterns _ => ∀ pattern ∈ patterns, pattern.CollectionFree
  | cells _ _ _ _ => False

def Branch.CollectionFree (branch : Branch) : Prop :=
  ∀ obligation ∈ branch.pending, obligation.CollectionFree

section CollectionFree

variable {definition : Definition}

theorem Obligation.Opens.collectionFree {obligation : Obligation} {opened : List Obligation}
    (hopens : obligation.Opens opened) (hfree : obligation.CollectionFree) :
    ∀ next ∈ opened, next.CollectionFree := by
  cases hopens with
  | token _ _ | exhausted _ => exact List.forall_mem_nil _
  | @app label args subjects hlength =>
      exact forall_mem_zipWith_term fun arg harg part _ => hfree.child harg
  | sequence op patterns _ =>
      exact List.forall_mem_singleton.2 fun pattern hmem => hfree.child hmem
  | collection patterns frame _ _ => cases hfree _ (Term.self_mem_subterms _)
  | item op patterns items _ _ =>
      obtain ⟨hfirst, hothers⟩ := List.forall_mem_cons.1 hfree
      exact List.forall_mem_cons.2 ⟨hfirst, List.forall_mem_singleton.2 hothers⟩
  | closed _ => exact hfree.elim

theorem Findings.Step.collectionFree {findings next : Findings} {pending later : List Obligation}
    (hstep : Step definition findings pending next later)
    (hfree : ∀ obligation ∈ pending, obligation.CollectionFree) :
    ∀ obligation ∈ later, obligation.CollectionFree := by
  cases hstep with
  | meet _ _ => exact (List.forall_mem_cons.1 hfree).2
  | enter hopens =>
      obtain ⟨hfirst, hothers⟩ := List.forall_mem_cons.1 hfree
      exact List.forall_mem_append.2 ⟨hopens.collectionFree hfirst, hothers⟩
  | boundSegment _ _ _ _ | freeSegment _ _ _ =>
      obtain ⟨hfirst, hothers⟩ := List.forall_mem_cons.1 hfree
      exact List.forall_mem_cons.2 ⟨(List.forall_mem_cons.1 hfirst).2, hothers⟩
  | cell _ => exact (hfree _ List.mem_cons_self).elim
  | settle _ _ => exact hfree

theorem Branch.CollectionFree.leads {branch next : Branch} (hfree : branch.CollectionFree)
    (hleads : branch.Leads definition next) : next.CollectionFree :=
  (Branch.step_of_leads hleads).collectionFree hfree

theorem Branch.EqualTo.advance_of_collectionFree {branch other : Branch}
    (hequal : branch.EqualTo other) (hfree : branch.CollectionFree) :
    (branch.advance definition).EqualTo (other.advance definition) := by
  unfold Branch.advance
  unfold Branch.CollectionFree at hfree
  have hpending := hequal.pending
  generalize hcase : branch.pending = pending at hpending hfree ⊢
  generalize hcase' : other.pending = pending' at hpending ⊢
  cases hpending with
  | nil => exact hequal.finish
  | @cons obligation obligation' pending pending' hfirst hothers =>
      have hrest : Branch.EqualTo { branch with pending } { other with pending := pending' } :=
        { hequal with pending := hothers }
      cases hfirst with
      | term pattern hsubject => exact hrest.advanceTerm definition pattern hsubject
      | items op patterns hitems => exact hrest.advanceItems op patterns hitems
      | cells _ _ _ _ => exact (hfree _ List.mem_cons_self).elim

end CollectionFree

/-! The matches that are found from a branch on, in their order. -/

def StructuralMatch.EqualTo (found other : StructuralMatch) : Prop :=
  found.subst.EqualTo other.subst ∧ found.constraints.EqualTo other.constraints

def Branch.found (definition : Definition) (branch : Branch) : List StructuralMatch :=
  (explore definition [branch] {}).found.toList

section Found

variable {definition : Definition}

theorem explore_append (branches later : List Branch) (results : PatternMatches) :
    explore definition (branches ++ later) results =
      explore definition later (explore definition branches results) := by
  fun_induction explore definition branches results with
  | case1 results => rfl
  | case2 results branch branches hadvance ih =>
      rw [List.cons_append, explore_of_accepted _ _ hadvance, ih]
  | case3 results branch branches hadvance ih =>
      rw [List.cons_append, explore_of_failed _ _ hadvance, ih]
  | case4 results branch branches hadvance ih =>
      rw [List.cons_append, explore_of_conflicting _ _ hadvance, ih]
  | case5 results branch branches hadvance ih =>
      rw [List.cons_append, explore_of_undecided _ _ hadvance, ih]
  | case6 results branch branches next hadvance ih =>
      rw [List.cons_append, explore_of_branches _ _ hadvance, ← List.append_assoc, ih]

/-- What is found in addition does not depend on what was found before. -/
theorem exists_found_explore (branches : List Branch) : ∃ more, ∀ results : PatternMatches,
    (explore definition branches results).found.toList = results.found.toList ++ more := by
  fun_induction explore definition branches {} with
  | case1 => exact ⟨[], fun results => by simp [explore]⟩
  | case2 _ branch later hadvance ih =>
      obtain ⟨more, hmore⟩ := ih
      refine ⟨branch.result :: more, fun results => ?_⟩
      rw [explore_of_accepted _ _ hadvance, hmore]
      simp [PatternMatches.accept, Branch.result]
  | case3 _ branch later hadvance ih =>
      obtain ⟨more, hmore⟩ := ih
      exact ⟨more, fun results => by rw [explore_of_failed _ _ hadvance, hmore]⟩
  | case4 _ branch later hadvance ih =>
      obtain ⟨more, hmore⟩ := ih
      exact ⟨more, fun results => by
        rw [explore_of_conflicting _ _ hadvance, hmore, PatternMatches.countConflict]⟩
  | case5 _ branch later hadvance ih =>
      obtain ⟨more, hmore⟩ := ih
      exact ⟨more, fun results => by
        rw [explore_of_undecided _ _ hadvance, hmore, PatternMatches.countUndecided]⟩
  | case6 _ branch later next hadvance ih =>
      obtain ⟨more, hmore⟩ := ih
      exact ⟨more, fun results => by rw [explore_of_branches _ _ hadvance, hmore]⟩

/-- The branches are explored one after another. -/
theorem found_explore (branches : List Branch) (results : PatternMatches) :
    (explore definition branches results).found.toList =
      results.found.toList ++ branches.flatMap (Branch.found definition) := by
  induction branches generalizing results with
  | nil => simp [explore]
  | cons branch later ih =>
      obtain ⟨more, hmore⟩ : ∃ more, ∀ results,
          (explore definition [branch] results).found.toList = results.found.toList ++ more :=
        exists_found_explore [branch]
      have hfound : Branch.found definition branch = more := hmore {}
      rw [← List.singleton_append, explore_append, ih, hmore, ← hfound, List.flatMap_append,
        List.flatMap_singleton, List.append_assoc]

namespace Branch

theorem found_of_accepted {branch : Branch} (hadvance : branch.advance definition = .accepted) :
    branch.found definition = [branch.result] := by
  unfold found
  rw [explore_of_accepted _ _ hadvance, explore]
  rfl

theorem found_of_branches {branch : Branch} {next : List Branch}
    (hadvance : branch.advance definition = .branches next) :
    branch.found definition = next.flatMap (Branch.found definition) := by
  unfold found
  rw [explore_of_branches _ _ hadvance, List.append_nil, found_explore]
  rfl

theorem found_of_ended {branch : Branch} (haccepted : branch.advance definition ≠ .accepted)
    (hended : ∀ next, branch.advance definition ≠ .branches next) : branch.found definition = [] := by
  unfold found
  cases hadvance : branch.advance definition with
  | accepted => exact absurd hadvance haccepted
  | branches next => exact absurd hadvance (hended next)
  | failed => rw [explore_of_failed _ _ hadvance, explore]
  | conflicting => rw [explore_of_conflicting _ _ hadvance, explore]; rfl
  | undecided => rw [explore_of_undecided _ _ hadvance, explore]; rfl

theorem EqualTo.result {branch other : Branch} (hequal : branch.EqualTo other) :
    branch.result.EqualTo other.result :=
  ⟨hequal.subst, hequal.constraints⟩

/-- Whatever way of comparing lists the alternatives of equal branches stand in and flattening keeps
is one that the matches stand in. -/
theorem EqualTo.found (keeps : Branch → Prop) {arranged : List Branch → List Branch → Prop}
    (gathered : List StructuralMatch → List StructuralMatch → Prop)
    (hleads : ∀ branch next : Branch, keeps branch → branch.Leads definition next → keeps next)
    (hadvance : ∀ branch other : Branch, branch.EqualTo other → keeps branch →
      (branch.advance definition).Follows arranged (other.advance definition))
    (hnone : gathered [] [])
    (hone : ∀ found found' : StructuralMatch, found.EqualTo found' → gathered [found] [found'])
    (hall : ∀ next next' : List Branch, arranged next next' →
      (∀ branch ∈ next, ∀ other ∈ next', branch.EqualTo other →
        gathered (branch.found definition) (other.found definition)) →
      gathered (next.flatMap (Branch.found definition)) (next'.flatMap (Branch.found definition)))
    {branch other : Branch} (hequal : branch.EqualTo other) (hkeeps : keeps branch) :
    gathered (branch.found definition) (other.found definition) := by
  induction hweight : branch.weight using Nat.strongRecOn generalizing branch other with
  | ind weight ih =>
      subst hweight
      have hfollows := hadvance branch other hequal hkeeps
      generalize hcase : branch.advance definition = progress at hfollows
      generalize hcase' : other.advance definition = progress' at hfollows
      cases hfollows with
      | accepted =>
          rw [found_of_accepted hcase, found_of_accepted hcase']
          exact hone _ _ hequal.result
      | failed | conflicting | undecided =>
          rw [found_of_ended (by simp [hcase]) (by simp [hcase]),
            found_of_ended (by simp [hcase']) (by simp [hcase'])]
          exact hnone
      | branches harranged =>
          rw [found_of_branches hcase, found_of_branches hcase']
          refine hall _ _ harranged fun next hnext next' _ hsame => ?_
          exact ih next.weight (weight_lt_of_advance hcase hnext) hsame
            (hleads branch next hkeeps ⟨_, hcase, hnext⟩) rfl

theorem EqualTo.rel_found {branch other : Branch} (hequal : branch.EqualTo other) :
    Multiset.Rel StructuralMatch.EqualTo ↑(branch.found definition) ↑(other.found definition) :=
  hequal.found (fun _ => True)
    (fun founds founds' => Multiset.Rel StructuralMatch.EqualTo ↑founds ↑founds')
    (fun _ _ _ _ => True.intro) (fun _ _ hequal _ => hequal.advance definition) .zero
    (fun _ _ hfound => .cons hfound .zero) (fun _ _ hnext hfounds => rel_coe_flatMap hnext hfounds)
    True.intro

theorem EqualTo.forall₂_found {branch other : Branch} (hequal : branch.EqualTo other)
    (hfree : branch.CollectionFree) :
    Forall₂ StructuralMatch.EqualTo (branch.found definition) (other.found definition) := by
  refine hequal.found CollectionFree (Forall₂ StructuralMatch.EqualTo)
    (fun _ _ hfree hleads => hfree.leads hleads)
    (fun _ _ hequal hfree => hequal.advance_of_collectionFree hfree) .nil
    (fun _ _ hfound => .cons hfound .nil) (fun next next' hnext hfounds => ?_) hfree
  clear hequal hfree
  induction hnext with
  | nil => exact .nil
  | cons hfirst _ ih =>
      rw [flatMap_cons, flatMap_cons]
      refine rel_append (hfounds _ mem_cons_self _ mem_cons_self hfirst) (ih ?_)
      exact fun branch hmem other hmem' =>
        hfounds branch (mem_cons_of_mem _ hmem) other (mem_cons_of_mem _ hmem')

end Branch

end Found

namespace Definition

variable {definition : Definition} {pattern subject subject' : Term}

theorem concreteMatches_eq (definition : Definition) (pattern subject : Term) :
    definition.concreteMatches pattern subject =
      (((Branch.start pattern subject).found definition).filter fun found =>
        found.constraints.isTrivial).map StructuralMatch.subst :=
  rfl

theorem equalTo_start (pattern : Term) (hsubject : subject.EqualTo subject') :
    (Branch.start pattern subject).EqualTo (Branch.start pattern subject') where
  subst := .nil
  pending := .cons (.term pattern hsubject) .nil
  deferred := .nil
  constraints := .nil

theorem forall₂_concrete {founds founds' : List StructuralMatch}
    (hfounds : Forall₂ StructuralMatch.EqualTo founds founds') :
    Forall₂ Substitution.EqualTo
      ((founds.filter fun found => found.constraints.isTrivial).map StructuralMatch.subst)
      ((founds'.filter fun found => found.constraints.isTrivial).map StructuralMatch.subst) := by
  have htrivial : ∀ found found' : StructuralMatch, found.EqualTo found' →
      (found.constraints.isTrivial = true ↔ found'.constraints.isTrivial = true) := by
    intro found found' hfound
    rw [hfound.2.isTrivial_eq]
  have hfilter := rel_filter (fun found found' hfound => htrivial found found' hfound) hfounds
  exact forall₂_map_left_iff.2 (forall₂_map_right_iff.2 (hfilter.imp fun _ _ hfound => hfound.1))

/-- Equal subjects have the same concrete matches, in some order. -/
theorem rel_concreteMatches (pattern : Term) (hsubject : subject.EqualTo subject') :
    Multiset.Rel Substitution.EqualTo ↑(definition.concreteMatches pattern subject)
      ↑(definition.concreteMatches pattern subject') := by
  rw [concreteMatches_eq, concreteMatches_eq, rel_coe_iff]
  obtain ⟨paired, hperm, hpaired⟩ := rel_coe_iff.1 (equalTo_start pattern hsubject).rel_found
  exact ⟨_, (hperm.filter _).map _, forall₂_concrete hpaired⟩

/-- Without collections in the pattern, the matches come in the same order. -/
theorem forall₂_concreteMatches (hpattern : pattern.CollectionFree)
    (hsubject : subject.EqualTo subject') :
    Forall₂ Substitution.EqualTo (definition.concreteMatches pattern subject)
      (definition.concreteMatches pattern subject') := by
  have hfree : (Branch.start pattern subject).CollectionFree := List.forall_mem_singleton.2 hpattern
  rw [concreteMatches_eq, concreteMatches_eq]
  exact forall₂_concrete ((equalTo_start pattern hsubject).forall₂_found hfree)

end Definition

end SymbolicRewriting
