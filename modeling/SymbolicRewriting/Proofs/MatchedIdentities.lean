import SymbolicRewriting.Proofs.CellIdentities

/-!
What a match takes from its subject. No cell of the subject is bound twice, and none that is bound is
to be overwritten as well, so a term that uses each variable and each cell of a pattern once takes each
identity of the subject at most once.
-/

namespace SymbolicRewriting

open List

namespace Substitution

variable (subst : Substitution)

/-- The identities in the terms that are bound, and those of the cells to be overwritten. -/
def identities : Multiset CellId :=
  (subst.bindings.map fun binding => binding.2.identities).sum + ↑subst.targets

theorem identities_push (v : Variable) (term : Term) :
    (subst.push v term).identities = subst.identities + term.identities := by
  unfold identities
  rw [push, map_append, sum_append, map_singleton, sum_singleton, add_right_comm]
  rfl

theorem identities_recordCell_le (pattern target : CellId) :
    (subst.recordCell pattern target).identities ≤ subst.identities + {target} := by
  unfold recordCell
  split
  · exact Multiset.le_add_right _ _
  · unfold identities targets
    rw [map_append, ← Multiset.coe_add, ← add_assoc]
    rfl

/-! What is put in the places of a variable or of a cell. -/

def boundIdentities (v : Variable) : Multiset CellId := (subst.get? v).elim 0 Term.identities

def targetIdentities (id : CellId) : Multiset CellId :=
  (subst.targetOf id).elim 0 fun target => {target}

/-- What an instance of the term takes from the match. -/
def supply (term : Term) : Multiset CellId :=
  (term.varOccurrences.map subst.boundIdentities).sum +
    (term.cellIds.map subst.targetIdentities).sum

theorem supply_eq (term : Term) : subst.supply term =
    term.rootVariable.elim 0 subst.boundIdentities +
      (term.cellsAtRoot.map fun cell => subst.targetIdentities cell.id).sum +
      (term.children.map subst.supply).sum := by
  have hroot : (term.rootVariable.toList.map subst.boundIdentities).sum =
      term.rootVariable.elim 0 subst.boundIdentities := by
    cases term.rootVariable with
    | none => rfl
    | some v => exact sum_singleton
  unfold supply
  rw [Term.varOccurrences_eq, Term.cellIds_eq, map_append, map_append, sum_append, sum_append, hroot,
    sum_map_flatMap, sum_map_flatMap, sum_map_add, map_map, add_add_add_comm]
  rfl

theorem supply_var (v : Variable) : subst.supply (.var v) = subst.boundIdentities v :=
  (subst.supply_eq _).trans ((add_zero _).trans (add_zero _))

theorem supply_app (label : Label) (args : List Term) :
    subst.supply (.app label args) = (args.map subst.supply).sum :=
  (subst.supply_eq _).trans (zero_add _)

theorem supply_sequence (op : Label) (items : List Term) :
    subst.supply (.sequence op items) = (items.map subst.supply).sum :=
  (subst.supply_eq _).trans (zero_add _)

theorem supply_collection (cells : List (Cell Term)) (frame : Option Variable) :
    subst.supply (.collection cells frame) =
      (cells.map fun cell => subst.targetIdentities cell.id + subst.supply cell.content).sum +
        frame.elim 0 subst.boundIdentities := by
  rw [supply_eq, sum_map_add, Term.children, map_map, add_assoc, add_comm]
  rfl

end Substitution

/-- Looked up under different keys, different entries are found. -/
theorem sum_found_le {ε κ : Type} [DecidableEq κ] (key : ε → κ) (held : ε → Multiset CellId)
    (entries : List ε) {keys : List κ} (hkeys : keys.Nodup) :
    (keys.map fun k => (entries.find? fun entry => key entry == k).elim 0 held).sum ≤
      (entries.map held).sum := by
  induction entries generalizing keys with
  | nil => simp
  | cons entry entries ih =>
      have hothers : ∀ keys : List κ, key entry ∉ keys →
          (keys.map fun k => ((entry :: entries).find? fun other => key other == k).elim 0 held) =
            keys.map fun k => (entries.find? fun other => key other == k).elim 0 held := by
        intro keys hnot
        refine map_congr_left fun k hk => ?_
        rw [find?_cons_of_neg]
        simpa using fun hkey : key entry = k => hnot (hkey ▸ hk)
      rw [map_cons, sum_cons]
      by_cases hmem : key entry ∈ keys
      · have hfirst : ((entry :: entries).find? fun other => key other == key entry) = some entry :=
          find?_cons_of_pos (beq_self_eq_true _)
        rw [((perm_cons_erase hmem).map _).sum_eq, map_cons, sum_cons, hfirst,
          hothers _ hkeys.not_mem_erase]
        exact add_le_add (le_refl _) (ih (hkeys.erase _))
      · rw [hothers keys hmem]
        exact (ih hkeys).trans (Multiset.le_add_left _ _)

namespace Substitution

variable (subst : Substitution)

theorem supply_le {term : Term} (hvars : term.varOccurrences.Nodup) (hids : term.cellIds.Nodup) :
    subst.supply term ≤ subst.identities := by
  have hbound := sum_found_le Prod.fst (fun binding => binding.2.identities) subst.bindings hvars
  have htargets := sum_found_le CellWrite.pattern (fun write => {write.target}) subst.writes hids
  have hwrites : (subst.writes.map fun write => ({write.target} : Multiset CellId)).sum =
      ↑subst.targets := by
    unfold targets
    generalize subst.writes = writes
    induction writes with
    | nil => rfl
    | cons write writes ih => rw [map_cons, sum_cons, ih]; rfl
  rw [hwrites] at htargets
  refine add_le_add (le_of_eq_of_le ?_ hbound) (le_of_eq_of_le ?_ htargets)
  · congr 1
    refine map_congr_left fun v _ => ?_
    rw [boundIdentities, get?, Option.elim_map]
    rfl
  · congr 1
    refine map_congr_left fun id _ => ?_
    rw [targetIdentities, targetOf, Option.elim_map]
    rfl

end Substitution

/-! The accounts of the matching. -/

/-- The identities in the part of the subject that is left to match. -/
def Obligation.identities : Obligation → Multiset CellId
  | term _ subject => subject.identities
  | items _ _ subjects => (subjects.map Term.identities).sum
  | cells _ _ free _ => (free.toList.map Cell.identities).sum

theorem Obligation.map_zipWith_subjects {γ : Type} {held : Obligation → γ} {read : Term → γ}
    (hterm : ∀ pattern subject, held (.term pattern subject) = read subject)
    {patterns subjects : List Term} (hlength : patterns.length = subjects.length) :
    (zipWith Obligation.term patterns subjects).map held = subjects.map read := by
  calc
    (zipWith Obligation.term patterns subjects).map held =
        ((patterns.zip subjects).map Prod.snd).map read := by
      rw [← map_uncurry_zip_eq_zipWith, map_map, map_map]
      exact map_congr_left fun pair _ => hterm pair.1 pair.2
    _ = subjects.map read := by rw [map_snd_zip hlength.ge]

theorem Obligation.Opens.identities_eq {obligation : Obligation} {opened : List Obligation}
    (hopens : obligation.Opens opened) :
    (opened.map Obligation.identities).sum = obligation.identities := by
  cases hopens with
  | token _ _ => exact (Term.identities_token _ _).symm
  | app label hlength =>
      have hterm : ∀ pattern subject, identities (.term pattern subject) = subject.identities :=
        fun _ _ => rfl
      rw [map_zipWith_subjects hterm hlength, identities, Term.identities_app]
  | sequence op patterns _ => 
      exact sum_singleton.trans (Term.sum_identities_itemsOf op _)
  | collection patterns frame cells subjectFrame => 
      exact sum_singleton.trans (Term.identities_collection cells subjectFrame).symm
  | exhausted _ => rfl
  | item op patterns items _ _ =>
      rw [map_cons, map_singleton, sum_cons, sum_singleton]
      exact (sum_cons).symm
  | closed hfree => 
      rw [identities, hfree]
      rfl

namespace Findings

variable {definition : Definition} {findings next : Findings} {pending later : List Obligation}

theorem Met.identities_le {obligation : Obligation} {encounter : Encounter}
    (hmet : findings.Met definition encounter next) (hposes : obligation.Poses encounter) :
    next.subst.identities ≤ findings.subst.identities + obligation.identities := by
  cases hmet with
  | @bound v subject _ _ =>
      rw [Substitution.identities_push]
      cases hposes with
      | bind _ _ => exact le_refl _
      | frame _ free subjectFrame =>
          rw [Term.identities_collection]
          exact le_refl _
  | repeated _ _ _ | equated _ _ _ | constrained _ | deferred => exact Multiset.le_add_right _ _

/-- No step takes more from the subject than was left of it. -/
theorem Step.identities_le (hstep : Step definition findings pending next later) :
    next.subst.identities + (later.map Obligation.identities).sum ≤
      findings.subst.identities + (pending.map Obligation.identities).sum := by
  cases hstep with
  | @meet _ obligation encounter _ hposes hmet =>
      rw [map_cons, sum_cons, ← add_assoc]
      exact add_le_add (hmet.identities_le hposes) (le_refl _)
  | enter hopens =>
      rw [map_append, sum_append, hopens.identities_eq, map_cons, sum_cons]
  | @boundSegment op v bound patterns subjects _ _ _ _ _ =>
      rw [map_cons, sum_cons, map_cons, sum_cons]
      refine add_le_add (le_refl _) (add_le_add ?_ (le_refl _))
      rw [Obligation.identities, Obligation.identities, ← Term.sum_identities_split subjects]
      exact Multiset.le_add_left _ _
  | @freeSegment op v patterns items count _ _ _ _ =>
      rw [bindSegment, Substitution.identities_push, Term.identities_flatten, map_cons, sum_cons,
        map_cons, sum_cons, Obligation.identities, Obligation.identities,
        ← Term.sum_identities_split items count]
      simp only [add_assoc, le_refl]
  | @cell pattern chosen _ _ subjectFrame free others _ hchoice =>
      have hcells : chosen.identities + (others.toList.map Cell.identities).sum =
          (free.toList.map Cell.identities).sum := by
        rw [((perm_of_mem_selections hchoice).map Cell.identities).sum_eq, map_cons, sum_cons]
      have hrecord := findings.subst.identities_recordCell_le pattern.id chosen.id
      simp only [map_cons, sum_cons, Obligation.identities, ← hcells]
      refine (add_le_add hrecord (le_refl _)).trans (le_of_eq ?_)
      simp only [Cell.identities, add_assoc]
  | settle _ _ => exact le_refl _

end Findings

/-- A match takes no identity of the subject twice. -/
theorem Definition.identities_le_of_mem_concreteMatches {definition : Definition}
    {pattern subject : Term} {subst : Substitution}
    (hmem : subst ∈ definition.concreteMatches pattern subject) :
    subst.identities ≤ subject.identities := by
  obtain ⟨found, hfound, -, rfl⟩ := mem_concreteMatches_iff.1 hmem
  obtain ⟨last, hreaches, -, rfl⟩ := mem_found_matchPattern_iff.1 hfound
  have haccount : last.subst.identities + (last.pending.map Obligation.identities).sum ≤
      subject.identities := by
    clear hfound hmem
    induction hreaches with
    | refl => exact le_of_eq ((zero_add _).trans sum_singleton)
    | tail _ hleads ih => exact (Branch.step_of_leads hleads).identities_le.trans ih
  exact (Multiset.le_add_right _ _).trans haccount

end SymbolicRewriting
