import SymbolicRewriting.Proofs.DistinctMatches
import SymbolicRewriting.Proofs.GroundSubjects

/-!
# Pairs of cells

A match against a ground subject pairs each cell of the pattern, on whatever level, with a cell of the
same name. The pairs that have been made and the cells that are left account for all cells of the pattern
and for no more than those of the subject, so no cell is paired twice.
-/

namespace SymbolicRewriting

open List

/-! ### The cells of a term -/

/-- The cells in a term, those in the contents of others included. -/
def Term.allCells (term : Term) : Multiset (Cell Term) := term.cellsWithin

def Cell.allCells (cell : Cell Term) : Multiset (Cell Term) := {cell} + cell.content.allCells

namespace Term

theorem allCells_eq (term : Term) :
    term.allCells = ↑term.cellsAtRoot + (term.children.map allCells).sum := by
  have hvisit : term.cellsWithin = term.cellsAtRoot ++ term.children.flatMap cellsWithin :=
    flatMap_visit cellsAtRoot term
  rw [allCells, hvisit, ← Multiset.coe_add, coe_flatMap]
  rfl

theorem allCells_token (sort : SortName) (value : String) : (token sort value).allCells = 0 :=
  allCells_eq _

theorem allCells_var (v : Variable) : (var v).allCells = 0 := allCells_eq _

theorem allCells_app (label : Label) (args : List Term) :
    (app label args).allCells = (args.map allCells).sum :=
  (allCells_eq _).trans (zero_add _)

theorem allCells_sequence (op : Label) (items : List Term) :
    (sequence op items).allCells = (items.map allCells).sum :=
  (allCells_eq _).trans (zero_add _)

theorem allCells_collection (cells : List (Cell Term)) (frame : Option Variable) :
    (collection cells frame).allCells = (cells.map Cell.allCells).sum := by
  rw [allCells_eq, cellsAtRoot, children]
  induction cells with
  | nil => rfl
  | cons cell cells ih =>
      simp only [map_cons, sum_cons, ← ih, ← Multiset.cons_coe, ← Multiset.singleton_add,
        Cell.allCells]
      exact add_add_add_comm _ _ _ _

theorem sum_allCells_itemsOf (op : Label) (term : Term) :
    ((term.itemsOf op).map allCells).sum = term.allCells := by
  unfold itemsOf
  split
  · split
    · exact (allCells_sequence _ _).symm
    · exact sum_singleton
  · exact sum_singleton

theorem sum_allCells_drop_le (items : List Term) (count : Nat) :
    ((items.drop count).map allCells).sum ≤ (items.map allCells).sum := by
  conv_rhs => rw [← take_append_drop count items, map_append, sum_append]
  exact Multiset.le_add_left _ _

end Term

namespace Obligation

/-- The cells of the pattern that are left to match. -/
def patternCells : Obligation → Multiset (Cell Term)
  | term pattern _ => pattern.allCells
  | items _ patterns _ => (patterns.map Term.allCells).sum
  | cells patterns _ _ _ => (patterns.map Cell.allCells).sum

/-- The cells in what is left of the subject. -/
def subjectCells : Obligation → Multiset (Cell Term)
  | term _ subject => subject.allCells
  | items _ _ subjects => (subjects.map Term.allCells).sum
  | cells _ _ free _ => (free.toList.map Cell.allCells).sum

theorem map_zipWith_patterns {γ : Type} {held : Obligation → γ} {read : Term → γ}
    (hterm : ∀ pattern subject, held (.term pattern subject) = read pattern)
    {patterns subjects : List Term} (hlength : patterns.length = subjects.length) :
    (zipWith Obligation.term patterns subjects).map held = patterns.map read := by
  calc
    (zipWith Obligation.term patterns subjects).map held =
        ((patterns.zip subjects).map Prod.fst).map read := by
      rw [← map_uncurry_zip_eq_zipWith, map_map, map_map]
      exact map_congr_left fun pair _ => hterm pair.1 pair.2
    _ = patterns.map read := by rw [map_fst_zip hlength.le]

theorem Opens.cells_eq {obligation : Obligation} {opened : List Obligation}
    (hopens : obligation.Opens opened) :
    (opened.map patternCells).sum = obligation.patternCells ∧
      (opened.map subjectCells).sum = obligation.subjectCells := by
  cases hopens with
  | token _ _ => exact ⟨(Term.allCells_token _ _).symm, (Term.allCells_token _ _).symm⟩
  | app label hlength =>
      have hpattern : ∀ pattern subject, patternCells (.term pattern subject) = pattern.allCells :=
        fun _ _ => rfl
      have hsubject : ∀ pattern subject, subjectCells (.term pattern subject) = subject.allCells :=
        fun _ _ => rfl
      rw [map_zipWith_patterns hpattern hlength, map_zipWith_subjects hsubject hlength, patternCells,
        subjectCells, Term.allCells_app, Term.allCells_app]
      exact ⟨rfl, rfl⟩
  | sequence op patterns _ =>
      exact ⟨sum_singleton.trans (Term.allCells_sequence op patterns).symm,
        sum_singleton.trans (Term.sum_allCells_itemsOf op _)⟩
  | collection patterns frame cells subjectFrame =>
      exact ⟨sum_singleton.trans (Term.allCells_collection patterns frame).symm,
        sum_singleton.trans (Term.allCells_collection cells subjectFrame).symm⟩
  | exhausted _ => exact ⟨rfl, rfl⟩
  | item op _ _ _ _ =>
      simp only [patternCells, subjectCells, map_cons, map_nil, sum_cons, sum_nil, add_zero, and_self]
  | closed hfree =>
      rw [subjectCells, hfree]
      exact ⟨rfl, rfl⟩

end Obligation

/-! ### Accounting for the cells -/

namespace Findings

/-- The cells of the pattern have been paired or are left to match, and so have those of the subject,
unless they are part of what a variable stands for. -/
structure AccountsFor (pattern subject : Term) (pairs : List (Cell Term × Cell Term))
    (findings : Findings) (pending : List Obligation) : Prop where
  writes : findings.subst.writes = pairs.map fun pair => ⟨pair.1.id, pair.2.id⟩
  names : ∀ pair ∈ pairs, pair.2.name = pair.1.name
  patterns : ↑(pairs.map Prod.fst) + (pending.map Obligation.patternCells).sum = pattern.allCells
  subjects : ↑(pairs.map Prod.snd) + (pending.map Obligation.subjectCells).sum ≤ subject.allCells

namespace AccountsFor

variable {pattern subject : Term} {findings next : Findings} {pending later : List Obligation}
  {pairs : List (Cell Term × Cell Term)}

/-- Cells that are left in the subject have not been paired. -/
theorem not_mem_targets (haccounts : AccountsFor pattern subject pairs findings pending)
    (hids : subject.cellIds.Nodup) {cell : Cell Term}
    (hcell : cell ∈ (pending.map Obligation.subjectCells).sum) :
    cell.id ∉ findings.subst.targets := by
  have hnodup : ((↑(pairs.map Prod.snd) + (pending.map Obligation.subjectCells).sum).map
      Cell.id).Nodup := Multiset.nodup_of_le (Multiset.map_le_map haccounts.subjects) hids
  rw [Multiset.map_add, Multiset.nodup_add] at hnodup
  intro htarget
  refine Multiset.disjoint_right.1 hnodup.2.2 (Multiset.mem_map_of_mem Cell.id hcell) ?_
  rw [Substitution.targets, haccounts.writes, map_map] at htarget
  rw [Multiset.map_coe, map_map]
  exact htarget

/-- Without a new pair, the cells of the pattern that are left stay the same. -/
theorem goOn (haccounts : AccountsFor pattern subject pairs findings pending)
    (hwrites : next.subst.writes = findings.subst.writes)
    (hpatterns : (later.map Obligation.patternCells).sum =
      (pending.map Obligation.patternCells).sum)
    (hsubjects : (later.map Obligation.subjectCells).sum ≤
      (pending.map Obligation.subjectCells).sum) :
    AccountsFor pattern subject pairs next later where
  writes := hwrites.trans haccounts.writes
  names := haccounts.names
  patterns := hpatterns ▸ haccounts.patterns
  subjects := (add_le_add (le_refl _) hsubjects).trans haccounts.subjects

end AccountsFor

variable {definition : Definition} {pattern subject : Term} {findings next : Findings}
  {pending later : List Obligation} {pairs : List (Cell Term × Cell Term)}

theorem Met.writes_eq {encounter : Encounter} (hmet : findings.Met definition encounter next) :
    next.subst.writes = findings.subst.writes := by
  cases hmet with
  | bound _ _ | repeated _ _ _ | equated _ _ _ | constrained _ | deferred => rfl

/-- A pair is made whenever a cell is chosen, and no step loses a cell of the pattern. -/
theorem Step.accountsFor (hstep : Step definition findings pending next later)
    (hground : ∀ obligation ∈ pending, obligation.GroundSubject) (hids : subject.cellIds.Nodup)
    (haccounts : AccountsFor pattern subject pairs findings pending) :
    ∃ paired, AccountsFor pattern subject paired next later := by
  cases hstep with
  | @meet _ obligation encounter _ hposes hmet =>
      refine ⟨pairs, haccounts.goOn hmet.writes_eq ?_ ?_⟩
      · have hnone : obligation.patternCells = 0 := by
          cases hposes with
          | bind v part => exact Term.allCells_var v
          | frame _ _ _ => rfl
          | unknown _ _ => cases (forall_mem_cons.1 hground).1
        rw [map_cons, sum_cons, hnone, zero_add]
      · rw [map_cons, sum_cons]
        exact Multiset.le_add_left _ _
  | enter hopens =>
      obtain ⟨hpatterns, hsubjects⟩ := hopens.cells_eq
      refine ⟨pairs, haccounts.goOn rfl ?_ (le_of_eq ?_)⟩
      · rw [map_append, sum_append, hpatterns, map_cons, sum_cons]
      · rw [map_append, sum_append, hsubjects, map_cons, sum_cons]
  | boundSegment _ _ _ _ | freeSegment _ _ _ =>
      refine ⟨pairs, haccounts.goOn rfl ?_ ?_⟩
      · simp only [map_cons, sum_cons, Obligation.patternCells, Term.allCells_var, zero_add]
      · rw [map_cons, sum_cons, map_cons, sum_cons]
        exact add_le_add (Term.sum_allCells_drop_le _ _) (le_refl _)
  | @cell part chosen parts _ _ free others rest hchoice =>
      have hcells : (free.toList.map Cell.allCells).sum =
          chosen.allCells + (others.toList.map Cell.allCells).sum := by
        rw [((perm_of_mem_selections hchoice).map Cell.allCells).sum_eq, map_cons, sum_cons]
      have hfresh : chosen.id ∉ findings.subst.targets := by
        refine haccounts.not_mem_targets hids ?_
        rw [map_cons, sum_cons, Obligation.subjectCells, hcells, Cell.allCells]
        simp
      obtain ⟨hwrites, hnames, hpatterns, hsubjects⟩ := haccounts
      refine ⟨pairs ++ [(part, chosen)], ?_, ?_, ?_, ?_⟩
      · rw [recordCell, Substitution.recordCell_of_not_mem hfresh, map_append, ← hwrites]
        rfl
      · exact forall_mem_append.2
          ⟨hnames, forall_mem_singleton.2 (of_mem_selections hchoice).1⟩
      · rw [← hpatterns, map_append, ← Multiset.coe_add]
        simp only [map_cons, sum_cons, Obligation.patternCells, Cell.allCells, map_nil,
          Multiset.coe_singleton, add_assoc]
      · refine le_trans (le_of_eq ?_) hsubjects
        rw [map_append, ← Multiset.coe_add]
        simp only [map_cons, sum_cons, Obligation.subjectCells, hcells, Cell.allCells, map_nil,
          Multiset.coe_singleton, add_assoc]
  | settle _ _ => exact ⟨pairs, haccounts.goOn rfl rfl (le_refl _)⟩

end Findings

/-! ### The pairs of a match -/

namespace Substitution

theorem targetOf_of_mem {subst : Substitution} (hpatterns : (subst.writes.map CellWrite.pattern).Nodup)
    {write : CellWrite} (hmem : write ∈ subst.writes) :
    subst.targetOf write.pattern = some write.target := by
  have hfound : subst.writes.find? (fun other => other.pattern == write.pattern) = some write := by
    obtain ⟨other, hother⟩ : ∃ other,
        subst.writes.find? (fun other => other.pattern == write.pattern) = some other :=
      Option.isSome_iff_exists.1 (find?_isSome.2 ⟨write, hmem, beq_self_eq_true _⟩)
    have hsame : other.pattern = write.pattern := by simpa using find?_some hother
    rw [hother, inj_on_of_nodup_map hpatterns (mem_of_find?_eq_some hother) hmem hsame]
  rw [targetOf, hfound]
  rfl

/-- Each cell of the pattern is to overwrite a cell of the same name, and no two overwrite the same. -/
structure PairsCells (subst : Substitution) (pattern subject : Term) : Prop where
  paired : ∀ cell ∈ pattern.cellsWithin, ∃ target ∈ subject.cellsWithin,
    target.name = cell.name ∧ subst.targetOf cell.id = some target.id
  distinct : (pattern.cellIds.map subst.targetOf).Nodup
  /-- No other cell is to overwrite one. -/
  others : ∀ id, id ∉ pattern.cellIds → subst.targetOf id = none

theorem PairsCells.isSome_targetOf_iff {subst : Substitution} {pattern subject : Term}
    (hpairs : subst.PairsCells pattern subject) {id : CellId} :
    (subst.targetOf id).isSome ↔ id ∈ pattern.cellIds := by
  constructor
  · intro hsome
    by_contra hid
    rw [hpairs.others id hid] at hsome
    cases hsome
  · intro hid
    obtain ⟨cell, hcell, rfl⟩ := mem_map.1 hid
    obtain ⟨target, -, -, htarget⟩ := hpairs.paired cell hcell
    exact Option.isSome_of_eq_some htarget

end Substitution

namespace Definition

variable {definition : Definition} {pattern subject : Term}
  (hground : subject.isGround = true) (hids : subject.cellIds.Nodup)
include hground hids

theorem accountsFor_of_reaches {last : Branch}
    (hreaches : (Branch.start pattern subject).Reaches definition last) :
    ∃ pairs, Findings.AccountsFor pattern subject pairs last.findings last.pending := by
  induction hreaches with
  | refl =>
      refine ⟨[], rfl, forall_mem_nil _, ?_, le_of_eq ?_⟩
      · exact (zero_add _).trans sum_singleton
      · exact (zero_add _).trans sum_singleton
  | tail hreaches hleads ih =>
      obtain ⟨pairs, haccounts⟩ := ih
      obtain ⟨-, hpending⟩ := grounded_of_reaches hground hreaches
      exact (Branch.step_of_leads hleads).accountsFor hpending hids haccounts

variable {subst : Substitution} (hmem : subst ∈ definition.concreteMatches pattern subject)
include hmem

/-- In the end all cells of the pattern have been paired. -/
theorem exists_pairs_of_concreteMatch :
    ∃ pairs : List (Cell Term × Cell Term),
      subst.writes = pairs.map (fun pair => ⟨pair.1.id, pair.2.id⟩) ∧
      (∀ pair ∈ pairs, pair.2.name = pair.1.name) ∧
      (pairs.map Prod.fst).Perm pattern.cellsWithin ∧
      ((pairs.map Prod.snd : List (Cell Term)) : Multiset (Cell Term)) ≤ subject.allCells := by
  obtain ⟨found, hfound, -, rfl⟩ := mem_concreteMatches_iff.1 hmem
  obtain ⟨last, hreaches, haccepted, rfl⟩ := mem_found_matchPattern_iff.1 hfound
  obtain ⟨pairs, hwrites, hnames, hpatterns, hsubjects⟩ :=
    accountsFor_of_reaches hground hids hreaches
  rw [(Branch.ended_of_accepted haccepted).1] at hpatterns hsubjects
  exact ⟨pairs, hwrites, hnames, Multiset.coe_eq_coe.1 ((add_zero _).symm.trans hpatterns),
    (add_zero _).symm.trans_le hsubjects⟩

variable (hpattern : pattern.cellIds.Nodup)
include hpattern

theorem nodup_writes_of_concreteMatch : (subst.writes.map CellWrite.pattern).Nodup := by
  obtain ⟨pairs, hwrites, -, hpatterns, -⟩ :=
    exists_pairs_of_concreteMatch hground hids hmem
  have hsame := hpatterns.map Cell.id
  rw [map_map] at hsame
  rw [hwrites, map_map]
  exact hsame.nodup_iff.2 hpattern

theorem pairsCells_of_concreteMatch : subst.PairsCells pattern subject := by
  have hnodup := nodup_writes_of_concreteMatch hground hids hmem hpattern
  obtain ⟨pairs, hwrites, hnames, hpatterns, hsubjects⟩ :=
    exists_pairs_of_concreteMatch hground hids hmem
  have htarget : ∀ pair ∈ pairs, subst.targetOf pair.1.id = some pair.2.id := by
    intro pair hpair
    have hwrite : (⟨pair.1.id, pair.2.id⟩ : CellWrite) ∈ subst.writes := by
      rw [hwrites]
      exact mem_map_of_mem hpair
    exact Substitution.targetOf_of_mem hnodup hwrite
  refine ⟨fun cell hcell => ?_, ?_, fun id hid => ?_⟩
  · obtain ⟨pair, hpair, rfl⟩ := mem_map.1 (hpatterns.mem_iff.2 hcell)
    have hmember : pair.2 ∈ subject.cellsWithin :=
      Multiset.mem_of_le hsubjects (mem_map_of_mem hpair)
    exact ⟨pair.2, hmember, hnames pair hpair, htarget pair hpair⟩
  · have htargets : (pairs.map Prod.fst).map (fun cell => subst.targetOf cell.id) =
        ((pairs.map Prod.snd).map Cell.id).map some := by
      simp only [map_map]
      exact map_congr_left htarget
    have hdistinct : ((pairs.map Prod.snd).map Cell.id).Nodup :=
      Multiset.nodup_of_le (Multiset.map_le_map hsubjects) hids
    have hcells := hpatterns.map fun cell => subst.targetOf cell.id
    rw [htargets] at hcells
    rw [Term.cellIds, map_map]
    exact hcells.nodup_iff.1 (hdistinct.map (Option.some_injective _))
  · rw [Substitution.targetOf, Option.map_eq_none_iff, find?_eq_none]
    intro write hwrite hsame
    rw [hwrites] at hwrite
    obtain ⟨pair, hpair, rfl⟩ := mem_map.1 hwrite
    refine hid ?_
    have hcell : pair.1 ∈ pattern.cellsWithin := hpatterns.mem_iff.1 (mem_map_of_mem hpair)
    exact eq_of_beq hsame ▸ mem_map_of_mem hcell

end Definition

end SymbolicRewriting
