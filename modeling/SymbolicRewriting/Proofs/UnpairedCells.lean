import SymbolicRewriting.Proofs.CellPairs
import SymbolicRewriting.Proofs.DrawnIdentities

/-!
# Unpaired cells

A rule between collections with the same frame changes the cells that its left side is paired with and
hands on the others. If the frame of the left side stands nowhere else, nothing has been found for it
when all cells of the pattern have been paired, so it comes to stand for the cells that are left, as they
are and in their order; and the right side ends with what its frame stands for.
-/

namespace SymbolicRewriting

open List

variable {definition : Definition}

/-! ### Variables that a pattern spares -/

namespace Findings

variable {v : Variable} {findings middle next : Findings}

/-- What has been found stays, and nothing is found for the variable. -/
structure Spares (v : Variable) (findings next : Findings) : Prop where
  extended : findings.subst.Extends next.subst
  kept : next.subst.get? v = findings.subst.get? v

namespace Spares

theorem refl (v : Variable) (findings : Findings) : findings.Spares v findings :=
  ⟨.refl _, rfl⟩

theorem trans (hfirst : findings.Spares v middle) (hsecond : middle.Spares v next) :
    findings.Spares v next :=
  ⟨hfirst.extended.trans hsecond.extended, hsecond.kept.trans hfirst.kept⟩

theorem push {w : Variable} (hother : w ≠ v) (hget : findings.subst.get? w = none) (term : Term) :
    findings.Spares v { findings with subst := findings.subst.push w term } where
  extended := Substitution.extends_push _ _ _
  kept := by rw [Substitution.get?_push hget, if_neg hother]

theorem recordCell (findings : Findings) (pattern target : CellId) :
    findings.Spares v (findings.recordCell pattern target) where
  extended := Substitution.extends_recordCell _ _ _
  kept := Substitution.get?_recordCell _ _ _ _

end Spares

theorem Met.spares {encounter : Encounter} (hmet : findings.Met definition encounter next)
    (hother : ∀ w part, encounter = .bind w part → w ≠ v) : findings.Spares v next := by
  cases hmet with
  | bound _ hget => exact .push (hother _ _ rfl) hget _
  | repeated _ _ _ | equated _ _ _ | constrained _ | deferred => exact ⟨.refl _, rfl⟩

theorem mem_andThen {outcomes : List (Except Halt Findings)}
    {continuation : Findings → List (Except Halt Findings)} :
    .ok next ∈ andThen outcomes continuation ↔
      ∃ middle, .ok middle ∈ outcomes ∧ .ok next ∈ continuation middle := by
  rw [andThen, mem_flatMap]
  constructor
  · rintro ⟨outcome, houtcome, hnext⟩
    cases outcome with
    | ok middle => exact ⟨middle, houtcome, hnext⟩
    | error halt => cases mem_singleton.1 hnext
  · rintro ⟨middle, hmiddle, hnext⟩
    exact ⟨.ok middle, hmiddle, hnext⟩

theorem spares_of_mem_segments {op : Label} {w : Variable} (hother : w ≠ v)
    {patterns items : List Term} {choice : Findings × List Term}
    (hchoice : choice ∈ findings.segments op w patterns items) : findings.Spares v choice.1 := by
  unfold segments at hchoice
  split at hchoice
  · dsimp only at hchoice
    split at hchoice
    · rw [mem_singleton.1 hchoice]
      exact .refl v findings
    · cases hchoice
  · rename_i hget
    obtain ⟨count, -, rfl⟩ := mem_map.1 hchoice
    exact .push hother hget _

end Findings

namespace Term

variable {v : Variable} {findings next : Findings}

/-- Whatever comes of matching the pattern, nothing is found for the variable. -/
def Spares (definition : Definition) (v : Variable) (pattern : Term) : Prop :=
  ∀ subject findings next, .ok next ∈ pattern.backtrack definition subject findings →
    findings.Spares v next

theorem spares_args {patterns subjects : List Term}
    (hpatterns : ∀ pattern ∈ patterns, pattern.Spares definition v)
    (hnext : .ok next ∈ backtrackArgs definition patterns subjects findings) :
    findings.Spares v next := by
  induction patterns generalizing subjects findings with
  | nil =>
      cases mem_singleton.1 hnext
      exact .refl v _
  | cons pattern patterns ih =>
      cases subjects with
      | nil =>
          cases mem_singleton.1 hnext
          exact .refl v _
      | cons subject subjects =>
          obtain ⟨hpattern, hpatterns⟩ := forall_mem_cons.1 hpatterns
          obtain ⟨middle, hmiddle, hnext⟩ := Findings.mem_andThen.1 hnext
          exact (hpattern subject _ _ hmiddle).trans (ih hpatterns hnext)

theorem spares_items {op : Label} {patterns items : List Term}
    (hpatterns : ∀ pattern ∈ patterns, pattern.Spares definition v ∧ pattern.asVar ≠ some v)
    (hnext : .ok next ∈ backtrackItems definition op patterns items findings) :
    findings.Spares v next := by
  induction patterns generalizing items findings with
  | nil =>
      unfold backtrackItems at hnext
      split at hnext <;> cases mem_singleton.1 hnext
      exact .refl v _
  | cons pattern patterns ih =>
      obtain ⟨⟨hpattern, hother⟩, hpatterns⟩ := forall_mem_cons.1 hpatterns
      unfold backtrackItems at hnext
      split at hnext
      · rename_i w hvar
        obtain ⟨choice, hchoice, hnext⟩ := mem_flatMap.1 hnext
        have hne : w ≠ v := by
          rintro rfl
          exact hother (Option.filter_eq_some_iff.1 hvar).1
        exact (Findings.spares_of_mem_segments hne hchoice).trans (ih hpatterns hnext)
      · cases mem_singleton.1 hnext
      · split at hnext
        · cases mem_singleton.1 hnext
        · obtain ⟨middle, hmiddle, hnext⟩ := Findings.mem_andThen.1 hnext
          exact (hpattern _ _ _ hmiddle).trans (ih hpatterns hnext)

theorem of_mem_choices {name : Label} {cells others : List (Cell Term)} {chosen : Cell Term}
    (hmem : (chosen, others) ∈ choices name cells) :
    chosen.name = name ∧ (chosen :: others).Perm cells ∧ others.Sublist cells := by
  have hselected : (chosen, others) ∈
      (selections name [] cells).map fun choice => (choice.1, choice.2.toList) := by
    rw [selections_eq_choices]
    exact mem_map.2 ⟨_, hmem, rfl⟩
  obtain ⟨⟨cell, free⟩, hfree, heq⟩ := mem_map.1 hselected
  cases heq
  obtain ⟨hname, hcells⟩ := of_mem_selections hfree
  rw [reverseAux_eq] at hcells
  have hplace : free.before.reverse ++ cell :: free.after = cells := hcells
  rw [← hplace, FreeCells.toList, reverseAux_eq]
  exact ⟨hname, perm_middle.symm, (sublist_cons_self _ _).append_left _⟩

/-- One cell of the pattern after another is paired with a cell of its name. -/
theorem mem_backtrackCells_cons {pattern : Cell Term} {patterns cells : List (Cell Term)}
    {frame subjectFrame : Option Variable}
    (hnext : .ok next ∈
      backtrackCells definition (pattern :: patterns) frame cells subjectFrame findings) :
    ∃ chosen others middle, (chosen, others) ∈ choices pattern.name cells ∧
      .ok middle ∈ pattern.content.backtrack definition chosen.content
        (findings.recordCell pattern.id chosen.id) ∧
      .ok next ∈ backtrackCells definition patterns frame others subjectFrame middle := by
  obtain ⟨id, name, content⟩ := pattern
  unfold backtrackCells at hnext
  split at hnext
  · obtain ⟨⟨chosen, others⟩, hchoice, hnext⟩ := mem_flatMap.1 hnext
    obtain ⟨middle, hmiddle, hnext⟩ := Findings.mem_andThen.1 hnext
    exact ⟨chosen, others, middle, hchoice, hmiddle, hnext⟩
  · split at hnext <;> cases mem_singleton.1 hnext

theorem spares_cells {patterns cells : List (Cell Term)} {frame subjectFrame : Option Variable}
    (hframe : frame ≠ some v)
    (hpatterns : ∀ pattern ∈ patterns, pattern.content.Spares definition v)
    (hnext : .ok next ∈ backtrackCells definition patterns frame cells subjectFrame findings) :
    findings.Spares v next := by
  induction patterns generalizing cells findings with
  | nil =>
      unfold backtrackCells at hnext
      split at hnext
      · refine (Findings.met_of_meet (mem_singleton.1 hnext).symm).spares ?_
        rintro w part heq rfl
        cases heq
        exact hframe rfl
      · split at hnext
        · cases mem_singleton.1 hnext
        · split at hnext <;> cases mem_singleton.1 hnext
          exact .refl v _
  | cons pattern patterns ih =>
      obtain ⟨hpattern, hpatterns⟩ := forall_mem_cons.1 hpatterns
      obtain ⟨chosen, others, middle, -, hmiddle, hnext⟩ := mem_backtrackCells_cons hnext
      have hcontent := (Findings.Spares.recordCell findings pattern.id chosen.id).trans
        (hpattern _ _ _ hmiddle)
      exact hcontent.trans (ih hpatterns hnext)

theorem spares_unknown {pattern : Term} {w : Variable}
    (hnext : .ok next ∈ [findings.meet definition (.unknown pattern w)]) :
    findings.Spares v next := by
  refine (Findings.met_of_meet (mem_singleton.1 hnext).symm).spares ?_
  rintro _ _ ⟨⟩

/-- Nothing is found for a variable that the pattern does not have. -/
theorem spares_of_not_mem_vars {pattern : Term} (hother : v ∉ pattern.vars) :
    pattern.Spares definition v := by
  induction pattern using nestedInduction with
  | var w =>
      intro subject findings next hnext
      refine (Findings.met_of_meet (mem_singleton.1 hnext).symm).spares ?_
      rintro _ _ ⟨⟩ rfl
      exact hother (mem_vars_iff.2 ⟨_, self_mem_subterms _, rfl⟩)
  | token sort value =>
      intro subject findings next hnext
      cases subject with
      | var w => exact spares_unknown hnext
      | token _ _ =>
          unfold backtrack at hnext
          split at hnext <;> cases mem_singleton.1 hnext
          exact .refl v _
      | app _ _ | sequence _ _ | collection _ _ => cases mem_singleton.1 hnext
  | app label args ih =>
      have hargs : ∀ arg ∈ args, arg.Spares definition v := fun arg hmem =>
        ih arg hmem fun hvar => hother (vars_subset_of_mem_children hmem hvar)
      intro subject findings next hnext
      cases subject with
      | var w => exact spares_unknown hnext
      | app _ _ =>
          unfold backtrack at hnext
          split at hnext
          · exact spares_args hargs hnext
          · cases mem_singleton.1 hnext
      | token _ _ | sequence _ _ | collection _ _ => cases mem_singleton.1 hnext
  | sequence op patterns ih =>
      have hpatterns : ∀ pattern ∈ patterns, pattern.Spares definition v ∧ pattern.asVar ≠ some v := by
        intro pattern hmem
        have hnot : v ∉ pattern.vars := fun hvar => hother (vars_subset_of_mem_children hmem hvar)
        refine ⟨ih pattern hmem hnot, fun hvar => ?_⟩
        cases pattern with
        | var w =>
            cases hvar
            exact hnot (mem_vars_iff.2 ⟨_, self_mem_subterms _, rfl⟩)
        | token _ _ | app _ _ | sequence _ _ | collection _ _ => cases hvar
      intro subject findings next hnext
      cases subject with
      | var w => exact spares_unknown hnext
      | token _ _ | app _ _ | sequence _ _ | collection _ _ => exact spares_items hpatterns hnext
  | collection patterns frame ih =>
      have hframe : frame ≠ some v := fun hframe =>
        hother (mem_vars_iff.2 ⟨_, self_mem_subterms _, hframe⟩)
      have hpatterns : ∀ pattern ∈ patterns, pattern.content.Spares definition v :=
        fun pattern hmem => ih pattern hmem fun hvar =>
          hother (vars_subset_of_mem_children (mem_map_of_mem hmem) hvar)
      intro subject findings next hnext
      cases subject with
      | var w => exact spares_unknown hnext
      | collection _ _ => exact spares_cells hframe hpatterns hnext
      | token _ _ | app _ _ | sequence _ _ => cases mem_singleton.1 hnext

end Term

/-! ### The cells that are left to the frame -/

namespace Substitution

theorem mem_writes_recordCell (subst : Substitution) (pattern target : CellId) :
    ⟨pattern, target⟩ ∈ (subst.recordCell pattern target).writes := by
  unfold recordCell
  split
  · exact contains_iff_mem.1 ‹_›
  · exact mem_append_right _ mem_cons_self

/-- Each cell of the subject is paired with a cell of the pattern, or it is among those that the frame
stands for. -/
structure Splits (subst : Substitution) (patterns : List (Cell Term)) (v : Variable)
    (cells chosen unpaired : List (Cell Term)) : Prop where
  perm : (chosen ++ unpaired).Perm cells
  order : unpaired.Sublist cells
  paired : Forall₂ (fun pattern cell : Cell Term => cell.name = pattern.name ∧
    (⟨pattern.id, cell.id⟩ : CellWrite) ∈ subst.writes) patterns chosen
  frame : subst.get? v = some (.collection unpaired none)

end Substitution

theorem Term.exists_splits_of_mem_backtrackCells {findings next : Findings} {v : Variable}
    {patterns cells : List (Cell Term)} (hpatterns : ∀ pattern ∈ patterns, v ∉ pattern.content.vars)
    (hget : findings.subst.get? v = none)
    (hnext : .ok next ∈ backtrackCells definition patterns (some v) cells none findings) :
    findings.subst.Extends next.subst ∧
      ∃ chosen unpaired, next.subst.Splits patterns v cells chosen unpaired := by
  induction patterns generalizing cells findings with
  | nil =>
      -- The frame is met for the first time, so there is no earlier term to compare with.
      have hmet := Findings.met_of_meet (mem_singleton.1 hnext).symm
      cases hmet with
      | bound _ hget =>
          refine ⟨Substitution.extends_push _ _ _, [], cells, .refl _, .refl _, .nil, ?_⟩
          rw [Substitution.get?_push hget, if_pos rfl]
      | repeated _ hbound _ | equated _ hbound _ =>
          rw [hget] at hbound
          cases hbound
  | cons pattern patterns ih =>
      obtain ⟨hpattern, hpatterns⟩ := forall_mem_cons.1 hpatterns
      obtain ⟨cell, others, middle, hchoice, hmiddle, hnext⟩ := mem_backtrackCells_cons hnext
      obtain ⟨hname, hperm, hsublist⟩ := of_mem_choices hchoice
      have hcontent := spares_of_not_mem_vars hpattern _ _ _ hmiddle
      have hspares := (Findings.Spares.recordCell findings pattern.id cell.id).trans hcontent
      obtain ⟨hextends, chosen, unpaired, hsplits⟩ := ih hpatterns (hspares.kept.trans hget) hnext
      have hwrite : (⟨pattern.id, cell.id⟩ : CellWrite) ∈ next.subst.writes :=
        (hcontent.extended.trans hextends).writes.subset
          (Substitution.mem_writes_recordCell findings.subst pattern.id cell.id)
      exact ⟨hspares.extended.trans hextends, cell :: chosen, unpaired,
        (hsplits.perm.cons cell).trans hperm, hsplits.order.trans hsublist,
        .cons ⟨hname, hwrite⟩ hsplits.paired, hsplits.frame⟩

theorem Findings.subst_of_complete {findings : Findings} {found : StructuralMatch}
    (hcomplete : findings.complete = .ok found) : found.subst = findings.subst := by
  unfold complete at hcomplete
  split at hcomplete <;> cases hcomplete
  rfl

theorem Definition.exists_splits_of_mem_concreteMatches {patterns cells : List (Cell Term)}
    {v : Variable} {subst : Substitution}
    (hpatterns : ∀ pattern ∈ patterns, v ∉ pattern.content.vars)
    (hmem : subst ∈
      definition.concreteMatches (.collection patterns (some v)) (.collection cells none)) :
    ∃ chosen unpaired, subst.Splits patterns v cells chosen unpaired := by
  obtain ⟨found, hfound, -, rfl⟩ := mem_concreteMatches_iff.1 hmem
  obtain ⟨findings, hfindings, hcomplete⟩ := mem_found_iff_exists_outcome.1 hfound
  rw [Findings.subst_of_complete hcomplete]
  exact (Term.exists_splits_of_mem_backtrackCells hpatterns rfl hfindings).2

/-! ### The cells of a right side -/

/-- What has been built for the cells of a right side, while the count of drawn identities went from one
number to another. A cell with one of the identities becomes the cell that it overwrites, and any other
becomes a new one. -/
inductive Rebuilt (ids : List CellId) (subst : Substitution) :
    Nat → List (Cell Term) → List (Cell Term) → Nat → Prop
  | nil {first last : Nat} (hcount : first ≤ last) : Rebuilt ids subst first [] [] last
  | overwritten {first count last : Nat} {cell : Cell Term} {cells built : List (Cell Term)}
      {target : CellId} (content : Term) (hcount : first ≤ count) (hid : cell.id ∈ ids)
      (htarget : subst.targetOf cell.id = some target)
      (hothers : Rebuilt ids subst count cells built last) :
      Rebuilt ids subst first (cell :: cells) (⟨target, cell.name, content⟩ :: built) last
  | drawn {first count last : Nat} {cell : Cell Term} {cells built : List (Cell Term)}
      (content : Term) (hcount : first ≤ count) (hid : cell.id ∉ ids)
      (hothers : Rebuilt ids subst (count + 1) cells built last) :
      Rebuilt ids subst first (cell :: cells)
        (⟨UInt32.ofNat count, cell.name, content⟩ :: built) last

theorem Rebuilt.from_earlier {ids : List CellId} {subst : Substitution} {earlier first last : Nat}
    {cells built : List (Cell Term)} (hrebuilt : Rebuilt ids subst first cells built last)
    (hearlier : earlier ≤ first) : Rebuilt ids subst earlier cells built last := by
  cases hrebuilt with
  | nil hcount => exact .nil (hearlier.trans hcount)
  | overwritten content hcount hid htarget hothers =>
      exact .overwritten content (hearlier.trans hcount) hid htarget hothers
  | drawn content hcount hid hothers => exact .drawn content (hearlier.trans hcount) hid hothers

namespace Definition

variable {σ : Type} {call : Caller σ} (hcall : ∀ label args, (call label args).Advances)
include hcall

theorem rebuilt_of_buildCells {ids : List CellId} {subst extended : Substitution}
    (hextended : extended.writes = subst.writes)
    (hids : ∀ id, (subst.targetOf id).isSome ↔ id ∈ ids) {cells built : List (Cell Term)}
    {start next : RunState σ}
    (hrun : definition.buildCells call extended .instantiate cells start = .ok built next) :
    Rebuilt ids subst start.cellsDrawn cells built next.cellsDrawn := by
  induction cells generalizing start built with
  | nil =>
      obtain ⟨rfl, rfl⟩ := Run.pure_eq_ok.1 hrun
      exact .nil (le_refl _)
  | cons cell cells ih =>
      obtain ⟨id, name, content⟩ := cell
      obtain ⟨value, middle, hvalue, hrun⟩ := Run.bind_eq_ok.1 hrun
      obtain ⟨identity, later, hidentity, hrun⟩ := Run.bind_eq_ok.1 hrun
      obtain ⟨others, last, hothers, hrun⟩ := Run.bind_eq_ok.1 hrun
      obtain ⟨rfl, rfl⟩ := Run.pure_eq_ok.1 hrun
      have hcount : start.cellsDrawn ≤ middle.cellsDrawn :=
        Run.compositional_advances.buildTerm hcall extended .instantiate content start value middle
          hvalue
      have htarget : extended.targetOf id = subst.targetOf id := by
        rw [Substitution.targetOf, Substitution.targetOf, hextended]
      rw [BuildMode.cellId, htarget] at hidentity
      cases hfound : subst.targetOf id with
      | some target =>
          rw [hfound] at hidentity
          obtain ⟨rfl, rfl⟩ := Run.pure_eq_ok.1 hidentity
          have hid : id ∈ ids := (hids id).1 (Option.isSome_of_eq_some hfound)
          exact .overwritten value hcount hid hfound (ih hothers)
      | none =>
          rw [hfound] at hidentity
          have hid : id ∉ ids := fun hid => by simpa [hfound] using (hids id).2 hid
          cases hidentity
          exact .drawn value hcount hid (ih hothers)

/-- The right side ends with the cells that its frame stands for. -/
theorem rebuilt_of_buildRight {ids : List CellId} {subst : Substitution}
    (hids : ∀ id, (subst.targetOf id).isSome ↔ id ∈ ids) {rule : Rule} {v : Variable}
    {right unpaired : List (Cell Term)} (hrhs : rule.rhs = .collection right (some v))
    (hframe : subst.get? v = some (.collection unpaired none)) {start next : RunState σ}
    {result : Term} (hrun : definition.buildRight call rule subst start = .ok result next) :
    ∃ built, Rebuilt ids subst start.cellsDrawn right built next.cellsDrawn ∧
      result = .collection (built ++ unpaired) none := by
  obtain ⟨extended, middle, hfresh, hrun⟩ := Run.bind_eq_ok.1 hrun
  rw [hrhs] at hrun
  obtain ⟨built, last, hbuilt, hrun⟩ := Run.bind_eq_ok.1 hrun
  obtain ⟨rfl, rfl⟩ := Run.pure_eq_ok.1 hrun
  have hcount : start.cellsDrawn ≤ middle.cellsDrawn :=
    Run.compositional_advances.bindFreshVars hcall rule.freshVars subst start extended middle hfresh
  obtain ⟨hwrites, hkept⟩ :=
    ensures_bindFreshVars rule.freshVars subst start extended middle hfresh
  have hbound : Term.frameBinding extended (some v) = some (.collection unpaired none) :=
    (hkept v fun _ => Option.isSome_of_eq_some hframe).trans hframe
  refine ⟨built, (rebuilt_of_buildCells hcall hwrites hids hbuilt).from_earlier hcount, ?_⟩
  rw [hbound]
  rfl

end Definition

/-- A rule between collections with the same frame hands on the cells that its left side leaves to the
frame. The others are paired with the cells of the pattern by name, each with one. The result has a cell
for each cell of the right side and then the cells that are left, as they are and in their order. -/
theorem Machine.applyRule_keeps_unpaired {σ : Type} (machine : Machine σ) {rule : Rule}
    {patterns right cells : List (Cell Term)} {v : Variable} {frame : Option Variable}
    {subst : Substitution} (hlhs : rule.lhs = .collection patterns (some v))
    (hrhs : rule.rhs = .collection right (some v)) (hids : rule.lhs.cellIds.Nodup)
    (hframe : ∀ pattern ∈ patterns, v ∉ pattern.content.vars)
    (hground : (Term.collection cells frame).isGround = true)
    (hdistinct : (Term.collection cells frame).cellIds.Nodup)
    (hmatch : subst ∈ machine.definition.concreteMatches rule.lhs (.collection cells frame)) :
    subst.PairsCells rule.lhs (.collection cells frame) ∧
    ∃ chosen unpaired : List (Cell Term),
      Forall₂ (fun pattern cell : Cell Term =>
        cell.name = pattern.name ∧ subst.targetOf pattern.id = some cell.id) patterns chosen ∧
      (chosen.map Cell.id).Nodup ∧
      (chosen ++ unpaired).Perm cells ∧ unpaired.Sublist cells ∧
      subst.get? v = some (.collection unpaired none) ∧
      ∀ start result next, machine.applyRule rule subst start = .ok result next →
        ∃ built, Rebuilt rule.lhs.cellIds subst start.cellsDrawn right built next.cellsDrawn ∧
          result = .collection (built ++ unpaired) none := by
  obtain rfl : frame = none := Option.isNone_iff_eq_none.1 (Bool.and_eq_true_iff.1 hground).1
  have hpairs := Definition.pairsCells_of_concreteMatch hground hdistinct hmatch hids
  have hwrites := Definition.nodup_writes_of_concreteMatch hground hdistinct hmatch hids
  rw [hlhs] at hmatch
  obtain ⟨chosen, unpaired, hsplits⟩ :=
    Definition.exists_splits_of_mem_concreteMatches hframe hmatch
  have hpaired := hsplits.paired.imp fun _ _ hpair =>
    And.intro hpair.1 (Substitution.targetOf_of_mem hwrites hpair.2)
  have hchosen : (chosen.map Cell.id).Nodup := by
    have hcells : ((cells.map Cell.id : List CellId) : Multiset CellId) ≤
        (Term.collection cells none).identities :=
      (Branch.coe_ids_le cells).trans_eq (Term.identities_collection cells none).symm
    have hall := (hsplits.perm.map Cell.id).nodup_iff.2 (Multiset.nodup_of_le hcells hdistinct)
    rw [map_append] at hall
    exact hall.of_append_left
  refine ⟨hpairs, chosen, unpaired, hpaired, hchosen, hsplits.perm, hsplits.order, hsplits.frame, ?_⟩
  intro start result next hrun
  exact Definition.rebuilt_of_buildRight (Run.compositional_advances.call machine)
    (fun _ => hpairs.isSome_targetOf_iff) hrhs hsplits.frame hrun

namespace Kitchen

def dish : Variable := ⟨"DISH", Symbol.top, .plain⟩

def others : Variable := ⟨"OTHERS", Symbol.top, .rest⟩

def right : List (Cell Term) := [⟨1, "hand", .var dish⟩, ⟨2, "note", .app "served" []⟩]

/-- What is in a pot goes into the empty hand, the pot is gone, and there is a new note. -/
def serving : Rule where
  lhs := .collection [⟨0, "pot", .var dish⟩, ⟨1, "hand", .app "empty" []⟩] (some others)
  rhs := .collection right (some others)
  id := 0

def machine : Machine Unit where
  definition := .assemble []
  oracle := DecisionProcedure.syntactic.toOracle Unit

def subject : Term :=
  .collection [⟨5, "clock", .int 3⟩, ⟨6, "pot", .string "soup"⟩, ⟨7, "hand", .app "empty" []⟩,
    ⟨8, "pot", .string "rice"⟩] none

/-- If the second pot is served, the clock and the first pot stay. -/
theorem applyRule_keeps_unpaired_pot :
    ∃ subst ∈ machine.definition.concreteMatches serving.lhs subject, ∃ built unpaired next,
      machine.applyRule serving subst { cellsDrawn := 20, environment := () } =
        .ok (.collection (built ++ unpaired) none) next ∧
      (Term.collection (built ++ unpaired) none).cellIds = [7, 20, 5, 6] ∧
      Rebuilt serving.lhs.cellIds subst 20 right built next.cellsDrawn ∧
      subst.get? others = some (.collection unpaired none) := by
  have hany : (machine.definition.concreteMatches serving.lhs subject).any (fun subst =>
      (machine.applyRule serving subst).succeedsWith { cellsDrawn := 20, environment := () }
        fun result => result.cellIds == [7, 20, 5, 6]) = true := by
    decide +kernel
  obtain ⟨subst, hmatch, happlied⟩ := any_eq_true.1 hany
  obtain ⟨result, next, hrun, hcells⟩ := Run.exists_of_succeedsWith happlied
  have hlhs : serving.lhs =
      .collection [⟨0, "pot", .var dish⟩, ⟨1, "hand", .app "empty" []⟩] (some others) := rfl
  obtain ⟨-, chosen, unpaired, -, -, -, -, hothers, hresults⟩ :=
    machine.applyRule_keeps_unpaired hlhs rfl (by decide +kernel) (by decide +kernel)
      (by decide +kernel) (by decide +kernel) hmatch
  obtain ⟨built, hrebuilt, rfl⟩ := hresults _ _ _ hrun
  exact ⟨subst, hmatch, built, unpaired, next, hrun, eq_of_beq hcells, hrebuilt, hothers⟩

end Kitchen

end SymbolicRewriting
