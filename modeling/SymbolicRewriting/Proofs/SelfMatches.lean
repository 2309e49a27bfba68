import SymbolicRewriting.Proofs.InstanceMatches

/-!
A term matches itself, and nothing has to be assumed for it. Of the branches of the search, one takes
each rest variable for one segment and each cell for itself. On it every variable is bound to itself: a
rest variable to the sequence of that variable, and a frame to the collection of no cells that it ends.
This needs that a variable has one use, since the term that stands for it depends on its place.
-/

namespace SymbolicRewriting

open List

variable {definition : Definition} {use : Variable → Place}

namespace Term

mutual

/-- The variables of a term and the places where they stand, if the term stands at `place`. -/
def occurrences (place : Place) : Term → List (Variable × Place)
  | token _ _ => []
  | var v => [(v, place)]
  | app _ args => occurrencesAll .alone args
  | sequence op items => occurrencesAll (.item op) items
  | collection cells frame => frame.toList.map (·, .frame) ++ occurrencesCells cells

def occurrencesAll (place : Place) : List Term → List (Variable × Place)
  | [] => []
  | term :: terms => term.occurrences place ++ occurrencesAll place terms

def occurrencesCells : List (Cell Term) → List (Variable × Place)
  | [] => []
  | ⟨_, _, content⟩ :: cells => content.occurrences .alone ++ occurrencesCells cells

end

variable {property : Variable × Place → Prop}

theorem forall_mem_occurrencesAll {place : Place} {terms : List Term} :
    (∀ occurrence ∈ occurrencesAll place terms, property occurrence) ↔
      ∀ term ∈ terms, ∀ occurrence ∈ term.occurrences place, property occurrence := by
  induction terms with
  | nil => simp [occurrencesAll]
  | cons term terms ih => rw [occurrencesAll, forall_mem_append, ih, forall_mem_cons]

theorem forall_mem_occurrencesCells {cells : List (Cell Term)} :
    (∀ occurrence ∈ occurrencesCells cells, property occurrence) ↔
      ∀ cell ∈ cells, ∀ occurrence ∈ cell.content.occurrences .alone, property occurrence := by
  induction cells with
  | nil => simp [occurrencesCells]
  | cons cell cells ih => rw [occurrencesCells, forall_mem_append, ih, forall_mem_cons]

end Term

instance (use : Variable → Place) (v : Variable) (place : Place) : Decidable (v.UsedAs use place) :=
  inferInstanceAs (Decidable ((place = .frame ↔ use v = .frame) ∧
    (v.isRest = true → place = use v ∧ place ≠ .alone)))

/-- Each variable of the term, which stands at `place`, is used as `use` says. -/
def Term.Uses (use : Variable → Place) (place : Place) (term : Term) : Prop :=
  ∀ occurrence ∈ term.occurrences place, occurrence.1.UsedAs use occurrence.2

instance (use : Variable → Place) (place : Place) (term : Term) : Decidable (term.Uses use place) :=
  inferInstanceAs (Decidable (∀ occurrence ∈ term.occurrences place,
    occurrence.1.UsedAs use occurrence.2))

namespace Term

variable {place : Place}

theorem uses_var_iff {v : Variable} : (var v).Uses use place ↔ v.UsedAs use place := by
  simp [Uses, occurrences]

theorem uses_app_iff {label : Label} {args : List Term} :
    (app label args).Uses use place ↔ ∀ arg ∈ args, arg.Uses use .alone :=
  forall_mem_occurrencesAll

theorem uses_sequence_iff {op : Label} {items : List Term} :
    (sequence op items).Uses use place ↔ ∀ item ∈ items, item.Uses use (.item op) :=
  forall_mem_occurrencesAll

theorem uses_collection_iff {cells : List (Cell Term)} {frame : Option Variable} :
    (collection cells frame).Uses use place ↔
      (∀ v, frame = some v → v.UsedAs use .frame) ∧
        ∀ cell ∈ cells, cell.content.Uses use .alone := by
  simp only [Uses, occurrences, forall_mem_append, forall_mem_map, forall_mem_occurrencesCells,
    Option.mem_toList]

/-- A rest variable does not stand on its own. -/
theorem Uses.isRestVar_eq_false {term : Term} (huses : term.Uses use .alone) :
    term.isRestVar = false := by
  refine Bool.eq_false_iff.2 fun hrest => ?_
  obtain ⟨v, rfl, hv⟩ := exists_of_isRestVar hrest
  exact ((uses_var_iff.1 huses).2 hv).2 rfl

/-- A rest variable is an item of the sequences over one operator or a frame, and the variable of a
frame is nothing else. -/
structure SeparatesUses (term : Term) : Prop where
  rest : ∀ v, v.isRest = true →
    (∃ op, ∀ place, (v, place) ∈ term.occurrences .alone → place = .item op) ∨
      ∀ place, (v, place) ∈ term.occurrences .alone → place = .frame
  frame : ∀ v, (v, .frame) ∈ term.occurrences .alone →
    ∀ place, (v, place) ∈ term.occurrences .alone → place = .frame

/-- The place where a variable stands first. -/
def firstUse (term : Term) (v : Variable) : Place :=
  (((term.occurrences .alone).find? fun occurrence => occurrence.1 = v).map Prod.snd).getD .alone

theorem mem_occurrences_firstUse {term : Term} {v : Variable} {place : Place}
    (hoccurs : (v, place) ∈ term.occurrences .alone) :
    (v, term.firstUse v) ∈ term.occurrences .alone := by
  unfold firstUse
  cases hfind : (term.occurrences .alone).find? fun occurrence => occurrence.1 = v with
  | none => exact absurd (decide_eq_true rfl) (find?_eq_none.1 hfind _ hoccurs)
  | some first =>
      have hfound := find?_some hfind
      have hfirst : first.1 = v := of_decide_eq_true hfound
      exact hfirst ▸ mem_of_find?_eq_some hfind

theorem SeparatesUses.uses_firstUse {term : Term} (hseparates : term.SeparatesUses) :
    term.Uses term.firstUse .alone := by
  rintro ⟨v, place⟩ hoccurs
  have hfirst := mem_occurrences_firstUse hoccurs
  constructor
  · constructor
    · rintro rfl
      exact hseparates.frame v hoccurs _ hfirst
    · intro hframe
      exact hseparates.frame v (hframe ▸ hfirst) place hoccurs
  · intro hrest
    rcases hseparates.rest v hrest with ⟨op, hitem⟩ | hframe
    · obtain rfl := hitem place hoccurs
      exact ⟨(hitem _ hfirst).symm, by rintro ⟨⟩⟩
    · obtain rfl := hframe place hoccurs
      exact ⟨(hframe _ hfirst).symm, by rintro ⟨⟩⟩

theorem separatesUses_iff {term : Term} :
    term.SeparatesUses ↔ ∃ use, term.Uses use .alone := by
  refine ⟨fun hseparates => ⟨_, hseparates.uses_firstUse⟩, fun ⟨use, huses⟩ => ⟨?_, ?_⟩⟩
  · intro v hrest
    have hone : ∀ place, (v, place) ∈ term.occurrences .alone → place = use v ∧ place ≠ .alone :=
      fun place hoccurs => (huses _ hoccurs).2 hrest
    cases huse : use v with
    | alone =>
        refine .inr fun place hoccurs => ?_
        obtain ⟨hplace, hnever⟩ := hone place hoccurs
        exact absurd (hplace.trans huse) hnever
    | item op => exact .inl ⟨op, fun place hoccurs => (hone place hoccurs).1.trans huse⟩
    | frame => exact .inr fun place hoccurs => (hone place hoccurs).1.trans huse
  · intro v hframe place hoccurs
    exact (huses _ hoccurs).1.2 ((huses _ hframe).1.1 rfl)

end Term

namespace Variable

/-- The term by which the variable stands for itself at the place. -/
def itself (v : Variable) : Place → Term
  | .alone => .var v
  | .item op => if v.isRest then .sequence op [.var v] else .var v
  | .frame => .collection [] (some v)

theorem UsedAs.itself_eq {v : Variable} {place : Place} (hused : v.UsedAs use place) :
    v.itself place = v.itself (use v) := by
  obtain ⟨hframe, hone⟩ := hused
  cases hrest : v.isRest with
  | true => rw [(hone hrest).1]
  | false =>
      -- the variable of no frame stands for a single term, wherever it is
      cases huse : use v <;> cases place <;> simp_all [itself]

theorem itself_of_not_isRest {v : Variable} {place : Place} (hplace : place ≠ .frame)
    (hrest : v.isRest = false) : v.itself place = .var v := by
  cases place with
  | alone => rfl
  | item op => rw [itself, hrest, if_neg Bool.false_ne_true]
  | frame => exact absurd rfl hplace

theorem admits_itself (definition : Definition) (v : Variable) (place : Place) :
    definition.admits v (v.itself place) = .yes := by
  refine Definition.admits_eq_yes_iff.2 (.inr fun sort hsort => ?_)
  have hvar : definition.sortOf (.var v) = some sort → definition.isSubsort sort v.sort = true := by
    rintro ⟨⟩
    simp [Definition.isSubsort]
  cases place with
  | alone => exact hvar hsort
  | item op =>
      rw [itself] at hsort
      cases hrest : v.isRest with
      | true =>
          rw [hrest, if_pos rfl] at hsort
          cases hsort
      | false =>
          rw [hrest, if_neg Bool.false_ne_true] at hsort
          exact hvar hsort
  | frame => cases hsort

end Variable

/-- The obligation is to match a part of the term with itself. -/
inductive Obligation.Reflexive (use : Variable → Place) : Obligation → Prop
  | term {place : Place} {part : Term} (huses : part.Uses use place) (hplace : place ≠ .frame)
      (hrest : part.isRestVar = false) : Reflexive use (.term part part)
  | items {op : Label} {items : List Term} (hitems : ∀ item ∈ items, item.Uses use (.item op)) :
      Reflexive use (.items op items items)
  | cells {cells : List (Cell Term)} {frame : Option Variable} {free : FreeCells}
      (hfree : free.toList = cells) (hframe : ∀ v, frame = some v → v.UsedAs use .frame)
      (hcells : ∀ cell ∈ cells, cell.content.Uses use .alone) :
      Reflexive use (.cells cells frame free frame)

theorem Obligation.reflexive_of_uses {part : Term} (huses : part.Uses use .alone) :
    (Obligation.term part part).Reflexive use :=
  .term huses (by rintro ⟨⟩) huses.isRestVar_eq_false

/-- Every variable that is bound is bound to itself, and nothing is left to be shown. -/
structure Findings.BindsSelf (use : Variable → Place) (findings : Findings) : Prop where
  itself : ∀ v value, findings.subst.get? v = some value → value = v.itself (use v)
  deferred : findings.deferred = []
  constraints : findings.constraints = .trivial

/-- From these findings and obligations a branch goes on to bind variables to themselves. -/
def Findings.GoesOn (definition : Definition) (use : Variable → Place) (findings : Findings)
    (obligation : Obligation) : Prop :=
  ∀ pending, ∃ (next : Findings) (opened : List Obligation),
    (findings.branch (obligation :: pending)).Leads definition (next.branch (opened ++ pending)) ∧
      next.BindsSelf use ∧ ∀ other ∈ opened, other.Reflexive use

namespace Findings.BindsSelf

variable {findings : Findings} (hself : findings.BindsSelf use)
include hself

theorem push {v : Variable} {value : Term} (hget : findings.subst.get? v = none)
    (hvalue : value = v.itself (use v)) :
    BindsSelf use { findings with subst := findings.subst.push v value } where
  itself w part hpart := by
    rw [Substitution.get?_push hget] at hpart
    by_cases heq : v = w
    · rw [if_pos heq] at hpart
      cases hpart
      exact heq ▸ hvalue
    · rw [if_neg heq] at hpart
      exact hself.itself w part hpart
  deferred := hself.deferred
  constraints := hself.constraints

theorem goesOn_of_opens {obligation : Obligation} {opened : List Obligation}
    (hopens : obligation.Opens opened) (hopened : ∀ other ∈ opened, other.Reflexive use) :
    findings.GoesOn definition use obligation :=
  fun pending => ⟨findings, opened, ⟨_, advance_of_opens findings pending hopens, mem_cons_self⟩,
    hself, hopened⟩

theorem goesOn_of_poses {obligation : Obligation} {v : Variable}
    (hposes : obligation.Poses (.bind v (v.itself (use v)))) :
    findings.GoesOn definition use obligation := by
  intro pending
  obtain ⟨next, hmeet, hnext⟩ : ∃ next,
      findings.meet definition (.bind v (v.itself (use v))) = .ok next ∧ next.BindsSelf use := by
    rw [meet, v.admits_itself definition]
    cases hget : findings.subst.get? v with
    | none => exact ⟨_, rfl, hself.push hget rfl⟩
    | some value =>
        rw [hself.itself v value hget]
        exact ⟨findings, if_pos (Term.beq_refl _), hself⟩
  refine ⟨next, [], ⟨[next.branch pending], ?_, mem_cons_self⟩, hnext, forall_mem_nil _⟩
  rw [advance_of_poses findings pending hposes, hmeet]
  rfl

theorem goesOn_term {part : Term} {place : Place} (huses : part.Uses use place)
    (hplace : place ≠ .frame) (hrest : part.isRestVar = false) :
    findings.GoesOn definition use (.term part part) := by
  cases part with
  | token sort value => exact hself.goesOn_of_opens (.token sort value) (forall_mem_nil _)
  | var v =>
      have hitself : v.itself (use v) = .var v := by
        rw [← (Term.uses_var_iff.1 huses).itself_eq, Variable.itself_of_not_isRest hplace hrest]
      refine hself.goesOn_of_poses (v := v) ?_
      rw [hitself]
      exact .bind v (.var v)
  | app label args =>
      refine hself.goesOn_of_opens (.app label rfl) ?_
      rw [zipWith_self, forall_mem_map]
      exact fun arg hmem => Obligation.reflexive_of_uses (Term.uses_app_iff.1 huses arg hmem)
  | sequence op items =>
      refine hself.goesOn_of_opens (.sequence op items rfl) (forall_mem_singleton.2 ?_)
      rw [Term.itemsOf_sequence]
      exact .items (Term.uses_sequence_iff.1 huses)
  | collection cells frame =>
      obtain ⟨hframe, hcells⟩ := Term.uses_collection_iff.1 huses
      exact hself.goesOn_of_opens (.collection cells frame cells frame)
        (forall_mem_singleton.2 (.cells rfl hframe hcells))

/-- A rest variable takes one item: the variable itself. -/
theorem goesOn_segment {op : Label} {v : Variable} (hrest : v.isRest = true)
    (hused : v.UsedAs use (.item op)) {items : List Term}
    (hitems : ∀ item ∈ items, item.Uses use (.item op)) :
    findings.GoesOn definition use (.items op (.var v :: items) (.var v :: items)) := by
  intro pending
  have hitself : v.itself (use v) = .sequence op [.var v] := by
    rw [← hused.itself_eq, Variable.itself, if_pos hrest]
  cases hget : findings.subst.get? v with
  | none =>
      have hfits : SegmentFits items (.var v :: items) 1 := by
        unfold SegmentFits Term.needed
        refine ⟨?_, fun hnone => ?_⟩
        · have hle := countP_le_length (p := fun item => !item.isRestVar) (l := items)
          rw [length_cons]
          omega
        · have hall : items.countP (fun item => !item.isRestVar) = items.length := by
            rw [countP_eq_length]
            exact fun item hmem => by simpa using any_eq_false.1 hnone item hmem
          rw [hall, length_cons, Nat.add_comm]
      exact ⟨findings.bindSegment op v [.var v], [.items op items items],
        (leads_freeSegment_iff findings pending hrest hget).2 ⟨1, hfits, rfl⟩,
        hself.push hget hitself.symm, forall_mem_singleton.2 (.items hitems)⟩
  | some value =>
      obtain rfl : value = .sequence op [.var v] := (hself.itself v value hget).trans hitself
      let later : List Obligation := .items op items items :: pending
      refine ⟨findings, [.items op items items], ⟨[findings.branch later], ?_, mem_cons_self⟩,
        hself, forall_mem_singleton.2 (.items hitems)⟩
      rw [advance_boundSegment findings pending hrest hget, Term.itemsOf_sequence]
      refine if_pos ?_
      rw [Bool.and_eq_true, decide_eq_true_eq]
      exact ⟨Nat.le_add_left 1 _, Term.list_beq_iff.2 (forall₂_same.2 fun _ _ => Term.beq_refl _)⟩

theorem goesOn_items {op : Label} {items : List Term}
    (hitems : ∀ item ∈ items, item.Uses use (.item op)) :
    findings.GoesOn definition use (.items op items items) := by
  cases items with
  | nil => exact hself.goesOn_of_opens (.exhausted op) (forall_mem_nil _)
  | cons item items =>
      obtain ⟨hitem, hothers⟩ := forall_mem_cons.1 hitems
      cases hrest : item.isRestVar with
      | true =>
          obtain ⟨v, rfl, hv⟩ := Term.exists_of_isRestVar hrest
          exact hself.goesOn_segment hv (Term.uses_var_iff.1 hitem) hothers
      | false =>
          exact hself.goesOn_of_opens (.item op items items hrest hrest)
            (forall_mem_cons.2 ⟨.term hitem (by rintro ⟨⟩) hrest,
              forall_mem_singleton.2 (.items hothers)⟩)

/-- A cell takes the first one that is left, which is the cell itself. -/
theorem goesOn_cells {cells : List (Cell Term)} {frame : Option Variable} {free : FreeCells}
    (hfree : free.toList = cells) (hframe : ∀ v, frame = some v → v.UsedAs use .frame)
    (hcells : ∀ cell ∈ cells, cell.content.Uses use .alone) :
    findings.GoesOn definition use (.cells cells frame free frame) := by
  cases cells with
  | nil =>
      cases frame with
      | none => exact hself.goesOn_of_opens (.closed hfree) (forall_mem_nil _)
      | some v =>
          have hitself : v.itself (use v) = .collection free.toList (some v) := by
            rw [← (hframe v rfl).itself_eq, Variable.itself, hfree]
          refine hself.goesOn_of_poses (v := v) ?_
          rw [hitself]
          exact .frame v free (some v)
  | cons cell cells =>
      obtain ⟨hcell, hothers⟩ := forall_mem_cons.1 hcells
      have hchoice : (cell, ⟨[], cells⟩) ∈ selections cell.name [] free.toList := by
        rw [hfree, selections, if_pos rfl]
        exact mem_cons_self
      intro pending
      refine ⟨findings.recordCell cell.id cell.id,
        [.term cell.content cell.content, .cells cells frame ⟨[], cells⟩ frame],
        (leads_cells_iff findings pending).2 ⟨cell, ⟨[], cells⟩, hchoice, rfl⟩,
        ⟨fun v value hget => ?_, hself.deferred, hself.constraints⟩,
        forall_mem_cons.2 ⟨Obligation.reflexive_of_uses hcell,
          forall_mem_singleton.2 (.cells rfl hframe hothers)⟩⟩
      rw [recordCell, Substitution.get?_recordCell] at hget
      exact hself.itself v value hget

theorem goesOn {obligation : Obligation} (hreflexive : obligation.Reflexive use) :
    findings.GoesOn definition use obligation := by
  cases hreflexive with
  | term huses hplace hrest => exact hself.goesOn_term huses hplace hrest
  | items hitems => exact hself.goesOn_items hitems
  | cells hfree hframe hcells => exact hself.goesOn_cells hfree hframe hcells

end Findings.BindsSelf

/-- A branch that binds variables to themselves reaches one that is accepted. -/
theorem Findings.BindsSelf.exists_accepted {branch : Branch}
    (hself : branch.findings.BindsSelf use) (definition : Definition)
    (hpending : ∀ obligation ∈ branch.pending, obligation.Reflexive use) :
    ∃ last, branch.Reaches definition last ∧ last.advance definition = .accepted ∧
      last.findings.BindsSelf use := by
  -- on the weight of what is left to match, which every step lowers
  induction hweight : branch.weight using Nat.strongRecOn generalizing branch with
  | _ weight ih =>
      obtain ⟨subst, pending, deferred, constraints⟩ := branch
      cases pending with
      | nil =>
          obtain rfl : deferred = [] := hself.deferred
          exact ⟨_, .refl, rfl, hself⟩
      | cons obligation pending =>
          obtain ⟨hfirst, hothers⟩ := forall_mem_cons.1 hpending
          have hgoes : Findings.GoesOn definition use ⟨subst, deferred, constraints⟩ obligation :=
            hself.goesOn hfirst
          obtain ⟨next, opened, hleads, hnext, hopened⟩ := hgoes pending
          obtain ⟨branches, hadvance, hmem⟩ := hleads
          have hnext : (next.branch (opened ++ pending)).findings.BindsSelf use := hnext
          have hlighter : (next.branch (opened ++ pending)).weight < weight :=
            hweight ▸ Branch.weight_lt_of_advance hadvance hmem
          obtain ⟨last, hreaches, haccepted, hlast⟩ :=
            ih _ hlighter hnext (forall_mem_append.2 ⟨hopened, hothers⟩) rfl
          exact ⟨last, .head ⟨branches, hadvance, hmem⟩ hreaches, haccepted, hlast⟩

/-- A term whose variables have one use each matches itself without an assumption, with every variable
bound to itself. -/
theorem Definition.exists_selfMatch (definition : Definition) {term : Term}
    (huses : term.Uses use .alone) :
    ∃ found ∈ (definition.matchPattern term term).found, found.constraints = .trivial ∧
      ∀ v value, found.subst.get? v = some value → value = v.itself (use v) := by
  have hself : (Branch.start term term).findings.BindsSelf use :=
    ⟨fun v value hget => (by cases hget), rfl, rfl⟩
  obtain ⟨last, hreaches, haccepted, hlast⟩ := hself.exists_accepted definition
    (forall_mem_singleton.2 (Obligation.reflexive_of_uses huses))
  exact ⟨last.result, mem_found_matchPattern_iff.2 ⟨last, hreaches, haccepted, rfl⟩,
    hlast.constraints, hlast.itself⟩

end SymbolicRewriting
