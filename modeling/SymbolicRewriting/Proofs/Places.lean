import SymbolicRewriting.Proofs.Congruence
import SymbolicRewriting.Proofs.Variables

/-!
Where variables stand in a term, and what they may be replaced by there. The instance of a flattened
term is what each of its parts becomes: an item may be replaced by several ones, if it is a rest
variable, and a frame by further cells.
-/

namespace SymbolicRewriting

open List

def Cell.instantiate (subst : Substitution) (cell : Cell Term) : Cell Term :=
  { cell with content := cell.content.instantiate subst }

namespace Term

theorem instantiate_var {subst : Substitution} {v : Variable} {term : Term}
    (hget : subst.get? v = some term) : (var v).instantiate subst = term := by
  rw [instantiate, hget, Option.getD_some]

theorem instantiate_collection_none (cells : List (Cell Term)) (subst : Substitution) :
    (collection cells none).instantiate subst =
      collection (cells.map (Cell.instantiate subst)) none := by
  rw [instantiate, instantiateCells_eq_map]
  rfl

theorem instantiate_collection_some {subst : Substitution} {v : Variable}
    {more : List (Cell Term)} {inner : Option Variable}
    (hget : subst.get? v = some (collection more inner)) (cells : List (Cell Term)) :
    (collection cells (some v)).instantiate subst =
      collection (cells.map (Cell.instantiate subst) ++ more) inner := by
  rw [instantiate, instantiateCells_eq_map, frameBinding, Option.bind_some, hget]
  rfl

/-- The frame adds the same cells and leaves the same frame, whatever the other cells are. -/
theorem exists_instantiate_collection (frame : Option Variable) (subst : Substitution) :
    ∃ more inner, ∀ cells, (collection cells frame).instantiate subst =
      collection (cells.map (Cell.instantiate subst) ++ more) inner := by
  obtain ⟨more, inner, hclose⟩ := exists_closeWith_eq frame (frameBinding subst frame)
  refine ⟨more, inner, fun cells => ?_⟩
  rw [instantiate, hclose, instantiateCells_eq_map]
  rfl

end Term

/-- A variable stands on its own, as an item of a sequence or as the frame of a collection. -/
inductive Place where
  | alone
  | item (op : Label)
  | frame
deriving DecidableEq, Repr

/-- What terms may be built from, besides tokens and applications. -/
structure Grammar where
  occurs : Variable → Place → Prop
  sequence : Label → Prop := fun _ => True
  collection : Prop := True

/-- All sequences and collections, with variables where they may stand. -/
@[simps]
def Grammar.over (occurs : Variable → Place → Prop) : Grammar := { occurs }

/-- Ground terms are built without variables. -/
def Grammar.ground : Grammar := .over fun _ _ => False

namespace Term

/-- Flattened terms of a grammar: no item of a sequence is a sequence over the same operator. -/
inductive Conforms (grammar : Grammar) : Place → Term → Prop
  | token {place : Place} (sort : SortName) (value : String) :
      Conforms grammar place (.token sort value)
  | var {place : Place} {v : Variable} (hoccurs : grammar.occurs v place) :
      Conforms grammar place (.var v)
  | app {place : Place} {label : Label} {args : List Term}
      (hargs : ∀ arg ∈ args, Conforms grammar .alone arg) : Conforms grammar place (.app label args)
  | sequence {place : Place} {op : Label} {items : List Term} (hplace : place ≠ .item op)
      (hop : grammar.sequence op) (hitems : ∀ item ∈ items, Conforms grammar (.item op) item) :
      Conforms grammar place (.sequence op items)
  | collection {place : Place} {cells : List (Cell Term)} {frame : Option Variable}
      (hcollection : grammar.collection) (hframe : ∀ v, frame = some v → grammar.occurs v .frame)
      (hcells : ∀ cell ∈ cells, Conforms grammar .alone cell.content) :
      Conforms grammar place (.collection cells frame)

section Forms

variable {grammar : Grammar} {place : Place}

@[simp]
theorem conforms_token (sort : SortName) (value : String) :
    (Term.token sort value).Conforms grammar place :=
  .token sort value

@[simp]
theorem conforms_var_iff {v : Variable} :
    (Term.var v).Conforms grammar place ↔ grammar.occurs v place := by
  constructor
  · rintro ⟨⟩
    assumption
  · exact .var

@[simp]
theorem conforms_app_iff {label : Label} {args : List Term} :
    (Term.app label args).Conforms grammar place ↔ ∀ arg ∈ args, arg.Conforms grammar .alone := by
  constructor
  · rintro ⟨⟩
    assumption
  · exact .app

@[simp]
theorem conforms_sequence_iff {op : Label} {items : List Term} :
    (Term.sequence op items).Conforms grammar place ↔
      place ≠ .item op ∧ grammar.sequence op ∧ ∀ item ∈ items, item.Conforms grammar (.item op) := by
  constructor
  · rintro ⟨⟩
    exact ⟨‹_›, ‹_›, ‹_›⟩
  · exact fun ⟨hplace, hop, hitems⟩ => .sequence hplace hop hitems

@[simp]
theorem conforms_collection_iff {cells : List (Cell Term)} {frame : Option Variable} :
    (Term.collection cells frame).Conforms grammar place ↔
      grammar.collection ∧ (∀ v, frame = some v → grammar.occurs v .frame) ∧
        ∀ cell ∈ cells, cell.content.Conforms grammar .alone := by
  constructor
  · rintro ⟨⟩
    exact ⟨‹_›, ‹_›, ‹_›⟩
  · exact fun ⟨hcollection, hframe, hcells⟩ => .collection hcollection hframe hcells

end Forms

def Flattened (term : Term) : Prop := term.Conforms (.over fun _ _ => True) .alone

namespace Conforms

variable {grammar : Grammar} {place : Place}

theorem mono {other : Grammar} {term : Term} (hterm : term.Conforms grammar place)
    (hoccurs : ∀ v place, grammar.occurs v place → other.occurs v place)
    (hsequence : ∀ op, grammar.sequence op → other.sequence op)
    (hcollection : grammar.collection → other.collection) : term.Conforms other place := by
  induction hterm with
  | token sort value => exact .token sort value
  | var hvar => exact .var (hoccurs _ _ hvar)
  | app _ ih => exact .app ih
  | sequence hplace hop _ ih => exact .sequence hplace (hsequence _ hop) ih
  | collection hcollects hframe _ ih =>
      exact .collection (hcollection hcollects) (fun v heq => hoccurs v .frame (hframe v heq)) ih

theorem isSequenceOver_eq_false {op : Label} {term : Term}
    (hterm : term.Conforms grammar (.item op)) : term.isSequenceOver op = false := by
  cases hterm with
  | token _ _ | var _ | app _ | collection _ _ _ => rfl
  | @sequence _ inner _ hplace _ _ =>
      rw [isSequenceOver, beq_eq_false_iff_ne]
      rintro rfl
      exact hplace rfl

theorem any_isSequenceOver_eq_false {op : Label} {items : List Term}
    (hitems : ∀ item ∈ items, item.Conforms grammar (.item op)) :
    items.any (isSequenceOver op) = false := by
  rw [List.any_eq_false]
  intro item hmem
  rw [(hitems item hmem).isSequenceOver_eq_false]
  exact Bool.false_ne_true

/-- The place of a term that is not a variable matters only if it is a sequence. -/
theorem elsewhere {term : Term} (hterm : term.Conforms grammar place) (hvar : term.asVar = none)
    {other : Place} (hother : ∀ op, other = .item op → term.isSequenceOver op = false) :
    term.Conforms grammar other := by
  cases hterm with
  | token sort value => exact .token sort value
  | var _ => cases hvar
  | app hargs => exact .app hargs
  | @sequence _ op _ _ hop hitems =>
      refine .sequence (fun heq => ?_) hop hitems
      have hsame := hother op heq
      rw [isSequenceOver, beq_self_eq_true] at hsame
      cases hsame
  | collection hcollection hframe hcells => exact .collection hcollection hframe hcells

theorem alone {term : Term} (hterm : term.Conforms grammar place) (hvar : term.asVar = none) :
    term.Conforms grammar .alone :=
  hterm.elsewhere hvar fun _ heq => by cases heq

theorem itemsOf {op : Label} {term : Term} (hterm : term.Conforms grammar place)
    (hvar : term.asVar = none) :
    ∀ item ∈ term.itemsOf op, item.Conforms grammar (.item op) := by
  cases hover : term.isSequenceOver op with
  | false =>
      rw [itemsOf_of_not_isSequenceOver hover, List.forall_mem_singleton]
      exact hterm.elsewhere hvar fun _ heq => by
        cases heq
        exact hover
  | true =>
      cases hterm with
      | @sequence _ inner items _ _ hitems =>
          obtain rfl : inner = op := by simpa [isSequenceOver] using hover
          simpa [Term.itemsOf] using hitems
      | token _ _ | var _ | app _ | collection _ _ _ => cases hover

theorem sequence_of_items {op : Label} {items : List Term} (hop : grammar.sequence op)
    (hitems : ∀ item ∈ items, item.Conforms grammar (.item op)) :
    (Term.sequence op items).Conforms grammar .alone :=
  .sequence (by rintro ⟨⟩) hop hitems

theorem flatten_eq {op : Label} {items : List Term}
    (hitems : ∀ item ∈ items, item.Conforms grammar (.item op)) :
    flatten op items = .sequence op items := by
  rw [Term.flatten_eq, flatMap_itemsOf_eq_self (any_isSequenceOver_eq_false hitems)]

/-- Without a variable that is bound, a flattened term stays as it is. -/
theorem instantiate_eq_self {term : Term} (hterm : term.Conforms grammar place)
    {subst : Substitution} (hunbound : ∀ v place, grammar.occurs v place → subst.get? v = none) :
    term.instantiate subst = term := by
  induction hterm with
  | token _ _ => rfl
  | var hoccurs => rw [instantiate, hunbound _ _ hoccurs, Option.getD_none]
  | app _ ih => rw [instantiate, instantiateAll_eq_map, map_congr_left ih, map_id']
  | sequence _ _ hitems ih =>
      rw [instantiate, instantiateAll_eq_map, map_congr_left ih, map_id', flatten_eq hitems]
  | @collection _ cells frame _ hframe _ ih =>
      have hbinding : frameBinding subst frame = none := by
        cases frame with
        | none => rfl
        | some v => exact hunbound v .frame (hframe v rfl)
      have hcells : cells.map (Cell.instantiate subst) = cells := by
        refine (map_congr_left fun cell hmem => ?_).trans (map_id' cells)
        rw [Cell.instantiate, ih cell hmem]
      rw [instantiate, instantiateCells_eq_map, hbinding]
      exact congrArg (fun others => Term.collection others frame) hcells

theorem applySubst_eq {term : Term} (hterm : term.Conforms grammar place) (subst : Substitution) :
    term.applySubst subst = term.instantiate subst := by
  unfold applySubst
  split
  · rename_i hempty
    rw [hterm.instantiate_eq_self fun v _ _ => ?_]
    rw [Substitution.get?, List.isEmpty_iff.1 hempty]
    rfl
  · rfl

end Conforms

theorem conforms_ground_iff {place : Place} {term : Term} :
    term.Conforms .ground place ↔
      term.Conforms (.over fun _ _ => True) place ∧ term.isGround = true := by
  rw [isGround_eq_all_subterms, List.all_eq_true]
  constructor
  · intro hterm
    refine ⟨hterm.mono (fun _ _ _ => True.intro) (fun _ _ => True.intro) fun _ => True.intro, ?_⟩
    induction hterm with
    | token _ _ => simp [subterms, rootVariable]
    | var hoccurs => exact hoccurs.elim
    | app _ ih | sequence _ _ _ ih =>
        rw [subterms, List.forall_mem_cons]
        refine ⟨rfl, fun part hpart => ?_⟩
        obtain ⟨child, hchild, hmem⟩ := mem_subtermsAll_iff.1 hpart
        exact ih child hchild part hmem
    | @collection _ cells frame _ hframe _ ih =>
        rw [subterms, List.forall_mem_cons, subtermsCells_eq]
        constructor
        · cases frame with
          | none => rfl
          | some v => exact (hframe v rfl).elim
        · intro part hpart
          obtain ⟨child, hchild, hmem⟩ := mem_subtermsAll_iff.1 hpart
          obtain ⟨cell, hcell, rfl⟩ := List.mem_map.1 hchild
          exact ih cell hcell part hmem
  · rintro ⟨hterm, hground⟩
    induction hterm with
    | token sort value => exact .token sort value
    | var _ =>
        rw [subterms, List.forall_mem_singleton] at hground
        cases hground
    | app _ ih =>
        refine .app fun arg hmem => ih arg hmem fun part hpart => hground part ?_
        rw [subterms]
        exact List.mem_cons_of_mem _ (mem_subtermsAll_iff.2 ⟨arg, hmem, hpart⟩)
    | sequence hplace _ _ ih =>
        refine .sequence hplace True.intro fun item hmem => ih item hmem fun part hpart =>
          hground part ?_
        rw [subterms]
        exact List.mem_cons_of_mem _ (mem_subtermsAll_iff.2 ⟨item, hmem, hpart⟩)
    | @collection _ cells frame _ _ _ ih =>
        refine .collection True.intro (fun v heq => ?_) fun cell hmem =>
          ih cell hmem fun part hpart => hground part ?_
        · have hframe := hground _ (self_mem_subterms _)
          rw [heq] at hframe
          cases hframe
        · rw [subterms, subtermsCells_eq]
          exact List.mem_cons_of_mem _
            (mem_subtermsAll_iff.2 ⟨cell.content, List.mem_map_of_mem hmem, hpart⟩)

theorem Conforms.instantiate_ground {place : Place} {term : Term}
    (hterm : term.Conforms .ground place) (subst : Substitution) :
    term.instantiate subst = term :=
  hterm.instantiate_eq_self fun _ _ hoccurs => hoccurs.elim

end Term

/-- A term that a variable may stand for: one item, unless it is a rest variable, and as a frame the
cells that a closed collection has. -/
def Place.Takes (v : Variable) (value : Term) : Place → Prop
  | alone => v.isRest = false
  | item op => value.isSequenceOver op = v.isRest
  | frame => ∃ cells, value = .collection cells none

/-- The variable is bound to a flattened ground term that fits into its place. -/
def Substitution.Fills (subst : Substitution) (v : Variable) (place : Place) : Prop :=
  ∃ value, subst.get? v = some value ∧ value.Flattened ∧ value.isGround = true ∧ place.Takes v value

namespace Term

/-- The items that the instances of the given ones contribute to a sequence. -/
def spread (op : Label) (subst : Substitution) (items : List Term) : List Term :=
  items.flatMap fun item => itemsOf op (item.instantiate subst)

section Spread

variable (op : Label) (subst : Substitution)

theorem spread_nil : spread op subst [] = [] :=
  rfl

theorem spread_cons (item : Term) (items : List Term) :
    spread op subst (item :: items) = itemsOf op (item.instantiate subst) ++ spread op subst items :=
  flatMap_cons

theorem spread_append (items others : List Term) :
    spread op subst (items ++ others) = spread op subst items ++ spread op subst others :=
  flatMap_append

theorem spread_take_append_drop (count : Nat) (items : List Term) :
    spread op subst (items.take count) ++ spread op subst (items.drop count) =
      spread op subst items := by
  rw [← spread_append, List.take_append_drop]

theorem instantiate_sequence (items : List Term) :
    (sequence op items).instantiate subst = sequence op (spread op subst items) := by
  rw [instantiate, instantiateAll_eq_map, flatten_eq, flatMap_map]
  rfl

theorem instantiate_flatten_eq (items : List Term) :
    (flatten op items).instantiate subst = sequence op (spread op subst items) := by
  rw [instantiate_flatten, flatten_eq, flatMap_map]
  rfl

theorem spread_itemsOf (term : Term) :
    spread op subst (itemsOf op term) = itemsOf op (term.instantiate subst) := by
  rw [← itemsOf_instantiate, flatMap_map]
  rfl

theorem forall₂_spread {items others : List Term} (hequal : Forall₂ EqualTo items others) :
    Forall₂ EqualTo (spread op subst items) (spread op subst others) := by
  induction hequal with
  | nil => exact .nil
  | cons hfirst _ ih =>
      rw [spread_cons, spread_cons]
      exact rel_append (forall₂_itemsOf op (hfirst.instantiate subst)) ih

end Spread

/-- The form that a term which is not a variable shares with its instance. -/
inductive InstanceForm (subst : Substitution) : Term → Term → Prop
  | token (sort : SortName) (value : String) :
      InstanceForm subst (token sort value) (token sort value)
  | app (label : Label) (args : List Term) :
      InstanceForm subst (app label args) (app label (args.map (instantiate subst)))
  | sequence (op : Label) (items : List Term) :
      InstanceForm subst (sequence op items) (sequence op (spread op subst items))
  | collection (cells : List (Cell Term)) (frame : Option Variable) (more : List (Cell Term))
      (inner : Option Variable) :
      InstanceForm subst (collection cells frame)
        (collection (cells.map (Cell.instantiate subst) ++ more) inner)

theorem instanceForm_of_asVar {term : Term} (hvar : term.asVar = none) (subst : Substitution) :
    InstanceForm subst term (term.instantiate subst) := by
  cases term with
  | token sort value => exact .token sort value
  | var _ => cases hvar
  | app label args =>
      rw [instantiate, instantiateAll_eq_map]
      exact .app label args
  | sequence op items =>
      rw [instantiate_sequence]
      exact .sequence op items
  | collection cells frame =>
      obtain ⟨more, inner, hinstance⟩ := exists_instantiate_collection frame subst
      rw [hinstance]
      exact .collection cells frame more inner

theorem isSequenceOver_instantiate {term : Term} (hvar : term.asVar = none) (op : Label)
    (subst : Substitution) :
    (term.instantiate subst).isSequenceOver op = term.isSequenceOver op := by
  have hform := instanceForm_of_asVar hvar subst
  generalize term.instantiate subst = value at hform ⊢
  cases hform <;> rfl

theorem itemsOf_instantiate_of_asVar {op : Label} {term : Term} (hvar : term.asVar = none)
    (hover : term.isSequenceOver op = false) (subst : Substitution) :
    itemsOf op (term.instantiate subst) = [term.instantiate subst] :=
  itemsOf_of_not_isSequenceOver ((isSequenceOver_instantiate hvar op subst).trans hover)

namespace Conforms

variable {grammar : Grammar} {place : Place} {subst : Substitution}

theorem isGround_eq_true_of_ground {term : Term} (hterm : term.Conforms .ground place) :
    term.isGround = true :=
  (conforms_ground_iff.1 hterm).2

theorem asVar_of_ground {term : Term} (hterm : term.Conforms .ground place) :
    term.asVar = none := by
  cases hterm with
  | var hoccurs => exact hoccurs.elim
  | token _ _ | app _ | sequence _ _ _ | collection _ _ _ => rfl

/-- The instance of a flattened term is flattened and ground, if each variable is filled. -/
theorem instantiate_conforms {term : Term} (hterm : term.Conforms grammar place)
    (hfills : ∀ v place, grammar.occurs v place → subst.Fills v place) :
    (term.instantiate subst).Conforms .ground .alone := by
  induction hterm with
  | token sort value => exact .token sort value
  | var hoccurs =>
      obtain ⟨value, hget, hflattened, hground, -⟩ := hfills _ _ hoccurs
      rw [instantiate_var hget]
      exact conforms_ground_iff.2 ⟨hflattened, hground⟩
  | app _ ih =>
      rw [instantiate, instantiateAll_eq_map]
      exact .app (List.forall_mem_map.2 ih)
  | sequence _ _ _ ih =>
      rw [instantiate_sequence]
      refine sequence_of_items True.intro fun part hpart => ?_
      obtain ⟨item, hmem, hpart⟩ := List.mem_flatMap.1 hpart
      exact (ih item hmem).itemsOf (ih item hmem).asVar_of_ground part hpart
  | @collection _ cells frame _ hframe _ ih =>
      have hcells : ∀ cell ∈ cells.map (Cell.instantiate subst),
          cell.content.Conforms .ground .alone := List.forall_mem_map.2 ih
      cases frame with
      | none =>
          rw [instantiate_collection_none]
          exact .collection True.intro (fun v heq => by cases heq) hcells
      | some v =>
          obtain ⟨value, hget, hflattened, hground, more, rfl⟩ := hfills v .frame (hframe v rfl)
          have hvalue := conforms_ground_iff.2 ⟨hflattened, hground⟩
          rw [instantiate_collection_some hget]
          cases hvalue with
          | collection _ hinner hmore =>
              exact .collection True.intro hinner (List.forall_mem_append.2 ⟨hcells, hmore⟩)

/-- An item that is no rest variable contributes its instance. -/
theorem itemsOf_instantiate_eq {op : Label} {item : Term} (hitem : item.Conforms grammar (.item op))
    (hfills : ∀ v place, grammar.occurs v place → subst.Fills v place)
    (hrest : item.isRestVar = false) :
    Term.itemsOf op (item.instantiate subst) = [item.instantiate subst] := by
  cases hvar : item.asVar with
  | none => exact itemsOf_instantiate_of_asVar hvar hitem.isSequenceOver_eq_false subst
  | some v =>
      cases hitem with
      | @var _ w hoccurs =>
          obtain ⟨value, hget, -, -, htakes⟩ := hfills w _ hoccurs
          rw [instantiate_var hget]
          exact itemsOf_of_not_isSequenceOver (htakes.trans hrest)
      | token _ _ | app _ | sequence _ _ _ | collection _ _ _ => cases hvar

end Conforms

end Term

end SymbolicRewriting
