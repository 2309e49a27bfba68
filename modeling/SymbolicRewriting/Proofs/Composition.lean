import SymbolicRewriting.Proofs.FlatSequences
import SymbolicRewriting.Proofs.MatchSoundness
import SymbolicRewriting.Proofs.Recovery
import SymbolicRewriting.Proofs.Renamings

/-!
# One substitution after another

Applying two substitutions one after the other is applying their composition, although splicing changes
the number of items and of cells. What could go wrong are frames: one that is bound to anything but a
collection or a variable keeps its name, which the second substitution may bind, and one that another
variable has replaced may keep that name. Parts in which nothing is bound may be kept as they are.
-/

namespace SymbolicRewriting

open List

/-! ### Keeping what does not change -/

section Sharing

variable {α : Type}

/-- A list with a new member at its front or after it, and nothing if there is no new member. -/
def rebuiltCons (x : α) (xs : List α) : Option α → Option (List α) → Option (List α)
  | none, none => none
  | first, others => some (first.getD x :: others.getD xs)

theorem getD_rebuiltCons (x : α) (xs : List α) (first : Option α) (others : Option (List α)) :
    (rebuiltCons x xs first others).getD (x :: xs) = first.getD x :: others.getD xs := by
  cases first <;> cases others <;> rfl

end Sharing

namespace Term

mutual

/-- The instance of a term in which something is bound, and nothing otherwise. A sequence is spliced
again only if one of its items is new. -/
def rebuild? (subst : Substitution) : Term → Option Term
  | token _ _ => none
  | var v => subst.get? v
  | app label args => (rebuildAll? subst args).map (app label)
  | sequence op items => (rebuildAll? subst items).map (flatten op)
  | collection cells frame =>
      match rebuildCells? subst cells, frameBinding subst frame with
      | none, none => none
      | rebuilt, bound => some (closeWith (rebuilt.getD cells) frame bound)

def rebuildAll? (subst : Substitution) : List Term → Option (List Term)
  | [] => none
  | term :: terms => rebuiltCons term terms (rebuild? subst term) (rebuildAll? subst terms)

def rebuildCells? (subst : Substitution) : List (Cell Term) → Option (List (Cell Term))
  | [] => none
  | ⟨id, name, content⟩ :: cells =>
      rebuiltCons ⟨id, name, content⟩ cells ((rebuild? subst content).map (⟨id, name, ·⟩))
        (rebuildCells? subst cells)

end

section Rebuild

variable {subst : Substitution}

theorem getD_rebuildAll? (terms : List Term) : (rebuildAll? subst terms).getD terms =
    terms.map fun term => (term.rebuild? subst).getD term := by
  induction terms with
  | nil => rfl
  | cons term terms ih => rw [rebuildAll?, getD_rebuiltCons, ih, map_cons]

theorem getD_rebuildCells? (cells : List (Cell Term)) : (rebuildCells? subst cells).getD cells =
    cells.map fun cell => { cell with content := (cell.content.rebuild? subst).getD cell.content } := by
  induction cells with
  | nil => rfl
  | cons cell cells ih =>
      obtain ⟨id, name, content⟩ := cell
      rw [rebuildCells?, getD_rebuiltCons, ih, map_cons]
      cases content.rebuild? subst <;> rfl

/-- By induction on the flattened term: a sequence that is kept need not be spliced again. -/
theorem Conforms.getD_rebuild? {grammar : Grammar} {place : Place} {term : Term}
    (hterm : term.Conforms grammar place) :
    (term.rebuild? subst).getD term = term.instantiate subst := by
  induction hterm with
  | token _ _ => rfl
  | var _ => rfl
  | @app _ label args _ ih =>
      have hargs := (getD_rebuildAll? args).trans (map_congr_left ih)
      rw [rebuild?, instantiate_app, ← hargs]
      cases rebuildAll? subst args <;> rfl
  | @sequence _ op items _ _ hitems ih =>
      have hrebuilt := (getD_rebuildAll? items).trans (map_congr_left ih)
      rw [rebuild?, instantiate, instantiateAll_eq_map, ← hrebuilt]
      cases rebuildAll? subst items with
      | none => exact (flatten_eq hitems).symm
      | some _ => rfl
  | @collection _ cells frame _ _ _ ih =>
      have hcells : (rebuildCells? subst cells).getD cells = instantiateCells subst cells := by
        rw [getD_rebuildCells?, instantiateCells_eq_map]
        exact map_congr_left fun cell hmem => by rw [ih cell hmem]
      rw [rebuild?, instantiate, ← hcells]
      cases rebuildCells? subst cells <;> cases frameBinding subst frame <;> rfl

/-- On flattened terms it makes no difference that unchanged parts are kept. -/
theorem Flattened.applySubst_eq_rebuild? {term : Term} (hterm : term.Flattened)
    (subst : Substitution) : term.applySubst subst = (term.rebuild? subst).getD term :=
  (Conforms.applySubst_eq hterm subst).trans (Conforms.getD_rebuild? hterm).symm

end Rebuild

end Term

/-! ### Composition -/

/-- These terms can take the place of a frame. -/
inductive Term.FitsFrame : Term → Prop
  | collection (cells : List (Cell Term)) (frame : Option Variable) : FitsFrame (.collection cells frame)
  | var (v : Variable) : FitsFrame (.var v)

namespace Substitution

/-- The one substitution binds the variables of the first one to the instances, under the second one,
of what they are bound to, and other variables as the second one does. -/
def Composes (both first second : Substitution) : Prop :=
  ∀ v, both.get? v = ((first.get? v).map fun value => value.applySubst second).or (second.get? v)

def composedWith (first second : Substitution) : Substitution :=
  { first.andThen second with
    bindings := (first.andThen second).bindings ++
      second.bindings.filter fun binding => !first.isBound binding.1 }

theorem composes_composedWith (first second : Substitution) :
    (first.composedWith second).Composes first second := by
  intro v
  have hothers : first.get? v = none →
      ((second.bindings.filter fun binding => !first.isBound binding.1).find?
        fun binding => binding.1 == v) = second.bindings.find? fun binding => binding.1 == v := by
    intro hunbound
    rw [find?_filter]
    congr 1
    funext binding
    cases hkey : binding.1 == v with
    | false => simp
    | true => simp [beq_iff_eq.1 hkey, isBound, hunbound]
  rw [← get?_andThen, get?, composedWith, find?_append, Option.map_or]
  cases hget : (first.andThen second).get? v with
  | some value =>
      rw [get?] at hget
      rw [hget]
      rfl
  | none =>
      have hunbound := hget
      rw [get?_andThen, Option.map_eq_none_iff] at hunbound
      rw [get?] at hget
      rw [hget, hothers hunbound]
      rfl

/-- The frame `v` becomes the same in two steps as in one. -/
structure FramesCompose (first second : Substitution) (v : Variable) : Prop where
  kept : ∀ value, first.get? v = some value → ¬value.FitsFrame →
    ∀ other, second.get? v = some other → ¬other.FitsFrame
  replaced : ∀ w, first.get? v = some (.var w) → ∀ value, second.get? w = some value → value.FitsFrame

end Substitution

namespace Term

theorem closeWith_of_not_fitsFrame {bound : Term} (hbound : ¬bound.FitsFrame)
    (cells : List (Cell Term)) (frame : Option Variable) :
    closeWith cells frame (some bound) = collection cells frame := by
  cases bound with
  | collection more inner => exact absurd (.collection more inner) hbound
  | var v => exact absurd (.var v) hbound
  | token _ _ | app _ _ | sequence _ _ => rfl

theorem applySubst_collection_some (cells : List (Cell Term)) (v : Variable) (subst : Substitution) :
    (collection cells (some v)).applySubst subst =
      closeWith (cells.map (instantiateCell subst)) (some v) (subst.get? v) := by
  by_cases hempty : subst.bindings.isEmpty = true
  · have hcells : cells.map (instantiateCell subst) = cells := by
      refine (map_congr_left fun cell _ => ?_).trans (map_id _)
      rw [instantiateCell, applySubst, if_pos hempty, id]
    rw [applySubst, if_pos hempty, hcells, Substitution.get?, List.isEmpty_iff.1 hempty]
    rfl
  · have hcells : cells.map (instantiateCell subst) = cells.map (Cell.instantiate subst) := by
      refine map_congr_left fun cell _ => ?_
      rw [instantiateCell, applySubst, if_neg hempty, Cell.instantiate]
    rw [applySubst, if_neg hempty, instantiate, instantiateCells_eq_map, hcells]
    rfl

theorem not_fitsFrame_applySubst {term : Term} (hterm : ¬term.FitsFrame) (subst : Substitution) :
    ¬(term.applySubst subst).FitsFrame := by
  cases term with
  | collection cells frame => exact absurd (.collection cells frame) hterm
  | var v => exact absurd (.var v) hterm
  | token sort value =>
      rw [applySubst_token]
      exact nofun
  | app label args =>
      rw [applySubst_app]
      exact nofun
  | sequence op items =>
      unfold applySubst
      split
      · exact nofun
      · rw [instantiate_sequence]
        exact nofun

section Composition

variable {first second both : Substitution} (hboth : both.Composes first second)
include hboth

theorem applySubst_closeWith {v : Variable} (hframe : first.FramesCompose second v)
    (cells : List (Cell Term)) :
    (closeWith cells (some v) (first.get? v)).applySubst second =
      closeWith (cells.map (instantiateCell second)) (some v) (both.get? v) := by
  rw [hboth v]
  cases hget : first.get? v with
  | none => exact applySubst_collection_some cells v second
  | some value =>
      by_cases hfits : value.FitsFrame
      · cases hfits with
        | collection more inner =>
            obtain ⟨last, outer, happly⟩ := exists_applySubst_collection inner second
            change (collection (cells ++ more) inner).applySubst second =
              closeWith _ _ (some ((collection more inner).applySubst second))
            rw [happly, happly, map_append, append_assoc]
            rfl
        | var w =>
            have hw := hframe.replaced w hget
            change (collection cells (some w)).applySubst second =
              closeWith _ _ (some ((var w).applySubst second))
            rw [applySubst_collection_some, applySubst_var]
            cases hbound : second.get? w with
            | none => rfl
            | some bound => cases hw bound hbound <;> rfl
      · have hkept := hframe.kept value hget hfits
        change _ = closeWith _ _ (some (value.applySubst second))
        rw [closeWith_of_not_fitsFrame hfits, applySubst_collection_some,
          closeWith_of_not_fitsFrame (not_fitsFrame_applySubst hfits second)]
        cases hbound : second.get? v with
        | none => rfl
        | some bound => exact closeWith_of_not_fitsFrame (hkept bound hbound) _ _

/-- By induction on the term: splicing in two steps is splicing once. -/
theorem applySubst_instantiate_of_composes {term : Term}
    (hframes : ∀ v, term.ClosedBy v → first.FramesCompose second v) :
    (term.instantiate first).applySubst second = term.instantiate both := by
  induction term using nestedInduction with
  | token sort value => exact applySubst_token sort value second
  | var v =>
      rw [instantiate, instantiate, hboth v]
      cases first.get? v with
      | none => exact applySubst_var v second
      | some value => rfl
  | app label args ih =>
      rw [instantiate_app, instantiate_app, applySubst_app, map_map]
      refine congrArg (app label) (map_congr_left fun arg hmem => ih arg hmem fun v hv => ?_)
      exact hframes v (hv.of_mem_subterms
        (mem_subterms_of_mem_children (self_mem_subterms _) hmem))
  | sequence op items ih =>
      rw [instantiate, instantiate, instantiateAll_eq_map, instantiateAll_eq_map, applySubst_flatten,
        map_map]
      refine congrArg (flatten op) (map_congr_left fun item hmem => ih item hmem fun v hv => ?_)
      exact hframes v (hv.of_mem_subterms
        (mem_subterms_of_mem_children (self_mem_subterms _) hmem))
  | collection cells frame ih =>
      have hcells : (cells.map (Cell.instantiate first)).map (instantiateCell second) =
          cells.map (Cell.instantiate both) := by
        rw [map_map]
        refine map_congr_left fun cell hmem => ?_
        have hcontent := ih cell hmem fun v hv => hframes v (hv.of_mem_subterms
          (mem_subterms_of_mem_children (self_mem_subterms _) (mem_map_of_mem hmem)))
        rw [Function.comp_apply, instantiateCell, Cell.instantiate, hcontent, Cell.instantiate]
      cases frame with
      | none =>
          rw [instantiate_collection_none, instantiate_collection_none, applySubst_collection_none,
            hcells]
      | some v =>
          have hclosed := applySubst_closeWith hboth (hframes v ⟨cells, self_mem_subterms _⟩)
            (cells.map (Cell.instantiate first))
          rw [hcells] at hclosed
          rw [instantiate, instantiate, instantiateCells_eq_map, instantiateCells_eq_map]
          exact hclosed

theorem Flattened.applySubst_applySubst {term : Term} (hterm : term.Flattened)
    (hframes : ∀ v, term.ClosedBy v → first.FramesCompose second v) :
    (term.applySubst first).applySubst second = term.applySubst both := by
  rw [Conforms.applySubst_eq hterm, Conforms.applySubst_eq hterm]
  exact applySubst_instantiate_of_composes hboth hframes

end Composition

theorem Flattened.applySubst_eq_self {term : Term} (hterm : term.Flattened) {subst : Substitution}
    (hunbound : ∀ v ∈ term.vars, subst.isBound v = false) : term.applySubst subst = term := by
  rw [Conforms.applySubst_eq hterm]
  have hrestricted := Conforms.restrict hterm hunbound
  exact hrestricted.instantiate_eq_self fun v _ hoccurs =>
    Option.not_isSome_iff_eq_none.1 (ne_true_of_eq_false hoccurs.1)

end Term

namespace Substitution

/-- No bound variable occurs in a bound value. -/
def Closed (subst : Substitution) : Prop :=
  ∀ v value, subst.get? v = some value → ∀ w ∈ value.vars, subst.isBound w = false

variable {subst : Substitution}

theorem Closed.composes (hclosed : subst.Closed) (hsubst : subst.Flattened) :
    subst.Composes subst subst := by
  intro v
  cases hget : subst.get? v with
  | none => rfl
  | some value =>
      rw [Option.map_some, Option.some_or,
        (hsubst v value hget).applySubst_eq_self (hclosed v value hget)]

theorem Closed.framesCompose (hclosed : subst.Closed) (v : Variable) :
    subst.FramesCompose subst v where
  kept value hget hfits other hother := by
    cases hget.symm.trans hother
    exact hfits
  replaced w hget value hvalue := by
    have hunbound := hclosed v _ hget w (Term.mem_vars_iff.2 ⟨_, Term.self_mem_subterms _, rfl⟩)
    rw [isBound, hvalue] at hunbound
    cases hunbound

/-- Substitutions compose on flattened terms: one after the other has the same effect as their
composition, if each frame of the term is bound to a collection or a variable, if at all, and so is a
variable that the first substitution puts in the place of a frame. A substitution that binds no variable
in what it binds has no further effect when it is applied again. Parts in which nothing is bound may be
kept as they are. -/
theorem substitutions_compose :
    (∀ first second : Substitution, (first.composedWith second).Composes first second) ∧
    (∀ (term : Term) (first second both : Substitution), term.Flattened → first.Flattened →
      second.Flattened → both.Composes first second →
      (∀ v value, term.ClosedBy v → first.get? v = some value → value.FitsFrame) →
      (∀ v w value, term.ClosedBy v → first.get? v = some (.var w) → second.get? w = some value →
        value.FitsFrame) →
      (term.applySubst first).Flattened ∧
        (term.applySubst first).applySubst second = term.applySubst both ∧
        (term.applySubst both).Flattened) ∧
    (∀ (term : Term) (subst : Substitution), term.Flattened → subst.Flattened → subst.Closed →
      (term.applySubst subst).applySubst subst = term.applySubst subst) ∧
    ∀ (term : Term) (subst : Substitution), term.Flattened →
      term.applySubst subst = (term.rebuild? subst).getD term := by
  refine ⟨composes_composedWith, ?twice, ?again, fun _ subst hterm => hterm.applySubst_eq_rebuild? subst⟩
  case twice =>
    intro term first second both hterm hfirst hsecond hboth hframes hreplaced
    have hinstance := hterm.applySubst hfirst
    have hcompose := hterm.applySubst_applySubst hboth fun v hclosed =>
      ⟨fun value hget hfits => absurd (hframes v value hclosed hget) hfits,
        fun w hget value => hreplaced v w value hclosed hget⟩
    exact ⟨hinstance, hcompose, hcompose ▸ hinstance.applySubst hsecond⟩
  case again =>
    intro term subst hterm hsubst hclosed
    exact hterm.applySubst_applySubst (hclosed.composes hsubst) fun v _ => hclosed.framesCompose v

end Substitution

namespace Enclosing

def task : Variable := ⟨"X", Symbol.top, .rest⟩

def value : Variable := ⟨"Y", Symbol.top, .plain⟩

def inner : Variable := ⟨"F", Symbol.top, .rest⟩

def middle : Variable := ⟨"M", Symbol.top, .rest⟩

def outer : Variable := ⟨"G", Symbol.top, .rest⟩

/-- A task in front of the last one, and a collection in a collection. -/
def term : Term :=
  .collection [⟨0, "k", .sequence Symbol.sequencing [.var task, .app "end" []]⟩,
    ⟨1, "threads", .collection [⟨2, "env", .var value⟩] (some inner)⟩] (some middle)

/-- The task is two of them, and the collections stay open: one frame is renamed. -/
def first : Substitution where
  bindings := [(task, .sequence Symbol.sequencing [.app "set" [.var value], .var value]),
    (inner, .collection [⟨3, "in", .var value⟩] (some outer)), (middle, .var outer)]

/-- What is open is filled, with a sequence where there was one item. -/
def second : Substitution where
  bindings := [(value, .sequence Symbol.sequencing [.string "a", .string "b"]),
    (outer, .collection [⟨4, "out", .string "c"⟩] none)]

theorem substitutions_compose_enclosing :
    (term.applySubst first).applySubst second = term.applySubst (first.composedWith second) ∧
    term.applySubst (first.composedWith second) = .collection
      [⟨0, "k", .sequence Symbol.sequencing
          [.app "set" [.sequence Symbol.sequencing [.string "a", .string "b"]], .string "a",
            .string "b", .app "end" []]⟩,
        ⟨1, "threads", .collection
          [⟨2, "env", .sequence Symbol.sequencing [.string "a", .string "b"]⟩,
            ⟨3, "in", .sequence Symbol.sequencing [.string "a", .string "b"]⟩,
            ⟨4, "out", .string "c"⟩] none⟩,
        ⟨4, "out", .string "c"⟩] none ∧
    (term.applySubst second).applySubst second = term.applySubst second ∧
    term.applySubst first = (term.rebuild? first).getD term := by
  obtain ⟨hcomposes, htwice, hagain, hrebuild⟩ := Substitution.substitutions_compose
  have hterm : term.Flattened := by decide +kernel
  have hfirst : first.Flattened := Substitution.flattened_of_bindings (by decide +kernel)
  have hsecond : second.Flattened := Substitution.flattened_of_bindings (by decide +kernel)
  have hclosed : second.Closed := by
    intro v bound hget
    have hbindings : ∀ binding ∈ second.bindings, ∀ w ∈ binding.2.vars, second.isBound w = false := by
      decide +kernel
    exact hbindings _ (Substitution.mem_bindings_of_get? hget)
  have hframes : ∀ v bound, term.ClosedBy v → first.get? v = some bound → bound.FitsFrame := by
    have hroots : ∀ part ∈ term.subterms, part.asVar = none →
        part.rootVariable ∈ [none, some inner, some middle] := by
      decide +kernel
    rintro v bound ⟨cells, hmem⟩ hget
    have hframe : v = inner ∨ v = middle := by simpa [Term.rootVariable] using hroots _ hmem rfl
    rcases hframe with rfl | rfl <;> cases hget
    · exact Term.FitsFrame.collection _ _
    · exact Term.FitsFrame.var outer
  have hreplaced : ∀ v w bound, term.ClosedBy v → first.get? v = some (.var w) →
      second.get? w = some bound → bound.FitsFrame := by
    intro v w bound _ hget hbound
    obtain ⟨rfl, rfl⟩ : v = middle ∧ w = outer := by
      simpa [first] using Substitution.mem_bindings_of_get? hget
    cases hbound
    exact Term.FitsFrame.collection _ _
  obtain ⟨-, hcompose, -⟩ :=
    htwice term first second _ hterm hfirst hsecond (hcomposes first second) hframes hreplaced
  exact ⟨hcompose, rfl, hagain term second hterm hsecond hclosed, hrebuild term first hterm⟩

end Enclosing

end SymbolicRewriting
