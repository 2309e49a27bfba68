import Mathlib.Data.List.Find
import SymbolicRewriting.Proofs.EqualMatches

/-!
# Renaming the variables of a pattern

A renaming gives other names to the variables of a pattern. In a substitution it changes the variables
that are bound and leaves the terms that they are bound to, which are parts of a subject. An instance
does not depend on the names in its pattern, provided that frames are bound to collections: a frame
that is bound to anything else keeps its name in the instance.
-/

namespace SymbolicRewriting

open List

variable {ρ : Variable → Variable}

namespace Term

mutual

def rename (ρ : Variable → Variable) : Term → Term
  | token sort value => token sort value
  | var v => var (ρ v)
  | app label args => app label (renameAll ρ args)
  | sequence op items => sequence op (renameAll ρ items)
  | collection cells frame => collection (renameCells ρ cells) (frame.map ρ)

def renameAll (ρ : Variable → Variable) : List Term → List Term
  | [] => []
  | term :: terms => rename ρ term :: renameAll ρ terms

def renameCells (ρ : Variable → Variable) : List (Cell Term) → List (Cell Term)
  | [] => []
  | ⟨id, name, content⟩ :: cells => ⟨id, name, rename ρ content⟩ :: renameCells ρ cells

end

end Term

def Cell.rename (ρ : Variable → Variable) (cell : Cell Term) : Cell Term :=
  { cell with content := cell.content.rename ρ }

def PathCondition.rename (ρ : Variable → Variable) (path : PathCondition) : PathCondition :=
  ⟨path.conjuncts.map (Term.rename ρ)⟩

def Substitution.rename (ρ : Variable → Variable) (subst : Substitution) : Substitution :=
  { subst with bindings := subst.bindings.map fun binding => (ρ binding.1, binding.2) }

namespace Term

@[simp]
theorem renameAll_eq_map (terms : List Term) : renameAll ρ terms = terms.map (rename ρ) := by
  induction terms with
  | nil => rfl
  | cons term terms ih => simp [renameAll, ih]

@[simp]
theorem renameCells_eq_map (cells : List (Cell Term)) :
    renameCells ρ cells = cells.map (Cell.rename ρ) := by
  induction cells with
  | nil => rfl
  | cons cell cells ih => simp [renameCells, Cell.rename, ih]

theorem children_rename (term : Term) :
    (term.rename ρ).children = term.children.map (rename ρ) := by
  cases term with
  | token sort value => rfl
  | var v => rfl
  | app label args => simp [rename, children]
  | sequence op items => simp [rename, children]
  | collection cells frame => simp [rename, children, Cell.rename, Function.comp_def]

theorem rootVariable_rename (term : Term) :
    (term.rename ρ).rootVariable = term.rootVariable.map ρ := by
  cases term <;> rfl

theorem mem_subterms_iff {part term : Term} :
    part ∈ term.subterms ↔ part = term ∨ ∃ child ∈ term.children, part ∈ child.subterms := by
  rw [subterms_eq_cons, List.mem_cons, mem_subtermsAll_iff]

theorem subterms_subset_of_mem {term part : Term} (hpart : part ∈ term.subterms) :
    part.subterms ⊆ term.subterms := by
  induction term using childInduction with
  | step term ih =>
      rcases mem_subterms_iff.1 hpart with rfl | ⟨child, hchild, hpart⟩
      · exact List.Subset.refl _
      · exact List.Subset.trans (ih child hchild hpart) (subterms_subset_of_mem_children hchild)

theorem mem_subterms_of_mem_children {term part child : Term} (hpart : part ∈ term.subterms)
    (hchild : child ∈ part.children) : child ∈ term.subterms :=
  subterms_subset_of_mem hpart (subterms_subset_of_mem_children hchild (self_mem_subterms child))

theorem mem_vars_of_mem_subterms {term part : Term} (hpart : part ∈ term.subterms) {v : Variable}
    (hmem : v ∈ part.vars) : v ∈ term.vars := by
  obtain ⟨root, hroot, hv⟩ := mem_vars_iff.1 hmem
  exact mem_vars_iff.2 ⟨root, subterms_subset_of_mem hpart hroot, hv⟩

theorem mem_vars_cases {term : Term} {v : Variable} :
    v ∈ term.vars ↔ term.rootVariable = some v ∨ ∃ child ∈ term.children, v ∈ child.vars := by
  constructor
  · intro hv
    obtain ⟨part, hpart, hroot⟩ := mem_vars_iff.1 hv
    rcases mem_subterms_iff.1 hpart with rfl | ⟨child, hchild, hpart⟩
    · exact .inl hroot
    · exact .inr ⟨child, hchild, mem_vars_iff.2 ⟨part, hpart, hroot⟩⟩
  · rintro (hroot | ⟨child, hchild, hv⟩)
    · exact mem_vars_iff.2 ⟨term, self_mem_subterms term, hroot⟩
    · exact vars_subset_of_mem_children hchild hv

theorem mem_vars_rename_iff {term : Term} {w : Variable} :
    w ∈ (term.rename ρ).vars ↔ ∃ v ∈ term.vars, ρ v = w := by
  induction term using childInduction with
  | step term ih =>
      rw [mem_vars_cases, rootVariable_rename, children_rename, Option.map_eq_some_iff]
      constructor
      · rintro (⟨v, hroot, rfl⟩ | ⟨child, hchild, hw⟩)
        · exact ⟨v, mem_vars_cases.2 (.inl hroot), rfl⟩
        · obtain ⟨child, hmem, rfl⟩ := List.mem_map.1 hchild
          obtain ⟨v, hv, rfl⟩ := (ih child hmem).1 hw
          exact ⟨v, mem_vars_cases.2 (.inr ⟨child, hmem, hv⟩), rfl⟩
      · rintro ⟨v, hv, rfl⟩
        rcases mem_vars_cases.1 hv with hroot | ⟨child, hchild, hv⟩
        · exact .inl ⟨v, hroot, rfl⟩
        · exact .inr ⟨child.rename ρ, List.mem_map_of_mem hchild, (ih child hchild).2 ⟨v, hv, rfl⟩⟩

theorem rename_eq_self {term : Term} (hfixed : ∀ v ∈ term.vars, ρ v = v) : term.rename ρ = term := by
  induction term using nestedInduction with
  | token sort value => rfl
  | var v => rw [rename, hfixed v (mem_vars_cases.2 (.inl rfl))]
  | app label args ih =>
      rw [rename, renameAll_eq_map]
      refine congrArg (app label) ((List.map_congr_left fun arg hmem => ?_).trans (List.map_id _))
      exact ih arg hmem fun v hv => hfixed v (mem_vars_cases.2 (.inr ⟨arg, hmem, hv⟩))
  | sequence op items ih =>
      rw [rename, renameAll_eq_map]
      refine congrArg (sequence op) ((List.map_congr_left fun item hmem => ?_).trans (List.map_id _))
      exact ih item hmem fun v hv => hfixed v (mem_vars_cases.2 (.inr ⟨item, hmem, hv⟩))
  | collection cells frame ih =>
      have hframe : frame.map ρ = frame := by
        cases frame with
        | none => rfl
        | some v => exact congrArg some (hfixed v (mem_vars_cases.2 (.inl rfl)))
      have hcells : cells.map (Cell.rename ρ) = cells.map id := by
        refine List.map_congr_left fun cell hmem => ?_
        have hcontent := ih cell hmem fun v hv =>
          hfixed v (mem_vars_cases.2 (.inr ⟨cell.content, List.mem_map_of_mem hmem, hv⟩))
        rw [Cell.rename, hcontent, id]
      rw [rename, renameCells_eq_map, hframe, hcells, List.map_id]

/-- The variable closes a collection in the term. -/
def ClosedBy (term : Term) (v : Variable) : Prop :=
  ∃ cells, collection cells (some v) ∈ term.subterms

theorem ClosedBy.of_mem_subterms {term part : Term} (hpart : part ∈ term.subterms) {v : Variable}
    (hclosed : part.ClosedBy v) : term.ClosedBy v := by
  obtain ⟨cells, hmem⟩ := hclosed
  exact ⟨cells, subterms_subset_of_mem hpart hmem⟩

/-- The term has only variables of the pattern, and its frames are frames there. -/
structure Over (pattern term : Term) : Prop where
  vars : ∀ v ∈ term.vars, v ∈ pattern.vars
  frames : ∀ v, term.ClosedBy v → pattern.ClosedBy v

theorem over_of_mem_subterms {pattern part : Term} (hpart : part ∈ pattern.subterms) :
    pattern.Over part :=
  ⟨fun _ => mem_vars_of_mem_subterms hpart, fun _ => .of_mem_subterms hpart⟩

theorem Over.child {pattern term child : Term} (hover : pattern.Over term)
    (hchild : child ∈ term.children) : pattern.Over child where
  vars v hmem := hover.vars v (vars_subset_of_mem_children hchild hmem)
  frames v hclosed := hover.frames v
    (hclosed.of_mem_subterms (mem_subterms_of_mem_children (self_mem_subterms term) hchild))

end Term

/-- Different variables of the pattern get different names, of the same sort and kind. -/
structure Renaming (ρ : Variable → Variable) (pattern : Term) : Prop where
  injective : ∀ v ∈ pattern.vars, ∀ w ∈ pattern.vars, ρ v = ρ w → v = w
  sort_eq : ∀ v ∈ pattern.vars, (ρ v).sort = v.sort
  kind_eq : ∀ v ∈ pattern.vars, (ρ v).kind = v.kind

/-- What a match of the pattern can bind: its variables, and those that close a collection to
collections only. -/
structure Substitution.Of (pattern : Term) (subst : Substitution) : Prop where
  keys : ∀ binding ∈ subst.bindings, binding.1 ∈ pattern.vars
  frames : ∀ v term, pattern.ClosedBy v → subst.get? v = some term → term.isCollection = true

namespace Substitution.Of

variable {pattern : Term} {subst : Substitution}

theorem get?_rename (hsubst : subst.Of pattern) (hρ : Renaming ρ pattern) {v : Variable}
    (hv : v ∈ pattern.vars) : (subst.rename ρ).get? (ρ v) = subst.get? v := by
  unfold get? Substitution.rename
  rw [List.find?_map, Option.map_map]
  have hsame : subst.bindings.find? ((fun binding => binding.1 == ρ v) ∘
      fun binding => (ρ binding.1, binding.2)) =
        subst.bindings.find? fun binding => binding.1 == v := by
    apply List.find?_congr
    intro binding hmem
    rw [Function.comp_apply, Bool.eq_iff_iff, beq_iff_eq, beq_iff_eq]
    exact ⟨hρ.injective _ (hsubst.keys binding hmem) _ hv, congrArg ρ⟩
  rw [hsame]
  rfl

theorem isBound_rename (hsubst : subst.Of pattern) (hρ : Renaming ρ pattern) {v : Variable}
    (hv : v ∈ pattern.vars) : (subst.rename ρ).isBound (ρ v) = subst.isBound v := by
  rw [isBound, isBound, hsubst.get?_rename hρ hv]

theorem all_isBound_rename (hsubst : subst.Of pattern) (hρ : Renaming ρ pattern) {term : Term}
    (hover : pattern.Over term) :
    (term.rename ρ).vars.all (subst.rename ρ).isBound = term.vars.all subst.isBound := by
  rw [Bool.eq_iff_iff, List.all_eq_true, List.all_eq_true]
  constructor
  · intro hall v hv
    rw [← hsubst.isBound_rename hρ (hover.vars v hv)]
    exact hall (ρ v) (Term.mem_vars_rename_iff.2 ⟨v, hv, rfl⟩)
  · intro hall w hw
    obtain ⟨v, hv, rfl⟩ := Term.mem_vars_rename_iff.1 hw
    rw [hsubst.isBound_rename hρ (hover.vars v hv)]
    exact hall v hv

/-- All names of the pattern disappear in an instance. -/
theorem instantiate_rename (hsubst : subst.Of pattern) (hρ : Renaming ρ pattern) {term : Term}
    (hover : pattern.Over term) (hcovers : subst.Covers term) :
    (term.rename ρ).instantiate (subst.rename ρ) = term.instantiate subst := by
  induction term using Term.nestedInduction with
  | token sort value => rfl
  | var v =>
      have hv : v ∈ (Term.var v).vars := Term.mem_vars_cases.2 (.inl rfl)
      obtain ⟨term, hterm⟩ := Option.isSome_iff_exists.1 (hcovers v hv)
      rw [Term.rename, Term.instantiate, Term.instantiate,
        hsubst.get?_rename hρ (hover.vars v hv), hterm]
      rfl
  | app label args ih =>
      simp only [Term.rename, Term.renameAll_eq_map, Term.instantiate, Term.instantiateAll_eq_map,
        List.map_map]
      refine congrArg (Term.app label) (List.map_congr_left fun arg hmem => ?_)
      exact ih arg hmem (hover.child hmem) (hcovers.child hmem)
  | sequence op items ih =>
      simp only [Term.rename, Term.renameAll_eq_map, Term.instantiate, Term.instantiateAll_eq_map,
        List.map_map]
      refine congrArg (Term.flatten op) (List.map_congr_left fun item hmem => ?_)
      exact ih item hmem (hover.child hmem) (hcovers.child hmem)
  | collection cells frame ih =>
      have hcells : (cells.map (Cell.rename ρ)).map
          (fun cell => { cell with content := cell.content.instantiate (subst.rename ρ) }) =
            cells.map fun cell => { cell with content := cell.content.instantiate subst } := by
        rw [List.map_map]
        refine List.map_congr_left fun cell hmem => ?_
        have hchild : cell.content ∈ (Term.collection cells frame).children :=
          List.mem_map_of_mem hmem
        exact congrArg (Cell.mk cell.id cell.name)
          (ih cell hmem (hover.child hchild) (hcovers.child hchild))
      rw [Term.rename, Term.renameCells_eq_map, Term.instantiate, Term.instantiate,
        Term.instantiateCells_eq_map, Term.instantiateCells_eq_map, hcells]
      cases frame with
      | none => rfl
      | some v =>
          have hv : v ∈ (Term.collection cells (some v)).vars := Term.mem_vars_cases.2 (.inl rfl)
          obtain ⟨term, hterm⟩ := Option.isSome_iff_exists.1 (hcovers v hv)
          have hclosed := hover.frames v ⟨cells, Term.self_mem_subterms _⟩
          have hrenamed := (hsubst.get?_rename hρ (hover.vars v hv)).trans hterm
          have hframe := hsubst.frames v term hclosed hterm
          rw [Option.map_some, Term.frameBinding, Term.frameBinding, Option.bind_some,
            Option.bind_some, hrenamed, hterm]
          cases term with
          | collection more inner => rfl
          | token _ _ | var _ | app _ _ | sequence _ _ => cases hframe

theorem applySubst_rename (hsubst : subst.Of pattern) (hρ : Renaming ρ pattern) {term : Term}
    (hover : pattern.Over term) (hcovers : subst.Covers term) :
    (term.rename ρ).applySubst (subst.rename ρ) = term.applySubst subst := by
  have hempty : (subst.rename ρ).bindings.isEmpty = subst.bindings.isEmpty := List.isEmpty_map
  unfold Term.applySubst
  rw [hempty]
  split
  · rename_i hnone
    apply Term.rename_eq_self
    intro v hv
    have hbound := hcovers v hv
    rw [isBound, get?, List.isEmpty_iff.1 hnone] at hbound
    cases hbound
  · exact hsubst.instantiate_rename hρ hover hcovers

end Substitution.Of

end SymbolicRewriting
