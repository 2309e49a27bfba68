import SymbolicRewriting.Substitution.Apply

/-!
The subterms of a term and the variables in it.
-/

namespace SymbolicRewriting

namespace Term

theorem self_mem_subterms (term : Term) : term ∈ term.subterms := by
  rw [subterms_eq_cons]
  exact List.mem_cons_self

theorem mem_subtermsAll_iff {part : Term} {terms : List Term} :
    part ∈ subtermsAll terms ↔ ∃ term ∈ terms, part ∈ term.subterms := by
  induction terms with
  | nil => simp [subtermsAll]
  | cons first terms ih => simp [subtermsAll, ih]

theorem subterms_subset_of_mem_children {term child : Term} (hchild : child ∈ term.children) :
    child.subterms ⊆ term.subterms := by
  intro part hpart
  rw [subterms_eq_cons]
  exact List.mem_cons_of_mem _ (mem_subtermsAll_iff.2 ⟨child, hchild, hpart⟩)

theorem mem_distinct {α : Type} [BEq α] [LawfulBEq α] {x : α} {xs : List α} :
    x ∈ distinct xs ↔ x ∈ xs := by
  suffices hfold : ∀ found : List α,
      x ∈ xs.foldl (fun found y => if found.contains y then found else found ++ [y]) found ↔
        x ∈ found ∨ x ∈ xs by
    rw [distinct, hfold]
    simp
  induction xs with
  | nil => simp
  | cons y xs ih =>
      intro found
      rw [List.foldl_cons, ih]
      by_cases hfound : found.contains y = true
      · rw [if_pos hfound]
        rw [List.contains_iff_mem] at hfound
        constructor
        · rintro (hold | hlater)
          · exact .inl hold
          · exact .inr (List.mem_cons_of_mem _ hlater)
        · rintro (hold | hnew)
          · exact .inl hold
          · rcases List.mem_cons.1 hnew with rfl | hlater
            · exact .inl hfound
            · exact .inr hlater
      · rw [if_neg hfound, List.mem_append, List.mem_singleton, List.mem_cons, or_assoc]

theorem mem_vars_iff {v : Variable} {term : Term} :
    v ∈ term.vars ↔ ∃ part ∈ term.subterms, part.rootVariable = some v := by
  rw [vars, mem_distinct, visit_eq_subterms, List.mem_filterMap]

theorem vars_subset_of_mem_children {term child : Term} (hchild : child ∈ term.children) :
    child.vars ⊆ term.vars := by
  intro v hmem
  obtain ⟨part, hpart, hroot⟩ := mem_vars_iff.1 hmem
  exact mem_vars_iff.2 ⟨part, subterms_subset_of_mem_children hchild hpart, hroot⟩

end Term

def Substitution.Covers (subst : Substitution) (term : Term) : Prop :=
  ∀ v ∈ term.vars, subst.isBound v = true

theorem Substitution.Covers.child {subst : Substitution} {term child : Term}
    (hcovers : subst.Covers term) (hchild : child ∈ term.children) : subst.Covers child :=
  fun v hmem => hcovers v (Term.vars_subset_of_mem_children hchild hmem)

theorem Substitution.covers_of_children {subst : Substitution} {term : Term}
    (hroot : ∀ v, term.rootVariable = some v → subst.isBound v = true)
    (hchildren : ∀ child ∈ term.children, subst.Covers child) : subst.Covers term := by
  intro v hmem
  obtain ⟨part, hpart, hv⟩ := Term.mem_vars_iff.1 hmem
  rw [Term.subterms_eq_cons, List.mem_cons, Term.mem_subtermsAll_iff] at hpart
  rcases hpart with rfl | ⟨child, hchild, hpart⟩
  · exact hroot v hv
  · exact hchildren child hchild v (Term.mem_vars_iff.2 ⟨part, hpart, hv⟩)

theorem Substitution.covers_app {subst : Substitution} {label : Label} {args : List Term}
    (hcovers : ∀ arg ∈ args, subst.Covers arg) : subst.Covers (.app label args) :=
  covers_of_children (fun v hroot => by cases hroot) hcovers

end SymbolicRewriting
