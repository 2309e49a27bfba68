import SymbolicRewriting.Oracle.Silent
import SymbolicRewriting.Oracle.Syntactic
import SymbolicRewriting.Oracle.Table
import SymbolicRewriting.Proofs.StepRepeatability

/-!
The oracles at hand are blind to the identities of cells: they compare terms, look for truth values
and take terms apart, and none of this depends on identities.
-/

namespace SymbolicRewriting

theorem Refinement.Alike.refl (answer : Refinement) : answer.Alike answer := by
  cases answer with
  | refined subst => exact .refined rfl
  | unsat => exact .unsat
  | unknown => exact .unknown

theorem Refinement.Alike.symm {left right : Refinement} (halike : left.Alike right) :
    right.Alike left := by
  cases halike with
  | refined hsubst => exact .refined (Eq.symm hsubst)
  | unsat => exact .unsat
  | unknown => exact .unknown

theorem Refinement.Alike.trans {left middle right : Refinement} (hleft : left.Alike middle)
    (hright : middle.Alike right) : left.Alike right := by
  cases hleft with
  | refined hsubst =>
      cases hright with
      | refined hsubst' => exact .refined (Eq.trans hsubst hsubst')
  | unsat => exact hright
  | unknown => exact hright

theorem Decision.ofAll_congr_alike {σ : Type} {decide decide' : Term → σ → Decision × σ}
    (hdecide : ∀ {conclusion conclusion' : Term}, conclusion.Alike conclusion' → ∀ state,
      decide conclusion state = decide' conclusion' state)
    {conclusions conclusions' : List Term} (halike : Term.AlikeAll conclusions conclusions')
    (result : Decision) (state : σ) :
    ofAll decide conclusions result state = ofAll decide' conclusions' result state := by
  induction conclusions generalizing conclusions' result state with
  | nil =>
      obtain rfl : conclusions' = [] := List.map_eq_nil_iff.1 halike.symm
      rfl
  | cons conclusion conclusions ih =>
      obtain ⟨conclusion', rest', rfl, hfirst, hrest⟩ := List.map_eq_cons_iff.1 halike.symm
      unfold ofAll
      rw [hdecide (Eq.symm hfirst)]
      split
      · exact ih hrest.symm result _
      · rfl
      · exact ih hrest.symm .unknown _

namespace DecisionProcedure

/-- It is enough that the identities may be taken away, unless the procedure has its own way to answer
about implications. -/
theorem Blind.of_withoutIds
    {decide : PathCondition → Term → Decision} {refine : Substitution → PathCondition → Refinement}
    (hdecide : ∀ path proposition,
      decide path.withoutIds proposition.withoutIds = decide path proposition)
    (hrefine : ∀ subst path,
      (refine subst.withoutIds path.withoutIds).Alike (refine subst path)) :
    Blind { decide, refine } := by
  have hcongr : ∀ {path path' : PathCondition} {proposition proposition' : Term},
      path.Alike path' → proposition.Alike proposition' →
        decide path proposition = decide path' proposition' := by
    intro path path' proposition proposition' hpath hproposition
    rw [← hdecide path proposition, hpath, hproposition, hdecide]
  refine ⟨hcongr, fun {subst subst' path path'} hsubst hpath => ?_,
    fun hpremise hconclusion => congrArg Prod.fst ?_⟩
  · have hfirst := (hrefine subst path).symm
    rw [hsubst, hpath] at hfirst
    exact hfirst.trans (hrefine subst' path')
  · exact Decision.ofAll_congr_alike
      (fun halike _ => congrArg (fun answer => (answer, ())) (hcongr hpremise halike))
      (congrArg PathCondition.conjuncts hconclusion) .holds ()

theorem blind_silent : silent.Blind := by
  refine .of_withoutIds (fun path proposition => ?_) fun subst path => ?_
  · simp only [silentDecide, Term.asBool_withoutIds]
  · have hfalse : (path.withoutIds.conjuncts.any fun conjunct => conjunct.asBool == some false) =
        path.conjuncts.any fun conjunct => conjunct.asBool == some false :=
      path.any_withoutIds fun conjunct => by rw [Term.asBool_withoutIds]
    simp only [silentRefine, PathCondition.isTrivial_withoutIds, hfalse]
    split
    · exact .refined subst.withoutIds_withoutIds
    · exact .refl _

theorem negationOf?_withoutIds (proposition : Term) :
    proposition.withoutIds.negationOf? = proposition.negationOf?.map Term.withoutIds := by
  cases proposition with
  | app label args =>
      rcases args with _ | ⟨inner, _ | ⟨_, _⟩⟩
      · rfl
      · simp only [Term.withoutIds, Term.withoutIdsAll, Term.negationOf?]
        split <;> rfl
      · rfl
  | token _ _ | var _ | sequence _ _ | collection _ _ => rfl

theorem equalityOf?_withoutIds (proposition : Term) :
    proposition.withoutIds.equalityOf? =
      proposition.equalityOf?.map (Prod.map Term.withoutIds Term.withoutIds) := by
  cases proposition with
  | app label args =>
      rcases args with _ | ⟨left, _ | ⟨right, _ | ⟨_, _⟩⟩⟩
      · rfl
      · rfl
      · simp only [Term.withoutIds, Term.withoutIdsAll, Term.equalityOf?]
        split <;> rfl
      · rfl
  | token _ _ | var _ | sequence _ _ | collection _ _ => rfl

theorem conjunctionOf?_withoutIds (proposition : Term) :
    proposition.withoutIds.conjunctionOf? =
      proposition.conjunctionOf?.map (Prod.map Term.withoutIds Term.withoutIds) := by
  cases proposition with
  | app label args =>
      rcases args with _ | ⟨left, _ | ⟨right, _ | ⟨_, _⟩⟩⟩
      · rfl
      · rfl
      · simp only [Term.withoutIds, Term.withoutIdsAll, Term.conjunctionOf?]
        split <;> rfl
      · rfl
  | token _ _ | var _ | sequence _ _ | collection _ _ => rfl

theorem denies_withoutIds (path : PathCondition) (proposition : Term) :
    path.withoutIds.denies proposition.withoutIds = path.denies proposition := by
  refine path.any_withoutIds fun conjunct => ?_
  rw [negationOf?_withoutIds]
  cases conjunct.negationOf? with
  | none => rfl
  | some inner => exact inner.beq_withoutIds proposition

theorem syntacticDecideWithin_withoutIds (path : PathCondition) (depth : Nat) (proposition : Term) :
    syntacticDecideWithin path.withoutIds depth proposition.withoutIds =
      syntacticDecideWithin path depth proposition := by
  induction depth generalizing proposition with
  | zero => rfl
  | succ depth ih =>
      unfold syntacticDecideWithin
      rw [Term.asBool_withoutIds, path.contains_withoutIds, negationOf?_withoutIds,
        denies_withoutIds, equalityOf?_withoutIds, conjunctionOf?_withoutIds]
      cases proposition.asBool with
      | some value => rfl
      | none =>
          cases proposition.negationOf? with
          | some inner => simp [ih]
          | none =>
              cases proposition.equalityOf? with
              | some sides => simp [Term.decideEqual]
              | none =>
                  cases proposition.conjunctionOf? with
                  | some sides => simp [ih]
                  | none => rfl

theorem blind_syntactic : syntactic.Blind := by
  refine .of_withoutIds (fun path proposition => ?_) fun subst path => ?_
  · exact syntacticDecideWithin_withoutIds path syntacticDepth proposition
  · have hrefutes : path.withoutIds.conjuncts.any (refutes path.withoutIds) =
        path.conjuncts.any (refutes path) := by
      refine path.any_withoutIds fun conjunct => ?_
      have hdecide : syntacticDecide .trivial conjunct.withoutIds =
          syntacticDecide .trivial conjunct :=
        syntacticDecideWithin_withoutIds .trivial syntacticDepth conjunct
      rw [refutes, refutes, hdecide, negationOf?_withoutIds]
      cases conjunct.negationOf? with
      | none => rfl
      | some inner => simp [path.contains_withoutIds inner]
    simp only [syntacticRefine, hrefutes]
    split
    · exact .unsat
    · exact .refined subst.withoutIds_withoutIds

end DecisionProcedure

theorem OracleTable.blind_procedure (table : OracleTable) : table.procedure.Blind := by
  refine .of_withoutIds (fun path proposition => ?_) fun subst path => ?_
  · have hentry : ∀ entry : Term × Decision,
        (entry.1 == proposition.withoutIds) = (entry.1 == proposition) :=
      fun entry => Term.beq_congr_withoutIds rfl proposition.withoutIds_withoutIds
    simp only [decide, hentry]
  · have hverdict : table.verdict path.withoutIds = table.verdict path := by
      have hcontains : ∀ entry : Term × Verdict,
          path.withoutIds.contains entry.1 = path.contains entry.1 :=
        fun entry => path.any_withoutIds fun conjunct =>
          Term.beq_congr_withoutIds conjunct.withoutIds_withoutIds rfl
      simp only [verdict, hcontains]
    simp only [refine, hverdict]
    cases table.verdict path with
    | refined =>
        refine .refined ?_
        simp [Substitution.Alike, Substitution.withoutIds, specialised, Term.withoutIds_applySubst,
          Function.comp_def]
    | unsat => exact .unsat
    | unknown => exact .unknown

end SymbolicRewriting
