import SymbolicRewriting.Proofs.Values

/-!
Evaluation and instantiation. Evaluating a term, instantiating its value and evaluating again gives the
value of the instance, as long as this holds of the calls that are answered on the way.
-/

namespace SymbolicRewriting

open List

variable {σ α β : Type}

theorem exists_of_forall₂_append {related : α → β → Prop} {first second : List α} {all : List β}
    (hall : Forall₂ related (first ++ second) all) :
    ∃ left right, all = left ++ right ∧ Forall₂ related first left ∧
      Forall₂ related second right := by
  induction first generalizing all with
  | nil => exact ⟨[], all, rfl, .nil, hall⟩
  | cons x first ih =>
      obtain ⟨y, others, hxy, hothers, rfl⟩ := forall₂_cons_left_iff.1 hall
      obtain ⟨left, right, rfl, hleft, hright⟩ := ih hothers
      exact ⟨y :: left, right, rfl, .cons hxy hleft, hright⟩

theorem exists_mem_of_forall₂ {related : α → β → Prop} {xs : List α} {ys : List β}
    (hrelated : Forall₂ related xs ys) {y : β} (hmem : y ∈ ys) : ∃ x ∈ xs, related x y := by
  induction hrelated with
  | nil => cases hmem
  | cons hfirst _ ih =>
      rcases List.mem_cons.1 hmem with rfl | hlater
      · exact ⟨_, List.mem_cons_self, hfirst⟩
      · obtain ⟨x, hx, hxy⟩ := ih hlater
        exact ⟨x, List.mem_cons_of_mem _ hx, hxy⟩

/-- The partner of a related member has the same place. -/
theorem exists_mem_zip_of_forall₂ {γ : Type} {related : α → β → Prop} {xs : List α} {ys : List β}
    (hrelated : Forall₂ related xs ys) {zs : List γ} {x : α} {z : γ} (hmem : (z, x) ∈ zs.zip xs) :
    ∃ y, related x y ∧ (z, y) ∈ zs.zip ys := by
  induction hrelated generalizing zs with
  | nil =>
      rw [List.zip_nil_right] at hmem
      cases hmem
  | cons hfirst _ ih =>
      cases zs with
      | nil => cases hmem
      | cons first zs =>
          rw [List.zip_cons_cons] at hmem ⊢
          rcases List.mem_cons.1 hmem with heq | hlater
          · cases heq
            exact ⟨_, hfirst, List.mem_cons_self⟩
          · obtain ⟨y, hxy, hy⟩ := ih hlater
            exact ⟨y, hxy, List.mem_cons_of_mem _ hy⟩

theorem exists_of_forall₂_comp {γ : Type} {left : α → β → Prop} {right : β → γ → Prop}
    {xs : List α} {zs : List γ} (hall : Forall₂ (fun x z => ∃ y, left x y ∧ right y z) xs zs) :
    ∃ ys, Forall₂ left xs ys ∧ Forall₂ right ys zs := by
  induction hall with
  | nil => exact ⟨[], .nil, .nil⟩
  | cons hfirst _ ih =>
      obtain ⟨y, hleft, hright⟩ := hfirst
      obtain ⟨ys, hlefts, hrights⟩ := ih
      exact ⟨y :: ys, .cons hleft hlefts, .cons hright hrights⟩

/-- What holds of the images of every member holds of two lists of images, one by one. -/
theorem forall₂_of_forall_mem {γ : Type} {left : α → β → Prop} {right : α → γ → Prop}
    {related : β → γ → Prop} {xs : List α} {ys : List β} {zs : List γ}
    (hxs : ∀ x ∈ xs, ∀ y z, left x y → right x z → related y z) (hleft : Forall₂ left xs ys)
    (hright : Forall₂ right xs zs) : Forall₂ related ys zs := by
  induction hleft generalizing zs with
  | nil =>
      cases hright
      exact .nil
  | cons hxy _ ih =>
      obtain ⟨hfirst, hothers⟩ := List.forall_mem_cons.1 hxs
      obtain ⟨z, rest, hxz, hrest, rfl⟩ := forall₂_cons_left_iff.1 hright
      exact .cons (hfirst _ _ hxy hxz) (ih hothers hrest)

namespace Term

theorem itemsOf_instantiate (op : Label) (subst : Substitution) (item : Term) :
    ((itemsOf op item).map (instantiate subst)).flatMap (itemsOf op) =
      itemsOf op (item.instantiate subst) := by
  cases hsequence : item.isSequenceOver op with
  | false =>
      rw [itemsOf_of_not_isSequenceOver hsequence]
      simp
  | true =>
      obtain ⟨items, rfl⟩ := exists_of_isSequenceOver hsequence
      rw [instantiate, itemsOf_flatten, instantiateAll_eq_map, itemsOf_sequence]

theorem instantiate_flatten (op : Label) (subst : Substitution) (items : List Term) :
    (flatten op items).instantiate subst = flatten op (items.map (instantiate subst)) := by
  rw [flatten_eq, instantiate, instantiateAll_eq_map, flatten_eq, flatten_eq]
  simp only [List.map_flatMap, List.flatMap_map, List.flatMap_assoc]
  refine congrArg (sequence op) (List.flatMap_congr fun item _ => ?_)
  rw [← itemsOf_instantiate, List.flatMap_map]

theorem applySubst_of_isEmpty {subst : Substitution} (hempty : subst.bindings.isEmpty = true) :
    (fun term : Term => term.applySubst subst) = id := by
  funext term
  rw [applySubst, if_pos hempty, id]

theorem applySubst_of_not_isEmpty {subst : Substitution}
    (hempty : ¬subst.bindings.isEmpty = true) :
    (fun term : Term => term.applySubst subst) = instantiate subst := by
  funext term
  rw [applySubst, if_neg hempty]

theorem applySubst_flatten (op : Label) (items : List Term) (subst : Substitution) :
    (flatten op items).applySubst subst =
      flatten op (items.map fun item => item.applySubst subst) := by
  by_cases hempty : subst.bindings.isEmpty = true
  · rw [applySubst_of_isEmpty hempty, List.map_id, applySubst, if_pos hempty]
  · rw [applySubst_of_not_isEmpty hempty, applySubst, if_neg hempty, instantiate_flatten]

theorem applySubst_app (label : Label) (args : List Term) (subst : Substitution) :
    (app label args).applySubst subst = app label (args.map fun arg => arg.applySubst subst) := by
  by_cases hempty : subst.bindings.isEmpty = true
  · rw [applySubst_of_isEmpty hempty, List.map_id, applySubst, if_pos hempty]
  · rw [applySubst_of_not_isEmpty hempty, applySubst, if_neg hempty, instantiate,
      instantiateAll_eq_map]

theorem applySubst_token (sort : SortName) (value : String) (subst : Substitution) :
    (token sort value).applySubst subst = token sort value := by
  unfold applySubst
  split <;> rfl

/-- Closing a collection adds the same cells and leaves the same frame, whatever its own cells. -/
theorem exists_closeWith_eq (frame : Option Variable) (bound : Option Term) :
    ∃ more inner, ∀ cells, closeWith cells frame bound = collection (cells ++ more) inner := by
  cases bound with
  | none => exact ⟨[], frame, fun cells => by simp [closeWith]⟩
  | some term =>
      cases term with
      | collection more inner => exact ⟨more, inner, fun cells => rfl⟩
      | var v => exact ⟨[], some v, fun cells => by rw [closeWith, List.append_nil]⟩
      | token _ _ | app _ _ | sequence _ _ =>
          exact ⟨[], frame, fun cells => by simp [closeWith]⟩

def instantiateCell (subst : Substitution) (cell : Cell Term) : Cell Term :=
  { cell with content := cell.content.applySubst subst }

theorem exists_applySubst_collection (frame : Option Variable) (subst : Substitution) :
    ∃ more inner, ∀ cells, (collection cells frame).applySubst subst =
      collection (cells.map (instantiateCell subst) ++ more) inner := by
  by_cases hempty : subst.bindings.isEmpty = true
  · refine ⟨[], frame, fun cells => ?_⟩
    have hcells : cells.map (instantiateCell subst) = cells := by
      refine (List.map_congr_left fun cell _ => ?_).trans (List.map_id _)
      rw [instantiateCell, applySubst, if_pos hempty, id]
    rw [applySubst, if_pos hempty, hcells, List.append_nil]
  · obtain ⟨more, inner, hclose⟩ := exists_closeWith_eq frame (frameBinding subst frame)
    refine ⟨more, inner, fun cells => ?_⟩
    rw [applySubst, if_neg hempty, instantiate, hclose, instantiateCells_eq_map]
    apply congrArg (fun cells => collection (cells ++ more) inner)
    apply List.map_congr_left
    intro cell _
    rw [instantiateCell, applySubst, if_neg hempty]

theorem applySubst_collection_nil (subst : Substitution) :
    (collection [] none).applySubst subst = collection [] none := by
  unfold applySubst
  split <;> rfl

end Term

namespace Machine

variable {machine : Machine σ}

def Instantiates (machine : Machine σ) (subst : Substitution) (term result : Term) : Prop :=
  machine.Evaluates (term.applySubst subst) result

def InstantiatesCell (machine : Machine σ) (subst : Substitution) (cell result : Cell Term) : Prop :=
  cell.name = result.name ∧ machine.Instantiates subst cell.content result.content

theorem forall₂_instantiatesCell_iff {subst : Substitution} {cells results : List (Cell Term)} :
    Forall₂ (machine.InstantiatesCell subst) cells results ↔
      Forall₂ (machine.BuildsCell .empty) (cells.map (Term.instantiateCell subst)) results := by
  rw [forall₂_map_left_iff]
  rfl

theorem eq_of_instantiates_token [Nonempty σ] {subst : Substitution} {sort : SortName}
    {token : String} {value : Term} (hvalue : machine.Instantiates subst (.token sort token) value) :
    value = .token sort token := by
  rw [Instantiates, Term.applySubst_token] at hvalue
  exact Term.eq_of_token_alike ((builds_token sort token).unique hvalue)

section Forms

variable (hrepeat : machine.definition.Repeatable) {subst : Substitution}
include hrepeat

theorem Instantiates.congr {value value' result result' : Term}
    (hinstance : machine.Instantiates subst value result) (hvalue : value.Alike value')
    (hresult : result.Alike result') : machine.Instantiates subst value' result' := by
  refine Builds.congr hrepeat hinstance ?_ hresult
  unfold Term.Alike
  rw [Term.withoutIds_applySubst, Term.withoutIds_applySubst, hvalue]

theorem evaluates_applySubst_sequence_iff [Nonempty σ] {op : Label} {items : List Term}
    {result : Term} :
    machine.Evaluates ((Term.sequence op items).applySubst subst) result ↔
      machine.Evaluates (.sequence op (items.map fun item => item.applySubst subst)) result := by
  by_cases hempty : subst.bindings.isEmpty = true
  · rw [Term.applySubst_of_isEmpty hempty, List.map_id, Term.applySubst, if_pos hempty]
  · rw [Term.applySubst_of_not_isEmpty hempty, Term.applySubst, if_neg hempty, Term.instantiate,
      Term.instantiateAll_eq_map, evaluates_flatten_iff hrepeat]

theorem instantiates_app_iff [Nonempty σ] {label : Label}
    (hlabel : machine.definition.isFunction label = false) {args : List Term} {result : Term} :
    machine.Instantiates subst (.app label args) result ↔
      ∃ results, Forall₂ (machine.Instantiates subst) args results ∧
        result.Alike (.app label results) := by
  unfold Instantiates
  rw [Term.applySubst_app]
  refine (builds_app_iff hrepeat hlabel).trans ?_
  simp only [forall₂_map_left_iff]

theorem instantiates_call_iff [Nonempty σ] {label : Label}
    (hlabel : machine.definition.isFunction label = true) {args : List Term} {result : Term} :
    machine.Instantiates subst (.app label args) result ↔
      ∃ results, Forall₂ (machine.Instantiates subst) args results ∧
        machine.Answers label results result := by
  unfold Instantiates
  rw [Term.applySubst_app]
  refine (builds_call_iff hrepeat hlabel).trans ?_
  simp only [forall₂_map_left_iff]

theorem instantiates_sequence_iff [Nonempty σ] {op : Label} {items : List Term} {result : Term} :
    machine.Instantiates subst (.sequence op items) result ↔
      ∃ results, Forall₂ (machine.Instantiates subst) items results ∧
        result.Alike (.flatten op results) := by
  refine (evaluates_applySubst_sequence_iff hrepeat).trans ?_
  refine (builds_sequence_iff hrepeat).trans ?_
  simp only [forall₂_map_left_iff]
  rfl

theorem instantiates_flatten [Nonempty σ] {op : Label} {values results : List Term}
    (hvalues : Forall₂ (machine.Instantiates subst) values results) :
    machine.Instantiates subst (.flatten op values) (.flatten op results) := by
  unfold Instantiates
  rw [Term.applySubst_flatten, evaluates_flatten_iff hrepeat]
  exact (builds_sequence_iff hrepeat).2 ⟨results, forall₂_map_left_iff.2 hvalues, rfl⟩

/-- The instance of a collection has the instances of its own cells and what its frame adds. -/
theorem instantiates_collection_iff [Nonempty σ] {cells : List (Cell Term)}
    {frame : Option Variable} {result : Term} :
    machine.Instantiates subst (.collection cells frame) result ↔
      ∃ results others inner, Forall₂ (machine.InstantiatesCell subst) cells results ∧
        machine.Instantiates subst (.collection [] frame) (.collection others inner) ∧
          result.Alike (.collection (results ++ others) inner) := by
  obtain ⟨more, inner, happly⟩ := Term.exists_applySubst_collection frame subst
  unfold Instantiates
  rw [happly, happly, List.map_nil, List.nil_append]
  constructor
  · intro hevaluates
    obtain ⟨built, hbuilt, halike⟩ := (evaluates_collection_iff hrepeat).1 hevaluates
    obtain ⟨results, others, rfl, hresults, hothers⟩ := exists_of_forall₂_append hbuilt
    exact ⟨results, others, inner, forall₂_instantiatesCell_iff.2 hresults,
      (evaluates_collection_iff hrepeat).2 ⟨others, hothers, rfl⟩, halike⟩
  · rintro ⟨results, others, inner', hresults, hframe, halike⟩
    obtain ⟨others', hothers, hsame⟩ := (evaluates_collection_iff hrepeat).1 hframe
    obtain ⟨cells', hcollection, hcells⟩ := Term.exists_of_alike_collection hsame
    cases hcollection
    refine (evaluates_collection_iff hrepeat).2 ⟨results ++ others',
      rel_append (forall₂_instantiatesCell_iff.1 hresults) hothers, halike.trans ?_⟩
    unfold Term.Alike
    simp only [Term.withoutIds, Term.withoutIdsCells_eq_map, List.map_append, hcells]

theorem instantiates_collection_nil [Nonempty σ] :
    machine.Instantiates subst (.collection [] none) (.collection [] none) := by
  rw [Instantiates, Term.applySubst_collection_nil]
  exact (evaluates_collection_iff hrepeat).2 ⟨[], .nil, rfl⟩

theorem instantiates_closeWith [Nonempty σ] {cells instances more : List (Cell Term)}
    {inner : Option Variable} {result : Term} (frame : Option Variable)
    (hcells : Forall₂ (machine.InstantiatesCell subst) cells instances)
    (hmore : machine.Instantiates subst (.collection more inner) result) :
    machine.Instantiates subst (Term.closeWith cells frame (some (.collection more inner)))
      (Term.closeWith instances frame (some result)) := by
  obtain ⟨results, others, inner', hresults, hframe, halike⟩ :=
    (instantiates_collection_iff hrepeat).1 hmore
  obtain ⟨all, rfl, hall⟩ := Term.exists_of_alike_collection halike.symm
  refine (instantiates_collection_iff hrepeat).2
    ⟨instances ++ results, others, inner', rel_append hcells hresults, hframe, ?_⟩
  unfold Term.Alike
  simp only [Term.closeWith, Term.withoutIds, Term.withoutIdsCells_eq_map, List.append_assoc,
    List.map_append, ← hall]

end Forms

end Machine

end SymbolicRewriting
