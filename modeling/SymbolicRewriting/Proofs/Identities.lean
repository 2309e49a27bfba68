import SymbolicRewriting.Definition.Basic
import SymbolicRewriting.Matching.Branch
import SymbolicRewriting.Proofs.TermEquality

/-!
Terms up to the identities of their cells. What is computed from a term, apart from the identities
themselves, does not depend on them: it is the same for the term in which they are all forgotten.
-/

namespace SymbolicRewriting

namespace Term

mutual

def withoutIds : Term → Term
  | token sort value => token sort value
  | var v => var v
  | app label args => app label (withoutIdsAll args)
  | sequence op items => sequence op (withoutIdsAll items)
  | collection cells frame => collection (withoutIdsCells cells) frame

def withoutIdsAll : List Term → List Term
  | [] => []
  | term :: terms => withoutIds term :: withoutIdsAll terms

def withoutIdsCells : List (Cell Term) → List (Cell Term)
  | [] => []
  | ⟨_, name, content⟩ :: cells => ⟨0, name, withoutIds content⟩ :: withoutIdsCells cells

end

end Term

def Cell.withoutId (cell : Cell Term) : Cell Term := ⟨0, cell.name, cell.content.withoutIds⟩

namespace Term

@[simp]
theorem withoutIdsAll_eq_map (terms : List Term) : withoutIdsAll terms = terms.map withoutIds := by
  induction terms with
  | nil => rfl
  | cons term terms ih => simp [withoutIdsAll, ih]

@[simp]
theorem withoutIdsCells_eq_map (cells : List (Cell Term)) :
    withoutIdsCells cells = cells.map Cell.withoutId := by
  induction cells with
  | nil => rfl
  | cons cell cells ih => simp [withoutIdsCells, Cell.withoutId, ih]

/-- Induction on a term, with the hypothesis for all members of the lists in it. -/
@[elab_as_elim]
theorem nestedInduction {motive : Term → Prop} (token : ∀ sort value, motive (token sort value))
    (var : ∀ v, motive (var v))
    (app : ∀ label args, (∀ arg ∈ args, motive arg) → motive (app label args))
    (sequence : ∀ op items, (∀ item ∈ items, motive item) → motive (sequence op items))
    (collection : ∀ cells frame, (∀ cell ∈ cells, motive cell.content) →
      motive (collection cells frame))
    (term : Term) : motive term := by
  cases term with
  | token sort value => exact token sort value
  | var v => exact var v
  | app label args =>
      exact app label args fun arg _ => nestedInduction token var app sequence collection arg
  | sequence op items =>
      exact sequence op items fun item _ => nestedInduction token var app sequence collection item
  | collection cells frame =>
      exact collection cells frame fun cell _ =>
        nestedInduction token var app sequence collection cell.content
termination_by term.size
decreasing_by
  all_goals subst_vars
  · have := size_le_of_mem ‹_ ∈ _›
    simp only [size]
    omega
  · have := size_le_of_mem ‹_ ∈ _›
    simp only [size]
    omega
  · have := content_size_le_of_mem ‹_ ∈ _›
    simp only [size]
    omega

/-- Induction on a term, with the hypothesis for its immediate subterms. -/
theorem childInduction {motive : Term → Prop}
    (step : ∀ term, (∀ child ∈ term.children, motive child) → motive term) (term : Term) :
    motive term := by
  induction term using nestedInduction with
  | token sort value => exact step _ (List.forall_mem_nil _)
  | var v => exact step _ (List.forall_mem_nil _)
  | app label args ih => exact step _ ih
  | sequence op items ih => exact step _ ih
  | collection cells frame ih => exact step _ (List.forall_mem_map.2 ih)

/-! What does not depend on identities. -/

@[simp]
theorem withoutIds_withoutIds (term : Term) : term.withoutIds.withoutIds = term.withoutIds := by
  induction term using nestedInduction with
  | token sort value => rfl
  | var v => rfl
  | app label args ih => simpa [withoutIds] using ih
  | sequence op items ih => simpa [withoutIds] using ih
  | collection cells frame ih => simpa [withoutIds, Cell.withoutId] using ih

@[simp]
theorem itemsOf_withoutIds (op : Label) (term : Term) :
    itemsOf op term.withoutIds = (itemsOf op term).map withoutIds := by
  cases term with
  | sequence inner items =>
      by_cases hop : inner = op
      · simp [itemsOf, withoutIds, hop]
      · simp [itemsOf, withoutIds, hop]
  | token sort value => rfl
  | var v => rfl
  | app label args => rfl
  | collection cells frame => rfl

@[simp]
theorem withoutIds_flatten (op : Label) (items : List Term) :
    (flatten op items).withoutIds = flatten op (items.map withoutIds) := by
  simp [flatten_eq, withoutIds, List.flatMap_map, List.map_flatMap]

theorem withoutIds_closeWith (cells : List (Cell Term)) (frame : Option Variable)
    (bound : Option Term) :
    (closeWith cells frame bound).withoutIds =
      closeWith (cells.map Cell.withoutId) frame (bound.map withoutIds) := by
  cases bound with
  | none => simp [closeWith, withoutIds]
  | some term => cases term <;> simp [closeWith, withoutIds]

end Term

/-- The substitution by terms without identities, without the cells that it has recorded. -/
def Substitution.withoutIds (subst : Substitution) : Substitution where
  bindings := subst.bindings.map fun binding => (binding.1, binding.2.withoutIds)

theorem Substitution.get?_withoutIds (subst : Substitution) (v : Variable) :
    subst.withoutIds.get? v = (subst.get? v).map Term.withoutIds := by
  unfold get? withoutIds
  rw [List.find?_map, Option.map_map, Option.map_map]
  rfl

namespace Term

theorem withoutIds_instantiate (subst : Substitution) (term : Term) :
    (term.instantiate subst).withoutIds = term.withoutIds.instantiate subst.withoutIds := by
  induction term using nestedInduction with
  | token sort value => rfl
  | var v =>
      simp only [instantiate, withoutIds, subst.get?_withoutIds v]
      cases subst.get? v <;> rfl
  | app label args ih => simpa [instantiate, withoutIds, instantiateAll_eq_map] using ih
  | sequence op items ih =>
      simp only [instantiate, withoutIds, instantiateAll_eq_map, withoutIds_flatten,
        withoutIdsAll_eq_map, List.map_map]
      exact congrArg (flatten op) (List.map_congr_left ih)
  | collection cells frame ih =>
      simp only [instantiate, withoutIds, instantiateCells_eq_map, withoutIds_closeWith,
        withoutIdsCells_eq_map, List.map_map]
      congr 1
      · apply List.map_congr_left
        intro cell hmem
        simp [Cell.withoutId, ih cell hmem]
      · cases frame with
        | none => rfl
        | some v => simp [frameBinding, subst.get?_withoutIds v]

theorem withoutIds_applySubst (term : Term) (subst : Substitution) :
    (term.applySubst subst).withoutIds = term.withoutIds.applySubst subst.withoutIds := by
  unfold applySubst
  have hempty : subst.withoutIds.bindings.isEmpty = subst.bindings.isEmpty := by
    simp [Substitution.withoutIds]
  rw [hempty]
  split
  · rfl
  · exact term.withoutIds_instantiate subst

/-! Equality, and what is read off a term. -/

theorem equalsAll_map_withoutIds {terms : List Term}
    (hequal : ∀ term ∈ terms, term.equals term.withoutIds = true) :
    equalsAll terms (terms.map withoutIds) = true := by
  induction terms with
  | nil => rfl
  | cons term terms ih =>
      obtain ⟨hterm, hterms⟩ := List.forall_mem_cons.1 hequal
      simp [equalsAll, hterm, ih hterms]

theorem equalsCells_map_withoutId {cells : List (Cell Term)}
    (hequal : ∀ cell ∈ cells, cell.content.equals cell.content.withoutIds = true) :
    equalsCells cells (cells.map Cell.withoutId) = true := by
  induction cells with
  | nil => rfl
  | cons cell cells ih =>
      obtain ⟨hcell, hcells⟩ := List.forall_mem_cons.1 hequal
      simp [equalsCells_cons, removeFirst?, Cell.withoutId, hcell, ih hcells]

theorem equals_withoutIds (term : Term) : term.equals term.withoutIds = true := by
  induction term using nestedInduction with
  | token sort value => simp [withoutIds, equals]
  | var v => simp [withoutIds, equals]
  | app label args ih => simpa [withoutIds, equals] using equalsAll_map_withoutIds ih
  | sequence op items ih => simpa [withoutIds, equals] using equalsAll_map_withoutIds ih
  | collection cells frame ih => simpa [withoutIds, equals] using equalsCells_map_withoutId ih

theorem beq_of_withoutIds_eq {left right : Term} (hsame : left.withoutIds = right.withoutIds) :
    (left == right) = true := by
  rw [beq_eq_equals]
  exact equals_trans (hsame ▸ left.equals_withoutIds) (equals_symm right.equals_withoutIds)

/-- Equality of terms does not see identities. -/
theorem beq_congr_withoutIds {left right left' right' : Term}
    (hleft : left.withoutIds = left'.withoutIds) (hright : right.withoutIds = right'.withoutIds) :
    (left == right) = (left' == right') := by
  have hleft' := beq_of_withoutIds_eq hleft
  have hright' := beq_of_withoutIds_eq hright
  rw [Bool.eq_iff_iff]
  constructor
  · intro hequal
    exact beq_trans (beq_trans (beq_symm hleft') hequal) hright'
  · intro hequal
    exact beq_trans (beq_trans hleft' hequal) (beq_symm hright')

@[simp]
theorem beq_withoutIds (left right : Term) :
    (left.withoutIds == right.withoutIds) = (left == right) :=
  beq_congr_withoutIds left.withoutIds_withoutIds right.withoutIds_withoutIds

theorem subtermsAll_map_withoutIds {terms : List Term}
    (hsubterms : ∀ term ∈ terms, term.withoutIds.subterms = term.subterms.map withoutIds) :
    subtermsAll (terms.map withoutIds) = (subtermsAll terms).map withoutIds := by
  induction terms with
  | nil => rfl
  | cons term terms ih =>
      obtain ⟨hterm, hterms⟩ := List.forall_mem_cons.1 hsubterms
      simp [subtermsAll, hterm, ih hterms]

theorem subterms_withoutIds (term : Term) :
    term.withoutIds.subterms = term.subterms.map withoutIds := by
  induction term using nestedInduction with
  | token sort value => rfl
  | var v => rfl
  | app label args ih => simp [withoutIds, subterms, subtermsAll_map_withoutIds ih]
  | sequence op items ih => simp [withoutIds, subterms, subtermsAll_map_withoutIds ih]
  | collection cells frame ih =>
      have hcontents : ∀ content ∈ cells.map Cell.content,
          content.withoutIds.subterms = content.subterms.map withoutIds := by
        simpa using ih
      have hmap : (cells.map Cell.withoutId).map Cell.content =
          (cells.map Cell.content).map withoutIds := by
        simp [Cell.withoutId]
      simp only [withoutIds, withoutIdsCells_eq_map, subterms, subtermsCells_eq, hmap,
        subtermsAll_map_withoutIds hcontents, List.map_cons]

@[simp]
theorem rootVariable_withoutIds (term : Term) :
    term.withoutIds.rootVariable = term.rootVariable := by
  cases term <;> rfl

@[simp]
theorem vars_withoutIds (term : Term) : term.withoutIds.vars = term.vars := by
  unfold vars
  rw [visit_eq_subterms, visit_eq_subterms, subterms_withoutIds, List.filterMap_map]
  exact congrArg distinct (List.filterMap_congr fun subterm _ => subterm.rootVariable_withoutIds)

@[simp]
theorem isGround_withoutIds (term : Term) : term.withoutIds.isGround = term.isGround := by
  rw [isGround_eq_all_subterms, isGround_eq_all_subterms, subterms_withoutIds, List.all_map]
  congr 1
  funext subterm
  simp

@[simp]
theorem asVar_withoutIds (term : Term) : term.withoutIds.asVar = term.asVar := by
  cases term <;> rfl

@[simp]
theorem isRestVar_withoutIds (term : Term) : term.withoutIds.isRestVar = term.isRestVar := by
  cases term <;> rfl

@[simp]
theorem asInt_withoutIds (term : Term) : term.withoutIds.asInt = term.asInt := by
  cases term <;> rfl

@[simp]
theorem asBool_withoutIds (term : Term) : term.withoutIds.asBool = term.asBool := by
  cases term <;> rfl

@[simp]
theorem sortOf_withoutIds (definition : Definition) (term : Term) :
    definition.sortOf term.withoutIds = definition.sortOf term := by
  cases term <;> rfl

end Term

namespace PathCondition

def withoutIds (path : PathCondition) : PathCondition := ⟨path.conjuncts.map Term.withoutIds⟩

theorem any_withoutIds (path : PathCondition) {test other : Term → Bool}
    (htest : ∀ term, test term.withoutIds = other term) :
    path.withoutIds.conjuncts.any test = path.conjuncts.any other := by
  rw [withoutIds, List.any_map]
  exact congrArg (List.any path.conjuncts) (funext htest)

theorem contains_withoutIds (path : PathCondition) (proposition : Term) :
    path.withoutIds.contains proposition.withoutIds = path.contains proposition :=
  path.any_withoutIds fun conjunct => conjunct.beq_withoutIds proposition

theorem withoutIds_assume (path : PathCondition) (proposition : Term) :
    (path.assume proposition).withoutIds = path.withoutIds.assume proposition.withoutIds := by
  unfold assume
  rw [contains_withoutIds]
  split
  · rfl
  · simp [withoutIds]

@[simp]
theorem isTrivial_withoutIds (path : PathCondition) : path.withoutIds.isTrivial = path.isTrivial := by
  simp [isTrivial, withoutIds]

end PathCondition

def Term.IsToken (term : Term) : Prop := ∃ sort value, term = .token sort value

theorem Term.IsToken.withoutIds_eq {term : Term} (htoken : term.IsToken) : term.withoutIds = term := by
  obtain ⟨sort, value, rfl⟩ := htoken
  rfl

namespace Builtin

theorem isToken_bool (value : Bool) : (Term.bool value).IsToken := ⟨_, _, rfl⟩

theorem isToken_of_intResult {value : Int} {result : Term}
    (hresult : intResult value = some result) : result.IsToken := by
  unfold intResult at hresult
  split at hresult
  · cases hresult
    exact ⟨_, _, rfl⟩
  · cases hresult

theorem isToken_of_quotient {left right : Int} {result : Term}
    (hresult : quotient left right = some result) : result.IsToken := by
  unfold quotient at hresult
  split at hresult
  · cases hresult
  · exact isToken_of_intResult hresult

theorem isToken_of_remainder {left right : Int} {result : Term}
    (hresult : remainder left right = some result) : result.IsToken := by
  unfold remainder at hresult
  split at hresult
  · cases hresult
  · exact isToken_of_intResult hresult

theorem onInts_withoutIds (args : List Term) {operation : Int → Int → Option Term}
    (htoken : ∀ left right result, operation left right = some result → result.IsToken) :
    onInts (args.map Term.withoutIds) operation = (onInts args operation).map Term.withoutIds := by
  rcases args with _ | ⟨left, _ | ⟨right, _ | ⟨third, others⟩⟩⟩
  · rfl
  · rfl
  · simp only [onInts, List.map_cons, List.map_nil, Term.asInt_withoutIds]
    cases left.asInt with
    | none => rfl
    | some leftValue =>
        cases right.asInt with
        | none => rfl
        | some rightValue =>
            change operation leftValue rightValue = (operation leftValue rightValue).map _
            cases hoperation : operation leftValue rightValue with
            | none => rfl
            | some result => rw [Option.map_some, (htoken _ _ result hoperation).withoutIds_eq]
  · rfl

theorem compareInts_withoutIds (args : List Term) (comparison : Int → Int → Bool) :
    compareInts (args.map Term.withoutIds) comparison =
      (compareInts args comparison).map Term.withoutIds := by
  apply onInts_withoutIds args
  rintro left right result ⟨⟩
  exact isToken_bool _

theorem equality_withoutIds (args : List Term) :
    equality (args.map Term.withoutIds) = equality args := by
  rcases args with _ | ⟨left, _ | ⟨right, _ | ⟨third, others⟩⟩⟩ <;> simp [equality]

theorem connective_withoutIds (decisive : Bool) (args : List Term) :
    connective decisive (args.map Term.withoutIds) =
      (connective decisive args).map Term.withoutIds := by
  rcases args with _ | ⟨left, _ | ⟨right, _ | ⟨third, others⟩⟩⟩
  · rfl
  · rfl
  · simp only [connective, List.map_cons, List.map_nil, Term.asBool_withoutIds]
    repeat' split
    all_goals rfl
  · rfl

theorem concatenation_withoutIds (args : List Term) :
    concatenation (args.map Term.withoutIds) = (concatenation args).map Term.withoutIds := by
  rcases args with _ | ⟨left, _ | ⟨right, _ | ⟨third, others⟩⟩⟩
  · rfl
  · cases left <;> rfl
  · cases left <;> cases right <;> simp only [concatenation, List.map_cons, List.map_nil,
      Term.withoutIds, Option.map_none]
    split <;> rfl
  · cases left <;> cases right <;> rfl

/-- A builtin gives the same result for arguments without identities. -/
theorem apply_withoutIds (builtin : Builtin) (args : List Term) :
    builtin.apply (args.map Term.withoutIds) = (builtin.apply args).map Term.withoutIds := by
  cases builtin with
  | addInt | subInt | mulInt => exact onInts_withoutIds args fun _ _ _ => isToken_of_intResult
  | divInt => exact onInts_withoutIds args fun _ _ _ => isToken_of_quotient
  | modInt => exact onInts_withoutIds args fun _ _ _ => isToken_of_remainder
  | ltInt | leInt | gtInt | geInt | eqInt => exact compareInts_withoutIds args _
  | eqTerm =>
      simp only [apply, equality_withoutIds]
      cases equality args <;> rfl
  | neTerm =>
      simp only [apply, equality_withoutIds]
      cases equality args <;> rfl
  | notBool =>
      rcases args with _ | ⟨arg, _ | ⟨second, others⟩⟩
      · rfl
      · simp only [apply, List.map_cons, List.map_nil, Term.asBool_withoutIds]
        cases arg.asBool <;> rfl
      · rfl
  | andBool => exact connective_withoutIds false args
  | orBool => exact connective_withoutIds true args
  | concatString => exact concatenation_withoutIds args
  | intToString =>
      rcases args with _ | ⟨arg, _ | ⟨second, others⟩⟩
      · rfl
      · simp only [apply, List.map_cons, List.map_nil, Term.asInt_withoutIds]
        cases arg.asInt <;> rfl
      · rfl

end Builtin

/-- Terms that differ in the identities of cells alone. -/
def Term.Alike (left right : Term) : Prop := left.withoutIds = right.withoutIds

def Term.AlikeAll (left right : List Term) : Prop :=
  left.map Term.withoutIds = right.map Term.withoutIds

def Substitution.Alike (left right : Substitution) : Prop := left.withoutIds = right.withoutIds

/-- The hook looks at no identities, which are no part of what a configuration is. -/
def Hook.IgnoresIds (hook : Hook) : Prop :=
  ∀ args args' : List Term, Term.AlikeAll args args' →
    (hook.apply args).map Term.withoutIds = (hook.apply args').map Term.withoutIds

theorem Builtin.ignoresIds (builtin : Builtin) : builtin.hook.IgnoresIds := by
  intro args args' hargs
  change (builtin.apply args).map Term.withoutIds = (builtin.apply args').map Term.withoutIds
  rw [← builtin.apply_withoutIds, ← builtin.apply_withoutIds, hargs]

def Term.hasEvenId (term : Term) : Bool :=
  term.cellIds.any fun id => id % 2 == 0

/-- A hook that looks at identities. -/
def Hook.parity : Hook where
  apply args := some (.bool (args.any Term.hasEvenId))

namespace Term

theorem Alike.symm {left right : Term} (halike : left.Alike right) : right.Alike left :=
  Eq.symm halike

theorem Alike.trans {left middle right : Term} (hleft : left.Alike middle)
    (hright : middle.Alike right) : left.Alike right :=
  Eq.trans hleft hright

theorem EqualTo.congr {left right left' right' : Term} (hequal : left.EqualTo right)
    (hleft : left.Alike left') (hright : right.Alike right') : left'.EqualTo right' :=
  (beq_congr_withoutIds hleft hright).symm.trans hequal

theorem AlikeAll.cons {term term' : Term} {terms terms' : List Term} (hterm : term.Alike term')
    (hterms : AlikeAll terms terms') : AlikeAll (term :: terms) (term' :: terms') :=
  List.cons_eq_cons.2 ⟨hterm, hterms⟩

theorem forall₂_alike_iff {terms terms' : List Term} :
    List.Forall₂ Alike terms terms' ↔ AlikeAll terms terms' := by
  unfold AlikeAll Alike
  rw [← List.forall₂_eq_eq_eq, List.forall₂_map_left_iff, List.forall₂_map_right_iff]

theorem AlikeAll.append {terms terms' others others' : List Term} (hterms : AlikeAll terms terms')
    (hothers : AlikeAll others others') : AlikeAll (terms ++ others) (terms' ++ others') := by
  unfold AlikeAll
  rw [List.map_append, List.map_append, hterms, hothers]

theorem alikeAll_itemsOf {left right : Term} (halike : left.Alike right) (op : Label) :
    AlikeAll (itemsOf op left) (itemsOf op right) := by
  unfold AlikeAll
  rw [← itemsOf_withoutIds, ← itemsOf_withoutIds, halike]

theorem exists_of_alikeAll_append {result terms others : List Term}
    (halike : AlikeAll result (terms ++ others)) :
    ∃ first second, result = first ++ second ∧ AlikeAll first terms ∧ AlikeAll second others := by
  unfold AlikeAll at halike
  rw [List.map_append] at halike
  exact List.map_eq_append_iff.1 halike

theorem alike_app {label : Label} {args args' : List Term} (hargs : AlikeAll args args') :
    (app label args).Alike (app label args') := by
  unfold Alike withoutIds
  rw [withoutIdsAll_eq_map, withoutIdsAll_eq_map, hargs]

theorem exists_of_alike_app {label : Label} {args : List Term} {other : Term}
    (halike : (app label args).Alike other) :
    ∃ args', other = app label args' ∧ AlikeAll args args' := by
  cases other with
  | app label' args' =>
      simp only [Alike, withoutIds, withoutIdsAll_eq_map, app.injEq] at halike
      exact ⟨args', by rw [halike.1], halike.2⟩
  | token _ _ | var _ | sequence _ _ | collection _ _ => cases halike

theorem exists_of_alike_sequence {op : Label} {items : List Term} {other : Term}
    (halike : (sequence op items).Alike other) :
    ∃ items', other = sequence op items' ∧ AlikeAll items items' := by
  cases other with
  | sequence op' items' =>
      simp only [Alike, withoutIds, withoutIdsAll_eq_map, sequence.injEq] at halike
      exact ⟨items', by rw [halike.1], halike.2⟩
  | token _ _ | var _ | app _ _ | collection _ _ => cases halike

theorem exists_of_alike_collection {cells : List (Cell Term)} {frame : Option Variable}
    {other : Term} (halike : (collection cells frame).Alike other) :
    ∃ cells', other = collection cells' frame ∧
      cells.map Cell.withoutId = cells'.map Cell.withoutId := by
  cases other with
  | collection cells' frame' =>
      simp only [Alike, withoutIds, withoutIdsCells_eq_map, collection.injEq] at halike
      exact ⟨cells', by rw [halike.2], halike.1⟩
  | token _ _ | var _ | app _ _ | sequence _ _ => cases halike

theorem eq_of_token_alike {sort : SortName} {value : String} {other : Term}
    (halike : (token sort value).Alike other) : other = token sort value := by
  cases other with
  | token _ _ => exact halike.symm
  | app _ _ | var _ | sequence _ _ | collection _ _ => cases halike

theorem eq_of_var_alike {v : Variable} {other : Term} (halike : (var v).Alike other) :
    other = var v := by
  cases other with
  | var _ => exact halike.symm
  | app _ _ | token _ _ | sequence _ _ | collection _ _ => cases halike

end Term

theorem Cell.forall₂_alike_iff {cells cells' : List (Cell Term)} :
    List.Forall₂ (fun cell cell' => cell.name = cell'.name ∧ cell.content.Alike cell'.content)
        cells cells' ↔ cells.map Cell.withoutId = cells'.map Cell.withoutId := by
  rw [← List.forall₂_eq_eq_eq, List.forall₂_map_left_iff, List.forall₂_map_right_iff]
  simp only [Cell.withoutId, Cell.mk.injEq, true_and, Term.Alike]

end SymbolicRewriting
