import SymbolicRewriting.Proofs.NormalForms

/-!
Building a right side and evaluating its instance. The first answers calls while it puts in the
bindings; the second puts in the bindings and evaluates the whole afterwards, the bound terms included.
They come to the same, errors included, as long as the bound terms are values of their own and no hook
looks at identities.
-/

namespace SymbolicRewriting

open List

variable {σ : Type}

namespace Term

/-- What is put together from related terms is related. -/
structure Similarity (same : Term → Term → Prop) : Prop where
  refl (term : Term) : same term term
  app (label : Label) {args args' : List Term} (hargs : Forall₂ same args args') :
    same (app label args) (app label args')
  flatten (op : Label) {items items' : List Term} (hitems : Forall₂ same items items') :
    same (flatten op items) (flatten op items')
  append {cells cells' more more' : List (Cell Term)} {frame : Option Variable}
    (hcells : Forall₂ (fun cell cell' => cell.name = cell'.name ∧ same cell.content cell'.content)
      cells cells')
    (hmore : same (collection more frame) (collection more' frame)) :
    same (collection (cells ++ more) frame) (collection (cells' ++ more') frame)

theorem similarity_alike : Similarity Alike where
  refl _ := rfl
  app _ _ _ hargs := alike_app (forall₂_alike_iff.1 hargs)
  flatten op items items' hitems := by
    unfold Alike
    rw [withoutIds_flatten, withoutIds_flatten, forall₂_alike_iff.1 hitems]
  append {cells cells' more more' frame} hcells hmore := by
    have halike := Cell.forall₂_alike_iff.1 hcells
    change closeWith cells none (some (collection more frame)) |>.Alike
      (closeWith cells' none (some (collection more' frame)))
    unfold Alike
    rw [withoutIds_closeWith, withoutIds_closeWith, halike, Option.map_some, Option.map_some, hmore]

theorem similarity_equalTo : Similarity EqualTo where
  refl := beq_refl
  app label _ _ hargs := equal_app label hargs
  flatten op _ _ hitems := equal_flatten op hitems
  append hcells hmore := hmore.closeWith (hcells.imp fun _ _ => cellsEqual_iff.2) none

end Term

namespace Definition

variable {definition : Definition} {call : Caller σ} {subst : Substitution} {mode : BuildMode}

theorem buildTerms_append (terms others : List Term) :
    definition.buildTerms call subst mode (terms ++ others) = (do
      let values ← definition.buildTerms call subst mode terms
      let later ← definition.buildTerms call subst mode others
      pure (values ++ later)) := by
  induction terms with
  | nil => simp [buildTerms]
  | cons term terms ih => simp [buildTerms, ih]

theorem buildCells_append (cells others : List (Cell Term)) :
    definition.buildCells call subst mode (cells ++ others) = (do
      let built ← definition.buildCells call subst mode cells
      let later ← definition.buildCells call subst mode others
      pure (built ++ later)) := by
  induction cells with
  | nil => simp [buildCells]
  | cons cell cells ih => simp [buildCells, ih]

section Flattening

variable (definition call subst mode)

/-- An item contributes to a sequence what its own items contribute once they are built. -/
theorem flatMap_itemsOf_buildTerms_itemsOf (op : Label) (item : Term) :
    List.flatMap (Term.itemsOf op) <$> definition.buildTerms call subst mode (item.itemsOf op) =
      Term.itemsOf op <$> definition.buildTerm call subst mode item := by
  cases hsequence : item.isSequenceOver op with
  | false =>
      rw [Term.itemsOf_of_not_isSequenceOver hsequence]
      simp [buildTerms]
  | true =>
      obtain ⟨items, rfl⟩ := Term.exists_of_isSequenceOver hsequence
      rw [Term.itemsOf_sequence, buildTerm, bind_pure_comp, Functor.map_map]
      simp only [Term.itemsOf_flatten]

theorem flatMap_itemsOf_buildTerms (op : Label) (items : List Term) :
    List.flatMap (Term.itemsOf op) <$>
        definition.buildTerms call subst mode (items.flatMap (Term.itemsOf op)) =
      List.flatMap (Term.itemsOf op) <$> definition.buildTerms call subst mode items := by
  induction items with
  | nil => rfl
  | cons item items ih =>
      calc
        _ = (do
            let first ← List.flatMap (Term.itemsOf op) <$>
              definition.buildTerms call subst mode (item.itemsOf op)
            let later ← List.flatMap (Term.itemsOf op) <$>
              definition.buildTerms call subst mode (items.flatMap (Term.itemsOf op))
            pure (first ++ later)) := by
          simp [buildTerms_append]
        _ = (do
            let first ← Term.itemsOf op <$> definition.buildTerm call subst mode item
            let later ← List.flatMap (Term.itemsOf op) <$>
              definition.buildTerms call subst mode items
            pure (first ++ later)) := by
          rw [flatMap_itemsOf_buildTerms_itemsOf, ih]
        _ = _ := by
          simp [buildTerms]

/-- Flattening a sequence before it is built changes nothing. -/
theorem buildTerm_flatten (op : Label) (items : List Term) :
    definition.buildTerm call subst mode (.flatten op items) =
      definition.buildTerm call subst mode (.sequence op items) := by
  have hflatten : Term.flatten op = Term.sequence op ∘ List.flatMap (Term.itemsOf op) :=
    funext (Term.flatten_eq op)
  rw [Term.flatten_eq, buildTerm, buildTerm, bind_pure_comp, bind_pure_comp, hflatten,
    LawfulFunctor.comp_map, LawfulFunctor.comp_map, flatMap_itemsOf_buildTerms]

end Flattening

end Definition

namespace Machine

variable {machine : Machine σ} {subst : Substitution}

theorem evaluate_collection (machine : Machine σ) (cells : List (Cell Term))
    (frame : Option Variable) :
    machine.evaluate (.collection cells frame) = (do
      let built ← machine.definition.buildCells machine.call .empty .evaluate cells
      pure (.collection built frame)) := by
  cases frame <;> rfl

/-- If the binding of a frame evaluates to a related term, then so does what the frame adds. -/
theorem exists_closeWith_yields {same : Term → Term → Prop} (hsame : Term.Similarity same)
    (frame : Option Variable) {bound : Option Term}
    (hbound : ∀ term, bound = some term → (machine.evaluate term).Yields (same term)) :
    ∃ more inner, (∀ cells, Term.closeWith cells frame bound = .collection (cells ++ more) inner) ∧
      (machine.definition.buildCells machine.call .empty .evaluate more).Yields fun added =>
        same (.collection more inner) (.collection added inner) := by
  have hnothing : ∀ inner,
      (machine.definition.buildCells machine.call .empty .evaluate []).Yields fun added =>
        same (.collection [] inner) (.collection added inner) :=
    fun inner => .of_pure (hsame.refl _)
  cases bound with
  | none => exact ⟨[], frame, fun cells => by simp [Term.closeWith], hnothing frame⟩
  | some term =>
      cases term with
      | collection more inner =>
          have hadded := hbound _ rfl
          rw [evaluate_collection] at hadded
          exact ⟨more, inner, fun cells => rfl, hadded.of_bind_pure⟩
      | var v => exact ⟨[], some v, fun cells => by simp [Term.closeWith], hnothing (some v)⟩
      | token _ _ | app _ _ | sequence _ _ =>
          exact ⟨[], frame, fun cells => by simp [Term.closeWith], hnothing frame⟩

/-- By induction on the term. A variable is replaced by a term that evaluation leaves as it is, up to the
relation, and so are the cells that a frame adds. -/
theorem buildTerm_repeatedBy_instantiate {same : Term → Term → Prop} (hsame : Term.Similarity same)
    (hcall : ∀ label args args', Forall₂ same args args' →
      (machine.call label args).RepeatedBy .ofResults same (machine.call label args'))
    (hbound : ∀ v bound, subst.get? v = some bound → (machine.evaluate bound).Yields (same bound))
    (term : Term) :
    (machine.definition.buildTerm machine.call subst .instantiate term).RepeatedBy
      .ofResults same (machine.evaluate (term.instantiate subst)) := by
  induction term using Term.nestedInduction with
  | token sort value => exact .of_pure (hsame.refl _)
  | var v =>
      apply Run.RepeatedBy.pure_of_yields
      rw [Term.instantiate]
      cases hget : subst.get? v with
      | none => exact .of_pure (hsame.refl _)
      | some bound => exact hbound v bound hget
  | app label args ih =>
      have hargs := Definition.buildTerms_repeatedBy_of_forall₂
        (forall₂_map_right_iff.2 (forall₂_same.2 ih))
      rw [Term.instantiate, Term.instantiateAll_eq_map]
      apply hargs.bind
      intro built built' hbuilt
      split
      · exact hcall label built built' hbuilt
      · exact .of_pure (hsame.app label hbuilt)
  | sequence op items ih =>
      have hevaluate : machine.evaluate ((Term.sequence op items).instantiate subst) =
          machine.evaluate (.sequence op (Term.instantiateAll subst items)) :=
        Definition.buildTerm_flatten _ _ _ _ op _
      have hitems := Definition.buildTerms_repeatedBy_of_forall₂
        (forall₂_map_right_iff.2 (forall₂_same.2 ih))
      rw [hevaluate, Term.instantiateAll_eq_map]
      apply hitems.bind
      intro built built' hbuilt
      exact .of_pure (hsame.flatten op hbuilt)
  | collection cells frame ih =>
      have hframe : ∀ term, Term.frameBinding subst frame = some term →
          (machine.evaluate term).Yields (same term) := by
        intro term hterm
        obtain ⟨v, -, hget⟩ := Option.bind_eq_some_iff.1 hterm
        exact hbound v term hget
      obtain ⟨more, inner, hclose, hmore⟩ := exists_closeWith_yields hsame frame hframe
      have hevaluate : machine.evaluate ((Term.collection cells frame).instantiate subst) = (do
          let built ← machine.definition.buildCells machine.call .empty .evaluate
            (Term.instantiateCells subst cells)
          let added ← machine.definition.buildCells machine.call .empty .evaluate more
          pure (.collection (built ++ added) inner)) := by
        rw [Term.instantiate, hclose, evaluate_collection, Definition.buildCells_append]
        simp
      have hcells : Forall₂ (fun cell cell' : Cell Term => cell.name = cell'.name ∧
          (machine.definition.buildTerm machine.call subst .instantiate cell.content).RepeatedBy
            .ofResults same (machine.evaluate cell'.content))
          cells (Term.instantiateCells subst cells) := by
        rw [Term.instantiateCells_eq_map]
        exact forall₂_map_right_iff.2 (forall₂_same.2 fun cell hmem => ⟨rfl, ih cell hmem⟩)
      rw [hevaluate]
      apply (Definition.buildCells_repeatedBy_of_forall₂ hcells).bind
      intro built built' hbuilt
      rw [hclose]
      apply Run.RepeatedBy.pure_of_yields
      apply hmore.bind
      intro added hadded
      exact .of_pure (hsame.append hbuilt hadded)

theorem Evaluated.yields_equalTo (hcongruent : machine.definition.Congruent) {term : Term}
    (hevaluated : machine.Evaluated term) : (machine.evaluate term).Yields term.EqualTo := by
  obtain ⟨value, ⟨start, next, hrun⟩, hsame⟩ := hevaluated
  have hequal : term.EqualTo value := by
    rcases hsame with halike | ⟨-, hequal⟩
    · exact Term.beq_of_withoutIds_eq halike
    · exact Term.EqualTo.symm hequal
  have hagain : (machine.evaluate term).Yields value.EqualTo :=
    (Definition.buildTerm_respects (call_respects hcongruent) Substitution.empty.equalTo_refl
      .evaluate term).yields hrun
  exact hagain.mono fun again hsame => hequal.trans hsame

theorem Evaluated.yields_alike (hrepeat : machine.definition.Repeatable)
    (hordered : ¬machine.definition.Congruent) {term : Term}
    (hevaluated : machine.Evaluated term) : (machine.evaluate term).Yields term.Alike := by
  obtain ⟨value, ⟨start, next, hrun⟩, hsame⟩ := hevaluated
  have halike : term.Alike value := hsame.resolve_right fun hequal => hordered hequal.1
  have hagain : (machine.evaluate term).Yields value.Alike :=
    (Definition.buildTerm_repeatedBy (call_repeatedBy hrepeat) (rfl : Substitution.empty.Alike _)
      .evaluate .evaluate term term rfl).yields hrun
  exact hagain.mono fun again hsame => halike.trans hsame

/-- Applying a rule is substituting into its right side and evaluating: under bindings that have been
evaluated, both end in equal terms or both in the same error, if no hook looks at identities. -/
theorem applyRule_substitutes_and_evaluates (hfresh : machine.definition.NoFreshVars)
    (hhooks : machine.definition.EveryHook Hook.IgnoresIds) {rule : Rule}
    (hmem : rule ∈ machine.definition.rewriteRules ++ machine.definition.functionRules)
    {subst : Substitution}
    (hevaluated : ∀ v bound, subst.get? v = some bound → machine.Evaluated bound)
    (start start' : RunState σ) :
    Run.EndsTogether (fun built value : Term => (built == value) = true)
      (machine.applyRule rule subst start)
      (machine.evaluate (rule.rhs.applySubst subst) start') := by
  have hrepeat : machine.definition.Repeatable := ⟨hfresh.withoutFresh, hhooks⟩
  refine Run.RepeatedBy.endsTogether ?_ start start'
  unfold applyRule
  rw [Definition.buildRight_of_freshVars_eq_nil (hfresh rule hmem), Term.applySubst]
  split
  · rename_i hempty
    have hbindings : subst.bindings = [] := List.isEmpty_iff.1 hempty
    have halike : subst.Alike .empty := by
      simp [Substitution.Alike, Substitution.withoutIds, hbindings, Substitution.empty]
    exact (Definition.buildTerm_repeatedBy (call_repeatedBy hrepeat) halike .instantiate .evaluate
      rule.rhs rule.rhs rfl).mono fun _ _ => Term.beq_of_withoutIds_eq
  · by_cases hcongruent : machine.definition.Congruent
    · exact buildTerm_repeatedBy_instantiate Term.similarity_equalTo (call_respects hcongruent)
        (fun v bound hget => (hevaluated v bound hget).yields_equalTo hcongruent) rule.rhs
    · have hcall : ∀ label args args', Forall₂ Term.Alike args args' →
          (machine.call label args).RepeatedBy .ofResults Term.Alike (machine.call label args') :=
        fun label args args' hargs =>
          call_repeatedBy hrepeat label args args' (Term.forall₂_alike_iff.1 hargs)
      have hrepeated := buildTerm_repeatedBy_instantiate Term.similarity_alike hcall
        (fun v bound hget => (hevaluated v bound hget).yields_alike hrepeat hcongruent) rule.rhs
      exact hrepeated.mono fun _ _ => Term.beq_of_withoutIds_eq

end Machine

namespace Switching

def position : Variable := ⟨"B", Symbol.bool, .plain⟩

def others : Variable := ⟨"R", Symbol.top, .rest⟩

/-- The switch is turned, and the other cells stay as they are. -/
def turning : RuleBody where
  lhs := .collection [⟨0, "switch", .var position⟩] (some others)
  rhs := .collection [⟨0, "switch", .app Builtin.notBool.label [.var position]⟩] (some others)

def machine : Machine Unit where
  definition := .assemble [.symbol (.ofBuiltin .notBool), .rule turning]
  oracle := DecisionProcedure.silent.toOracle Unit

def lamps : Term := .collection [⟨5, "lamp", .string "red"⟩] none

def subst : Substitution := { bindings := [(position, .bool true), (others, lamps)], writes := [⟨0, 4⟩] }

def turned : Term :=
  .collection [⟨4, "switch", .bool false⟩, ⟨5, "lamp", .string "red"⟩] none

/-- The call in the right side is answered, and the frame adds its cell, in both ways. -/
theorem applyRule_substitutes_and_evaluates_turning :
    machine.definition.NoFreshVars ∧ { turning with id := 0 } ∈ machine.definition.rewriteRules ∧
    (∀ v bound, subst.get? v = some bound → machine.Evaluated bound) ∧
    (machine.applyRule { turning with id := 0 } subst).succeedsWith { environment := () }
      (· == turned) = true ∧
    ∀ start start', Run.EndsTogether (fun built value : Term => (built == value) = true)
      (machine.applyRule { turning with id := 0 } subst start)
      (machine.evaluate (turning.rhs.applySubst subst) start') := by
  have hfresh : machine.definition.NoFreshVars := by
    unfold Definition.NoFreshVars
    decide +kernel
  have honly : machine.definition.OnlyBuiltins := Definition.onlyBuiltins_assemble [.notBool] rfl
  have hrules : machine.definition.rewriteRules = [{ turning with id := 0 }] := by rfl
  have hmem : { turning with id := 0 } ∈ machine.definition.rewriteRules := by
    rw [hrules]
    exact List.mem_singleton_self _
  have hevaluated : ∀ v bound, subst.get? v = some bound → machine.Evaluated bound := by
    intro v bound hget
    obtain ⟨binding, hfind, rfl⟩ := Option.map_eq_some_iff.1 hget
    have hbinding : binding ∈ [(position, .bool true), (others, lamps)] :=
      List.mem_of_find?_eq_some hfind
    rcases List.mem_pair.1 hbinding with rfl | rfl
    · exact ⟨.bool true, ⟨{ environment := () }, _, rfl⟩, .inl rfl⟩
    · exact ⟨lamps, ⟨{ environment := () }, _, rfl⟩, .inl rfl⟩
  exact ⟨hfresh, hmem, hevaluated, by decide +kernel,
    Machine.applyRule_substitutes_and_evaluates hfresh (honly.everyHook Builtin.ignoresIds)
      (List.mem_append_left _ hmem) hevaluated⟩

end Switching

/-! The order of cells tells the two apart, and so does a hook that looks at identities. -/

/-- The bound terms are equal to values that they have, but the rule is applied to another effect than
that of substituting and evaluating. -/
structure Machine.TellsApart (machine : Machine σ) (rule : Rule) (subst : Substitution) : Prop where
  noFreshVars : machine.definition.NoFreshVars
  mem : rule ∈ machine.definition.rewriteRules
  bound : ∀ v bound, subst.get? v = some bound →
    ∃ value, machine.HasValue bound value ∧ (value == bound) = true
  differs : ∃ start built next value last, machine.applyRule rule subst start = .ok built next ∧
    machine.evaluate (rule.rhs.applySubst subst) start = .ok value last ∧ (built == value) = false

theorem Substitution.of_get?_singleton {v w : Variable} {bound term : Term}
    (hget : ({ bindings := [(v, bound)] } : Substitution).get? w = some term) : term = bound := by
  obtain ⟨binding, hfind, rfl⟩ := Option.map_eq_some_iff.1 hget
  rw [List.mem_singleton.1 (List.mem_of_find?_eq_some hfind)]

namespace CellOrder

def unsorted : Term := .app "sort" [flags true false]

def binding : Substitution := { bindings := [(cells, unsorted)] }

/-- The bound term is equal to its value. The test that is built sees its flags as they are bound, and
fails; the test that is evaluated sees them sorted, and passes. -/
theorem tellsApart_unsorted : machine.TellsApart { starting with id := 3 } binding where
  noFreshVars := noFreshVars
  mem := by
    have hrules : machine.definition.rewriteRules = [{ starting with id := 3 }] := by rfl
    rw [hrules]
    exact List.mem_singleton_self _
  bound v bound hget := by
    have hvalue : (machine.evaluate unsorted).succeedsWith { environment := () } (· == unsorted) =
        true := by
      decide +kernel
    obtain rfl := Substitution.of_get?_singleton hget
    obtain ⟨value, next, hrun, hequal⟩ := Run.exists_of_succeedsWith hvalue
    exact ⟨value, ⟨_, next, hrun⟩, hequal⟩
  differs := by
    have hdiffers : (machine.applyRule { starting with id := 3 } binding).succeedsWith
        { environment := () } (fun built =>
          (machine.evaluate (starting.rhs.applySubst binding)).succeedsWith { environment := () }
            fun value => !(built == value)) = true := by
      decide +kernel
    obtain ⟨built, next, hbuilt, htest⟩ := Run.exists_of_succeedsWith hdiffers
    obtain ⟨value, last, hvalue, hdiffers⟩ := Run.exists_of_succeedsWith htest
    exact ⟨_, built, next, value, last, hbuilt, hvalue, by simpa using hdiffers⟩

end CellOrder

namespace Parity

def binding : Substitution := { bindings := [(subject, test)] }

/-- The bound term is a value of its own, which is built as it is, and has another value by now. -/
theorem tellsApart_test : machine.TellsApart { starting with id := 2 } binding where
  noFreshVars := noFreshVars
  mem := by
    have hrules : machine.definition.rewriteRules = [{ starting with id := 2 }] := by rfl
    rw [hrules]
    exact List.mem_singleton_self _
  bound v bound hget := by
    obtain rfl := Substitution.of_get?_singleton hget
    obtain ⟨start, next, -, -, hkept, -⟩ := exists_evaluate_test
    exact ⟨test, ⟨start, next, hkept⟩, test.beq_refl⟩
  differs := by
    obtain ⟨-, start, value, last, -, hpassed, hdiffers⟩ := exists_evaluate_test
    have hbuilt : machine.applyRule { starting with id := 2 } binding start = .ok test start := by
      unfold Machine.applyRule
      rw [Definition.buildRight_of_freshVars_eq_nil (by decide +kernel)]
      rfl
    refine ⟨start, test, start, value, last, hbuilt, hpassed, ?_⟩
    rw [Bool.eq_false_iff] at hdiffers ⊢
    exact fun hequal => hdiffers (Term.beq_symm hequal)

end Parity

/-- Neither the order of cells nor the identities that a hook looks at can be left out of account. -/
theorem Machine.tellsApart_order_and_identities :
    CellOrder.machine.TellsApart { CellOrder.starting with id := 3 } CellOrder.binding ∧
      Parity.machine.TellsApart { Parity.starting with id := 2 } Parity.binding :=
  ⟨CellOrder.tellsApart_unsorted, Parity.tellsApart_test⟩

end SymbolicRewriting
