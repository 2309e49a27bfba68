import SymbolicRewriting.Machine.Evaluation
import SymbolicRewriting.Proofs.Hooks
import SymbolicRewriting.Proofs.MatchingIdentities
import SymbolicRewriting.Proofs.Run

/-!
Evaluation can be repeated. As long as no function rule has fresh variables and no hook looks at
identities, a term that has been evaluated once can be evaluated in every state, with more levels of
nesting as well, and gives the same value up to the identities of cells. With as many levels it also
ends in the same error.
-/

namespace SymbolicRewriting

open List

variable {σ α β α' β' : Type}

/-- How runs are repeated: do errors count as well as values, and from which states does it go, by
whether these have been told to stop? -/
structure Repetition where
  errors : Prop
  flag : Bool → Prop

namespace Repetition

def ofValues : Repetition := ⟨False, fun _ => True⟩

def ofResults : Repetition := ⟨True, fun _ => True⟩

/-- As long as the search has not been told to stop, values and errors are repeated. -/
def undisturbed : Repetition := ⟨True, fun stop => stop = false⟩

end Repetition

/-- Whenever the first run succeeds, the second one does, and their values are related. If errors
count, it also ends in every error that the first one ends in. -/
structure Run.RepeatedBy (kind : Repetition) (same : α → α' → Prop) (run : Run σ α)
    (other : Run σ α') : Prop where
  value : ∀ start start', kind.flag start.cancelled → kind.flag start'.cancelled →
    ∀ value next, run start = .ok value next →
      ∃ value' next', other start' = .ok value' next' ∧ same value value' ∧
        kind.flag next.cancelled ∧ kind.flag next'.cancelled
  error : kind.errors → ∀ start start', kind.flag start.cancelled → kind.flag start'.cancelled →
    ∀ error next, run start = .error error next →
      ∃ next', other start' = .error error next' ∧
        kind.flag next.cancelled ∧ kind.flag next'.cancelled

variable {kind : Repetition}

namespace Run.RepeatedBy

theorem of_pure {same : α → α' → Prop} {value : α} {value' : α'} (hsame : same value value') :
    RepeatedBy kind same (pure value : Run σ α) (pure value') where
  value start start' hflag hflag' result next hrun := by
    obtain ⟨rfl, rfl⟩ := pure_eq_ok.1 hrun
    exact ⟨value', start', rfl, hsame, hflag, hflag'⟩
  error _ start start' _ _ error next hrun := by cases hrun

theorem bind {same : α → α' → Prop} {post : β → β' → Prop} {run : Run σ α} {other : Run σ α'}
    {continuation : α → Run σ β} {continuation' : α' → Run σ β'}
    (hfirst : run.RepeatedBy kind same other)
    (hsecond : ∀ value value', same value value' →
      (continuation value).RepeatedBy kind post (continuation' value')) :
    (run >>= continuation).RepeatedBy kind post (other >>= continuation') where
  value start start' hflag hflag' result next hrun := by
    obtain ⟨value, between, hvalue, hresult⟩ := bind_eq_ok.1 hrun
    obtain ⟨value', between', hvalue', hsame, hbetween, hbetween'⟩ :=
      hfirst.value start start' hflag hflag' value between hvalue
    obtain ⟨result', next', hresult', hpost⟩ :=
      (hsecond value value' hsame).value between between' hbetween hbetween' result next hresult
    exact ⟨result', next', bind_eq_ok.2 ⟨value', between', hvalue', hresult'⟩, hpost⟩
  error herrors start start' hflag hflag' error next hrun := by
    rcases bind_eq_error.1 hrun with hfailed | ⟨value, between, hvalue, hfailed⟩
    · obtain ⟨next', hfailed', hnext⟩ :=
        hfirst.error herrors start start' hflag hflag' error next hfailed
      exact ⟨next', bind_eq_error.2 (.inl hfailed'), hnext⟩
    · obtain ⟨value', between', hvalue', hsame, hbetween, hbetween'⟩ :=
        hfirst.value start start' hflag hflag' value between hvalue
      obtain ⟨next', hfailed', hnext⟩ := (hsecond value value' hsame).error herrors between between'
        hbetween hbetween' error next hfailed
      exact ⟨next', bind_eq_error.2 (.inr ⟨value', between', hvalue', hfailed'⟩), hnext⟩

theorem and {same : α → α' → Prop} {post : α → Prop} {run : Run σ α} {other : Run σ α'}
    (hrun : run.RepeatedBy kind same other) (hpost : run.Ensures post) :
    run.RepeatedBy kind (fun value value' => same value value' ∧ post value) other where
  value start start' hflag hflag' value next hvalue := by
    obtain ⟨value', next', hother, hsame, hnext⟩ :=
      hrun.value start start' hflag hflag' value next hvalue
    exact ⟨value', next', hother, ⟨hsame, hpost start value next hvalue⟩, hnext⟩
  error := hrun.error

theorem mono {same weaker : α → α' → Prop} {run : Run σ α} {other : Run σ α'}
    (hrun : run.RepeatedBy kind same other)
    (himp : ∀ value value', same value value' → weaker value value') :
    run.RepeatedBy kind weaker other where
  value start start' hflag hflag' value next hvalue := by
    obtain ⟨value', next', hother, hsame, hnext⟩ :=
      hrun.value start start' hflag hflag' value next hvalue
    exact ⟨value', next', hother, himp value value' hsame, hnext⟩
  error := hrun.error

theorem of_throw {same : α → α' → Prop} (error : RewriteError) {other : Run σ α'}
    (hother : kind.errors → other = throw error) :
    RepeatedBy kind same (throw error : Run σ α) other where
  value start start' _ _ value next hrun := by cases hrun
  error herrors start start' hflag hflag' error next hrun := by
    cases hrun
    rw [hother herrors]
    exact ⟨start', rfl, hflag, hflag'⟩

/-- What a run reads off or changes, apart from being told to stop, may differ. -/
theorem modifyGet {same : α → α' → Prop} {update : RunState σ → α × RunState σ}
    {update' : RunState σ → α' × RunState σ}
    (hsame : ∀ state state', same (update state).1 (update' state').1)
    (hkeeps : ∀ state, (update state).2.cancelled = state.cancelled)
    (hkeeps' : ∀ state, (update' state).2.cancelled = state.cancelled) :
    RepeatedBy kind same (MonadStateOf.modifyGet update : Run σ α)
      (MonadStateOf.modifyGet update') where
  value start start' hflag hflag' value next hrun := by
    cases hrun
    exact ⟨_, _, rfl, hsame start start', (hkeeps start).symm ▸ hflag,
      (hkeeps' start').symm ▸ hflag'⟩
  error _ start start' _ _ error next hrun := by cases hrun

theorem record (update : Metrics → Metrics) :
    RepeatedBy kind (fun _ _ => True) (Run.record update : Run σ Unit) (Run.record update) :=
  modifyGet (fun _ _ => True.intro) (fun _ => rfl) fun _ => rfl

/-- The second run yields a related value from every state. -/
theorem exists_of_eq_ok {same : α → α' → Prop} {run : Run σ α} {other : Run σ α'}
    (hrepeated : run.RepeatedBy .ofValues same other) {start next : RunState σ} {value : α}
    (hrun : run start = .ok value next) (start' : RunState σ) :
    ∃ value' next', other start' = .ok value' next' ∧ same value value' := by
  obtain ⟨value', next', hvalue', hsame, -⟩ :=
    hrepeated.value start start' True.intro True.intro value next hrun
  exact ⟨value', next', hvalue', hsame⟩

end Run.RepeatedBy

namespace Run

/-- Both runs end in related values, or both in the same error. -/
inductive EndsTogether (same : α → β → Prop) :
    EStateM.Result RewriteError (RunState σ) α → EStateM.Result RewriteError (RunState σ) β → Prop
  | ok {value : α} {value' : β} {next next' : RunState σ} (hsame : same value value') :
      EndsTogether same (.ok value next) (.ok value' next')
  | error {error : RewriteError} {next next' : RunState σ} :
      EndsTogether same (.error error next) (.error error next')

theorem RepeatedBy.endsTogether {same : α → β → Prop} {run : Run σ α} {other : Run σ β}
    (hrepeated : run.RepeatedBy .ofResults same other) (start start' : RunState σ) :
    EndsTogether same (run start) (other start') := by
  cases hrun : run start with
  | ok value next =>
      obtain ⟨value', next', hother, hsame, -⟩ :=
        hrepeated.value start start' True.intro True.intro value next hrun
      rw [hother]
      exact .ok hsame
  | error error next =>
      obtain ⟨next', hother, -⟩ :=
        hrepeated.error True.intro start start' True.intro True.intro error next hrun
      rw [hother]
      exact .error

end Run

/-- Whenever the first caller answers a call, the second one does, and answers alike. -/
def Caller.RepeatedBy (kind : Repetition) (caller other : Caller σ) : Prop :=
  ∀ label args args', Term.AlikeAll args args' →
    (caller label args).RepeatedBy kind Term.Alike (other label args')

theorem BuildMode.exists_cellId_eq (mode : BuildMode) (subst : Substitution) (id : CellId) :
    ∃ update : RunState σ → CellId × RunState σ, mode.cellId subst id = modifyGet update ∧
      ∀ state, (update state).2.cancelled = state.cancelled := by
  unfold cellId
  cases mode with
  | evaluate => exact ⟨fun state => (id, state), rfl, fun _ => rfl⟩
  | instantiate =>
      cases subst.targetOf id with
      | some target =>
          exact ⟨fun state => (target, state), rfl, fun _ => rfl⟩
      | none =>
          exact ⟨fun state => (state.nextCell, { state with cellsDrawn := state.cellsDrawn + 1 }),
            rfl, fun _ => rfl⟩

theorem BuildMode.cellId_repeatedBy (mode mode' : BuildMode) (subst subst' : Substitution)
    (id id' : CellId) :
    (mode.cellId subst id : Run σ CellId).RepeatedBy kind (fun _ _ => True)
      (mode'.cellId subst' id') := by
  obtain ⟨update, hdraw, hkeeps⟩ := mode.exists_cellId_eq subst id (σ := σ)
  obtain ⟨update', hdraw', hkeeps'⟩ := mode'.exists_cellId_eq subst' id' (σ := σ)
  rw [hdraw, hdraw']
  exact .modifyGet (fun _ _ => True.intro) hkeeps hkeeps'

theorem Substitution.Alike.get? {subst subst' : Substitution} (halike : subst.Alike subst')
    (v : Variable) :
    (subst.get? v).map Term.withoutIds = (subst'.get? v).map Term.withoutIds := by
  rw [← subst.get?_withoutIds, ← subst'.get?_withoutIds, halike]

theorem Substitution.Alike.frameBinding {subst subst' : Substitution} (halike : subst.Alike subst')
    (frame : Option Variable) :
    (Term.frameBinding subst frame).map Term.withoutIds =
      (Term.frameBinding subst' frame).map Term.withoutIds := by
  cases frame with
  | none => rfl
  | some v => exact halike.get? v

/-- The same truth value, or propositions that differ in identities alone. -/
inductive Condition.Alike : Condition → Condition → Prop
  | holds : Alike .holds .holds
  | fails : Alike .fails .fails
  | unsettled {proposition proposition' : Term} (halike : proposition.Alike proposition') :
      Alike (.unsettled proposition) (.unsettled proposition')

namespace Definition

variable {definition : Definition} {caller other : Caller σ}

section Lists

variable {subst subst' : Substitution} {mode mode' : BuildMode} {same : Term → Term → Prop}

/-- The terms of two lists are built one by one, in the same order. -/
theorem buildTerms_repeatedBy_of_forall₂ {terms terms' : List Term}
    (hterms : Forall₂ (fun term term' =>
      (definition.buildTerm caller subst mode term).RepeatedBy kind same
        (definition.buildTerm other subst' mode' term')) terms terms') :
    (definition.buildTerms caller subst mode terms).RepeatedBy kind (Forall₂ same)
      (definition.buildTerms other subst' mode' terms') := by
  induction hterms with
  | nil => exact .of_pure .nil
  | cons hterm _ ih =>
      apply hterm.bind
      intro value value' hvalue
      apply ih.bind
      intro values values' hvalues
      exact .of_pure (.cons hvalue hvalues)

/-- How the cells get their identities makes no difference to how their contents are built. -/
theorem buildCells_repeatedBy_of_forall₂ {cells cells' : List (Cell Term)}
    (hcells : Forall₂ (fun cell cell' : Cell Term => cell.name = cell'.name ∧
      (definition.buildTerm caller subst mode cell.content).RepeatedBy kind same
        (definition.buildTerm other subst' mode' cell'.content)) cells cells') :
    (definition.buildCells caller subst mode cells).RepeatedBy kind
      (Forall₂ fun built built' => built.name = built'.name ∧ same built.content built'.content)
      (definition.buildCells other subst' mode' cells') := by
  induction hcells with
  | nil => exact .of_pure .nil
  | cons hcell _ ih =>
      obtain ⟨hname, hcontent⟩ := hcell
      apply hcontent.bind
      intro content content' hsame
      apply (mode.cellId_repeatedBy mode' subst subst' _ _).bind
      intro identity identity' _
      apply ih.bind
      intro built built' hbuilt
      exact .of_pure (.cons ⟨hname, hsame⟩ hbuilt)

end Lists

theorem buildTerms_repeatedBy {subst subst' : Substitution} {mode mode' : BuildMode}
    {terms : List Term}
    (hterms : ∀ term ∈ terms, ∀ term', term.Alike term' →
      (definition.buildTerm caller subst mode term).RepeatedBy kind Term.Alike
        (definition.buildTerm other subst' mode' term')) :
    ∀ terms', Term.AlikeAll terms terms' →
      (definition.buildTerms caller subst mode terms).RepeatedBy kind Term.AlikeAll
        (definition.buildTerms other subst' mode' terms') := by
  intro terms' halike
  have hboth := (forall₂_and_left terms terms').2 ⟨hterms, Term.forall₂_alike_iff.2 halike⟩
  have hbuilt := buildTerms_repeatedBy_of_forall₂ (hboth.imp fun _ term' hterm => hterm.1 term' hterm.2)
  exact hbuilt.mono fun _ _ => Term.forall₂_alike_iff.1

theorem buildCells_repeatedBy {subst subst' : Substitution} {mode mode' : BuildMode}
    {cells : List (Cell Term)}
    (hcells : ∀ cell ∈ cells, ∀ term', cell.content.Alike term' →
      (definition.buildTerm caller subst mode cell.content).RepeatedBy kind Term.Alike
        (definition.buildTerm other subst' mode' term')) :
    ∀ cells', cells.map Cell.withoutId = cells'.map Cell.withoutId →
      (definition.buildCells caller subst mode cells).RepeatedBy kind
        (fun built built' => built.map Cell.withoutId = built'.map Cell.withoutId)
        (definition.buildCells other subst' mode' cells') := by
  intro cells' halike
  have hboth := (forall₂_and_left cells cells').2 ⟨hcells, Cell.forall₂_alike_iff.2 halike⟩
  have hbuilt := buildCells_repeatedBy_of_forall₂ (hboth.imp fun _ cell' hcell =>
    ⟨hcell.2.1, hcell.1 cell'.content hcell.2.2⟩)
  exact hbuilt.mono fun _ _ => Cell.forall₂_alike_iff.1

/-- What is built depends neither on the identities of cells nor on how the new ones are chosen. -/
theorem buildTerm_repeatedBy (hcaller : caller.RepeatedBy kind other) {subst subst' : Substitution}
    (hsubst : subst.Alike subst') (mode mode' : BuildMode) (term : Term) :
    ∀ term', term.Alike term' →
      (definition.buildTerm caller subst mode term).RepeatedBy kind Term.Alike
        (definition.buildTerm other subst' mode' term') := by
  induction term using Term.nestedInduction with
  | token sort value =>
      intro term' halike
      rw [Term.eq_of_token_alike halike]
      exact .of_pure rfl
  | var v =>
      intro term' halike
      rw [Term.eq_of_var_alike halike]
      refine .of_pure ?_
      have hget := hsubst.get? v
      cases hleft : subst.get? v <;> cases hright : subst'.get? v <;>
        simp_all [Term.Alike]
  | app label args ih =>
      intro term' halike
      obtain ⟨args', rfl, hargs⟩ := Term.exists_of_alike_app halike
      refine (buildTerms_repeatedBy ih args' hargs).bind fun built built' hbuilt => ?_
      split
      · exact hcaller label built built' hbuilt
      · exact .of_pure (Term.alike_app hbuilt)
  | sequence op items ih =>
      intro term' halike
      obtain ⟨items', rfl, hitems⟩ := Term.exists_of_alike_sequence halike
      refine (buildTerms_repeatedBy ih items' hitems).bind fun built built' hbuilt => ?_
      refine .of_pure ?_
      unfold Term.Alike
      rw [Term.withoutIds_flatten, Term.withoutIds_flatten, hbuilt]
  | collection cells frame ih =>
      intro term' halike
      obtain ⟨cells', rfl, hcells⟩ := Term.exists_of_alike_collection halike
      refine (buildCells_repeatedBy ih cells' hcells).bind fun built built' hbuilt => ?_
      refine .of_pure ?_
      unfold Term.Alike
      rw [Term.withoutIds_closeWith, Term.withoutIds_closeWith, hbuilt, hsubst.frameBinding frame]

theorem condition_repeatedBy (hcaller : caller.RepeatedBy kind other) (rule : Rule)
    {subst subst' : Substitution} (hsubst : subst.Alike subst') :
    (definition.condition caller rule subst).RepeatedBy kind Condition.Alike
      (definition.condition other rule subst') := by
  unfold condition
  cases rule.requires with
  | none => exact .of_pure .holds
  | some requires =>
      refine (buildTerm_repeatedBy hcaller hsubst .evaluate .evaluate requires requires rfl).bind
        fun value value' hvalue => ?_
      have hbool : value.asBool = value'.asBool := by
        rw [← value.asBool_withoutIds, hvalue, value'.asBool_withoutIds]
      rw [← hbool]
      cases value.asBool with
      | none => exact .of_pure (.unsettled hvalue)
      | some truth =>
          cases truth with
          | true => exact .of_pure .holds
          | false => exact .of_pure .fails

theorem firstHolding_repeatedBy (hcaller : caller.RepeatedBy kind other) (rule : Rule)
    {substs substs' : List Substitution}
    (hsubsts : substs.map Substitution.withoutIds = substs'.map Substitution.withoutIds) :
    (definition.firstHolding caller rule substs).RepeatedBy kind
      (fun found found' => found.map Substitution.withoutIds = found'.map Substitution.withoutIds)
      (definition.firstHolding other rule substs') := by
  induction substs generalizing substs' with
  | nil =>
      obtain rfl : substs' = [] := List.map_eq_nil_iff.1 hsubsts.symm
      exact .of_pure rfl
  | cons subst substs ih =>
      obtain ⟨subst', rest', rfl, hsubst, hrest⟩ := List.map_eq_cons_iff.1 hsubsts.symm
      refine (condition_repeatedBy hcaller rule hsubst.symm).bind fun truth truth' htruth => ?_
      cases htruth with
      | holds => exact .of_pure (congrArg some hsubst.symm)
      | fails => exact ih hrest.symm
      | unsettled _ => exact ih hrest.symm

/-- The same rule, by matches that differ in identities alone. -/
def ChoiceAlike (choice choice' : Option (Rule × Substitution)) : Prop :=
  choice.map (fun found => (found.1, found.2.withoutIds)) =
    choice'.map fun found => (found.1, found.2.withoutIds)

theorem firstApplicable_repeatedBy (hcaller : caller.RepeatedBy kind other) {subject subject' : Term}
    (hsubject : subject.Alike subject') (rules : List Rule) :
    (definition.firstApplicable caller subject rules).RepeatedBy kind ChoiceAlike
      (definition.firstApplicable other subject' rules) := by
  induction rules with
  | nil => exact .of_pure rfl
  | cons rule rules ih =>
      have hlhs : rule.lhs.withoutIds = rule.lhs.withoutIds := rfl
      have hmatches := concreteMatches_congr_withoutIds definition hlhs hsubject
      refine (firstHolding_repeatedBy hcaller rule hmatches).bind fun found found' hfound => ?_
      cases found with
      | none =>
          obtain rfl : found' = none := Option.map_eq_none_iff.1 hfound.symm
          exact ih
      | some subst =>
          obtain ⟨subst', rfl, hsubst⟩ := Option.map_eq_some_iff.1 hfound.symm
          refine .of_pure ?_
          simp [ChoiceAlike, hsubst]

theorem buildRight_of_freshVars_eq_nil {rule : Rule} (hfresh : rule.freshVars = [])
    (subst : Substitution) :
    definition.buildRight caller rule subst =
      definition.buildTerm caller subst .instantiate rule.rhs := by
  unfold buildRight
  rw [hfresh]
  rfl

theorem buildRight_repeatedBy (hcaller : caller.RepeatedBy kind other) {rule : Rule}
    (hfresh : rule.freshVars = []) {subst subst' : Substitution} (hsubst : subst.Alike subst') :
    (definition.buildRight caller rule subst).RepeatedBy kind Term.Alike
      (definition.buildRight other rule subst') := by
  rw [buildRight_of_freshVars_eq_nil hfresh, buildRight_of_freshVars_eq_nil hfresh]
  exact buildTerm_repeatedBy hcaller hsubst .instantiate .instantiate rule.rhs rule.rhs rfl

/-- No function rule draws fresh values. -/
def WithoutFresh (definition : Definition) : Prop :=
  ∀ rule ∈ definition.functionRules, rule.freshVars = []

/-- A call has the same answer whenever it is made, up to identities. -/
structure Repeatable (definition : Definition) : Prop where
  withoutFresh : definition.WithoutFresh
  ignoresIds : definition.EveryHook Hook.IgnoresIds

theorem firstApplicable_mem (subject : Term) (rules : List Rule) :
    (definition.firstApplicable caller subject rules).Ensures fun choice =>
      ∀ rule subst, choice = some (rule, subst) → rule ∈ rules := by
  induction rules with
  | nil => exact Run.Ensures.of_pure fun _ _ hnone => by cases hnone
  | cons rule rules ih =>
      apply Run.Ensures.bind_of_forall
      intro found
      cases found with
      | none =>
          exact ih.mono fun choice hchoice other subst hother =>
            List.mem_cons_of_mem _ (hchoice other subst hother)
      | some subst =>
          apply Run.Ensures.of_pure
          rintro _ _ ⟨⟩
          exact List.mem_cons_self

theorem applyFunctionRules_repeatedBy (hcaller : caller.RepeatedBy kind other)
    (hfresh : definition.WithoutFresh) (label : Label) {args args' : List Term}
    (hargs : Term.AlikeAll args args') :
    (definition.applyFunctionRules caller label args).RepeatedBy kind Term.Alike
      (definition.applyFunctionRules other label args') := by
  have hsubject : (Term.app label args).Alike (.app label args') := Term.alike_app hargs
  refine ((firstApplicable_repeatedBy hcaller hsubject _).and (firstApplicable_mem _ _)).bind
    fun choice choice' hboth => ?_
  obtain ⟨halike, hmem⟩ := hboth
  cases choice with
  | none =>
      obtain rfl : choice' = none := Option.map_eq_none_iff.1 halike.symm
      exact .of_pure hsubject
  | some found =>
      obtain ⟨rule, subst⟩ := found
      obtain ⟨⟨rule', subst'⟩, rfl, hfound⟩ := Option.map_eq_some_iff.1 halike.symm
      obtain ⟨rfl, hsubst⟩ := Prod.mk.inj hfound
      have hrule := hfresh rule' (List.mem_filter.1 (hmem rule' subst rfl)).1
      exact buildRight_repeatedBy hcaller hrule hsubst.symm

/-- Further levels of nesting change no answer, but they may save a call from an error. -/
theorem callWithin_repeatedBy (hrepeat : definition.Repeatable) (limit : Nat) {levels more : Nat}
    (hle : levels ≤ more) (hsame : kind.errors → levels = more) :
    Caller.RepeatedBy kind (definition.callWithin limit levels : Caller σ)
      (definition.callWithin limit more) := by
  induction levels generalizing more with
  | zero =>
      intro label args args' _
      refine .of_throw _ fun herrors => ?_
      rw [← hsame herrors]
      rfl
  | succ levels ih =>
      -- what is called within the answer has one level less on both sides
      obtain ⟨more, rfl⟩ : ∃ fewer, more = fewer + 1 := ⟨more - 1, by omega⟩
      intro label args args' hargs
      refine (Run.RepeatedBy.record _).bind fun _ _ _ => ?_
      cases hlabel : definition.hook? label with
      | none =>
          have hcaller := ih (by omega) fun herrors => Nat.succ.inj (hsame herrors)
          exact applyFunctionRules_repeatedBy hcaller hrepeat.withoutFresh label hargs
      | some hook =>
          refine .of_pure ?_
          have hresult := hrepeat.ignoresIds label hook hlabel args args' hargs
          cases hleft : hook.apply args with
          | none =>
              rw [hleft] at hresult
              rw [Option.map_eq_none_iff.1 hresult.symm]
              exact Term.alike_app hargs
          | some result =>
              rw [hleft] at hresult
              obtain ⟨result', hright, hsame⟩ := Option.map_eq_some_iff.1 hresult.symm
              rw [hright]
              exact Eq.symm hsame

end Definition

namespace Machine

variable {machine : Machine σ}

theorem call_repeatedBy (hrepeat : machine.definition.Repeatable) :
    Caller.RepeatedBy kind machine.call machine.call :=
  Definition.callWithin_repeatedBy hrepeat _ (Nat.le_refl _) fun _ => rfl

end Machine

end SymbolicRewriting
