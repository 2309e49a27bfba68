import Mathlib.Data.List.Forall2
import SymbolicRewriting.Proofs.Repeatability

/-!
Building and evaluation as relations between terms and values, and how they go through the forms of
terms. The rules have no fresh variables, so the value of a term is unique up to the identities of
cells, and the relations say nothing about the state of a run.
-/

namespace SymbolicRewriting

open List

variable {σ α β : Type}

/-- From every state the run succeeds with a value that satisfies `post`. -/
def Run.Yields (run : Run σ α) (post : α → Prop) : Prop :=
  ∀ start, ∃ value next, run start = .ok value next ∧ post value

namespace Run.Yields

theorem of_pure {post : α → Prop} {value : α} (hpost : post value) :
    Yields (pure value : Run σ α) post :=
  fun start => ⟨value, start, rfl, hpost⟩

theorem bind {run : Run σ α} {continuation : α → Run σ β} {middle : α → Prop} {post : β → Prop}
    (hfirst : run.Yields middle) (hsecond : ∀ value, middle value → (continuation value).Yields post) :
    (run >>= continuation).Yields post := by
  intro start
  obtain ⟨value, between, hvalue, hmiddle⟩ := hfirst start
  obtain ⟨result, next, hresult, hpost⟩ := hsecond value hmiddle between
  exact ⟨result, next, bind_eq_ok.2 ⟨value, between, hvalue, hresult⟩, hpost⟩

/-- A value that is made of the value of a run. -/
theorem of_bind_pure {run : Run σ α} {make : α → β} {post : β → Prop}
    (hyields : Run.Yields (run >>= fun value => pure (make value)) post) :
    run.Yields fun value => post (make value) := by
  intro start
  obtain ⟨result, next, hrun, hpost⟩ := hyields start
  obtain ⟨value, between, hvalue, hresult⟩ := bind_eq_ok.1 hrun
  obtain ⟨rfl, rfl⟩ := pure_eq_ok.1 hresult
  exact ⟨value, between, hvalue, hpost⟩

variable [Nonempty σ]

theorem exists_run {run : Run σ α} {post : α → Prop} (hyields : run.Yields post) :
    ∃ start value next, run start = .ok value next ∧ post value := by
  obtain ⟨environment⟩ := ‹Nonempty σ›
  exact ⟨{ environment }, hyields { environment }⟩

theorem exists_both {run : Run σ α} {post other : α → Prop} (hpost : run.Yields post)
    (hother : run.Yields other) : ∃ value, post value ∧ other value := by
  obtain ⟨start, value, next, hrun, hvalue⟩ := hpost.exists_run
  obtain ⟨value', next', hrun', hvalue'⟩ := hother start
  rw [hrun] at hrun'
  cases hrun'
  exact ⟨value, hvalue, hvalue'⟩

end Run.Yields

/-- What succeeds once yields the same value from every state, if it can be repeated. -/
theorem Run.RepeatedBy.yields {same : α → β → Prop} {run : Run σ α} {other : Run σ β}
    (hrepeated : run.RepeatedBy .ofValues same other) {start next : RunState σ} {value : α}
    (hrun : run start = .ok value next) : other.Yields (same value) :=
  hrepeated.exists_of_eq_ok hrun

/-- What is repeated from every state is related to what has been yielded. -/
theorem Run.RepeatedBy.yields_of_yields {same : α → β → Prop} {run : Run σ α} {other : Run σ β}
    (hrepeated : run.RepeatedBy .ofValues same other) {post : α → Prop} (hyields : run.Yields post) :
    other.Yields fun value' => ∃ value, post value ∧ same value value' := by
  intro start
  obtain ⟨value, next, hrun, hpost⟩ := hyields start
  obtain ⟨value', next', hother, hsame⟩ := hrepeated.exists_of_eq_ok hrun start
  exact ⟨value', next', hother, value, hpost, hsame⟩

/-- A value that is there at once is repeated by every run that yields a related one. -/
theorem Run.RepeatedBy.pure_of_yields {same : α → β → Prop} {value : α} {other : Run σ β}
    (hother : other.Yields (same value)) :
    (pure value : Run σ α).RepeatedBy .ofResults same other where
  value start start' _ _ result next hrun := by
    obtain ⟨rfl, -⟩ := pure_eq_ok.1 hrun
    obtain ⟨value', next', hvalue', hsame⟩ := hother start'
    exact ⟨value', next', hvalue', hsame, True.intro, True.intro⟩
  error _ start start' _ _ error next hrun := by cases hrun

namespace Definition

variable {definition : Definition} {call : Caller σ} {subst : Substitution} {mode : BuildMode}

theorem yields_buildTerms {terms values : List Term}
    (hterms : Forall₂ (fun term value : Term =>
      (definition.buildTerm call subst mode term).Yields value.Alike) terms values) :
    (definition.buildTerms call subst mode terms).Yields (Term.AlikeAll values) := by
  induction hterms with
  | nil => exact .of_pure rfl
  | cons hterm _ ih =>
      apply Run.Yields.bind hterm
      intro first hfirst
      apply Run.Yields.bind ih
      intro others hothers
      exact .of_pure (.cons hfirst hothers)

theorem yields_cellId (mode : BuildMode) (subst : Substitution) (id : CellId) :
    (mode.cellId subst id : Run σ CellId).Yields fun _ => True :=
  fun start =>
    (BuildMode.cellId_repeatedBy .evaluate mode subst subst id id).yields
      (rfl : (BuildMode.evaluate.cellId subst id : Run σ CellId) start = .ok id start) start

theorem yields_buildCells {cells built : List (Cell Term)}
    (hcells : Forall₂ (fun cell other : Cell Term => cell.name = other.name ∧
      (definition.buildTerm call subst mode cell.content).Yields other.content.Alike) cells built) :
    (definition.buildCells call subst mode cells).Yields fun results =>
      built.map Cell.withoutId = results.map Cell.withoutId := by
  induction hcells with
  | nil => exact .of_pure rfl
  | @cons cell first _ _ hcell _ ih =>
      obtain ⟨id, name, content⟩ := cell
      apply Run.Yields.bind hcell.2
      intro value hvalue
      apply Run.Yields.bind (yields_cellId mode subst id)
      intro identity _
      apply Run.Yields.bind ih
      intro others hothers
      refine .of_pure ?_
      rw [List.map_cons, List.map_cons, hothers]
      simp only [Cell.withoutId, ← hcell.1]
      rw [hvalue]

end Definition

namespace Machine

variable {machine : Machine σ}

/-- The value of a term with its variables bound, up to identities. -/
def Builds (machine : Machine σ) (subst : Substitution) (term value : Term) : Prop :=
  (machine.definition.buildTerm machine.call subst .evaluate term).Yields fun result =>
    value.Alike result

abbrev Evaluates (machine : Machine σ) (term value : Term) : Prop :=
  machine.Builds .empty term value

def Answers (machine : Machine σ) (label : Label) (args : List Term) (answer : Term) : Prop :=
  (machine.call label args).Yields fun result => answer.Alike result

/-- A cell whose content is the value of the content of the given one. -/
def BuildsCell (machine : Machine σ) (subst : Substitution) (cell built : Cell Term) : Prop :=
  cell.name = built.name ∧ machine.Builds subst cell.content built.content

section Forms

variable {subst : Substitution}

theorem Builds.unique [Nonempty σ] {term value other : Term}
    (hvalue : machine.Builds subst term value) (hother : machine.Builds subst term other) :
    value.Alike other := by
  obtain ⟨result, halike, halike'⟩ := hvalue.exists_both hother
  exact halike.trans halike'.symm

theorem builds_token (sort : SortName) (value : String) :
    machine.Builds subst (.token sort value) (.token sort value) :=
  .of_pure rfl

theorem builds_var (v : Variable) : machine.Builds subst (.var v) ((subst.get? v).getD (.var v)) :=
  .of_pure rfl

variable (hrepeat : machine.definition.Repeatable)
include hrepeat

theorem builds_of_run {term value : Term} {mode : BuildMode} {start next : RunState σ}
    (hrun : machine.definition.buildTerm machine.call subst mode term start = .ok value next) :
    machine.Builds subst term value :=
  (Definition.buildTerm_repeatedBy (call_repeatedBy hrepeat) rfl mode .evaluate term term rfl).yields
    hrun

theorem answers_of_run {label : Label} {args : List Term} {answer : Term} {start next : RunState σ}
    (hrun : machine.call label args start = .ok answer next) :
    machine.Answers label args answer :=
  (call_repeatedBy hrepeat label args args rfl).yields hrun

/-- Terms that are alike have the same values, and values are determined up to being alike. -/
theorem Builds.congr {term term' value value' : Term} (hbuilds : machine.Builds subst term value)
    (hterm : term.Alike term') (hvalue : value.Alike value') :
    machine.Builds subst term' value' := by
  intro start
  obtain ⟨result, next, hresult, halike⟩ := hbuilds start
  obtain ⟨result', next', hresult', hsame⟩ :=
    (Definition.buildTerm_repeatedBy (call_repeatedBy hrepeat) rfl .evaluate .evaluate term term'
      hterm).exists_of_eq_ok hresult start
  exact ⟨result', next', hresult', (hvalue.symm.trans halike).trans hsame⟩

theorem Answers.congr {label : Label} {args args' : List Term} {answer answer' : Term}
    (hanswers : machine.Answers label args answer) (hargs : Term.AlikeAll args args')
    (hanswer : answer.Alike answer') : machine.Answers label args' answer' := by
  intro start
  obtain ⟨result, next, hresult, halike⟩ := hanswers start
  obtain ⟨result', next', hresult', hsame⟩ :=
    (call_repeatedBy hrepeat label args args' hargs).exists_of_eq_ok hresult start
  exact ⟨result', next', hresult', (hanswer.symm.trans halike).trans hsame⟩

theorem forall₂_builds_of_run {terms values : List Term} {start next : RunState σ}
    (hrun : machine.definition.buildTerms machine.call subst .evaluate terms start =
      .ok values next) : Forall₂ (machine.Builds subst) terms values := by
  induction terms generalizing values start next with
  | nil =>
      obtain ⟨rfl, -⟩ := Run.pure_eq_ok.1 hrun
      exact .nil
  | cons term terms ih =>
      obtain ⟨value, between, hvalue, hrest⟩ := Run.bind_eq_ok.1 hrun
      obtain ⟨others, later, hothers, hpure⟩ := Run.bind_eq_ok.1 hrest
      obtain ⟨rfl, -⟩ := Run.pure_eq_ok.1 hpure
      exact .cons (builds_of_run hrepeat hvalue) (ih hothers)

theorem forall₂_buildsCell_of_run {cells built : List (Cell Term)} {start next : RunState σ}
    (hrun : machine.definition.buildCells machine.call subst .evaluate cells start =
      .ok built next) : Forall₂ (machine.BuildsCell subst) cells built := by
  induction cells generalizing built start next with
  | nil =>
      obtain ⟨rfl, -⟩ := Run.pure_eq_ok.1 hrun
      exact .nil
  | cons cell cells ih =>
      obtain ⟨id, name, content⟩ := cell
      obtain ⟨value, between, hvalue, hrest⟩ := Run.bind_eq_ok.1 hrun
      obtain ⟨identity, drawn, -, hrest⟩ := Run.bind_eq_ok.1 hrest
      obtain ⟨others, later, hothers, hpure⟩ := Run.bind_eq_ok.1 hrest
      obtain ⟨rfl, -⟩ := Run.pure_eq_ok.1 hpure
      exact .cons ⟨rfl, builds_of_run hrepeat hvalue⟩ (ih hothers)

variable [Nonempty σ]

theorem builds_app_iff {label : Label} (hlabel : machine.definition.isFunction label = false)
    {args : List Term} {value : Term} :
    machine.Builds subst (.app label args) value ↔
      ∃ values, Forall₂ (machine.Builds subst) args values ∧ value.Alike (.app label values) := by
  constructor
  · intro hbuilds
    obtain ⟨start, result, next, hrun, halike⟩ := hbuilds.exists_run
    obtain ⟨values, between, hvalues, hresult⟩ := Run.bind_eq_ok.1 hrun
    rw [if_neg (by simp [hlabel])] at hresult
    obtain ⟨rfl, -⟩ := Run.pure_eq_ok.1 hresult
    exact ⟨values, forall₂_builds_of_run hrepeat hvalues, halike⟩
  · rintro ⟨values, hvalues, halike⟩
    apply Run.Yields.bind (Definition.yields_buildTerms hvalues)
    intro results hresults
    rw [if_neg (by simp [hlabel])]
    exact .of_pure (halike.trans (Term.alike_app hresults))

theorem builds_call_iff {label : Label} (hlabel : machine.definition.isFunction label = true)
    {args : List Term} {value : Term} :
    machine.Builds subst (.app label args) value ↔
      ∃ values, Forall₂ (machine.Builds subst) args values ∧ machine.Answers label values value := by
  constructor
  · intro hbuilds
    obtain ⟨start, result, next, hrun, halike⟩ := hbuilds.exists_run
    obtain ⟨values, between, hvalues, hresult⟩ := Run.bind_eq_ok.1 hrun
    rw [if_pos hlabel] at hresult
    exact ⟨values, forall₂_builds_of_run hrepeat hvalues,
      (answers_of_run hrepeat hresult).congr hrepeat rfl halike.symm⟩
  · rintro ⟨values, hvalues, hanswers⟩
    apply Run.Yields.bind (Definition.yields_buildTerms hvalues)
    intro results hresults
    rw [if_pos hlabel]
    exact hanswers.congr hrepeat hresults rfl

theorem builds_sequence_iff {op : Label} {items : List Term} {value : Term} :
    machine.Builds subst (.sequence op items) value ↔
      ∃ values, Forall₂ (machine.Builds subst) items values ∧
        value.Alike (.flatten op values) := by
  constructor
  · intro hbuilds
    obtain ⟨start, result, next, hrun, halike⟩ := hbuilds.exists_run
    obtain ⟨values, between, hvalues, hresult⟩ := Run.bind_eq_ok.1 hrun
    obtain ⟨rfl, -⟩ := Run.pure_eq_ok.1 hresult
    exact ⟨values, forall₂_builds_of_run hrepeat hvalues, halike⟩
  · rintro ⟨values, hvalues, halike⟩
    apply Run.Yields.bind (Definition.yields_buildTerms hvalues)
    intro results hresults
    refine .of_pure (halike.trans ?_)
    unfold Term.Alike
    rw [Term.withoutIds_flatten, Term.withoutIds_flatten, hresults]

theorem builds_collection_iff {cells : List (Cell Term)} {frame : Option Variable} {value : Term} :
    machine.Builds subst (.collection cells frame) value ↔
      ∃ built, Forall₂ (machine.BuildsCell subst) cells built ∧
        value.Alike (Term.closeWith built frame (Term.frameBinding subst frame)) := by
  constructor
  · intro hbuilds
    obtain ⟨start, result, next, hrun, halike⟩ := hbuilds.exists_run
    obtain ⟨built, between, hbuilt, hresult⟩ := Run.bind_eq_ok.1 hrun
    obtain ⟨rfl, -⟩ := Run.pure_eq_ok.1 hresult
    exact ⟨built, forall₂_buildsCell_of_run hrepeat hbuilt, halike⟩
  · rintro ⟨built, hbuilt, halike⟩
    apply Run.Yields.bind (Definition.yields_buildCells hbuilt)
    intro results hresults
    refine .of_pure (halike.trans ?_)
    unfold Term.Alike
    rw [Term.withoutIds_closeWith, Term.withoutIds_closeWith, hresults]

theorem evaluates_collection_iff {cells : List (Cell Term)} {frame : Option Variable}
    {value : Term} :
    machine.Evaluates (.collection cells frame) value ↔
      ∃ built, Forall₂ (machine.BuildsCell .empty) cells built ∧
        value.Alike (.collection built frame) := by
  have hclose : ∀ built, Term.closeWith built frame (Term.frameBinding .empty frame) =
      .collection built frame := by
    intro built
    cases frame <;> rfl
  refine (builds_collection_iff hrepeat).trans ?_
  simp only [hclose]

end Forms

/-- The result is what the values of the items contribute to a sequence. -/
def Splices (machine : Machine σ) (op : Label) (items result : List Term) : Prop :=
  ∃ values, Forall₂ (machine.Builds .empty) items values ∧
    Term.AlikeAll result (values.flatMap (Term.itemsOf op))

theorem splices_append_iff {op : Label} {items others result : List Term} :
    machine.Splices op (items ++ others) result ↔
      ∃ first second, result = first ++ second ∧ machine.Splices op items first ∧
        machine.Splices op others second := by
  induction items generalizing result with
  | nil =>
      constructor
      · intro hsplices
        exact ⟨[], result, rfl, ⟨[], .nil, rfl⟩, hsplices⟩
      · rintro ⟨first, second, rfl, ⟨values, hvalues, hfirst⟩, hsecond⟩
        cases hvalues
        obtain rfl : first = [] := List.map_eq_nil_iff.1 hfirst
        exact hsecond
  | cons item items ih =>
      constructor
      · rintro ⟨values, hvalues, halike⟩
        obtain ⟨value, others', hvalue, hothers, rfl⟩ := forall₂_cons_left_iff.1 hvalues
        rw [List.flatMap_cons] at halike
        obtain ⟨head, tail, rfl, hhead, htail⟩ := Term.exists_of_alikeAll_append halike
        obtain ⟨first, second, rfl, ⟨before, hbefore, hfirst⟩, hsecond⟩ :=
          ih.1 ⟨others', hothers, htail⟩
        refine ⟨head ++ first, second, (List.append_assoc _ _ _).symm,
          ⟨value :: before, .cons hvalue hbefore, ?_⟩, hsecond⟩
        rw [List.flatMap_cons]
        exact hhead.append hfirst
      · rintro ⟨first, second, rfl, ⟨values, hvalues, hfirst⟩, hsecond⟩
        obtain ⟨value, before, hvalue, hbefore, rfl⟩ := forall₂_cons_left_iff.1 hvalues
        rw [List.flatMap_cons] at hfirst
        obtain ⟨head, tail, rfl, hhead, htail⟩ := Term.exists_of_alikeAll_append hfirst
        obtain ⟨rest, hrest, halike⟩ := ih.2 ⟨tail, second, rfl, ⟨before, hbefore, htail⟩, hsecond⟩
        refine ⟨value :: rest, .cons hvalue hrest, ?_⟩
        rw [List.append_assoc, List.flatMap_cons]
        exact hhead.append halike

theorem splices_singleton_iff {op : Label} {item : Term} {result : List Term} :
    machine.Splices op [item] result ↔
      ∃ value, machine.Evaluates item value ∧
        Term.AlikeAll result (Term.itemsOf op value) := by
  constructor
  · rintro ⟨values, hvalues, halike⟩
    obtain ⟨value, others, hvalue, hothers, rfl⟩ := forall₂_cons_left_iff.1 hvalues
    cases hothers
    rw [List.flatMap_cons, List.flatMap_nil, List.append_nil] at halike
    exact ⟨value, hvalue, halike⟩
  · rintro ⟨value, hvalue, halike⟩
    refine ⟨[value], .cons hvalue .nil, ?_⟩
    rw [List.flatMap_cons, List.flatMap_nil, List.append_nil]
    exact halike

section Splicing

variable [Nonempty σ] (hrepeat : machine.definition.Repeatable)
include hrepeat

/-- The items of a sequence can be spliced in before they are evaluated. -/
theorem splices_itemsOf_iff {op : Label} {item : Term} {result : List Term} :
    machine.Splices op (Term.itemsOf op item) result ↔ machine.Splices op [item] result := by
  cases hsequence : item.isSequenceOver op with
  | false => rw [Term.itemsOf_of_not_isSequenceOver hsequence]
  | true =>
      obtain ⟨items, rfl⟩ := Term.exists_of_isSequenceOver hsequence
      rw [Term.itemsOf_sequence, splices_singleton_iff]
      constructor
      · rintro ⟨values, hvalues, halike⟩
        have hvalue : machine.Evaluates (.sequence op items) (.flatten op values) :=
          (builds_sequence_iff hrepeat).2 ⟨values, hvalues, rfl⟩
        refine ⟨.flatten op values, hvalue, ?_⟩
        rw [Term.itemsOf_flatten]
        exact halike
      · rintro ⟨value, hvalue, halike⟩
        obtain ⟨values, hvalues, hflatten⟩ := (builds_sequence_iff hrepeat).1 hvalue
        have hitems := Term.alikeAll_itemsOf hflatten op
        rw [Term.itemsOf_flatten] at hitems
        exact ⟨values, hvalues, Eq.trans halike hitems⟩

theorem splices_flatMap_iff {op : Label} {items result : List Term} :
    machine.Splices op (items.flatMap (Term.itemsOf op)) result ↔
      machine.Splices op items result := by
  induction items generalizing result with
  | nil => rfl
  | cons item items ih =>
      rw [List.flatMap_cons, splices_append_iff, ← List.singleton_append, splices_append_iff]
      simp only [splices_itemsOf_iff hrepeat, ih]

theorem evaluates_sequence_iff_splices {op : Label} {items : List Term}
    {value : Term} :
    machine.Evaluates (.sequence op items) value ↔
      ∃ result, machine.Splices op items result ∧ value.Alike (.sequence op result) := by
  refine (builds_sequence_iff hrepeat).trans ?_
  constructor
  · rintro ⟨values, hvalues, halike⟩
    exact ⟨values.flatMap (Term.itemsOf op), ⟨values, hvalues, rfl⟩, Term.flatten_eq op values ▸ halike⟩
  · rintro ⟨result, ⟨values, hvalues, hresult⟩, halike⟩
    refine ⟨values, hvalues, halike.trans ?_⟩
    rw [Term.flatten_eq]
    unfold Term.Alike
    simp only [Term.withoutIds, Term.withoutIdsAll_eq_map]
    rw [hresult]

/-- Flattening a sequence before its evaluation does not change its value. -/
theorem evaluates_flatten_iff {op : Label} {items : List Term} {value : Term} :
    machine.Evaluates (.flatten op items) value ↔ machine.Evaluates (.sequence op items) value := by
  rw [Term.flatten_eq, evaluates_sequence_iff_splices hrepeat, evaluates_sequence_iff_splices hrepeat]
  simp only [splices_flatMap_iff hrepeat]

end Splicing

end Machine

end SymbolicRewriting
