import SymbolicRewriting.Proofs.Overlays

/-!
What is found out by dealing with encounters one after another: what each of them has left behind, and
that nothing has been found out that is not the case.
-/

namespace SymbolicRewriting

open List

variable {σ : Type}

namespace Encounter

/-- The part of the subject that the variable lies on. -/
def boundTo? (v : Variable) : Encounter → Option Term
  | bind v' subject => if v' = v then some subject else none
  | _ => none

/-- A pattern over an unknown value has only labels that are allowed. -/
def OnPlain (allowed : Label → Prop) : Encounter → Prop
  | unknown pattern _ => pattern.Plain allowed
  | _ => True

/-- What a pattern lies on is a plain part of the subject. -/
def OfPlain : Encounter → Prop
  | bind _ subject => subject.PlainSubject
  | unknown _ v => v.kind = .plain
  | clash subject => subject.PlainSubject

end Encounter

theorem Term.Plain.of_mem_args {allowed : Label → Prop} {label : Label} {args : List Term}
    (happ : (Term.app label args).Plain allowed) {arg : Term} (hmem : arg ∈ args) :
    arg.Plain allowed := by
  cases happ with
  | app _ _ _ hargs => exact hargs arg hmem

theorem Term.Meets.onPlain {allowed : Label → Prop} {pattern subject : Term} {encounter : Encounter}
    (hmeets : pattern.Meets subject encounter) :
    pattern.Plain allowed → encounter.OnPlain allowed := by
  induction hmeets with
  | bind v subject => exact fun _ => True.intro
  | unknown pattern v => exact fun hpattern => hpattern
  | clash pattern subject => exact fun _ => True.intro
  | app harg _ _ ih => exact fun hpattern => ih (hpattern.of_mem_args harg)

theorem Term.Plain.encounters_onPlain {allowed : Label → Prop} {pattern : Term}
    (hpattern : pattern.Plain allowed) (subject : Term) :
    ∀ encounter ∈ pattern.encounters subject, encounter.OnPlain allowed :=
  fun _ hmem => (Term.meets_of_mem_encounters hmem).onPlain hpattern

theorem Term.Meets.ofPlain {pattern subject : Term} {encounter : Encounter}
    (hmeets : pattern.Meets subject encounter) : subject.PlainSubject → encounter.OfPlain := by
  induction hmeets with
  | bind v subject => exact fun hsubject => hsubject
  | unknown pattern v =>
      intro hsubject
      cases hsubject with
      | var _ hkind => exact hkind
  | clash pattern subject => exact fun hsubject => hsubject
  | app _ hpart _ ih => exact fun hsubject => ih (hsubject.of_mem_args hpart)

theorem Term.Plain.encounters_ofPlain {subject : Term} (hsubject : subject.PlainSubject)
    (pattern : Term) : ∀ encounter ∈ pattern.encounters subject, encounter.OfPlain :=
  fun _ hmem => (Term.meets_of_mem_encounters hmem).ofPlain hsubject

theorem Term.applySubst_congr {allowed : Label → Prop} {term : Term} (hterm : term.Plain allowed)
    {subst other : Substitution} (hsame : ∀ v ∈ term.vars, subst.get? v = other.get? v) :
    term.applySubst subst = term.applySubst other := by
  induction hterm with
  | token sort token => rw [Term.applySubst_token, Term.applySubst_token]
  | var v _ =>
      rw [Term.applySubst_var, Term.applySubst_var,
        hsame v (Term.mem_vars_iff.2 ⟨_, Term.self_mem_subterms _, rfl⟩)]
  | app label args _ _ ih =>
      rw [Term.applySubst_app, Term.applySubst_app]
      refine congrArg (Term.app label) (List.map_congr_left fun arg hmem => ?_)
      have hvars : arg.vars ⊆ (Term.app label args).vars := Term.vars_subset_of_mem_children hmem
      exact ih arg hmem fun v hv => hsame v (hvars hv)

namespace PathCondition

theorem contains_assume (path : PathCondition) (proposition : Term) :
    (path.assume proposition).contains proposition = true := by
  unfold assume
  split
  · assumption
  · simp [contains, Term.beq_refl]

theorem contains_assume_of_contains {path : PathCondition} {conjunct : Term}
    (hcontains : path.contains conjunct = true) (proposition : Term) :
    (path.assume proposition).contains conjunct = true := by
  unfold assume
  split
  · exact hcontains
  · unfold contains at hcontains ⊢
    rw [List.any_append, hcontains, Bool.true_or]

theorem mem_assume {path : PathCondition} {proposition conjunct : Term}
    (hmem : conjunct ∈ (path.assume proposition).conjuncts) :
    conjunct ∈ path.conjuncts ∨ conjunct = proposition := by
  unfold assume at hmem
  split at hmem
  · exact .inl hmem
  · rcases List.mem_append.1 hmem with hold | hnew
    · exact .inl hold
    · exact .inr (List.mem_singleton.1 hnew)

end PathCondition

namespace Findings

variable {definition : Definition}

/-- What is left behind by an encounter that does not end the match. -/
inductive Met (definition : Definition) (findings : Findings) : Encounter → Findings → Prop
  | bound {v : Variable} {subject : Term} (hadmits : definition.admits v subject = .yes)
      (hget : findings.subst.get? v = none) :
      Met definition findings (.bind v subject)
        { findings with subst := findings.subst.push v subject }
  | repeated {v : Variable} {subject existing : Term} (hadmits : definition.admits v subject = .yes)
      (hget : findings.subst.get? v = some existing) (hequal : existing.EqualTo subject) :
      Met definition findings (.bind v subject) findings
  | equated {v : Variable} {subject existing : Term} (hadmits : definition.admits v subject = .yes)
      (hget : findings.subst.get? v = some existing)
      (hground : ¬(existing.isGround && subject.isGround) = true) :
      Met definition findings (.bind v subject)
        { findings with constraints := findings.constraints.assume (.equal existing subject) }
  | constrained {pattern : Term} {v : Variable} (hbound : findings.subst.Covers pattern) :
      Met definition findings (.unknown pattern v)
        { findings with constraints :=
            findings.constraints.assume (.equal (.var v) (pattern.applySubst findings.subst)) }
  | deferred {pattern : Term} {v : Variable} :
      Met definition findings (.unknown pattern v)
        { findings with deferred := findings.deferred ++ [(pattern, .var v)] }

inductive Halted (definition : Definition) (findings : Findings) : Encounter → Halt → Prop
  | refused {v : Variable} {subject : Term} (hadmits : definition.admits v subject = .no) :
      Halted definition findings (.bind v subject) .failed
  | unsure {v : Variable} {subject : Term} (hadmits : definition.admits v subject = .maybe) :
      Halted definition findings (.bind v subject) .undecided
  | conflicting {v : Variable} {subject existing : Term}
      (hadmits : definition.admits v subject = .yes)
      (hget : findings.subst.get? v = some existing) (hdiffers : ¬existing.EqualTo subject)
      (hground : (existing.isGround && subject.isGround) = true) :
      Halted definition findings (.bind v subject) .conflicting
  | rest {pattern : Term} {v : Variable} (hrest : v.isRest = true) :
      Halted definition findings (.unknown pattern v) .undecided
  | apart {pattern : Term} {v : Variable} (hrest : v.isRest = false)
      (hsorts : definition.sortsOverlap pattern v = false) :
      Halted definition findings (.unknown pattern v) .failed
  | clash {subject : Term} : Halted definition findings (.clash subject) .failed

/-- Whether an encounter has been met or ends the match, there is a reason for it. -/
theorem meet_spec (definition : Definition) (findings : Findings) (encounter : Encounter) :
    match findings.meet definition encounter with
    | .ok next => findings.Met definition encounter next
    | .error halt => findings.Halted definition encounter halt := by
  cases encounter with
  | bind v subject =>
      unfold meet
      dsimp only
      cases hadmits : definition.admits v subject with
      | no => exact .refused hadmits
      | maybe => exact .unsure hadmits
      | yes =>
          cases hget : findings.subst.get? v with
          | none => exact .bound hadmits hget
          | some existing =>
              dsimp only
              by_cases hequal : (existing == subject) = true
              · rw [if_pos hequal]
                exact .repeated hadmits hget hequal
              · rw [if_neg hequal]
                by_cases hground : (existing.isGround && subject.isGround) = true
                · rw [if_pos hground]
                  exact .conflicting hadmits hget hequal hground
                · rw [if_neg hground]
                  exact .equated hadmits hget hground
  | unknown pattern v =>
      unfold meet
      dsimp only
      cases hrest : v.isRest with
      | true => exact .rest hrest
      | false =>
          cases hsorts : definition.sortsOverlap pattern v with
          | false => exact .apart hrest hsorts
          | true =>
              unfold Substitution.constrain?
              by_cases hbound : pattern.vars.all findings.subst.isBound = true
              · rw [if_pos hbound]
                exact .constrained (List.all_eq_true.1 hbound)
              · rw [if_neg hbound]
                exact .deferred
  | clash subject => exact .clash

theorem met_of_meet {findings next : Findings} {encounter : Encounter}
    (hmeet : findings.meet definition encounter = .ok next) :
    findings.Met definition encounter next := by
  have hspec := meet_spec definition findings encounter
  rwa [hmeet] at hspec

theorem halted_of_meet {findings : Findings} {encounter : Encounter} {halt : Halt}
    (hmeet : findings.meet definition encounter = .error halt) :
    findings.Halted definition encounter halt := by
  have hspec := meet_spec definition findings encounter
  rwa [hmeet] at hspec

theorem Halted.meet {findings : Findings} {encounter : Encounter} {halt : Halt}
    (hhalted : findings.Halted definition encounter halt) :
    findings.meet definition encounter = .error halt := by
  cases hhalted with
  | refused hadmits | unsure hadmits => rw [Findings.meet, hadmits]
  | conflicting hadmits hget hdiffers hground =>
      rw [Findings.meet, hadmits, hget]
      exact (if_neg hdiffers).trans (if_pos hground)
  | rest hrest => rw [Findings.meet, if_pos hrest]
  | apart hrest hsorts =>
      rw [Findings.meet, hrest, hsorts]
      rfl
  | clash => rfl

theorem meetAll_cons (findings : Findings) (encounter : Encounter) (later : List Encounter) :
    findings.meetAll definition (encounter :: later) =
      (findings.meet definition encounter).bind fun next => next.meetAll definition later :=
  List.foldlM_cons

theorem exists_of_meetAll_cons {findings last : Findings} {encounter : Encounter}
    {later : List Encounter}
    (hmeets : findings.meetAll definition (encounter :: later) = .ok last) :
    ∃ next, findings.meet definition encounter = .ok next ∧
      next.meetAll definition later = .ok last := by
  rw [meetAll_cons] at hmeets
  cases hmeet : findings.meet definition encounter with
  | ok next =>
      rw [hmeet] at hmeets
      exact ⟨next, rfl, hmeets⟩
  | error halt =>
      rw [hmeet] at hmeets
      cases hmeets

/-- A match ends at some encounter, after it has dealt with all those before. -/
theorem exists_of_halt {findings : Findings} {encounters : List Encounter} {halt : Halt}
    (hhalts : findings.meetAll definition encounters = .error halt) :
    ∃ earlier encounter later next, encounters = earlier ++ encounter :: later ∧
      findings.meetAll definition earlier = .ok next ∧
      next.meet definition encounter = .error halt := by
  induction encounters generalizing findings with
  | nil => cases hhalts
  | cons first encounters ih =>
      rw [meetAll_cons] at hhalts
      cases hmeet : findings.meet definition first with
      | error other =>
          rw [hmeet] at hhalts
          cases hhalts
          exact ⟨[], first, encounters, findings, rfl, rfl, hmeet⟩
      | ok next =>
          rw [hmeet] at hhalts
          obtain ⟨earlier, encounter, later, last, rfl, hearlier, hends⟩ := ih hhalts
          refine ⟨first :: earlier, encounter, later, last, rfl, ?_, hends⟩
          rw [meetAll_cons, hmeet]
          exact hearlier

theorem meetAll_append_error {findings next : Findings} {earlier later : List Encounter}
    {encounter : Encounter} {halt : Halt} (hearlier : findings.meetAll definition earlier = .ok next)
    (hhalts : next.meet definition encounter = .error halt) :
    findings.meetAll definition (earlier ++ encounter :: later) = .error halt := by
  unfold meetAll at hearlier ⊢
  rw [List.foldlM_append, hearlier]
  change next.meetAll definition (encounter :: later) = _
  rw [meetAll_cons, hhalts]
  rfl

/-- A variable is bound to the first part of the subject that it lies on. -/
theorem get?_of_meetAll {findings last : Findings} {encounters : List Encounter}
    (hmeets : findings.meetAll definition encounters = .ok last) (v : Variable) :
    last.subst.get? v = (findings.subst.get? v).or (encounters.findSome? (Encounter.boundTo? v)) := by
  induction encounters generalizing findings with
  | nil =>
      cases hmeets
      rw [List.findSome?_nil, Option.or_none]
  | cons encounter encounters ih =>
      obtain ⟨next, hmeet, hlater⟩ := exists_of_meetAll_cons hmeets
      have hagain : ∀ w subject existing, findings.subst.get? w = some existing →
          (findings.subst.get? v).or (encounters.findSome? (Encounter.boundTo? v)) =
            (findings.subst.get? v).or
              ((.bind w subject :: encounters).findSome? (Encounter.boundTo? v)) := by
        intro w subject existing hget
        by_cases heq : w = v
        · rw [← heq, hget, Option.some_or, Option.some_or]
        · rw [List.findSome?_cons, Encounter.boundTo?, if_neg heq]
      rw [ih hlater]
      cases met_of_meet hmeet with
      | @bound w subject hadmits hget =>
          rw [Substitution.get?_push hget]
          by_cases heq : w = v
          · rw [if_pos heq, ← heq, hget, List.findSome?_cons, Encounter.boundTo?, if_pos rfl]
            rfl
          · rw [if_neg heq, List.findSome?_cons, Encounter.boundTo?, if_neg heq]
      | @repeated w subject existing hadmits hget hequal => exact hagain w subject existing hget
      | @equated w subject existing hadmits hget hground => exact hagain w subject existing hget
      | constrained _ => rfl
      | deferred => rfl

theorem mem_of_boundTo? {v : Variable} {encounters : List Encounter} {subject : Term}
    (hfirst : encounters.findSome? (Encounter.boundTo? v) = some subject) :
    .bind v subject ∈ encounters := by
  obtain ⟨encounter, hmem, hbound⟩ := List.exists_of_findSome?_eq_some hfirst
  cases encounter with
  | bind w part =>
      unfold Encounter.boundTo? at hbound
      dsimp only at hbound
      split at hbound
      · rename_i heq
        cases hbound
        rwa [← heq]
      · cases hbound
  | unknown _ _ | clash _ => cases hbound

/-- The record of an encounter: a bound variable has an equal term, unless an equation is left, and a
pattern over an unknown value is deferred or has become an equation. -/
def Accounts (definition : Definition) (findings : Findings) : Encounter → Prop
  | .bind v subject =>
      definition.admits v subject = .yes ∧
        ∃ existing, findings.subst.get? v = some existing ∧
          (existing.EqualTo subject ∨
            ¬(existing.isGround && subject.isGround) = true ∧
              findings.constraints.contains (.equal existing subject) = true)
  | .unknown pattern v =>
      (pattern, .var v) ∈ findings.deferred ∨
        findings.subst.Covers pattern ∧
          findings.constraints.contains
            (.equal (.var v) (pattern.applySubst findings.subst)) = true
  | .clash _ => False

/-- The findings may grow: bindings stay, and so do equations. -/
structure Grows (findings next : Findings) : Prop where
  subst : ∀ v subject, findings.subst.get? v = some subject → next.subst.get? v = some subject
  constraints : ∀ equation, findings.constraints.contains equation = true →
    next.constraints.contains equation = true

theorem Met.grows {findings next : Findings} {encounter : Encounter}
    (hmet : findings.Met definition encounter next) : findings.Grows next := by
  cases hmet with
  | @bound v subject hadmits hget =>
      refine ⟨fun w part hpart => ?_, fun _ hcontains => hcontains⟩
      rw [Substitution.get?_push hget]
      by_cases heq : v = w
      · rw [← heq, hget] at hpart
        cases hpart
      · rw [if_neg heq, hpart]
  | repeated _ _ _ => exact ⟨fun _ _ hget => hget, fun _ hcontains => hcontains⟩
  | equated _ _ _ | constrained _ =>
      exact ⟨fun _ _ hget => hget, fun _ hcontains =>
        PathCondition.contains_assume_of_contains hcontains _⟩
  | deferred => exact ⟨fun _ _ hget => hget, fun _ hcontains => hcontains⟩

theorem Grows.covers {findings next : Findings} (hgrows : findings.Grows next) {term : Term}
    (hcovers : findings.subst.Covers term) : next.subst.Covers term := by
  intro v hmem
  obtain ⟨subject, hget⟩ := Option.isSome_iff_exists.1 (hcovers v hmem)
  exact Option.isSome_iff_exists.2 ⟨subject, hgrows.subst v subject hget⟩

theorem Grows.applySubst {findings next : Findings} (hgrows : findings.Grows next)
    {allowed : Label → Prop} {term : Term} (hterm : term.Plain allowed)
    (hcovers : findings.subst.Covers term) :
    term.applySubst findings.subst = term.applySubst next.subst := by
  apply Term.applySubst_congr hterm
  intro v hmem
  obtain ⟨subject, hget⟩ := Option.isSome_iff_exists.1 (hcovers v hmem)
  rw [hget, hgrows.subst v subject hget]

theorem Accounts.grow {findings next : Findings} {encounter : Encounter} {allowed : Label → Prop}
    (haccounts : findings.Accounts definition encounter)
    (hplain : encounter.OnPlain allowed) (hgrows : findings.Grows next)
    (hdeferred : findings.deferred ⊆ next.deferred) : next.Accounts definition encounter := by
  cases encounter with
  | bind v subject =>
      obtain ⟨hadmits, existing, hget, hequal⟩ := haccounts
      refine ⟨hadmits, existing, hgrows.subst v existing hget, ?_⟩
      exact hequal.imp_right fun ⟨hground, hcontains⟩ =>
        ⟨hground, hgrows.constraints _ hcontains⟩
  | unknown pattern v =>
      rcases haccounts with hmem | ⟨hcovers, hcontains⟩
      · exact .inl (hdeferred hmem)
      · refine .inr ⟨hgrows.covers hcovers, ?_⟩
        rw [← hgrows.applySubst hplain hcovers]
        exact hgrows.constraints _ hcontains
  | clash subject => exact haccounts

theorem Met.deferred_subset {findings next : Findings} {encounter : Encounter}
    (hmet : findings.Met definition encounter next) : findings.deferred ⊆ next.deferred := by
  cases hmet with
  | deferred => exact List.subset_append_left _ _
  | bound _ _ | repeated _ _ _ | equated _ _ _ | constrained _ => exact List.Subset.refl _

theorem Met.accounts {findings next : Findings} {encounter : Encounter}
    (hmet : findings.Met definition encounter next) : next.Accounts definition encounter := by
  cases hmet with
  | @bound v subject hadmits hget =>
      refine ⟨hadmits, subject, ?_, .inl subject.beq_refl⟩
      rw [Substitution.get?_push hget, if_pos rfl]
  | @repeated v subject existing hadmits hget hequal =>
      exact ⟨hadmits, existing, hget, .inl hequal⟩
  | @equated v subject existing hadmits hget hground =>
      exact ⟨hadmits, existing, hget, .inr ⟨hground, PathCondition.contains_assume _ _⟩⟩
  | constrained hbound => exact .inr ⟨hbound, PathCondition.contains_assume _ _⟩
  | deferred => exact .inl (List.mem_append_right _ (List.mem_singleton.2 rfl))

/-- All encounters that have been dealt with are accounted for. -/
theorem accounts_of_meetAll {allowed : Label → Prop} {findings last : Findings}
    {encounters : List Encounter} (hplain : ∀ encounter ∈ encounters, encounter.OnPlain allowed)
    (hmeets : findings.meetAll definition encounters = .ok last) :
    (∀ encounter ∈ encounters, last.Accounts definition encounter) ∧
      ∀ encounter, encounter.OnPlain allowed →
        findings.Accounts definition encounter → last.Accounts definition encounter := by
  induction encounters generalizing findings with
  | nil =>
      cases hmeets
      exact ⟨fun _ hmem => (List.not_mem_nil hmem).elim, fun _ _ haccounts => haccounts⟩
  | cons first encounters ih =>
      obtain ⟨next, hmeet, hlater⟩ := exists_of_meetAll_cons hmeets
      have hmet := met_of_meet hmeet
      obtain ⟨hfirst, hothers⟩ := List.forall_mem_cons.1 hplain
      obtain ⟨hnew, hold⟩ := ih hothers hlater
      refine ⟨List.forall_mem_cons.2 ⟨hold first hfirst hmet.accounts, hnew⟩, ?_⟩
      intro encounter hencounter haccounts
      exact hold encounter hencounter (haccounts.grow hencounter hmet.grows hmet.deferred_subset)

end Findings

theorem Substitution.settle_cons {subst : Substitution} {constraints settled : PathCondition}
    {pattern subject : Term} {rest : List (Term × Term)}
    (hsettle : subst.settle constraints ((pattern, subject) :: rest) = some settled) :
    subst.Covers pattern ∧
      subst.settle (constraints.assume (.equal subject (pattern.applySubst subst))) rest =
        some settled := by
  unfold settle constrain? at hsettle
  by_cases hbound : pattern.vars.all subst.isBound = true
  · rw [if_pos hbound] at hsettle
    exact ⟨List.all_eq_true.1 hbound, hsettle⟩
  · rw [if_neg hbound] at hsettle
    cases hsettle

/-- Settling keeps the equations and adds one for each deferred pattern. -/
theorem Substitution.contains_of_settle {subst : Substitution} {constraints settled : PathCondition}
    {deferred : List (Term × Term)} (hsettle : subst.settle constraints deferred = some settled) :
    (∀ equation, constraints.contains equation = true → settled.contains equation = true) ∧
      ∀ pattern subject, (pattern, subject) ∈ deferred → subst.Covers pattern ∧
        settled.contains (.equal subject (pattern.applySubst subst)) = true := by
  induction deferred generalizing constraints with
  | nil =>
      cases hsettle
      exact ⟨fun _ hcontains => hcontains, fun _ _ hmem => (List.not_mem_nil hmem).elim⟩
  | cons first rest ih =>
      obtain ⟨pattern, subject⟩ := first
      obtain ⟨hcovers, hrest⟩ := settle_cons hsettle
      obtain ⟨hkeeps, hadds⟩ := ih hrest
      refine ⟨fun equation hcontains =>
        hkeeps equation (PathCondition.contains_assume_of_contains hcontains _), ?_⟩
      intro other part hmem
      rcases List.mem_cons.1 hmem with heq | hlater
      · cases heq
        exact ⟨hcovers, hkeeps _ (PathCondition.contains_assume _ _)⟩
      · exact hadds other part hlater

/-- What holds of all equations so far, and of those that deferred patterns become, holds of all. -/
theorem Substitution.forall_mem_of_settle {subst : Substitution}
    {constraints settled : PathCondition} {deferred : List (Term × Term)} {property : Term → Prop}
    (hsettle : subst.settle constraints deferred = some settled)
    (hconstraints : ∀ equation ∈ constraints.conjuncts, property equation)
    (hdeferred : ∀ pattern subject, (pattern, subject) ∈ deferred → subst.Covers pattern →
      property (.equal subject (pattern.applySubst subst))) :
    ∀ equation ∈ settled.conjuncts, property equation := by
  induction deferred generalizing constraints with
  | nil =>
      cases hsettle
      exact hconstraints
  | cons first rest ih =>
      obtain ⟨pattern, subject⟩ := first
      obtain ⟨hcovers, hrest⟩ := settle_cons hsettle
      refine ih hrest ?_ fun other part hmem => hdeferred other part (List.mem_cons_of_mem _ hmem)
      intro equation hmem
      rcases PathCondition.mem_assume hmem with hold | rfl
      · exact hconstraints equation hold
      · exact hdeferred pattern subject List.mem_cons_self hcovers

namespace Machine

variable {machine : Machine σ} {θ ρ : Substitution}

/-- The sides of the equation have equal values once they are instantiated. -/
def HoldsUnder (machine : Machine σ) (θ : Substitution) (equation : Term) : Prop :=
  ∃ left right leftValue rightValue, equation = .equal left right ∧
    machine.Instantiates θ left leftValue ∧ machine.Instantiates θ right rightValue ∧
      (leftValue == rightValue) = true

theorem holdsUnder_of_fits {pattern left right : Term} (hleft : machine.Fits θ ρ pattern left)
    (hright : machine.Fits θ ρ pattern right) : machine.HoldsUnder θ (.equal left right) := by
  obtain ⟨leftValue, hleftValue, hequal⟩ := hleft
  obtain ⟨rightValue, hrightValue, hequal'⟩ := hright
  exact ⟨left, right, leftValue, rightValue, rfl, hleftValue, hrightValue,
    Term.beq_trans (Term.beq_symm hequal) hequal'⟩

/-- What is bound has the value that `ρ` gives, and so has whatever a pattern is to be equal to. -/
structure SoundFindings (machine : Machine σ) (θ ρ : Substitution) (findings : Findings) : Prop where
  subst : ∀ v subject, findings.subst.get? v = some subject → machine.Fits θ ρ (.var v) subject
  deferred : ∀ pattern subject, (pattern, subject) ∈ findings.deferred →
    machine.definition.PlainPattern pattern ∧ machine.Fits θ ρ pattern subject
  constraints : ∀ equation ∈ findings.constraints.conjuncts, machine.HoldsUnder θ equation

section Sound

variable [Nonempty σ] (hrepeat : machine.definition.Repeatable)
include hrepeat

/-- A pattern has an instance by what its variables are bound to, and this has the value that `ρ`
gives. -/
theorem fits_applySubst {pattern : Term} (hpattern : machine.definition.PlainPattern pattern)
    {subst : Substitution} (hbound : ∀ v ∈ pattern.vars,
      ∃ subject, subst.get? v = some subject ∧ machine.Fits θ ρ (.var v) subject) :
    machine.Fits θ ρ pattern (pattern.applySubst subst) := by
  induction hpattern with
  | token sort token =>
      refine ⟨.token sort token, ?_, Term.beq_refl _⟩
      rw [Instantiates, Term.applySubst_token, Term.applySubst_token]
      exact builds_token sort token
  | var v _ =>
      obtain ⟨subject, hget, hfits⟩ :=
        hbound v (Term.mem_vars_iff.2 ⟨_, Term.self_mem_subterms _, rfl⟩)
      rw [Term.applySubst_var, hget]
      exact hfits
  | app label args hlabel _ ih =>
      have hargs : ∃ values, Forall₂ (machine.Instantiates θ)
          (args.map fun arg => arg.applySubst subst) values ∧
            Forall₂ Term.EqualTo (args.map (Term.instantiate ρ)) values := by
        have hall : Forall₂ (fun arg other : Term => ∃ value,
            machine.Instantiates θ (arg.applySubst subst) value ∧
              (other.instantiate ρ).EqualTo value) args args := by
          refine forall₂_same.2 fun arg hmem => ih arg hmem fun v hv => hbound v ?_
          have hvars : arg.vars ⊆ (Term.app label args).vars := Term.vars_subset_of_mem_children hmem
          exact hvars hv
        obtain ⟨values, hvalues, hequal⟩ := exists_of_forall₂_comp hall
        exact ⟨values, forall₂_map_left_iff.2 hvalues, forall₂_map_left_iff.2 hequal.flip⟩
      obtain ⟨values, hvalues, hequal⟩ := hargs
      rw [Term.applySubst_app]
      refine ⟨.app label values, (instantiates_app_iff hrepeat hlabel).2 ⟨values, hvalues, rfl⟩, ?_⟩
      rw [Term.instantiate_app]
      exact Term.equal_app label hequal

theorem SoundFindings.constrained {findings : Findings}
    (hsound : machine.SoundFindings θ ρ findings) {pattern subject : Term}
    (hpattern : machine.definition.PlainPattern pattern) (hfits : machine.Fits θ ρ pattern subject)
    (hcovers : findings.subst.Covers pattern) :
    machine.HoldsUnder θ (.equal subject (pattern.applySubst findings.subst)) := by
  refine holdsUnder_of_fits hfits (fits_applySubst hrepeat hpattern fun v hmem => ?_)
  obtain ⟨part, hget⟩ := Option.isSome_iff_exists.1 (hcovers v hmem)
  exact ⟨part, hget, hsound.subst v part hget⟩

theorem SoundFindings.met {findings next : Findings} {encounter : Encounter}
    (hsound : machine.SoundFindings θ ρ findings)
    (hmet : findings.Met machine.definition encounter next)
    (hplain : encounter.OnPlain fun label => machine.definition.isFunction label = false)
    (hholds : machine.Holds θ ρ encounter) : machine.SoundFindings θ ρ next := by
  cases hmet with
  | @bound v subject hadmits hget =>
      refine ⟨fun w part hpart => ?_, hsound.deferred, hsound.constraints⟩
      rw [Substitution.get?_push hget] at hpart
      by_cases heq : v = w
      · rw [if_pos heq] at hpart
        cases hpart
        exact heq ▸ hholds
      · rw [if_neg heq] at hpart
        exact hsound.subst w part hpart
  | repeated _ _ _ => exact hsound
  | @equated v subject existing hadmits hget hground =>
      refine ⟨hsound.subst, hsound.deferred, fun equation hmem => ?_⟩
      rcases PathCondition.mem_assume hmem with hold | rfl
      · exact hsound.constraints equation hold
      · exact holdsUnder_of_fits (hsound.subst v existing hget) hholds
  | @constrained pattern v hbound =>
      refine ⟨hsound.subst, hsound.deferred, fun equation hmem => ?_⟩
      rcases PathCondition.mem_assume hmem with hold | rfl
      · exact hsound.constraints equation hold
      · exact hsound.constrained hrepeat hplain hholds hbound
  | @deferred pattern v =>
      refine ⟨hsound.subst, fun other part hmem => ?_, hsound.constraints⟩
      rcases List.mem_append.1 hmem with hold | hnew
      · exact hsound.deferred other part hold
      · cases List.mem_singleton.1 hnew
        exact ⟨hplain, hholds⟩

theorem SoundFindings.meetAll {findings last : Findings} {encounters : List Encounter}
    (hsound : machine.SoundFindings θ ρ findings)
    (hplain : ∀ encounter ∈ encounters,
      encounter.OnPlain fun label => machine.definition.isFunction label = false)
    (hholds : ∀ encounter ∈ encounters, machine.Holds θ ρ encounter)
    (hmeets : findings.meetAll machine.definition encounters = .ok last) :
    machine.SoundFindings θ ρ last := by
  induction encounters generalizing findings with
  | nil =>
      cases hmeets
      exact hsound
  | cons first encounters ih =>
      obtain ⟨next, hmeet, hlater⟩ := Findings.exists_of_meetAll_cons hmeets
      obtain ⟨hplainFirst, hplainOthers⟩ := List.forall_mem_cons.1 hplain
      obtain ⟨hfirst, hothers⟩ := List.forall_mem_cons.1 hholds
      exact ih (hsound.met hrepeat (Findings.met_of_meet hmeet) hplainFirst hfirst) hplainOthers hothers
        hlater

end Sound

end Machine

end SymbolicRewriting
