import SymbolicRewriting.Proofs.Encounters
import SymbolicRewriting.Proofs.Instances
import SymbolicRewriting.Proofs.Variables

/-!
A pattern over a subject and over the value of an instance of the subject. The encounters with the
subject say what has to hold for the value to be an instance of the pattern, unless a function call
of the subject is in the way.
-/

namespace SymbolicRewriting

open List

variable {σ : Type}

/-- Terms of which no function call is a part, beside tokens and plain variables. -/
abbrev Definition.PlainPattern (definition : Definition) : Term → Prop :=
  Term.Plain fun label => definition.isFunction label = false

abbrev Term.PlainSubject : Term → Prop := Term.Plain fun _ => True

def Definition.IsCall (definition : Definition) (term : Term) : Prop :=
  ∃ label args, term = .app label args ∧ definition.isFunction label = true

namespace Term

theorem eq_of_equalTo_plain {allowed : Label → Prop} {term : Term} (hterm : term.Plain allowed) :
    ∀ other : Term, other.EqualTo term → other = term := by
  induction hterm with
  | token sort value =>
      intro other hequal
      rw [equal_iff_equals] at hequal
      cases other with
      | token sort' value' => simpa [equals] using hequal
      | var _ | app _ _ | sequence _ _ | collection _ _ => cases hequal
  | var v _ =>
      intro other hequal
      rw [equal_iff_equals] at hequal
      cases other with
      | var v' => simpa [equals] using hequal
      | token _ _ | app _ _ | sequence _ _ | collection _ _ => cases hequal
  | app label args _ hplain ih =>
      intro other hequal
      rw [equal_iff_equals] at hequal
      cases other with
      | app label' args' =>
          rw [equals, Bool.and_eq_true, beq_iff_eq] at hequal
          obtain ⟨rfl, hargs⟩ := hequal
          have hsame : args' = args := by
            have hall := forall₂_of_equalsAll hargs
            clear hargs hplain
            induction hall with
            | nil => rfl
            | cons hfirst _ ihargs =>
                obtain ⟨hih, hothers⟩ := List.forall_mem_cons.1 ih
                rw [hih _ hfirst, ihargs hothers]
          rw [hsame]
      | token _ _ | var _ | sequence _ _ | collection _ _ => cases hequal

theorem applySubst_var (v : Variable) (subst : Substitution) :
    (var v).applySubst subst = (subst.get? v).getD (var v) := by
  unfold applySubst
  split
  · rename_i hempty
    rw [Substitution.get?, List.isEmpty_iff.1 hempty]
    rfl
  · rfl

theorem instantiate_app (label : Label) (args : List Term) (subst : Substitution) :
    (app label args).instantiate subst = app label (args.map (instantiate subst)) := by
  rw [instantiate, instantiateAll_eq_map]

theorem equal_instantiate_app {label : Label} {args values : List Term} {subst : Substitution}
    (hlength : args.length = values.length)
    (hargs : ∀ arg value, (arg, value) ∈ args.zip values → (arg.instantiate subst).EqualTo value) :
    ((app label args).instantiate subst).EqualTo (app label values) := by
  rw [instantiate_app]
  have hall : Forall₂ (fun arg value : Term => (arg.instantiate subst).EqualTo value) args values :=
    forall₂_iff_zip.2 ⟨hlength, fun {arg value} hpair => hargs arg value hpair⟩
  exact equal_app label (forall₂_map_left_iff.2 hall)

end Term

namespace Machine

variable {machine : Machine σ} {θ ρ : Substitution}

section Overlays

variable [Nonempty σ] (hrepeat : machine.definition.Repeatable)
include hrepeat

theorem exists_of_instantiates_app {label : Label}
    (hlabel : machine.definition.isFunction label = false) {args : List Term} {value : Term}
    (hvalue : machine.Instantiates θ (.app label args) value) :
    ∃ values, value = .app label values ∧ Forall₂ (machine.Instantiates θ) args values := by
  obtain ⟨results, hresults, halike⟩ := (instantiates_app_iff hrepeat hlabel).1 hvalue
  obtain ⟨values, rfl, hvalues⟩ := Term.exists_of_alike_app halike.symm
  refine ⟨values, rfl, ?_⟩
  clear halike hvalue
  induction hresults generalizing values with
  | nil =>
      obtain rfl : values = [] := List.map_eq_nil_iff.1 hvalues.symm
      exact .nil
  | cons hfirst _ ih =>
      obtain ⟨value, others, rfl, hvalue, hothers⟩ := List.map_eq_cons_iff.1 hvalues.symm
      exact .cons (hfirst.congr hrepeat rfl hvalue.symm) (ih others hothers.symm)

end Overlays

/-- How a pattern lies on a subject and on the value of an instance of the subject. -/
inductive Overlay (machine : Machine σ) (θ : Substitution) : Term → Term → Term → Prop
  | bind {v : Variable} {subject value : Term} (hvalue : machine.Instantiates θ subject value) :
      Overlay machine θ (.var v) subject value
  | unknown {pattern : Term} {v : Variable} {value : Term}
      (hencounters : pattern.encounters (.var v) = [.unknown pattern v])
      (hvalue : machine.Instantiates θ (.var v) value) : Overlay machine θ pattern (.var v) value
  | same (sort : SortName) (token : String) :
      Overlay machine θ (.token sort token) (.token sort token) (.token sort token)
  | app {label : Label} {args subjects values : List Term} (hlength : args.length = subjects.length)
      (hvalues : Forall₂ (machine.Instantiates θ) subjects values)
      (hparts : ∀ arg ∈ args, ∀ part ∈ subjects, ∀ result, machine.Instantiates θ part result →
        Overlay machine θ arg part result) :
      Overlay machine θ (.app label args) (.app label subjects) (.app label values)
  | call {pattern subject value : Term} (hencounters : pattern.encounters subject = [.clash subject])
      (hcall : machine.definition.IsCall subject) : Overlay machine θ pattern subject value
  | clash {pattern subject value : Term} (hencounters : pattern.encounters subject = [.clash subject])
      (hvalue : pattern.encounters value = [.clash value])
      (hdiffers : ∀ ρ, ¬(pattern.instantiate ρ).EqualTo value) :
      Overlay machine θ pattern subject value

section Overlays

variable [Nonempty σ] (hrepeat : machine.definition.Repeatable)
include hrepeat

theorem overlay_token (sort : SortName) (token : String) {subject value : Term}
    (hsubject : subject.PlainSubject) (hvalue : machine.Instantiates θ subject value) :
    machine.Overlay θ (.token sort token) subject value := by
  cases hsubject with
  | var v _ => exact .unknown rfl hvalue
  | token sort' token' =>
      obtain rfl := eq_of_instantiates_token hvalue
      by_cases hsame : sort = sort' ∧ token = token'
      · obtain ⟨rfl, rfl⟩ := hsame
        exact .same sort token
      · have hencounters : (Term.token sort token).encounters (.token sort' token') =
            [.clash (.token sort' token')] := by
          rw [Term.encounters, if_neg hsame]
        refine .clash hencounters hencounters fun ρ hequal => hsame ?_
        have hplain : (Term.token sort' token').PlainSubject := .token sort' token'
        have heq := Term.eq_of_equalTo_plain hplain _ hequal
        rw [Term.instantiate] at heq
        exact Term.token.inj heq
  | app label args _ _ =>
      cases hlabel : machine.definition.isFunction label with
      | true => exact .call rfl ⟨label, args, rfl, hlabel⟩
      | false =>
          obtain ⟨values, rfl, -⟩ := exists_of_instantiates_app hrepeat hlabel hvalue
          refine .clash rfl rfl fun ρ hequal => ?_
          rw [Term.equal_iff_equals] at hequal
          cases hequal

/-- A plain pattern lies on every plain subject, and likewise on the value of its instance. -/
theorem overlay {pattern : Term} (hpattern : machine.definition.PlainPattern pattern) :
    ∀ subject value, subject.PlainSubject → machine.Instantiates θ subject value →
      machine.Overlay θ pattern subject value := by
  induction hpattern with
  | var v _ =>
      intro subject value _ hvalue
      exact .bind hvalue
  | token sort token =>
      intro subject value hsubject hvalue
      exact overlay_token hrepeat sort token hsubject hvalue
  | app label args hlabel _ ih =>
      intro subject value hsubject hvalue
      cases hsubject with
      | var v _ => exact .unknown rfl hvalue
      | token sort token =>
          obtain rfl := eq_of_instantiates_token hvalue
          refine .clash rfl rfl fun ρ hequal => ?_
          rw [Term.equal_iff_equals] at hequal
          cases hequal
      | app label' subjects _ hsubjects =>
          by_cases hsame : label = label' ∧ args.length = subjects.length
          · obtain ⟨rfl, hlength⟩ := hsame
            obtain ⟨values, rfl, hvalues⟩ := exists_of_instantiates_app hrepeat hlabel hvalue
            exact .app hlength hvalues fun arg harg part hpart result hresult =>
              ih arg harg part result (hsubjects part hpart) hresult
          · have hencounters : (Term.app label args).encounters (.app label' subjects) =
                [.clash (.app label' subjects)] := by
              rw [Term.encounters, if_neg hsame]
            cases hlabel' : machine.definition.isFunction label' with
            | true => exact .call hencounters ⟨label', subjects, rfl, hlabel'⟩
            | false =>
                obtain ⟨values, rfl, hvalues⟩ := exists_of_instantiates_app hrepeat hlabel' hvalue
                have hdiffers : ¬(label = label' ∧ args.length = values.length) := by
                  rwa [← hvalues.length_eq]
                refine .clash hencounters (by rw [Term.encounters, if_neg hdiffers]) fun ρ hequal => ?_
                rw [Term.instantiate_app] at hequal
                obtain ⟨hsame', hall⟩ := Term.forall₂_of_equal_app hequal
                have hlength := hall.length_eq
                rw [List.length_map] at hlength
                exact hdiffers ⟨hsame', hlength⟩

end Overlays

/-- The part of the subject has a value of which the pattern on it becomes equal under `ρ`. -/
def Fits (machine : Machine σ) (θ ρ : Substitution) (pattern subject : Term) : Prop :=
  ∃ value, machine.Instantiates θ subject value ∧ (pattern.instantiate ρ).EqualTo value

/-- What an encounter asks of the values of the variables. -/
def Holds (machine : Machine σ) (θ ρ : Substitution) : Encounter → Prop
  | .bind v subject => machine.Fits θ ρ (.var v) subject
  | .unknown pattern v => machine.Fits θ ρ pattern (.var v)
  | .clash _ => False

/-- What becomes of an encounter with the subject over the value of its instance. -/
def Recurs (machine : Machine σ) (θ : Substitution) (encounters : List Encounter) :
    Encounter → Prop
  | .bind v subject => ∃ value, machine.Instantiates θ subject value ∧ .bind v value ∈ encounters
  | .unknown _ _ => True
  | .clash subject =>
      machine.definition.IsCall subject ∨ ∃ value, .clash value ∈ encounters

theorem Recurs.mono {encounters others : List Encounter} {encounter : Encounter}
    (hrecurs : machine.Recurs θ encounters encounter) (hsubset : encounters ⊆ others) :
    machine.Recurs θ others encounter := by
  cases encounter with
  | bind v subject =>
      obtain ⟨value, hvalue, hmem⟩ := hrecurs
      exact ⟨value, hvalue, hsubset hmem⟩
  | unknown pattern v => exact True.intro
  | clash subject =>
      rcases hrecurs with hcall | ⟨value, hmem⟩
      · exact .inl hcall
      · exact .inr ⟨value, hsubset hmem⟩

/-- Where the value is an instance of the pattern, every encounter asks for what is the case, unless
it is one with a function call. -/
theorem Overlay.holds_of_instance {pattern subject value : Term}
    (hoverlay : machine.Overlay θ pattern subject value)
    (hinstance : (pattern.instantiate ρ).EqualTo value) :
    ∀ encounter ∈ pattern.encounters subject,
      machine.Holds θ ρ encounter ∨
        ∃ part, encounter = .clash part ∧ machine.definition.IsCall part := by
  induction hoverlay with
  | @bind v subject value hvalue =>
      rw [Term.encounters, List.forall_mem_singleton]
      exact .inl ⟨value, hvalue, hinstance⟩
  | @unknown pattern v value hencounters hvalue =>
      rw [hencounters, List.forall_mem_singleton]
      exact .inl ⟨value, hvalue, hinstance⟩
  | same sort token =>
      rw [Term.encounters, if_pos ⟨rfl, rfl⟩]
      exact List.forall_mem_nil _
  | @app label args subjects values hlength hvalues _ ih =>
      intro encounter hmem
      rw [Term.encounters, if_pos ⟨rfl, hlength⟩] at hmem
      rw [Term.instantiate_app] at hinstance
      have hall := forall₂_map_left_iff.1 (Term.forall₂_of_equal_app hinstance).2
      obtain ⟨arg, part, hpair, hencounter⟩ := Term.mem_encountersAll_iff.1 hmem
      obtain ⟨harg, hpart⟩ := List.of_mem_zip hpair
      obtain ⟨result, hresult, hpair'⟩ := exists_mem_zip_of_forall₂ hvalues hpair
      exact ih arg harg part hpart result hresult (forall₂_zip hall hpair') encounter hencounter
  | @call pattern subject value hencounters hcall =>
      rw [hencounters, List.forall_mem_singleton]
      exact .inr ⟨subject, rfl, hcall⟩
  | clash _ _ hdiffers => exact absurd hinstance (hdiffers ρ)

theorem Fits.instance_of [Nonempty σ] {pattern subject value : Term}
    (hfits : machine.Fits θ ρ pattern subject)
    (hvalue : machine.Instantiates θ subject value) : (pattern.instantiate ρ).EqualTo value := by
  obtain ⟨other, hother, hequal⟩ := hfits
  exact hequal.congr rfl (hother.unique hvalue)

/-- Where every encounter asks for what is the case, the value is an instance of the pattern. -/
theorem Overlay.instance_of_holds [Nonempty σ] {pattern subject value : Term}
    (hoverlay : machine.Overlay θ pattern subject value)
    (hholds : ∀ encounter ∈ pattern.encounters subject, machine.Holds θ ρ encounter) :
    (pattern.instantiate ρ).EqualTo value := by
  induction hoverlay with
  | bind hvalue =>
      rw [Term.encounters, List.forall_mem_singleton] at hholds
      exact Fits.instance_of hholds hvalue
  | unknown hencounters hvalue =>
      rw [hencounters, List.forall_mem_singleton] at hholds
      exact Fits.instance_of hholds hvalue
  | same sort token => exact Term.beq_refl _
  | @app label args subjects values hlength hvalues _ ih =>
      rw [Term.encounters, if_pos ⟨rfl, hlength⟩] at hholds
      apply Term.equal_instantiate_app (hlength.trans hvalues.length_eq)
      intro arg result hpair
      obtain ⟨part, hresult, hpair'⟩ := exists_mem_zip_of_forall₂ hvalues.flip hpair
      obtain ⟨harg, hpart⟩ := List.of_mem_zip hpair'
      refine ih arg harg part hpart result hresult fun encounter hmem => hholds encounter ?_
      exact Term.mem_encountersAll_iff.2 ⟨arg, part, hpair', hmem⟩
  | call hencounters _ | clash hencounters _ _ =>
      rw [hencounters, List.forall_mem_singleton] at hholds
      exact hholds.elim

/-- Every encounter with the subject comes back with the value of its instance. -/
theorem Overlay.recurs {pattern subject value : Term}
    (hoverlay : machine.Overlay θ pattern subject value) :
    ∀ encounter ∈ pattern.encounters subject,
      machine.Recurs θ (pattern.encounters value) encounter := by
  induction hoverlay with
  | @bind v subject value hvalue =>
      rw [Term.encounters, Term.encounters, List.forall_mem_singleton]
      exact ⟨value, hvalue, List.mem_singleton.2 rfl⟩
  | unknown hencounters _ =>
      rw [hencounters, List.forall_mem_singleton]
      exact True.intro
  | same sort token =>
      rw [Term.encounters, if_pos ⟨rfl, rfl⟩]
      exact List.forall_mem_nil _
  | @app label args subjects values hlength hvalues _ ih =>
      intro encounter hmem
      rw [Term.encounters, if_pos ⟨rfl, hlength⟩] at hmem
      obtain ⟨arg, part, hpair, hencounter⟩ := Term.mem_encountersAll_iff.1 hmem
      obtain ⟨harg, hpart⟩ := List.of_mem_zip hpair
      obtain ⟨result, hresult, hpair'⟩ := exists_mem_zip_of_forall₂ hvalues hpair
      apply Recurs.mono (ih arg harg part hpart result hresult encounter hencounter)
      intro other hother
      rw [Term.encounters, if_pos ⟨rfl, hlength.trans hvalues.length_eq⟩]
      exact Term.mem_encountersAll_iff.2 ⟨arg, result, hpair', hother⟩
  | call hencounters hcall =>
      rw [hencounters, List.forall_mem_singleton]
      exact .inl hcall
  | @clash pattern subject value hencounters hclash _ =>
      rw [hencounters, hclash, List.forall_mem_singleton]
      exact .inr ⟨value, List.mem_singleton.2 rfl⟩

end Machine

end SymbolicRewriting
