import SymbolicRewriting.Oracle.Syntactic
import SymbolicRewriting.Proofs.MatchFindings

/-!
What a match overlooks. A match that fails should have no instance that matches, and where the
subject is a constructor, a token or a known value this is so. But a function call may have any value, two
sorts may have a common subsort, and ground terms with calls may have the same value.
-/

namespace SymbolicRewriting

open List

variable {σ : Type}

/-- An encounter at which the match ends, though that of an instance may go on. -/
inductive Encounter.Overlooked (definition : Definition) (earlier : List Encounter) :
    Encounter → Prop
  | call {subject : Term} (hcall : definition.IsCall subject) :
      Overlooked definition earlier (.clash subject)
  | refused {v : Variable} {subject : Term} (hadmits : definition.admits v subject = .no)
      (hopen : subject.asVar.isSome = true ∨ definition.IsCall subject) :
      Overlooked definition earlier (.bind v subject)
  | conflicting {v : Variable} {subject existing : Term}
      (hadmits : definition.admits v subject = .yes)
      (hfirst : earlier.findSome? (Encounter.boundTo? v) = some existing)
      (hdiffers : existing ≠ subject)
      (hground : (existing.isGround && subject.isGround) = true)
      (hcall : ∃ part ∈ existing.subterms ++ subject.subterms, definition.IsCall part) :
      Overlooked definition earlier (.bind v subject)
  | apart {pattern : Term} {v : Variable} (hsorts : definition.sortsOverlap pattern v = false) :
      Overlooked definition earlier (.unknown pattern v)

/-- The match may come to an encounter that it overlooks, without being undecided before. -/
def Definition.Overlooks (definition : Definition) (pattern subject : Term) : Prop :=
  ∃ earlier encounter later, pattern.encounters subject = earlier ++ encounter :: later ∧
    encounter.Overlooked definition earlier ∧
      ∀ v part, .bind v part ∈ earlier → definition.admits v part ≠ .maybe

namespace Findings

variable {definition : Definition}

theorem meetAll_append_of_error {findings : Findings} {earlier : List Encounter} {halt : Halt}
    (hhalts : findings.meetAll definition earlier = .error halt) (later : List Encounter) :
    findings.meetAll definition (earlier ++ later) = .error halt := by
  unfold meetAll at hhalts ⊢
  rw [List.foldlM_append, hhalts]
  rfl

/-- Only a variable of a wider sort leaves a match of plain terms undecided. -/
theorem admits_of_undecided {findings : Findings} {encounter : Encounter}
    (hplain : encounter.OfPlain) (hhalted : findings.Halted definition encounter .undecided) :
    ∃ v part, encounter = .bind v part ∧ definition.admits v part = .maybe := by
  cases hhalted with
  | unsure hadmits => exact ⟨_, _, rfl, hadmits⟩
  | @rest pattern v hrest =>
      rw [Variable.isRest, (hplain : v.kind = .plain)] at hrest
      cases hrest

theorem halted_of_overlooked {findings : Findings} {earlier : List Encounter}
    {encounter : Encounter} (hplain : encounter.OfPlain)
    (hearlier : Findings.meetAll definition {} earlier = .ok findings)
    (hoverlooked : encounter.Overlooked definition earlier) :
    ∃ halt, findings.Halted definition encounter halt ∧ halt ≠ .undecided := by
  cases hoverlooked with
  | call _ => exact ⟨.failed, .clash, by rintro ⟨⟩⟩
  | refused hadmits _ => exact ⟨.failed, .refused hadmits, by rintro ⟨⟩⟩
  | @conflicting v subject existing hadmits hfirst hdiffers hground _ =>
      have hget : findings.subst.get? v = some existing := by
        rw [get?_of_meetAll hearlier v, hfirst]
        rfl
      have hequal : ¬existing.EqualTo subject :=
        fun hequal => hdiffers (Term.eq_of_equalTo_plain hplain existing hequal)
      exact ⟨.conflicting, .conflicting hadmits hget hequal hground, by rintro ⟨⟩⟩
  | @apart pattern v hsorts =>
      have hrest : v.isRest = false := by
        rw [Variable.isRest, (hplain : v.kind = .plain)]
        rfl
      exact ⟨.failed, .apart hrest hsorts, by rintro ⟨⟩⟩

/-- A match that overlooks something has come to an end and is not undecided. -/
theorem halts_of_overlooks {pattern subject : Term} (hsubject : subject.PlainSubject)
    (hoverlooks : definition.Overlooks pattern subject) :
    ∃ halt, Findings.meetAll definition {} (pattern.encounters subject) = .error halt ∧
      halt ≠ .undecided := by
  obtain ⟨earlier, encounter, later, hsplit, hoverlooked, hdecided⟩ := hoverlooks
  have hplain := hsubject.encounters_ofPlain pattern
  rw [hsplit] at hplain ⊢
  cases hearlier : Findings.meetAll definition {} earlier with
  | ok findings =>
      have hencounter : encounter.OfPlain := hplain encounter (by simp)
      obtain ⟨halt, hhalted, hne⟩ := halted_of_overlooked hencounter hearlier hoverlooked
      exact ⟨halt, meetAll_append_error hearlier hhalted.meet, hne⟩
  | error halt =>
      refine ⟨halt, meetAll_append_of_error hearlier _, ?_⟩
      rintro rfl
      obtain ⟨before, ends, after, findings, rfl, -, hhalts⟩ := exists_of_halt hearlier
      obtain ⟨v, part, rfl, hadmits⟩ := admits_of_undecided (hplain ends (by simp)) (halted_of_meet hhalts)
      exact hdecided v part (by simp) hadmits

end Findings

/-! Values of plain terms. -/

theorem Term.isGround_of_mem_children {term child : Term} (hground : term.isGround = true)
    (hchild : child ∈ term.children) : child.isGround = true := by
  rw [Term.isGround_eq_all_subterms, List.all_eq_true] at hground ⊢
  exact fun part hpart => hground part (Term.subterms_subset_of_mem_children hchild hpart)

namespace Machine

variable {machine : Machine σ} {θ ρ : Substitution}

section Values

variable [Nonempty σ] (hrepeat : machine.definition.Repeatable)
include hrepeat

/-- A ground term without calls is its own value. -/
theorem eq_of_instantiates_ground {term : Term} (hterm : term.PlainSubject) :
    ∀ value, term.isGround = true → (∀ part ∈ term.subterms, ¬machine.definition.IsCall part) →
      machine.Instantiates θ term value → value = term := by
  induction hterm with
  | token sort token =>
      intro value _ _ hvalue
      exact eq_of_instantiates_token hvalue
  | var v _ =>
      intro value hground
      cases hground
  | app label args _ _ ih =>
      intro value hground hcalls hvalue
      have hlabel : machine.definition.isFunction label = false := by
        cases hlabel : machine.definition.isFunction label with
        | false => rfl
        | true => exact absurd ⟨label, args, rfl, hlabel⟩ (hcalls _ (Term.self_mem_subterms _))
      obtain ⟨values, rfl, hvalues⟩ := exists_of_instantiates_app hrepeat hlabel hvalue
      have hsame : Forall₂ Eq args values := by
        refine forall₂_iff_zip.2 ⟨hvalues.length_eq, fun {arg result} hpair => ?_⟩
        have hmem := (List.of_mem_zip hpair).1
        have hparts : arg.subterms ⊆ (Term.app label args).subterms :=
          Term.subterms_subset_of_mem_children hmem
        have hground' := Term.isGround_of_mem_children hground hmem
        have hresult := forall₂_zip hvalues hpair
        exact (ih arg hmem result hground' (fun part hpart => hcalls part (hparts hpart))
          hresult).symm
      rw [forall₂_eq_eq_eq] at hsame
      rw [hsame]

/-- A term that is neither a variable nor a call is admitted where its value is. -/
theorem admits_of_instantiates {subject value : Term} (hsubject : subject.PlainSubject)
    (hvar : ¬subject.asVar.isSome = true) (hcall : ¬machine.definition.IsCall subject)
    (hvalue : machine.Instantiates θ subject value) (v : Variable) :
    machine.definition.admits v value = machine.definition.admits v subject := by
  cases hsubject with
  | token sort token => rw [eq_of_instantiates_token hvalue]
  | var w _ => exact absurd rfl hvar
  | app label args _ _ =>
      have hlabel : machine.definition.isFunction label = false := by
        cases hlabel : machine.definition.isFunction label with
        | false => rfl
        | true => exact absurd ⟨label, args, rfl, hlabel⟩ hcall
      obtain ⟨values, rfl, -⟩ := exists_of_instantiates_app hrepeat hlabel hvalue
      rfl

/-- The value of a variable is any ground part without calls that it lies on. -/
theorem Overlay.equalTo_of_ground {pattern subject value : Term}
    (hoverlay : machine.Overlay θ pattern subject value) (hsubject : subject.PlainSubject)
    (hinstance : (pattern.instantiate ρ).EqualTo value) {v : Variable} {part : Term}
    (hmem : .bind v part ∈ pattern.encounters subject) (hground : part.isGround = true)
    (hcalls : ∀ inner ∈ part.subterms, ¬machine.definition.IsCall inner) :
    ((Term.var v).instantiate ρ).EqualTo part := by
  rcases hoverlay.holds_of_instance hinstance _ hmem with ⟨result, hresult, hequal⟩ | ⟨_, hclash, -⟩
  · have hpart : part.PlainSubject := hsubject.encounters_ofPlain pattern _ hmem
    rwa [eq_of_instantiates_ground hrepeat hpart result hground hcalls hresult] at hequal
  · cases hclash

/-- If the match ends although the value of the instance matches, then it overlooks something. -/
theorem Overlay.overlooks_of_halts {pattern subject value : Term}
    (hoverlay : machine.Overlay θ pattern subject value)
    (hpattern : machine.definition.PlainPattern pattern) (hsubject : subject.PlainSubject)
    {findings : Findings}
    (hmeets : Findings.meetAll machine.definition {} (pattern.encounters value) = .ok findings)
    (hinstance : (pattern.instantiate ρ).EqualTo value) {halt : Halt}
    (hhalts : Findings.meetAll machine.definition {} (pattern.encounters subject) = .error halt)
    (hdecided : halt ≠ .undecided) : machine.definition.Overlooks pattern subject := by
  obtain ⟨earlier, encounter, later, next, hsplit, hearlier, hends⟩ :=
    Findings.exists_of_halt hhalts
  have hmem : encounter ∈ pattern.encounters subject := by
    rw [hsplit]
    simp
  have hrecurs := hoverlay.recurs encounter hmem
  have haccounts := (Findings.accounts_of_meetAll (hpattern.encounters_onPlain value) hmeets).1
  have hbefore := (Findings.accounts_of_meetAll (fun other hother =>
    hpattern.encounters_onPlain subject other (by rw [hsplit]; simp [hother])) hearlier).1
  have hundecided : ∀ v part, .bind v part ∈ earlier →
      machine.definition.admits v part ≠ .maybe := by
    intro v part hbind hmaybe
    have hyes := (hbefore _ hbind).1
    rw [hmaybe] at hyes
    cases hyes
  refine ⟨earlier, encounter, later, hsplit, ?_, hundecided⟩
  -- the value went through what comes back of the encounter, so a call or a variable is in the way
  cases Findings.halted_of_meet hends with
  | clash =>
      rcases hrecurs with hcall | ⟨other, hother⟩
      · exact .call hcall
      · exact (haccounts _ hother).elim
  | apart _ hsorts => exact .apart hsorts
  | unsure _ | rest _ => exact absurd rfl hdecided
  | @refused v part hadmits =>
      obtain ⟨result, hresult, hagain⟩ := hrecurs
      refine .refused hadmits (Classical.byContradiction fun hclosed => ?_)
      rw [not_or] at hclosed
      have hpart : part.PlainSubject := hsubject.encounters_ofPlain pattern _ hmem
      have hyes := (haccounts _ hagain).1
      rw [admits_of_instantiates hrepeat hpart hclosed.1 hclosed.2 hresult v, hadmits] at hyes
      cases hyes
  | @conflicting v part existing hadmits hget hdiffers hground =>
      have hfirst : earlier.findSome? (Encounter.boundTo? v) = some existing := by
        rw [← hget, Findings.get?_of_meetAll hearlier v]
        rfl
      have hexisting : .bind v existing ∈ pattern.encounters subject := by
        rw [hsplit]
        exact List.mem_append_left _ (Findings.mem_of_boundTo? hfirst)
      have hne : existing ≠ part := fun heq => hdiffers (heq ▸ Term.beq_refl _)
      refine .conflicting hadmits hfirst hne hground (Classical.byContradiction fun hcalls => ?_)
      apply hdiffers
      obtain ⟨hground, hground'⟩ := Bool.and_eq_true_iff.1 hground
      have hleft := hoverlay.equalTo_of_ground hrepeat hsubject hinstance hexisting hground
        fun inner hinner hcall => hcalls ⟨inner, List.mem_append_left _ hinner, hcall⟩
      have hright := hoverlay.equalTo_of_ground hrepeat hsubject hinstance hmem hground'
        fun inner hinner hcall => hcalls ⟨inner, List.mem_append_right _ hinner, hcall⟩
      exact Term.beq_trans (Term.beq_symm hleft) hright

end Values

end Machine

/-! A ground value that matches is an instance of the pattern. -/

namespace Term

theorem Meets.isGround_of_bind {pattern subject : Term} {encounter : Encounter}
    (hmeets : pattern.Meets subject encounter) : subject.isGround = true →
      ∀ v part, encounter = .bind v part → part.isGround = true := by
  induction hmeets with
  | bind v subject =>
      rintro hground _ _ ⟨⟩
      exact hground
  | unknown _ _ | clash _ _ => rintro _ _ _ ⟨⟩
  | app _ hpart _ ih => exact fun hground => ih (isGround_of_mem_children hground hpart)

theorem isGround_of_bind_mem {pattern value part : Term} {v : Variable}
    (hground : value.isGround = true) (hmem : .bind v part ∈ pattern.encounters value) :
    part.isGround = true :=
  (meets_of_mem_encounters hmem).isGround_of_bind hground v part rfl

theorem instance_of_bindings {allowed : Label → Prop} {ρ : Substitution} {pattern : Term}
    (hpattern : pattern.Plain allowed) :
    ∀ value : Term, value.isGround = true →
      (∀ v part, .bind v part ∈ pattern.encounters value →
        ((var v).instantiate ρ).EqualTo part) →
      (∀ part, .clash part ∉ pattern.encounters value) →
        (pattern.instantiate ρ).EqualTo value := by
  induction hpattern with
  | var v _ =>
      intro value _ hbind _
      apply hbind v value
      rw [encounters, List.mem_singleton]
  | token sort token =>
      intro value hground hbind hclash
      cases value with
      | var _ => cases hground
      | token sort' token' =>
          by_cases hsame : sort = sort' ∧ token = token'
          · obtain ⟨rfl, rfl⟩ := hsame
            exact beq_refl _
          · refine absurd ?_ (hclash (.token sort' token'))
            rw [encounters, if_neg hsame, List.mem_singleton]
      | app _ _ | sequence _ _ | collection _ _ =>
          exact absurd (List.mem_singleton.2 rfl) (hclash _)
  | app label args _ _ ih =>
      intro value hground hbind hclash
      cases value with
      | var _ => cases hground
      | app label' values =>
          by_cases hsame : label = label' ∧ args.length = values.length
          · obtain ⟨rfl, hlength⟩ := hsame
            rw [encounters, if_pos ⟨rfl, hlength⟩] at hbind hclash
            apply equal_instantiate_app hlength
            intro arg result hpair
            obtain ⟨harg, hresult⟩ := List.of_mem_zip hpair
            have hwithin : ∀ encounter ∈ arg.encounters result,
                encounter ∈ encountersAll args values :=
              fun encounter hmem => mem_encountersAll_iff.2 ⟨arg, result, hpair, hmem⟩
            exact ih arg harg result (isGround_of_mem_children hground hresult)
              (fun v part hmem => hbind v part (hwithin _ hmem))
              (fun part hmem => hclash part (hwithin _ hmem))
          · refine absurd ?_ (hclash (.app label' values))
            rw [encounters, if_neg hsame, List.mem_singleton]
      | token _ _ | sequence _ _ | collection _ _ =>
          exact absurd (List.mem_singleton.2 rfl) (hclash _)

end Term

theorem Findings.instance_of_ground {definition : Definition} {allowed : Label → Prop}
    {pattern value : Term} (hpattern : pattern.Plain allowed) (hground : value.isGround = true)
    {findings : Findings}
    (hmeets : Findings.meetAll definition {} (pattern.encounters value) = .ok findings) :
    (pattern.instantiate findings.subst).EqualTo value := by
  have haccounts := (accounts_of_meetAll (hpattern.encounters_onPlain value) hmeets).1
  refine Term.instance_of_bindings hpattern value hground ?_ fun part hmem => haccounts _ hmem
  intro v part hmem
  obtain ⟨-, existing, hget, hequal⟩ := haccounts _ hmem
  have hinstance : (Term.var v).instantiate findings.subst = existing := by
    rw [Term.instantiate, hget]
    rfl
  rw [hinstance]
  rcases hequal with hequal | ⟨hnot, -⟩
  · exact hequal
  · have hfirst := get?_of_meetAll hmeets v
    rw [hget] at hfirst
    have hexisting := Term.isGround_of_bind_mem hground (mem_of_boundTo? hfirst.symm)
    have hpart := Term.isGround_of_bind_mem hground hmem
    rw [hexisting, hpart] at hnot
    exact absurd rfl hnot

/-! Equations that hold make the value an instance of the pattern. -/

theorem Term.Plain.applySubst {allowed : Label → Prop} {term : Term} (hterm : term.Plain allowed)
    {subst : Substitution}
    (hsubst : ∀ v part, subst.get? v = some part → part.PlainSubject) :
    (term.applySubst subst).PlainSubject := by
  induction hterm with
  | token sort token =>
      rw [Term.applySubst_token]
      exact .token sort token
  | var v hkind =>
      rw [Term.applySubst_var]
      cases hget : subst.get? v with
      | none => exact .var v hkind
      | some part => exact hsubst v part hget
  | app label args _ _ ih =>
      rw [Term.applySubst_app]
      refine .app label _ True.intro fun arg hmem => ?_
      obtain ⟨inner, hinner, rfl⟩ := List.mem_map.1 hmem
      exact ih inner hinner

/-- Every bound term can be replaced by something that the relation assigns to it. -/
theorem Substitution.exists_related (subst : Substitution) (related : Term → Term → Prop)
    (htotal : ∀ v part, subst.get? v = some part → ∃ value, related part value) :
    ∃ ρ : Substitution, ∀ v part, subst.get? v = some part →
      ∃ value, ρ.get? v = some value ∧ related part value := by
  have hchoice : ∀ part : Term, ∃ value, (∃ other, related part other) → related part value := by
    intro part
    by_cases hexists : ∃ other, related part other
    · obtain ⟨other, hother⟩ := hexists
      exact ⟨other, fun _ => hother⟩
    · exact ⟨part, fun hother => absurd hother hexists⟩
  choose valueOf hvalueOf using hchoice
  refine ⟨{ bindings := subst.bindings.map fun binding => (binding.1, valueOf binding.2) },
    fun v part hget => ⟨valueOf part, ?_, hvalueOf part (htotal v part hget)⟩⟩
  unfold Substitution.get? at hget ⊢
  rw [List.find?_map, Option.map_map]
  obtain ⟨binding, hfind, rfl⟩ := Option.map_eq_some_iff.1 hget
  exact Option.map_eq_some_iff.2 ⟨binding, hfind, rfl⟩

namespace Machine

variable {machine : Machine σ} {θ ρ : Substitution}

theorem exists_values_of_contains {path : PathCondition} {left right : Term}
    (hleft : left.PlainSubject) (hright : right.PlainSubject)
    (hcontains : path.contains (.equal left right) = true)
    (hholds : ∀ equation ∈ path.conjuncts, machine.HoldsUnder θ equation) :
    ∃ leftValue rightValue, machine.Instantiates θ left leftValue ∧
      machine.Instantiates θ right rightValue ∧ leftValue.EqualTo rightValue := by
  obtain ⟨equation, hmem, hequal⟩ := List.any_eq_true.1 hcontains
  have hplain : (Term.equal left right).PlainSubject := by
    refine .app _ _ True.intro ?_
    rw [List.forall_mem_cons, List.forall_mem_singleton]
    exact ⟨hleft, hright⟩
  obtain rfl := Term.eq_of_equalTo_plain hplain equation hequal
  obtain ⟨left', right', leftValue, rightValue, heq, hleftValue, hrightValue, hsame⟩ :=
    hholds _ hmem
  cases heq
  exact ⟨leftValue, rightValue, hleftValue, hrightValue, hsame⟩

/-- The parts that variables are bound to have values, and a substitution that gives them. -/
theorem Overlay.exists_fits {pattern subject value : Term}
    (hoverlay : machine.Overlay θ pattern subject value) {findings : Findings}
    (hbound : ∀ v part, findings.subst.get? v = some part →
      .bind v part ∈ pattern.encounters subject) :
    ∃ ρ, ∀ v part, findings.subst.get? v = some part → machine.Fits θ ρ (.var v) part := by
  have htotal : ∀ v part, findings.subst.get? v = some part →
      ∃ result, machine.Instantiates θ part result := by
    intro v part hget
    obtain ⟨result, hresult, -⟩ := hoverlay.recurs _ (hbound v part hget)
    exact ⟨result, hresult⟩
  obtain ⟨ρ, hρ⟩ := findings.subst.exists_related (machine.Instantiates θ) htotal
  refine ⟨ρ, fun v part hget => ?_⟩
  obtain ⟨result, hresult, hinstance⟩ := hρ v part hget
  refine ⟨result, hinstance, ?_⟩
  rw [Term.instantiate, hresult]
  exact result.beq_refl

section Equations

variable [Nonempty σ] (hrepeat : machine.definition.Repeatable)
include hrepeat

/-- If the equations of a match hold, then the value is an instance of the pattern. -/
theorem Overlay.exists_instance_of_equations {pattern subject value : Term}
    (hoverlay : machine.Overlay θ pattern subject value)
    (hpattern : machine.definition.PlainPattern pattern) (hsubject : subject.PlainSubject)
    {findings : Findings}
    (hmeets : Findings.meetAll machine.definition {} (pattern.encounters subject) = .ok findings)
    {settled : PathCondition}
    (hsettle : findings.subst.settle findings.constraints findings.deferred = some settled)
    (hholds : ∀ equation ∈ settled.conjuncts, machine.HoldsUnder θ equation) :
    ∃ ρ, (pattern.instantiate ρ).EqualTo value := by
  have hplain := hsubject.encounters_ofPlain pattern
  have haccounts := (Findings.accounts_of_meetAll (hpattern.encounters_onPlain subject) hmeets).1
  obtain ⟨hkeeps, hadds⟩ := Substitution.contains_of_settle hsettle
  have hbind : ∀ v part, findings.subst.get? v = some part →
      .bind v part ∈ pattern.encounters subject := by
    intro v part hget
    have hfirst := Findings.get?_of_meetAll hmeets v
    rw [hget] at hfirst
    exact Findings.mem_of_boundTo? hfirst.symm
  obtain ⟨ρ, hfits⟩ := hoverlay.exists_fits hbind
  refine ⟨ρ, hoverlay.instance_of_holds fun encounter hmem => ?_⟩
  cases encounter with
  | bind v part =>
      obtain ⟨-, existing, hget, hequal⟩ := haccounts _ hmem
      obtain ⟨result, hresult, hgiven⟩ := hfits v existing hget
      have hpart : part.PlainSubject := hplain _ hmem
      rcases hequal with hequal | ⟨-, hcontains⟩
      · obtain rfl := Term.eq_of_equalTo_plain hpart existing hequal
        exact ⟨result, hresult, hgiven⟩
      · have hexisting : existing.PlainSubject := hplain _ (hbind v existing hget)
        obtain ⟨left, right, hleft, hright, hsame⟩ :=
          exists_values_of_contains hexisting hpart (hkeeps _ hcontains) hholds
        have hleft' := hgiven.congr rfl (hresult.unique hleft)
        exact ⟨right, hright, Term.beq_trans hleft' hsame⟩
  | unknown inner v =>
      have hinner : machine.definition.PlainPattern inner :=
        hpattern.encounters_onPlain subject _ hmem
      have hequation : findings.subst.Covers inner ∧
          settled.contains (.equal (.var v) (inner.applySubst findings.subst)) = true := by
        rcases haccounts _ hmem with hdeferred | ⟨hcovers, hcontains⟩
        · exact hadds inner (.var v) hdeferred
        · exact ⟨hcovers, hkeeps _ hcontains⟩
      have hunknown : (Term.var v).PlainSubject := .var v (hplain _ hmem)
      have happlied : (inner.applySubst findings.subst).PlainSubject :=
        hinner.applySubst fun w part hget => hplain _ (hbind w part hget)
      obtain ⟨left, right, hleft, hright, hsame⟩ :=
        exists_values_of_contains hunknown happlied hequation.2 hholds
      obtain ⟨result, hresult, hgiven⟩ := fits_applySubst hrepeat hinner fun w hw => by
        obtain ⟨part, hget⟩ := Option.isSome_iff_exists.1 (hequation.1 w hw)
        exact ⟨part, hget, hfits w part hget⟩
      have hright' := hgiven.congr rfl (hresult.unique hright)
      exact ⟨left, hleft, Term.beq_trans hright' (Term.beq_symm hsame)⟩
  | clash part => exact haccounts _ hmem

/-- If the value is an instance of the pattern, then the equations of a match hold. -/
theorem Overlay.holdsUnder_of_instance {pattern subject value : Term}
    (hoverlay : machine.Overlay θ pattern subject value)
    (hpattern : machine.definition.PlainPattern pattern) {findings : Findings}
    (hmeets : Findings.meetAll machine.definition {} (pattern.encounters subject) = .ok findings)
    {settled : PathCondition}
    (hsettle : findings.subst.settle findings.constraints findings.deferred = some settled)
    (hinstance : (pattern.instantiate ρ).EqualTo value) :
    ∀ equation ∈ settled.conjuncts, machine.HoldsUnder θ equation := by
  have haccounts := (Findings.accounts_of_meetAll (hpattern.encounters_onPlain subject) hmeets).1
  have hholds : ∀ encounter ∈ pattern.encounters subject, machine.Holds θ ρ encounter := by
    intro encounter hmem
    rcases hoverlay.holds_of_instance hinstance encounter hmem with hholds | ⟨part, rfl, -⟩
    · exact hholds
    · exact (haccounts _ hmem).elim
  have hstart : machine.SoundFindings θ ρ {} :=
    ⟨fun _ _ hget => (by cases hget), fun _ _ hmem => (List.not_mem_nil hmem).elim,
      fun _ hmem => (List.not_mem_nil hmem).elim⟩
  have hsound := hstart.meetAll hrepeat (hpattern.encounters_onPlain subject) hholds hmeets
  apply Substitution.forall_mem_of_settle hsettle hsound.constraints
  intro inner part hdeferred hcovers
  obtain ⟨hinner, hfits⟩ := hsound.deferred inner part hdeferred
  exact hsound.constrained hrepeat hinner hfits hcovers

end Equations

theorem exists_instance_of_found {definition : Definition} {allowed : Label → Prop}
    {pattern value : Term} (hpattern : pattern.Plain allowed)
    (hfound : (definition.matchPattern pattern value).found ≠ #[]) :
    ∃ findings, Findings.meetAll definition {} (pattern.encounters value) = .ok findings ∧
      (value.isGround = true → (pattern.instantiate findings.subst).EqualTo value) := by
  cases definition.outcome_matchPattern hpattern value with
  | ended _ _ hnone _ | undecided _ hnone _ => exact absurd hnone hfound
  | matched findings _ hmeets _ _ _ =>
      exact ⟨findings, hmeets, fun hground => Findings.instance_of_ground hpattern hground hmeets⟩

/-- When the value of an instance of the subject matches a pattern, the match with the subject itself is
undecided or has equations that hold of the instance, exactly if it overlooks nothing and, should the
value not be ground, the value is an instance of the pattern. -/
theorem matchPattern_allows_iff (hfresh : machine.definition.WithoutFresh)
    (hhooks : machine.definition.EveryHook Hook.IgnoresIds) {pattern subject : Term}
    (hpattern : machine.definition.PlainPattern pattern) (hsubject : subject.PlainSubject)
    {value : Term} {start next : RunState σ}
    (hrun : machine.evaluate (subject.applySubst θ) start = .ok value next)
    (hfound : (machine.definition.matchPattern pattern value).found ≠ #[]) :
    (0 < (machine.definition.matchPattern pattern subject).undecided ∨
        ∃ found ∈ (machine.definition.matchPattern pattern subject).found,
          ∀ equation ∈ found.constraints.conjuncts, machine.HoldsUnder θ equation) ↔
      ¬machine.definition.Overlooks pattern subject ∧
        (value.isGround = true ∨ 0 < (machine.definition.matchPattern pattern subject).undecided ∨
          ∃ ρ, (pattern.instantiate ρ == value) = true) := by
  have hrepeat : machine.definition.Repeatable := ⟨hfresh, hhooks⟩
  have hnonempty : Nonempty σ := ⟨start.environment⟩
  have hvalue : machine.Instantiates θ subject value := builds_of_run hrepeat hrun
  have hoverlay := overlay hrepeat hpattern subject value hsubject hvalue
  obtain ⟨reached, hreached, hground⟩ := exists_instance_of_found hpattern hfound
  have hinstance : value.isGround = true ∨ (∃ ρ, (pattern.instantiate ρ == value) = true) →
      ∃ ρ, (pattern.instantiate ρ).EqualTo value := by
    rintro (hvalueGround | hinstance)
    · exact ⟨reached.subst, hground hvalueGround⟩
    · exact hinstance
  cases machine.definition.outcome_matchPattern hpattern subject with
  | ended hdecided hhalts hnone hzero =>
      rw [hnone, hzero]
      refine iff_of_false ?_ ?_
      · rintro (hpositive | ⟨found, hmem, -⟩)
        · exact Nat.lt_irrefl 0 hpositive
        · exact Array.not_mem_empty found hmem
      · rintro ⟨hsees, hvalues⟩
        have hmatches := hvalues.imp_right fun hrest => hrest.resolve_left (Nat.lt_irrefl 0)
        obtain ⟨ρ, hρ⟩ := hinstance hmatches
        exact hsees (hoverlay.overlooks_of_halts hrepeat hpattern hsubject hreached hρ hhalts hdecided)
  | undecided hopen _ hpositive =>
      refine iff_of_true (.inl hpositive) ⟨fun hoverlooks => ?_, .inr (.inl hpositive)⟩
      obtain ⟨halt, hhalts, hne⟩ := Findings.halts_of_overlooks hsubject hoverlooks
      exact hne (hopen halt hhalts)
  | matched findings settled hmeets hsettle hfound hzero =>
      rw [hfound, hzero]
      constructor
      · rintro (hpositive | ⟨found, hmem, hholds⟩)
        · exact absurd hpositive (Nat.lt_irrefl 0)
        · obtain rfl := List.mem_singleton.1 (Array.mem_toList_iff.2 hmem)
          refine ⟨fun hoverlooks => ?_, .inr (.inr ?_)⟩
          · obtain ⟨halt, hhalts, -⟩ := Findings.halts_of_overlooks hsubject hoverlooks
            rw [hmeets] at hhalts
            cases hhalts
          · exact hoverlay.exists_instance_of_equations hrepeat hpattern hsubject hmeets hsettle hholds
      · rintro ⟨-, hvalues⟩
        have hmatches := hvalues.imp_right fun hrest => hrest.resolve_left (Nat.lt_irrefl 0)
        obtain ⟨ρ, hρ⟩ := hinstance hmatches
        exact .inr ⟨_, Array.mem_singleton.2 rfl,
          hoverlay.holdsUnder_of_instance hrepeat hpattern hmeets hsettle hρ⟩

/-- A function that is zero for one, and is not known for an unknown integer. -/
def zeroing : Machine Unit where
  definition := .assemble
    [.symbol ⟨"g", 1, Symbol.int, .function none⟩,
      .rule { lhs := .app "g" [.int 1], rhs := .int 0 }]
  oracle := DecisionProcedure.syntactic.toOracle Unit

def argument : Variable := ⟨"Y", Symbol.int, .plain⟩

def argumentIsOne : Substitution := { bindings := [(argument, .int 1)] }

theorem withoutFresh_zeroing : zeroing.definition.WithoutFresh := by
  unfold Definition.WithoutFresh
  decide +kernel

theorem ignoresIds_zeroing : zeroing.definition.EveryHook Hook.IgnoresIds :=
  (Definition.onlyBuiltins_assemble [] rfl).everyHook Builtin.ignoresIds

theorem plainPattern_zero : zeroing.definition.PlainPattern (.int 0) := .token _ _

theorem plainSubject_call : (Term.app "g" [.var argument]).PlainSubject := by
  refine .app _ _ True.intro ?_
  rw [List.forall_mem_singleton]
  exact .var argument rfl

theorem exists_match_of_value :
    ∃ value next, zeroing.evaluate ((Term.app "g" [.var argument]).applySubst argumentIsOne)
        { environment := () } = .ok value next ∧
      (zeroing.definition.matchPattern (.int 0) value).found ≠ #[] := by
  have hsucceeds : (zeroing.evaluate ((Term.app "g" [.var argument]).applySubst
      argumentIsOne)).succeedsWith { environment := () } (fun value =>
        !(zeroing.definition.matchPattern (.int 0) value).found.isEmpty) = true := by
    decide +kernel
  obtain ⟨value, next, hrun, htest⟩ := Run.exists_of_succeedsWith hsucceeds
  refine ⟨value, next, hrun, fun hempty => ?_⟩
  rw [hempty] at htest
  cases htest

theorem matchPattern_allows_iff_zeroing :
    zeroing.definition.WithoutFresh ∧ zeroing.definition.PlainPattern (.int 0) ∧
      (Term.app "g" [.var argument]).PlainSubject ∧
      (∃ value next, zeroing.evaluate ((Term.app "g" [.var argument]).applySubst argumentIsOne)
          { environment := () } = .ok value next ∧
        (zeroing.definition.matchPattern (.int 0) value).found ≠ #[]) ∧
      zeroing.definition.Overlooks (.int 0) (.app "g" [.var argument]) ∧
      (zeroing.definition.matchPattern (.int 0) (.app "g" [.var argument])).undecided = 0 := by
  have hoverlooks : zeroing.definition.Overlooks (.int 0) (.app "g" [.var argument]) :=
    ⟨[], .clash (.app "g" [.var argument]), [], rfl,
      .call ⟨"g", [.var argument], rfl, by decide +kernel⟩, fun _ _ hmem => (List.not_mem_nil hmem).elim⟩
  obtain ⟨value, next, hrun, hfound⟩ := exists_match_of_value
  have hiff := matchPattern_allows_iff withoutFresh_zeroing ignoresIds_zeroing plainPattern_zero
    plainSubject_call hrun hfound
  have hfails := fun hallows => (hiff.1 hallows).1 hoverlooks
  exact ⟨withoutFresh_zeroing, plainPattern_zero, plainSubject_call, ⟨value, next, hrun, hfound⟩,
    hoverlooks, Nat.eq_zero_of_not_pos fun hpositive => hfails (.inl hpositive)⟩

/-- A literal does not match a call, although it matches the value of an instance of the call. -/
theorem not_allows_zeroing :
    zeroing.definition.WithoutFresh ∧ zeroing.definition.PlainPattern (.int 0) ∧
      (Term.app "g" [.var argument]).PlainSubject ∧
      (∀ binding ∈ argumentIsOne.bindings, binding.2.isGround = true ∧
        zeroing.definition.admits binding.1 binding.2 = .yes) ∧
      (∃ value next, zeroing.evaluate ((Term.app "g" [.var argument]).applySubst argumentIsOne)
          { environment := () } = .ok value next ∧
        (zeroing.definition.matchPattern (.int 0) value).found ≠ #[]) ∧
      ¬(0 < (zeroing.definition.matchPattern (.int 0) (.app "g" [.var argument])).undecided ∨
        ∃ found ∈ (zeroing.definition.matchPattern (.int 0) (.app "g" [.var argument])).found,
          ∀ equation ∈ found.constraints.conjuncts,
            zeroing.HoldsUnder argumentIsOne equation) := by
  refine ⟨withoutFresh_zeroing, plainPattern_zero, plainSubject_call, by decide +kernel,
    exists_match_of_value, ?_⟩
  have hundecided : (zeroing.definition.matchPattern (.int 0)
      (.app "g" [.var argument])).undecided = 0 := by
    decide +kernel
  have hnone : (zeroing.definition.matchPattern (.int 0)
      (.app "g" [.var argument])).found.isEmpty = true := by
    decide +kernel
  rintro (hpositive | ⟨found, hmem, -⟩)
  · rw [hundecided] at hpositive
    exact Nat.lt_irrefl 0 hpositive
  · rw [Array.isEmpty_iff.1 hnone] at hmem
    exact Array.not_mem_empty found hmem

end Machine

end SymbolicRewriting
