import SymbolicRewriting.Matching.Pattern
import SymbolicRewriting.Proofs.MatchingIdentities

/-!
Matching without sequences and collections. Such a match never branches: the pattern is laid over the
subject, and what comes to lie on what is dealt with from left to right.
-/

namespace SymbolicRewriting

/-- Terms of tokens, plain variables and applications of the labels that are allowed. -/
inductive Term.Plain (allowed : Label → Prop) : Term → Prop
  | token (sort : SortName) (value : String) : Plain allowed (.token sort value)
  | var (v : Variable) (hkind : v.kind = .plain) : Plain allowed (.var v)
  | app (label : Label) (args : List Term) (hlabel : allowed label)
      (hargs : ∀ arg ∈ args, Plain allowed arg) : Plain allowed (.app label args)

/-- A pattern variable that lies on a part of the subject, another pattern that lies on a variable of
the subject, or a pattern and a part of the subject that differ at the root. -/
inductive Encounter where
  | bind (v : Variable) (subject : Term)
  | unknown (pattern : Term) (v : Variable)
  | clash (subject : Term)

namespace Term

mutual

/-- What comes to lie on what, if the pattern is laid over the subject. -/
def encounters (pattern subject : Term) : List Encounter :=
  match pattern, subject with
  | var v, _ => [.bind v subject]
  | _, var v => [.unknown pattern v]
  | token sort value, token sort' value' =>
      if sort = sort' ∧ value = value' then [] else [.clash subject]
  | app label args, app label' args' =>
      if label = label' ∧ args.length = args'.length then encountersAll args args'
      else [.clash subject]
  | _, _ => [.clash subject]

def encountersAll (patterns subjects : List Term) : List Encounter :=
  match patterns, subjects with
  | pattern :: patterns, subject :: subjects =>
      encounters pattern subject ++ encountersAll patterns subjects
  | _, _ => []

end

theorem mem_encountersAll_iff {encounter : Encounter} {patterns subjects : List Term} :
    encounter ∈ encountersAll patterns subjects ↔
      ∃ pattern subject, (pattern, subject) ∈ patterns.zip subjects ∧
        encounter ∈ pattern.encounters subject := by
  induction patterns generalizing subjects with
  | nil => simp [encountersAll]
  | cons pattern patterns ih =>
      cases subjects with
      | nil => simp [encountersAll]
      | cons subject subjects =>
          rw [encountersAll, List.mem_append, ih, List.zip_cons_cons]
          constructor
          · rintro (hfirst | ⟨other, part, hmem, hlater⟩)
            · exact ⟨pattern, subject, List.mem_cons_self, hfirst⟩
            · exact ⟨other, part, List.mem_cons_of_mem _ hmem, hlater⟩
          · rintro ⟨other, part, hmem, hencounter⟩
            rcases List.mem_cons.1 hmem with heq | hlater
            · cases heq
              exact .inl hencounter
            · exact .inr ⟨other, part, hlater, hencounter⟩

inductive Meets : Term → Term → Encounter → Prop
  | bind (v : Variable) (subject : Term) : Meets (.var v) subject (.bind v subject)
  | unknown (pattern : Term) (v : Variable) : Meets pattern (.var v) (.unknown pattern v)
  | clash (pattern subject : Term) : Meets pattern subject (.clash subject)
  | app {label label' : Label} {args subjects : List Term} {arg part : Term} {encounter : Encounter}
      (harg : arg ∈ args) (hpart : part ∈ subjects) (hmeets : Meets arg part encounter) :
      Meets (.app label args) (.app label' subjects) encounter

theorem meets_of_mem_encounters {pattern subject : Term} {encounter : Encounter}
    (hmem : encounter ∈ pattern.encounters subject) : pattern.Meets subject encounter := by
  induction pattern using nestedInduction generalizing subject with
  | var v =>
      rw [encounters, List.mem_singleton] at hmem
      exact hmem ▸ .bind v subject
  | token sort value =>
      cases subject with
      | var v => exact List.mem_singleton.1 hmem ▸ .unknown _ v
      | token sort' value' =>
          rw [encounters] at hmem
          split at hmem
          · cases hmem
          · exact List.mem_singleton.1 hmem ▸ .clash _ _
      | app _ _ | sequence _ _ | collection _ _ => exact List.mem_singleton.1 hmem ▸ .clash _ _
  | app label args ih =>
      cases subject with
      | var v => exact List.mem_singleton.1 hmem ▸ .unknown _ v
      | app label' subjects =>
          rw [encounters] at hmem
          split at hmem
          · obtain ⟨arg, part, hpair, hencounter⟩ := mem_encountersAll_iff.1 hmem
            have harg := (List.of_mem_zip hpair).1
            exact .app harg (List.of_mem_zip hpair).2 (ih arg harg hencounter)
          · exact List.mem_singleton.1 hmem ▸ .clash _ _
      | token _ _ | sequence _ _ | collection _ _ => exact List.mem_singleton.1 hmem ▸ .clash _ _
  | sequence _ _ _ | collection _ _ _ =>
      cases subject with
      | var v => exact List.mem_singleton.1 hmem ▸ .unknown _ v
      | token _ _ | app _ _ | sequence _ _ | collection _ _ =>
          exact List.mem_singleton.1 hmem ▸ .clash _ _

end Term

inductive Halt where
  | failed
  | conflicting
  | undecided

def PatternMatches.halt (results : PatternMatches) : Halt → PatternMatches
  | .failed => results
  | .conflicting => results.countConflict
  | .undecided => results.countUndecided

structure Findings where
  subst : Substitution := {}
  deferred : List (Term × Term) := []
  constraints : PathCondition := {}

namespace Findings

def branch (findings : Findings) (pending : List Obligation) : Branch :=
  { findings with pending }

def meet (definition : Definition) (findings : Findings) : Encounter → Except Halt Findings
  | .bind v subject =>
      match definition.admits v subject with
      | .no => .error .failed
      | .maybe => .error .undecided
      | .yes =>
          match findings.subst.get? v with
          | none => .ok { findings with subst := findings.subst.push v subject }
          | some existing =>
              if existing == subject then .ok findings
              else if existing.isGround && subject.isGround then .error .conflicting
              else
                .ok { findings with
                  constraints := findings.constraints.assume (.equal existing subject) }
  | .unknown pattern v =>
      if v.isRest then .error .undecided
      else if !definition.sortsOverlap pattern v then .error .failed
      else
        match findings.subst.constrain? findings.constraints pattern (.var v) with
        | some constraints => .ok { findings with constraints }
        | none => .ok { findings with deferred := findings.deferred ++ [(pattern, .var v)] }
  | .clash _ => .error .failed

def progress (pending : List Obligation) : Except Halt Findings → Progress
  | .ok next => (next.branch pending).goOn
  | .error .failed => .failed
  | .error .conflicting => .conflicting
  | .error .undecided => .undecided

theorem bind_branch (definition : Definition) (findings : Findings) (pending : List Obligation)
    (v : Variable) (subject : Term) :
    (findings.branch pending).bind definition v subject =
      progress pending (findings.meet definition (.bind v subject)) := by
  unfold meet
  dsimp only
  cases hadmits : definition.admits v subject with
  | no =>
      rw [Branch.bind, hadmits]
      rfl
  | maybe =>
      rw [Branch.bind, hadmits]
      rfl
  | yes =>
      rw [Branch.bind_of_admits hadmits]
      unfold branch
      dsimp only
      cases findings.subst.get? v with
      | none => rfl
      | some existing =>
          dsimp only
          split
          · rfl
          · split <;> rfl

theorem meetUnknown_branch (definition : Definition) (findings : Findings)
    (pending : List Obligation) (pattern : Term) (v : Variable) :
    (findings.branch pending).meetUnknown definition pattern v =
      progress pending (findings.meet definition (.unknown pattern v)) := by
  unfold Branch.meetUnknown meet branch
  dsimp only
  split
  · rfl
  · split
    · rfl
    · cases findings.subst.constrain? findings.constraints pattern (.var v) <;> rfl

def meetAll (definition : Definition) (findings : Findings) (encounters : List Encounter) :
    Except Halt Findings :=
  encounters.foldlM (meet definition) findings

end Findings

section Exploring

variable {definition : Definition}

/-- The exploration goes on with what the first branch has come to. -/
def exploreFrom (definition : Definition) (pending : List Obligation) (results : PatternMatches) :
    Except Halt Findings → PatternMatches
  | .ok findings => explore definition [findings.branch pending] results
  | .error halt => results.halt halt

theorem explore_of_progress {branch : Branch} {pending : List Obligation}
    {outcome : Except Halt Findings} (results : PatternMatches)
    (hadvance : branch.advance definition = Findings.progress pending outcome) :
    explore definition [branch] results = exploreFrom definition pending results outcome := by
  cases outcome with
  | ok next =>
      rw [explore_of_branches _ _ hadvance, List.append_nil]
      rfl
  | error halt =>
      cases halt with
      | failed =>
          rw [explore_of_failed _ _ hadvance, explore]
          rfl
      | conflicting =>
          rw [explore_of_conflicting _ _ hadvance, explore]
          rfl
      | undecided =>
          rw [explore_of_undecided _ _ hadvance, explore]
          rfl

theorem explore_terms {patterns : List Term}
    (hpatterns : ∀ pattern ∈ patterns, ∀ findings subject pending results,
      explore definition [Findings.branch findings (.term pattern subject :: pending)] results =
        exploreFrom definition pending results
          (findings.meetAll definition (pattern.encounters subject)))
    (findings : Findings) (subjects : List Term) (pending : List Obligation)
    (results : PatternMatches) :
    explore definition
        [findings.branch (List.zipWith Obligation.term patterns subjects ++ pending)] results =
      exploreFrom definition pending results
        (findings.meetAll definition (Term.encountersAll patterns subjects)) := by
  induction patterns generalizing findings subjects with
  | nil => rfl
  | cons pattern patterns ih =>
      obtain ⟨hfirst, hothers⟩ := List.forall_mem_cons.1 hpatterns
      cases subjects with
      | nil => rfl
      | cons subject subjects =>
          rw [List.zipWith_cons_cons, List.cons_append, hfirst, Term.encountersAll,
            Findings.meetAll, Findings.meetAll, List.foldlM_append]
          cases List.foldlM (Findings.meet definition) findings (pattern.encounters subject) with
          | ok next => exact ih hothers next subjects
          | error halt => rfl

theorem explore_single {findings : Findings} {pattern subject : Term} {pending : List Obligation}
    {encounter : Encounter} (results : PatternMatches)
    (hencounters : pattern.encounters subject = [encounter])
    (hadvance : (findings.branch pending).advanceTerm definition pattern subject =
      Findings.progress pending (findings.meet definition encounter)) :
    explore definition [findings.branch (.term pattern subject :: pending)] results =
      exploreFrom definition pending results
        (findings.meetAll definition (pattern.encounters subject)) := by
  have hbranch : (findings.branch (.term pattern subject :: pending)).advance definition =
      (findings.branch pending).advanceTerm definition pattern subject := rfl
  rw [explore_of_progress results (hbranch.trans hadvance), hencounters, Findings.meetAll,
    List.foldlM_cons]
  cases findings.meet definition encounter <;> rfl

/-- Exploring a branch deals with the encounters of its next obligation. -/
theorem explore_term {allowed : Label → Prop} {pattern : Term} (hpattern : pattern.Plain allowed) :
    ∀ findings subject pending results,
      explore definition [Findings.branch findings (.term pattern subject :: pending)] results =
        exploreFrom definition pending results
          (findings.meetAll definition (pattern.encounters subject)) := by
  induction hpattern with
  | var v _ =>
      intro findings subject pending results
      exact explore_single results (by rw [Term.encounters])
        (findings.bind_branch definition pending v subject)
  | token sort value =>
      intro findings subject pending results
      cases subject with
      | var v =>
          exact explore_single results rfl (findings.meetUnknown_branch definition pending _ v)
      | token sort' value' =>
          by_cases hsame : sort = sort' ∧ value = value'
          · have hadvance : (findings.branch (.term (.token sort value) (.token sort' value') ::
                pending)).advance definition = .branches [findings.branch pending] := if_pos hsame
            rw [explore_of_branches _ _ hadvance, Term.encounters, if_pos hsame]
            rfl
          · exact explore_single results (by rw [Term.encounters, if_neg hsame])
              (by rw [Branch.advanceTerm, if_neg hsame]; rfl)
      | app _ _ | sequence _ _ | collection _ _ => exact explore_single results rfl rfl
  | app label args _ _ ih =>
      intro findings subject pending results
      cases subject with
      | var v =>
          exact explore_single results rfl (findings.meetUnknown_branch definition pending _ v)
      | app label' args' =>
          by_cases hsame : label = label' ∧ args.length = args'.length
          · have hadvance : (findings.branch (.term (.app label args) (.app label' args') ::
                pending)).advance definition =
                  .branches [findings.branch (List.zipWith .term args args' ++ pending)] :=
              if_pos hsame
            rw [explore_of_branches _ _ hadvance, Term.encounters, if_pos hsame]
            exact explore_terms ih findings args' pending results
          · exact explore_single results (by rw [Term.encounters, if_neg hsame])
              (by rw [Branch.advanceTerm, if_neg hsame]; rfl)
      | token _ _ | sequence _ _ | collection _ _ => exact explore_single results rfl rfl

end Exploring

/-- A branch that has come to its end has settled what it has deferred, or it is undecided. -/
def Findings.complete (findings : Findings) : Except Halt StructuralMatch :=
  match findings.subst.settle findings.constraints findings.deferred with
  | some constraints => .ok ⟨findings.subst, constraints⟩
  | none => .error .undecided

def PatternMatches.add (results : PatternMatches) : Except Halt StructuralMatch → PatternMatches
  | .ok found => { results with found := results.found.push found }
  | .error halt => results.halt halt

theorem explore_complete (definition : Definition) (findings : Findings)
    (results : PatternMatches) :
    explore definition [findings.branch []] results = results.add findings.complete := by
  obtain ⟨subst, deferred, constraints⟩ := findings
  have haccepted : ∀ constraints, explore definition
      [Findings.branch { subst, deferred := [], constraints } []] results =
        results.add (.ok ⟨subst, constraints⟩) := by
    intro constraints
    rw [explore_of_accepted _ _ rfl, explore]
    rfl
  unfold Findings.complete
  cases deferred with
  | nil => exact haccepted constraints
  | cons first deferred =>
      have hadvance : (Findings.branch { subst, deferred := first :: deferred, constraints }
          []).advance definition =
          match subst.settle constraints (first :: deferred) with
          | some settled =>
              .branches [Findings.branch { subst, deferred := [], constraints := settled } []]
          | none => .undecided := rfl
      dsimp only
      cases hsettle : subst.settle constraints (first :: deferred) with
      | none =>
          rw [hsettle] at hadvance
          rw [explore_of_undecided _ _ hadvance, explore]
          rfl
      | some settled =>
          rw [hsettle] at hadvance
          rw [explore_of_branches _ _ hadvance, List.append_nil]
          exact haccepted settled

def Findings.matches (findings : Findings) : PatternMatches :=
  match findings.subst.settle findings.constraints findings.deferred with
  | some constraints => { found := #[⟨findings.subst, constraints⟩] }
  | none => { undecided := 1 }

theorem explore_finished (definition : Definition) (findings : Findings) :
    explore definition [findings.branch []] {} = findings.matches := by
  rw [explore_complete, Findings.matches, Findings.complete]
  cases findings.subst.settle findings.constraints findings.deferred <;> rfl

/-- How a pattern matches is found out by dealing with the encounters one after another. -/
theorem Definition.matchPattern_eq {allowed : Label → Prop} {pattern : Term}
    (hpattern : pattern.Plain allowed) (definition : Definition) (subject : Term) :
    definition.matchPattern pattern subject =
      match Findings.meetAll definition {} (pattern.encounters subject) with
      | .ok findings => findings.matches
      | .error halt => ({} : PatternMatches).halt halt := by
  refine (explore_term hpattern {} subject [] {}).trans ?_
  cases Findings.meetAll definition {} (pattern.encounters subject) with
  | ok findings => exact explore_finished definition findings
  | error halt => rfl

/-- How a match of plain terms comes out: it ends for good, it is undecided, or it has one result. -/
inductive PatternMatches.Outcome (definition : Definition) (pattern subject : Term)
    (results : PatternMatches) : Prop
  | ended {halt : Halt} (hdecided : halt ≠ .undecided)
      (hhalts : Findings.meetAll definition {} (pattern.encounters subject) = .error halt)
      (hnone : results.found = #[]) (hzero : results.undecided = 0)
  | undecided (hopen : ∀ halt, Findings.meetAll definition {} (pattern.encounters subject) =
        .error halt → halt = .undecided)
      (hnone : results.found = #[]) (hpositive : 0 < results.undecided)
  | matched (findings : Findings) (settled : PathCondition)
      (hmeets : Findings.meetAll definition {} (pattern.encounters subject) = .ok findings)
      (hsettle : findings.subst.settle findings.constraints findings.deferred = some settled)
      (hfound : results.found = #[⟨findings.subst, settled⟩]) (hzero : results.undecided = 0)

theorem Definition.outcome_matchPattern (definition : Definition) {allowed : Label → Prop}
    {pattern : Term} (hpattern : pattern.Plain allowed) (subject : Term) :
    (definition.matchPattern pattern subject).Outcome definition pattern subject := by
  rw [Definition.matchPattern_eq hpattern]
  cases hmeets : Findings.meetAll definition {} (pattern.encounters subject) with
  | error halt =>
      cases halt with
      | failed | conflicting => exact .ended (by rintro ⟨⟩) hmeets rfl rfl
      | undecided =>
          refine .undecided (fun halt hhalts => ?_) rfl Nat.one_pos
          rw [hmeets] at hhalts
          exact (Except.error.inj hhalts).symm
  | ok findings =>
      dsimp only
      unfold Findings.matches
      cases hsettle : findings.subst.settle findings.constraints findings.deferred with
      | none =>
          refine .undecided (fun halt hhalts => ?_) rfl Nat.one_pos
          rw [hmeets] at hhalts
          cases hhalts
      | some settled => exact .matched findings settled hmeets hsettle rfl rfl

end SymbolicRewriting
