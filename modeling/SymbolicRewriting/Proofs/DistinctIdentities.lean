import SymbolicRewriting.Machine.Execution
import SymbolicRewriting.Oracle.Syntactic
import SymbolicRewriting.Proofs.DrawnIdentities
import SymbolicRewriting.Proofs.RuleIndexing

/-!
Cell identities along a run. Every term that is reached holds identities of the subject, each at most as
often as the subject does, and identities that have been drawn since. So distinct identities stay
distinct.
-/

namespace SymbolicRewriting

open List

variable {σ α β : Type}

/-- No identity occurs in one of the terms produced more often than in the supply and in what is drawn. -/
def Run.Produces (run : Run σ α) (produced : α → List Term) (supply : Multiset CellId) : Prop :=
  ∀ start value next, run start = .ok value next → start.cellsDrawn ≤ next.cellsDrawn ∧
    ∀ term ∈ produced value,
      term.identities ≤ supply + drawnBetween start.cellsDrawn next.cellsDrawn

namespace Run.Produces

variable {produced : α → List Term} {supply : Multiset CellId}

theorem of_pure {value : α} (hle : ∀ term ∈ produced value, term.identities ≤ supply) :
    (pure value : Run σ α).Produces produced supply := by
  intro start result next hrun
  obtain ⟨rfl, rfl⟩ := pure_eq_ok.1 hrun
  exact ⟨Nat.le_refl _, fun term hterm => (hle term hterm).trans (Multiset.le_add_right _ _)⟩

/-- Either what has been produced is returned, or the run goes on without it. -/
theorem bind {first : Run σ β} {earlier : β → List Term} {continuation : β → Run σ α}
    (hfirst : first.Produces earlier supply)
    (hcontinuation : ∀ value, (∃ result, continuation value = pure result ∧
      produced result = earlier value) ∨ (continuation value).Produces produced supply) :
    (first >>= continuation).Produces produced supply := by
  intro start value next hvalue
  obtain ⟨middle, between, hmiddle, hvalue⟩ := bind_eq_ok.1 hvalue
  obtain ⟨hcount, hproduced⟩ := hfirst start middle between hmiddle
  rcases hcontinuation middle with ⟨result, hresult, hsame⟩ | hlater
  · rw [hresult] at hvalue
    obtain ⟨rfl, rfl⟩ := pure_eq_ok.1 hvalue
    rw [hsame]
    exact ⟨hcount, hproduced⟩
  · obtain ⟨hcount', hproduced'⟩ := hlater between value next hvalue
    refine ⟨hcount.trans hcount', fun term hterm => (hproduced' term hterm).trans ?_⟩
    exact add_le_add (le_refl _) (drawnBetween_le' hcount hcount')

theorem of_advances {first : Run σ β} {continuation : β → Run σ α} {fact : β → Prop}
    (hfirst : first.Advances) (hensures : first.Ensures fact)
    (hcontinuation : ∀ value, fact value → (continuation value).Produces produced supply) :
    (first >>= continuation).Produces produced supply := by
  intro start value next hvalue
  obtain ⟨middle, between, hmiddle, hvalue⟩ := bind_eq_ok.1 hvalue
  have hcount := hfirst start middle between hmiddle
  obtain ⟨hcount', hproduced⟩ := hcontinuation middle (hensures start middle between hmiddle)
    between value next hvalue
  refine ⟨hcount.trans hcount', fun term hterm => (hproduced term hterm).trans ?_⟩
  exact add_le_add (le_refl _) (drawnBetween_le' hcount hcount')

/-- The terms of two runs are produced, as far as they are kept. -/
theorem seq {γ : Type} {first : Run σ β} {second : Run σ γ} {combine : β → γ → α}
    {earlier : β → List Term} {later : γ → List Term} (hfirst : first.Produces earlier supply)
    (hsecond : second.Produces later supply)
    (hkept : ∀ left right, produced (combine left right) ⊆ earlier left ++ later right) :
    (first >>= fun left => second >>= fun right => pure (combine left right)).Produces produced
      supply := by
  intro start value next hvalue
  obtain ⟨left, between, hleft, hvalue⟩ := bind_eq_ok.1 hvalue
  obtain ⟨right, last, hright, hvalue⟩ := bind_eq_ok.1 hvalue
  obtain ⟨rfl, rfl⟩ := pure_eq_ok.1 hvalue
  obtain ⟨hcount, hproduced⟩ := hfirst start left between hleft
  obtain ⟨hcount', hproduced'⟩ := hsecond between right last hright
  refine ⟨hcount.trans hcount', fun term hterm => ?_⟩
  rcases List.mem_append.1 (hkept left right hterm) with hold | hnew
  · refine (hproduced term hold).trans (add_le_add (le_refl _) ?_)
    exact drawnBetween_le hcount hcount'
  · refine (hproduced' term hnew).trans (add_le_add (le_refl _) ?_)
    exact drawnBetween_le' hcount hcount'

end Run.Produces

theorem Run.Draws.produces {run : Run σ Term} {supply : Multiset CellId}
    (hrun : run.Draws Term.identities supply) : run.Produces ([·]) supply := by
  intro start value next hvalue
  rw [List.forall_mem_singleton]
  exact hrun start value next hvalue

theorem Run.Advances.produces {run : Run σ α} (hrun : run.Advances) (supply : Multiset CellId) :
    run.Produces (fun _ => []) supply :=
  fun start value next hvalue => ⟨hrun start value next hvalue, List.forall_mem_nil _⟩

def StepResult.terms : StepResult → List Term
  | rewrote _ term => [term]
  | stuck => []
  | undecided => []

namespace Machine

variable {machine : Machine σ}

/-- The matches that a step goes by take no identity of the subject twice. -/
theorem ensures_matchRule (machine : Machine σ) (rule : Rule) (subject : Term) :
    (machine.matchRule rule subject).Ensures fun results => ∀ found ∈ results.found.toList,
      found.condition.isTrivial = true → found.subst.identities ≤ subject.identities := by
  refine (machine.yields_matchRule rule subject).ensures.mono fun results hresults => ?_
  intro found hfound htrivial
  have hconcrete : found.subst ∈ results.concrete :=
    List.mem_map_of_mem (List.mem_filter.2 ⟨hfound, htrivial⟩)
  rw [hresults] at hconcrete
  exact Definition.identities_le_of_mem_concreteMatches hconcrete

section Steps

variable {rule : Rule} {supply : Multiset CellId}

theorem produces_applyRule (hlinear : machine.definition.Linear rule) {subst : Substitution}
    (hsubst : subst.identities ≤ supply) :
    (machine.applyRule rule subst).Produces ([·]) supply :=
  have hcall := Run.compositional_advances.call machine
  ((Definition.draws_buildRight hlinear hcall subst).mono hsubst).produces

theorem produces_stepByMatches (hlinear : machine.definition.Linear rule) {founds : List RuleMatch}
    (hfounds : ∀ found ∈ founds, found.condition.isTrivial = true →
      found.subst.identities ≤ supply) :
    (machine.stepByMatches rule founds).Produces (fun result => result.elim [] StepResult.terms)
      supply := by
  induction founds with
  | nil => exact .of_pure (List.forall_mem_nil _)
  | cons found others ih =>
      obtain ⟨hfirst, hothers⟩ := List.forall_mem_cons.1 hfounds
      unfold stepByMatches
      split
      · exact .of_pure (List.forall_mem_nil _)
      · rename_i htrivial
        refine .of_advances
          (Run.compositional_advances.machineCondition machine rule found.subst)
          (Run.ensures_true _) fun truth _ => ?_
        cases truth with
        | holds =>
            have hsubst := hfirst (by simpa using htrivial)
            exact .seq (produces_applyRule hlinear hsubst) ((Run.advances_record _).produces supply)
              fun _ _ => List.subset_append_left _ _
        | fails => exact ih hothers
        | unsettled _ => exact .of_pure (List.forall_mem_nil _)

theorem produces_stepByRules {subject : Term} {rules : List Rule}
    (hlinear : ∀ rule ∈ rules, machine.definition.Linear rule) :
    (machine.stepByRules subject rules).Produces StepResult.terms subject.identities := by
  induction rules with
  | nil => exact .of_pure (List.forall_mem_nil _)
  | cons rule rules ih =>
      obtain ⟨hfirst, hothers⟩ := List.forall_mem_cons.1 hlinear
      refine .of_advances (Run.compositional_advances.matchRule machine rule subject)
        (machine.ensures_matchRule rule subject) fun results hresults => ?_
      refine (produces_stepByMatches hfirst hresults).bind fun outcome => ?_
      cases outcome with
      | some result => exact .inl ⟨result, rfl, rfl⟩
      | none =>
          refine .inr ?_
          dsimp only
          split
          · exact .of_pure (List.forall_mem_nil _)
          · exact ih hothers

theorem produces_successorsByMatches (hlinear : machine.definition.Linear rule)
    {founds : List RuleMatch} (hfounds : ∀ found ∈ founds, found.condition.isTrivial = true →
      found.subst.identities ≤ supply) :
    (machine.successorsByMatches rule founds).Produces (List.map Prod.snd) supply := by
  induction founds with
  | nil => exact .of_pure (List.forall_mem_nil _)
  | cons found others ih =>
      obtain ⟨hfirst, hothers⟩ := List.forall_mem_cons.1 hfounds
      unfold successorsByMatches
      split
      · exact ih hothers
      · rename_i htrivial
        refine .of_advances
          (Run.compositional_advances.machineCondition machine rule found.subst)
          (Run.ensures_true _) fun truth _ => ?_
        cases truth with
        | holds =>
            have hsubst := hfirst (by simpa using htrivial)
            exact .seq (produces_applyRule hlinear hsubst) (ih hothers)
              fun _ _ => List.Subset.refl _
        | fails | unsettled _ => exact ih hothers

theorem produces_successorsByRules {subject : Term} {rules : List Rule}
    (hlinear : ∀ rule ∈ rules, machine.definition.Linear rule) :
    (machine.successorsByRules subject rules).Produces (List.map Prod.snd) subject.identities := by
  induction rules with
  | nil => exact .of_pure (List.forall_mem_nil _)
  | cons rule rules ih =>
      obtain ⟨hfirst, hothers⟩ := List.forall_mem_cons.1 hlinear
      refine .of_advances (Run.compositional_advances.matchRule machine rule subject)
        (machine.ensures_matchRule rule subject) fun results hresults => ?_
      refine .seq (produces_successorsByMatches hfirst hresults) (ih hothers) fun first later => ?_
      rw [List.map_append]
      exact List.Subset.refl _

end Steps

variable (hlinear : ∀ rule ∈ machine.definition.rewriteRules, machine.definition.Linear rule)
include hlinear

theorem produces_step (subject : Term) :
    (machine.step subject).Produces StepResult.terms subject.identities :=
  produces_stepByRules fun rule hmem => hlinear rule (Definition.mem_rewriteRules_of_mem_candidates hmem)

theorem produces_successors (subject : Term) :
    (machine.successors subject).Produces (List.map Prod.snd) subject.identities :=
  produces_successorsByRules fun rule hmem => hlinear rule (Definition.mem_rewriteRules_of_mem_candidates hmem)

theorem produces_runObserved (observe : α → RuleId → Term → α) (bound : Nat) (term : Term)
    (steps : Nat) (seen : α) :
    (machine.runObserved observe bound term steps seen).Produces (fun result => [result.1.term])
      term.identities := by
  induction bound generalizing term steps seen with
  | zero => exact .of_pure (List.forall_mem_singleton.2 (le_refl _))
  | succ bound ih =>
      intro start result next hrun
      obtain ⟨outcome, between, houtcome, hrun⟩ := Run.bind_eq_ok.1 hrun
      obtain ⟨hcount, hstep⟩ := produces_step hlinear term start outcome between houtcome
      cases outcome with
      | rewrote rule stepped =>
          have hstepped := hstep stepped (List.mem_singleton_self _)
          obtain ⟨hcount', hresult⟩ := ih stepped _ _ between result next hrun
          refine ⟨hcount.trans hcount', List.forall_mem_singleton.2 ?_⟩
          calc
            result.1.term.identities ≤
                stepped.identities + drawnBetween between.cellsDrawn next.cellsDrawn :=
              hresult _ (List.mem_singleton_self _)
            _ ≤ term.identities + drawnBetween start.cellsDrawn between.cellsDrawn +
                drawnBetween between.cellsDrawn next.cellsDrawn := by gcongr
            _ = term.identities + drawnBetween start.cellsDrawn next.cellsDrawn := by
              rw [add_assoc, drawnBetween_add hcount hcount']
      | stuck | undecided =>
          obtain ⟨rfl, rfl⟩ := Run.pure_eq_ok.1 hrun
          exact ⟨hcount, List.forall_mem_singleton.2 (Multiset.le_add_right _ _)⟩

theorem produces_run (subject : Term) (bound : Option Nat) :
    (machine.run subject bound).Produces (fun result => [result.term]) subject.identities :=
  (produces_runObserved hlinear _ _ subject 0 ()).bind fun result =>
    .inl ⟨result.1, rfl, rfl⟩

end Machine

/-- The identities in the term are distinct and have been drawn before. -/
def RunState.Accounts (state : RunState σ) (term : Term) : Prop :=
  term.cellIds.Nodup ∧ ∀ id ∈ term.cellIds, id < state.nextCell

theorem RunState.lt_nextCell_iff {state : RunState σ} (hdrawn : state.cellsDrawn < 2 ^ 32)
    {id : CellId} : id < state.nextCell ↔ id.toNat < state.cellsDrawn := by
  rw [UInt32.lt_iff_toNat_lt, nextCell, UInt32.toNat_ofNat', Nat.mod_eq_of_lt hdrawn]

theorem RunState.Accounts.of_le {start next : RunState σ} {subject term : Term}
    (hsubject : start.Accounts subject) (hcount : start.cellsDrawn ≤ next.cellsDrawn)
    (hle : term.identities ≤
      subject.identities + drawnBetween start.cellsDrawn next.cellsDrawn)
    (hdrawn : next.cellsDrawn < 2 ^ 32) : next.Accounts term := by
  have hbelow : ∀ id ∈ subject.identities, id.toNat < start.cellsDrawn := fun id hmem =>
    (lt_nextCell_iff (hcount.trans_lt hdrawn)).1 (hsubject.2 id hmem)
  have hnodup : (subject.identities + drawnBetween start.cellsDrawn next.cellsDrawn).Nodup := by
    refine Multiset.nodup_add.2 ⟨hsubject.1, nodup_drawnBetween hdrawn.le, ?_⟩
    refine Multiset.disjoint_left.2 fun {id} hold hnew => ?_
    have hlow := hbelow id hold
    have hhigh := (mem_drawnBetween hdrawn.le hnew).1
    omega
  refine ⟨Multiset.coe_nodup.1 (Multiset.nodup_of_le hle hnodup), fun id hmem => ?_⟩
  rw [lt_nextCell_iff hdrawn]
  rcases Multiset.mem_add.1 (Multiset.mem_of_le hle hmem) with hold | hnew
  · exact (hbelow id hold).trans_le hcount
  · exact (mem_drawnBetween hdrawn.le hnew).2

namespace Machine

variable {machine : Machine σ}

/-- Cell identities never collide along a run: if those in the subject are distinct and have been drawn
before, then so it is with every term that a step, the enumeration of the successors or a run of any
length returns, as long as fewer than 2 ^ 32 of them have been drawn. Nothing is asked of the left
sides. -/
theorem identities_never_collide
    (hlinear : ∀ rule ∈ machine.definition.rewriteRules, machine.definition.Linear rule)
    {subject : Term} {start next : RunState σ} (hsubject : start.Accounts subject)
    (hdrawn : next.cellsDrawn < 2 ^ 32) :
    (∀ rule term, machine.step subject start = .ok (.rewrote rule term) next →
      next.Accounts term) ∧
    (∀ results, machine.successors subject start = .ok results next →
      ∀ result ∈ results, next.Accounts result.2) ∧
    ∀ bound result, machine.run subject bound start = .ok result next →
      next.Accounts result.term := by
  refine ⟨fun rule term hstep => ?_, fun results hsuccessors result hresult => ?_,
    fun bound result hrun => ?_⟩
  · obtain ⟨hcount, hterms⟩ := produces_step hlinear subject start _ next hstep
    exact hsubject.of_le hcount (hterms term (List.mem_singleton_self _)) hdrawn
  · obtain ⟨hcount, hterms⟩ := produces_successors hlinear subject start _ next hsuccessors
    exact hsubject.of_le hcount (hterms result.2 (List.mem_map_of_mem hresult)) hdrawn
  · obtain ⟨hcount, hterms⟩ := produces_run hlinear subject bound start _ next hrun
    exact hsubject.of_le hcount (hterms result.term (List.mem_singleton_self _)) hdrawn

end Machine

namespace Desk

def letter : Variable := ⟨"X", Symbol.top, .plain⟩

def others : Variable := ⟨"REST", Symbol.top, .rest⟩

/-- What lies in the inbox is put into the archive, in a new cell. -/
def filing : RuleBody where
  lhs := .collection [⟨0, "inbox", .var letter⟩] (some others)
  rhs := .collection [⟨0, "inbox", .app "empty" []⟩, ⟨1, "archive", .var letter⟩] (some others)

def machine : Machine Unit where
  definition := .assemble [.rule filing]
  oracle := DecisionProcedure.syntactic.toOracle Unit

def subject : Term :=
  .collection [⟨0, "inbox", .collection [⟨1, "letter", .string "first"⟩] none⟩,
    ⟨2, "archive", .string "none yet"⟩] none

theorem linear_rules : ∀ rule ∈ machine.definition.rewriteRules, machine.definition.Linear rule := by
  have hrules : machine.definition.rewriteRules = [{ filing with id := 0 }] := by rfl
  rw [hrules, List.forall_mem_singleton]
  exact
    { callFree := by
        rintro part - ⟨label, args, -, hfunction⟩
        cases hfunction
      notFresh := by decide +kernel
      vars := by decide +kernel
      cells := by decide +kernel }

/-- The new cell gets the one new identity, and the letter keeps its own. -/
theorem identities_never_collide_desk :
    ∃ rule term next, machine.step subject { cellsDrawn := 3, environment := () } =
      .ok (.rewrote rule term) next ∧ next.cellsDrawn = 4 ∧ next.Accounts term := by
  have hstep : (match machine.step subject { cellsDrawn := 3, environment := () } with
      | .ok (.rewrote _ _) next => next.cellsDrawn == 4
      | _ => false) = true := by
    decide +kernel
  split at hstep
  · rename_i rule term next hrun
    have hbelow : (subject.cellIds.all fun id => decide (id < 3)) = true := by decide +kernel
    have hsubject : ({ cellsDrawn := 3, environment := () } : RunState Unit).Accounts subject :=
      ⟨by decide +kernel, fun id hmem => of_decide_eq_true (List.all_eq_true.1 hbelow id hmem)⟩
    have hdrawn : next.cellsDrawn = 4 := by simpa using hstep
    have hresults := Machine.identities_never_collide linear_rules hsubject
      (hdrawn.trans_lt (by decide))
    exact ⟨rule, term, next, hrun, hdrawn, hresults.1 rule term hrun⟩
  · cases hstep

end Desk

end SymbolicRewriting
