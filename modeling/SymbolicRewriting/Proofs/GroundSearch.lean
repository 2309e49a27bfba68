import SymbolicRewriting.Proofs.DirectSteps
import SymbolicRewriting.Proofs.Oversights
import SymbolicRewriting.Proofs.Unfolding

/-!
Searches from ground terms of tokens and constructor applications, by rules between plain terms. There
is nothing that the oracle could be asked, so a search follows the steps of the machine as they are,
and its verdict is right about all chains of them.
-/

namespace SymbolicRewriting

open List

variable {σ : Type}

namespace Term

variable {allowed : Label → Prop}

theorem mem_vars_app_iff {v : Variable} {label : Label} {args : List Term} :
    v ∈ (app label args).vars ↔ ∃ arg ∈ args, v ∈ arg.vars := by
  constructor
  · intro hmem
    obtain ⟨part, hpart, hroot⟩ := mem_vars_iff.1 hmem
    rw [subterms, List.mem_cons, mem_subtermsAll_iff] at hpart
    rcases hpart with rfl | ⟨arg, harg, hpart⟩
    · cases hroot
    · exact ⟨arg, harg, mem_vars_iff.2 ⟨part, hpart, hroot⟩⟩
  · rintro ⟨arg, harg, hmem⟩
    have hvars : arg.vars ⊆ (app label args).vars := vars_subset_of_mem_children harg
    exact hvars hmem

theorem Plain.of_mem_subterms {term part : Term} (hterm : term.Plain allowed)
    (hmem : part ∈ term.subterms) : part.Plain allowed := by
  induction hterm with
  | token sort value =>
      obtain rfl : part = Term.token sort value := by simpa [subterms] using hmem
      exact .token sort value
  | var v hkind =>
      obtain rfl : part = Term.var v := by simpa [subterms] using hmem
      exact .var v hkind
  | app label args hlabel hargs ih =>
      rw [subterms, List.mem_cons, mem_subtermsAll_iff] at hmem
      rcases hmem with rfl | ⟨arg, harg, hpart⟩
      · exact .app label args hlabel hargs
      · exact ih arg harg hpart

theorem Plain.kind_of_mem_vars {term : Term} (hterm : term.Plain allowed) {v : Variable}
    (hmem : v ∈ term.vars) : v.kind = .plain := by
  obtain ⟨part, hpart, hroot⟩ := mem_vars_iff.1 hmem
  cases hterm.of_mem_subterms hpart with
  | token _ _ | app _ _ _ _ => cases hroot
  | var w hkind =>
      cases hroot
      exact hkind

theorem Plain.conforms {term : Term} (hterm : term.Plain allowed) :
    term.Conforms (.over fun _ _ => True) .alone := by
  induction hterm with
  | token sort value => exact .token sort value
  | var v _ => exact .var True.intro
  | app label args _ _ ih => exact .app ih

end Term

namespace Definition

variable {definition : Definition}

/-- Ground terms of tokens and constructor applications. -/
structure IsValue (definition : Definition) (term : Term) : Prop where
  plain : definition.PlainPattern term
  ground : term.isGround = true

theorem IsValue.conforms {term : Term} (hvalue : definition.IsValue term) :
    term.Conforms .ground .alone :=
  Term.conforms_ground_iff.2 ⟨hvalue.plain.conforms, hvalue.ground⟩

theorem isValue_app_iff {label : Label} {args : List Term} :
    definition.IsValue (.app label args) ↔
      definition.isFunction label = false ∧ ∀ arg ∈ args, definition.IsValue arg := by
  have hground : (Term.app label args).isGround = true ↔ ∀ arg ∈ args, arg.isGround = true := by
    rw [Term.isGround]
    induction args with
    | nil => simp [Term.isGroundAll]
    | cons arg args ih => simp [Term.isGroundAll, ih]
  constructor
  · rintro ⟨hplain, hvalue⟩
    cases hplain with
    | app _ _ hlabel hargs =>
        exact ⟨hlabel, fun arg hmem => ⟨hargs arg hmem, hground.1 hvalue arg hmem⟩⟩
  · rintro ⟨hlabel, hargs⟩
    exact ⟨.app label args hlabel fun arg hmem => (hargs arg hmem).plain,
      hground.2 fun arg hmem => (hargs arg hmem).ground⟩

/-- The instance of a plain term is a value exactly if its variables become values. -/
theorem isValue_instantiate_iff {term : Term} (hterm : definition.PlainPattern term)
    (subst : Substitution) :
    definition.IsValue (term.instantiate subst) ↔
      ∀ v ∈ term.vars, definition.IsValue ((Term.var v).instantiate subst) := by
  induction hterm with
  | token sort value =>
      refine iff_of_true ⟨.token sort value, rfl⟩ fun v hmem => ?_
      obtain ⟨part, hpart, hroot⟩ := Term.mem_vars_iff.1 hmem
      obtain rfl : part = .token sort value := by simpa [Term.subterms] using hpart
      cases hroot
  | var v _ =>
      have hvars : ∀ w, w ∈ (Term.var v).vars ↔ w = v := by
        intro w
        simp [Term.mem_vars_iff, Term.subterms, Term.rootVariable, eq_comm]
      simp only [hvars, forall_eq]
  | app label args hlabel _ ih =>
      rw [Term.instantiate_app, isValue_app_iff]
      simp only [hlabel, true_and, List.forall_mem_map, Term.mem_vars_app_iff]
      constructor
      · rintro hargs v ⟨arg, harg, hmem⟩
        exact (ih arg harg).1 (hargs arg harg) v hmem
      · exact fun hvars arg harg => (ih arg harg).2 fun v hmem => hvars v ⟨arg, harg, hmem⟩

/-- A match of a value gives the value back. -/
theorem instantiate_of_mem_concreteMatches {pattern value : Term} {subst : Substitution}
    (hpattern : definition.PlainPattern pattern) (hvalue : definition.IsValue value)
    (hmem : subst ∈ definition.concreteMatches pattern value) :
    pattern.instantiate subst = value := by
  obtain ⟨found, hfound, -, rfl⟩ := mem_concreteMatches_iff.1 hmem
  cases definition.outcome_matchPattern hpattern value with
  | ended _ _ hnone _ | undecided _ hnone _ =>
      exact absurd (hnone ▸ hfound) (Array.not_mem_empty found)
  | matched findings settled hmeets _ hsome _ =>
      rw [hsome, Array.mem_singleton] at hfound
      rw [hfound]
      exact Term.eq_of_equalTo_plain hvalue.plain _
        (Findings.instance_of_ground hpattern hvalue.ground hmeets)

/-- A rule without condition between plain terms. All variables of the right side are bound by a
match of the left side. -/
structure PlainRule (definition : Definition) (rule : Rule) : Prop where
  lhs : definition.PlainPattern rule.lhs
  rhs : definition.PlainPattern rule.rhs
  requires : rule.requires = none
  vars : rule.rhs.vars ⊆ rule.lhs.vars

theorem PlainRule.direct {rule : Rule} (hrule : definition.PlainRule rule) :
    definition.Direct rule where
  requires := hrule.requires
  freshVars := by
    rw [Rule.freshVars, List.filter_eq_nil_iff]
    intro v hmem
    have hkind : v.kind = .plain := by
      rw [Rule.vars, Term.mem_distinct, List.mem_append] at hmem
      rcases hmem with hleft | hright
      · exact hrule.lhs.kind_of_mem_vars hleft
      · exact hrule.rhs.kind_of_mem_vars (List.mem_of_mem_filter hright)
    rw [Variable.isFresh, hkind]
    decide
  callFree part hpart := by
    rintro ⟨label, args, rfl, hlabel⟩
    cases hrule.rhs.of_mem_subterms hpart with
    | app _ _ hconstructor _ => exact absurd (hlabel.symm.trans hconstructor) (by simp)

def PlainRules (definition : Definition) : Prop :=
  ∀ rule ∈ definition.rewriteRules, definition.PlainRule rule

theorem IsValue.rewrites (hrules : definition.PlainRules) {term : Term}
    (hvalue : definition.IsValue term) {result : RuleId × Term}
    (hmem : result ∈ definition.rewrites term) : definition.IsValue result.2 := by
  obtain ⟨rule, hcandidate, hmem⟩ := List.mem_flatMap.1 hmem
  obtain ⟨subst, hmatch, rfl⟩ := List.mem_map.1 hmem
  have hrule := hrules rule (Definition.mem_rewriteRules_of_mem_candidates hcandidate)
  have hinstance := instantiate_of_mem_concreteMatches hrule.lhs hvalue hmatch
  have hbound := (isValue_instantiate_iff hrule.lhs subst).1 (hinstance.symm ▸ hvalue)
  exact (isValue_instantiate_iff hrule.rhs subst).2 fun v hv => hbound v (hrule.vars hv)

/-- What differs from a value in the identities of cells alone is the value. -/
theorem IsValue.eq_of_alikeResults {left right : RuleId × Term}
    (hvalue : definition.IsValue left.2) (halike : AlikeResults left right) : left = right := by
  have hequal : right.2.EqualTo left.2 := Term.beq_of_withoutIds_eq halike.2.symm
  exact Prod.ext halike.1 (Term.eq_of_equalTo_plain hvalue.plain _ hequal).symm

end Definition

namespace Machine

variable {machine : Machine σ} (hrules : machine.definition.PlainRules) {term : Term}
  (hvalue : machine.definition.IsValue term)
include hrules hvalue

theorem yields_successors_of_value :
    (machine.successors term).Yields fun steps => steps = machine.definition.rewrites term := by
  have hdirect := fun rule hmem => (hrules rule hmem).direct
  refine (yields_successors hdirect term).mono fun steps hsteps => ?_
  have hvalues : ∀ result ∈ machine.definition.rewrites term, machine.definition.IsValue result.2 :=
    fun result hmem => hvalue.rewrites hrules hmem
  generalize machine.definition.rewrites term = results at hsteps hvalues ⊢
  induction hsteps with
  | nil => rfl
  | cons hfirst _ ih =>
      obtain ⟨hresult, hothers⟩ := List.forall_mem_cons.1 hvalues
      rw [← hresult.eq_of_alikeResults hfirst, ih hothers]

theorem yields_stepSymbolic_of_value :
    (machine.stepSymbolic ⟨term, .trivial⟩).Yields fun step => step.undecided = 0 ∧
      step.children = (machine.definition.rewrites term).map (fun result =>
        (.rule result.1, ⟨result.2, .trivial⟩)) ∧
      (step.successors = [] ↔ machine.definition.rewrites term = []) := by
  have hplain := fun rule hmem => And.intro (hrules rule hmem).direct
    (Or.inl (hrules rule hmem).lhs.conforms : rule.lhs.Single (.over fun _ _ => True))
  refine (yields_stepSymbolic_of_ground hvalue.conforms hplain).mono fun step hstep => ?_
  obtain ⟨hundecided, hremainder, hsuccessors⟩ := hstep
  have hvalues : ∀ result ∈ machine.definition.rewrites term, machine.definition.IsValue result.2 :=
    fun result hmem => hvalue.rewrites hrules hmem
  refine ⟨hundecided, ?_, ?_⟩
  · rw [SymbolicStep.children, hremainder, Option.toList_none, List.map_nil, List.append_nil]
    generalize step.successors = successors at hsuccessors ⊢
    generalize machine.definition.rewrites term = results at hsuccessors hvalues ⊢
    induction hsuccessors with
    | nil => rfl
    | @cons result successor _ _ hfirst _ ih =>
        obtain ⟨hresult, hothers⟩ := List.forall_mem_cons.1 hvalues
        obtain ⟨rule, ⟨next, condition⟩⟩ := successor
        obtain ⟨halike, hcondition⟩ := hfirst
        rw [List.map_cons, List.map_cons, ih hothers, hresult.eq_of_alikeResults halike]
        dsimp only at hcondition ⊢
        rw [hcondition]
  · rw [← List.length_eq_zero_iff, ← List.length_eq_zero_iff, hsuccessors.length_eq]

end Machine

/-- A chain of steps leads from the original to the term, and no term on it matches the target. -/
inductive Machine.Evades (machine : Machine σ) (target original : Term) : Term → Prop
  | start (hmisses : machine.definition.concreteMatches target original = []) :
      Evades machine target original original
  | step {term next : Term} {rule : RuleId} {steps : List (RuleId × Term)} {first last : RunState σ}
      (hevades : Evades machine target original term)
      (hrun : machine.successors term first = .ok steps last) (hmem : (rule, next) ∈ steps)
      (hmisses : machine.definition.concreteMatches target next = []) :
      Evades machine target original next

theorem Machine.Evades.isValue {machine : Machine σ} (hrules : machine.definition.PlainRules)
    {original target last : Term} (horiginal : machine.definition.IsValue original)
    (hevades : machine.Evades target original last) : machine.definition.IsValue last := by
  induction hevades with
  | start _ => exact horiginal
  | step _ hrun hmem _ ih =>
      obtain rfl := (yields_successors_of_value hrules ih).ensures _ _ _ hrun
      exact ih.rewrites hrules hmem

namespace Prover

variable {prover : Prover σ}

/-- Whether a value is an instance of a plain term is found out without the oracle. -/
theorem covers_of_value {pattern term : Term}
    (hpattern : prover.machine.definition.PlainPattern pattern)
    (hvalue : prover.machine.definition.IsValue term) :
    prover.covers ⟨pattern, .trivial⟩ ⟨term, .trivial⟩ =
      pure !(prover.machine.definition.concreteMatches pattern term).isEmpty := by
  have htrivial : ∀ found ∈ (prover.machine.definition.matchPattern pattern term).found.toList,
      found.constraints.isTrivial = true := fun found hmem =>
    Definition.isTrivial_of_mem_found_ground (.inl hpattern.conforms) hvalue.conforms
      (Array.mem_toList_iff.1 hmem)
  rw [covers, Definition.concreteMatches, PatternMatches.concrete, List.filter_eq_self.2 htrivial]
  generalize (prover.machine.definition.matchPattern pattern term).found.toList = founds at htrivial ⊢
  cases founds with
  | nil => rfl
  | cons found others =>
      have hfound := PathCondition.eq_trivial_of_isTrivial (htrivial found List.mem_cons_self)
      have hneeded : (obligation ⟨pattern, .trivial⟩ found).isTrivial = true := by
        rw [obligation, hfound]
        rfl
      rw [coversBy, if_pos hneeded]
      rfl

section Evidence

variable {pattern term : Term} (hpattern : prover.machine.definition.PlainPattern pattern)
  (hvalue : prover.machine.definition.IsValue term)
include hpattern hvalue

theorem matches_of_covers (hcovers : prover.evidence.covers ⟨pattern, .trivial⟩ ⟨term, .trivial⟩) :
    prover.machine.definition.concreteMatches pattern term ≠ [] := by
  obtain ⟨start, next, hrun⟩ := hcovers
  rw [covers_of_value hpattern hvalue] at hrun
  obtain ⟨hmatches, -⟩ := Run.pure_eq_ok.1 hrun
  simpa using hmatches

theorem not_matches_of_misses
    (hmisses : prover.evidence.misses ⟨pattern, .trivial⟩ ⟨term, .trivial⟩) :
    prover.machine.definition.concreteMatches pattern term = [] := by
  obtain ⟨start, next, hrun⟩ := hmisses
  rw [covers_of_value hpattern hvalue] at hrun
  obtain ⟨hmatches, -⟩ := Run.pure_eq_ok.1 hrun
  simpa using hmatches

end Evidence

section Unfolds

variable (hrules : prover.machine.definition.PlainRules) {original target : Term}
  (horiginal : prover.machine.definition.IsValue original)
  (htarget : prover.machine.definition.PlainPattern target) {tree : ProofTree}
  (hunfolds : tree.Unfolds prover.evidence ⟨original, .trivial⟩ ⟨target, .trivial⟩)
include hrules horiginal htarget hunfolds

/-- The nodes are on chains of steps from the original, which do not go beyond the target. -/
theorem exists_value_of_node {id : NodeId} {node : ProofNode} (hnode : tree.node? id = some node) :
    ∃ term, node.state = ⟨term, .trivial⟩ ∧ prover.machine.definition.IsValue term ∧
      (prover.machine.definition.concreteMatches target term = [] →
        prover.machine.Evades target original term) := by
  induction id using Nat.strongRecOn generalizing node with
  | ind id ih =>
      by_cases hroot : id = 0
      · obtain ⟨root, hfirst, hstate⟩ := hunfolds.root
        obtain rfl : root = node := Option.some.inj (hfirst.symm.trans (hroot ▸ hnode))
        exact ⟨original, hstate, horiginal, .start⟩
      · obtain ⟨transition, hmem, rfl, hjustified⟩ := hunfolds.exists_parent id node hnode hroot
        obtain ⟨parent, child, step, hparent, hchild, hlt, hmisses, ⟨start, next, hrun⟩, -, hstep⟩ :=
          hunfolds.follows transition hmem hjustified
        obtain rfl : child = node := Option.some.inj (hchild.symm.trans hnode)
        obtain ⟨term, hstate, hvalue, hevades⟩ := ih transition.source hlt hparent
        rw [hstate] at hmisses hrun
        obtain ⟨-, hchildren, -⟩ :=
          (Machine.yields_stepSymbolic_of_value hrules hvalue).ensures _ _ _ hrun
        rw [hchildren, List.mem_map] at hstep
        obtain ⟨result, hresult, hchild⟩ := hstep
        obtain ⟨-, hterm⟩ := Prod.ext_iff.1 hchild
        refine ⟨result.2, hterm.symm, hvalue.rewrites hrules hresult, fun hnone => ?_⟩
        have hterm := hevades (not_matches_of_misses htarget hvalue hmisses)
        obtain ⟨steps, last, hsteps, rfl⟩ :=
          Machine.yields_successors_of_value hrules hvalue start
        exact hterm.step hsteps hresult hnone

theorem children_of_expanded {id : NodeId} {node : ProofNode} (hnode : tree.node? id = some node)
    {term : Term} (hstate : node.state = ⟨term, .trivial⟩) (hstatus : node.status = .expanded) :
    prover.machine.definition.rewrites term ≠ [] ∧
      ∀ result ∈ prover.machine.definition.rewrites term,
        tree.HasChild node.id (.rule result.1, ⟨result.2, .trivial⟩) := by
  obtain ⟨term', hstate', hvalue, -⟩ :=
    exists_value_of_node hrules horiginal htarget hunfolds hnode
  cases hstate.symm.trans hstate'
  have hsupports := hunfolds.supports id node hnode
  rw [ProofTree.Supports, hstatus, hstate] at hsupports
  obtain ⟨-, step, ⟨start, later, hstep⟩, hexpanded, hchildren⟩ := hsupports
  obtain ⟨-, hresults, hnone⟩ :=
    (Machine.yields_stepSymbolic_of_value hrules hvalue).ensures _ _ _ hstep
  have hsome : step.successors ≠ [] := step.isExpanded_status_iff.1 (by rw [hexpanded]; rfl)
  refine ⟨fun hnothing => hsome (hnone.2 hnothing), fun result hmem => hchildren hsome _ ?_⟩
  rw [hresults]
  exact List.mem_map_of_mem hmem

section Complete

variable (hcomplete : tree.isComplete = true)
include hcomplete

/-- A state that does not match the target has been expanded, if not at a node then at another one. -/
theorem exists_expanded_of_misses {id : NodeId} {node : ProofNode} (hnode : tree.node? id = some node)
    {term : Term} (hstate : node.state = ⟨term, .trivial⟩)
    (hmisses : prover.machine.definition.concreteMatches target term = []) :
    ∃ id node, tree.node? id = some node ∧ node.state = ⟨term, .trivial⟩ ∧
      node.status = .expanded := by
  have hclosed : ∀ id node, tree.node? id = some node →
      (node.status == .expanded || node.status.isClosed) = true := by
    intro id node hnode
    by_contra houtstanding
    exact ProofTree.isComplete_iff.1 hcomplete id ⟨node, hnode, by simpa using houtstanding⟩
  have hvalue : prover.machine.definition.IsValue term := by
    obtain ⟨term', hstate', hvalue, -⟩ :=
      exists_value_of_node hrules horiginal htarget hunfolds hnode
    cases hstate.symm.trans hstate'
    exact hvalue
  have hsupports := hunfolds.supports id node hnode
  unfold ProofTree.Supports at hsupports
  rw [hstate] at hsupports
  have hstatus := hclosed id node hnode
  cases hcase : node.status with
  | expanded => exact ⟨id, node, hnode, hstate, hcase⟩
  | target =>
      rw [hcase] at hsupports
      exact absurd hmisses (matches_of_covers htarget hvalue hsupports)
  | circular earlier =>
      rw [hcase] at hsupports
      obtain ⟨other, hother, hexpanded, hcovers⟩ := hsupports
      obtain ⟨general, hgeneral, hearlier, -⟩ :=
        exists_value_of_node hrules horiginal htarget hunfolds hother
      rw [hgeneral] at hcovers
      obtain ⟨subst, hmatch⟩ := List.exists_mem_of_ne_nil _
        (matches_of_covers hearlier.plain hvalue hcovers)
      -- An instance of a term without variables is the term itself.
      have hsame : general = term := by
        rw [← hearlier.conforms.instantiate_ground subst]
        exact Definition.instantiate_of_mem_concreteMatches hearlier.plain hvalue hmatch
      refine ⟨earlier, other, hother, hsame ▸ hgeneral, ?_⟩
      have hstatus := hclosed earlier other hother
      cases hstatus' : other.status <;> simp_all [NodeStatus.isExpanded, NodeStatus.isClosed]
  | unexamined | partlyExpanded | failed | undecided =>
      rw [hcase] at hstatus
      cases hstatus

theorem exists_expanded {term : Term} (hevades : prover.machine.Evades target original term) :
    ∃ id node, tree.node? id = some node ∧ node.state = ⟨term, .trivial⟩ ∧
      node.status = .expanded := by
  induction hevades with
  | start hmisses =>
      obtain ⟨root, hroot, hstate⟩ := hunfolds.root
      exact exists_expanded_of_misses hrules horiginal htarget hunfolds hcomplete hroot hstate hmisses
  | @step term next rule steps first last hevades hrun hmem hmisses ih =>
      have hvalue := hevades.isValue hrules horiginal
      obtain ⟨id, node, hnode, hstate, hstatus⟩ := ih
      obtain rfl := (Machine.yields_successors_of_value hrules hvalue).ensures _ _ _ hrun
      obtain ⟨child, -, hnode, hterm⟩ :=
        (children_of_expanded hrules horiginal htarget hunfolds hnode hstate hstatus).2 _ hmem
      exact exists_expanded_of_misses hrules horiginal htarget hunfolds hcomplete hnode hterm hmisses

end Complete

theorem exists_stuck_of_fails {id : NodeId} (hfails : tree.Fails id) :
    ∃ last, prover.machine.Evades target original last ∧
      prover.machine.definition.rewrites last = [] := by
  obtain ⟨node, hnode, hstatus⟩ := hfails
  obtain ⟨last, hstate, hvalue, hevades⟩ :=
    exists_value_of_node hrules horiginal htarget hunfolds hnode
  have hsupports := hunfolds.supports id node hnode
  rw [ProofTree.Supports, hstatus, hstate] at hsupports
  obtain ⟨hmisses, step, ⟨start, next, hstep⟩, hfailed, -⟩ := hsupports
  obtain ⟨-, -, hnone⟩ := (Machine.yields_stepSymbolic_of_value hrules hvalue).ensures _ _ _ hstep
  refine ⟨last, hevades (not_matches_of_misses htarget hvalue hmisses), hnone.1 ?_⟩
  by_contra hsome
  have hexpanded := step.isExpanded_status_iff.2 hsome
  rw [hfailed] at hexpanded
  cases hexpanded

end Unfolds

/-- The verdict on a goal between plain terms whose original is ground is right about the chains of
steps on which no term matches the target: a goal is proved only if none of them comes to an end, and
disproved only if one of them does. The steps themselves are the same in every state of a run. -/
theorem prove_exact (prover : Prover σ) (hrules : prover.machine.definition.PlainRules)
    {original target : Term} (horiginal : prover.machine.definition.IsValue original)
    (htarget : prover.machine.definition.PlainPattern target) {state : RunState σ}
    {report : ProofReport} (hreport : (prover.prove
      (Goal.start ⟨original, .trivial⟩ ⟨target, .trivial⟩) state).1.1 = .ok report) :
    (∀ last, prover.machine.Evades target original last →
      ∃ steps, (prover.machine.successors last).Yields (· = steps)) ∧
    (report.status = .proved → ∀ last, prover.machine.Evades target original last →
      ∃ steps ≠ [], (prover.machine.successors last).Yields (· = steps)) ∧
    (report.status = .disproved → ∃ last, prover.machine.Evades target original last ∧
      (prover.machine.successors last).Yields (· = [])) := by
  have hsteps : ∀ last, prover.machine.Evades target original last →
      (prover.machine.successors last).Yields (· = prover.machine.definition.rewrites last) :=
    fun last hevades =>
      Machine.yields_successors_of_value hrules (hevades.isValue hrules horiginal)
  have hwithin : ∀ call ∈ [(⟨prover, state⟩ : Prover.Call)],
      call.prover.evidence.Within prover.evidence :=
    List.forall_mem_singleton.2 prover.evidence.within_refl
  have hunfolds := Goal.unfolds_after ⟨original, .trivial⟩ ⟨target, .trivial⟩ hwithin
  have hreports := prover.reports_prove
    (ProofTree.WellFormed.start ⟨original, .trivial⟩) (by rintro ⟨⟩) hreport
  refine ⟨fun last hevades => ⟨_, hsteps last hevades⟩, fun hproved last hevades => ?_,
    fun hdisproved => ?_⟩
  · refine ⟨_, ?_, hsteps last hevades⟩
    have hcomplete := hreports.proved.1 hproved
    obtain ⟨id, node, hnode, hstate, hstatus⟩ :=
      exists_expanded hrules horiginal htarget hunfolds hcomplete hevades
    exact (children_of_expanded hrules horiginal htarget hunfolds hnode hstate hstatus).1
  · obtain ⟨id, hfails, -⟩ := hreports.disproved.1 hdisproved
    obtain ⟨last, hevades, hnone⟩ :=
      exists_stuck_of_fails hrules horiginal htarget hunfolds hfails
    exact ⟨last, hevades, hnone ▸ hsteps last hevades⟩

end Prover

namespace Cycling

def counter : Variable := ⟨"X", Symbol.int, .plain⟩

def move (source target : Label) : RuleBody where
  lhs := .app source [.var counter]
  rhs := .app target [.var counter]

/-- The two rules undo each other. -/
def prover : Prover Unit where
  machine :=
    { definition := .assemble [.rule (move "even" "odd"), .rule (move "odd" "even")]
      oracle := DecisionProcedure.syntactic.toOracle Unit }
  stopSource environment := (false, environment)

def original : Term := .app "even" [.int 1]

def target : Term := .app "done" []

theorem plainRules_prover : prover.machine.definition.PlainRules := by
  have hplain : ∀ label, prover.machine.definition.PlainPattern (.app label [.var counter]) :=
    fun label => .app label _ rfl (List.forall_mem_singleton.2 (.var counter rfl))
  have hmove : ∀ source target id,
      prover.machine.definition.PlainRule { move source target with id } := fun source target id =>
    ⟨hplain source, hplain target, rfl,
      fun _ hmem => Term.mem_vars_app_iff.2 (Term.mem_vars_app_iff.1 hmem)⟩
  have hrules : prover.machine.definition.rewriteRules =
      [{ move "even" "odd" with id := 0 }, { move "odd" "even" with id := 1 }] := by
    rfl
  unfold Definition.PlainRules
  rw [hrules, List.forall_mem_cons, List.forall_mem_singleton]
  exact ⟨hmove _ _ _, hmove _ _ _⟩

/-- A goal is proved whose steps go around in a circle. -/
theorem prove_exact_cycling : ∃ report,
    (prover.prove (Goal.start ⟨original, .trivial⟩ ⟨target, .trivial⟩) { environment := () }).1.1 =
      .ok report ∧ report.status = .proved ∧
    ∀ last, prover.machine.Evades target original last →
      ∃ steps ≠ [], (prover.machine.successors last).Yields (· = steps) := by
  have hproved : ∃ report,
      (prover.prove (Goal.start ⟨original, .trivial⟩ ⟨target, .trivial⟩)
        { environment := () }).1.1 = .ok report ∧ report.status = .proved :=
    Goal.exists_report (by decide +kernel)
  obtain ⟨report, hreport, hstatus⟩ := hproved
  have horiginal : prover.machine.definition.IsValue original :=
    ⟨.app _ _ rfl (List.forall_mem_singleton.2 (.token _ _)), rfl⟩
  have htarget : prover.machine.definition.PlainPattern target := .app _ _ rfl (List.forall_mem_nil _)
  obtain ⟨-, hexact, -⟩ := prover.prove_exact plainRules_prover horiginal htarget hreport
  exact ⟨report, hreport, hstatus, hexact hstatus⟩

end Cycling

end SymbolicRewriting
