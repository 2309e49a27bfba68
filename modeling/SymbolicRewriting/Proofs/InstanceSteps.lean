import SymbolicRewriting.Oracle.Syntactic
import SymbolicRewriting.Proofs.Coverage
import SymbolicRewriting.Proofs.DirectSteps
import SymbolicRewriting.Proofs.InstanceMatches

/-!
Steps of instances. Each successor of a symbolic step comes from a match of a rule, and where the
equations of the match hold, the instance of the successor is a successor of the instance of the state.
-/

namespace SymbolicRewriting

open List

variable {σ : Type}

namespace Term

/-- Collections closed by equal terms are equal if their own cells are. -/
theorem EqualTo.closeWith {left right : Term} (hequal : left.EqualTo right)
    {cells others : List (Cell Term)} (hcells : Forall₂ CellsEqual cells others)
    (frame : Option Variable) :
    (Term.closeWith cells frame (some left)).EqualTo (Term.closeWith others frame (some right)) := by
  cases hequal.sameForm with
  | collection inner hperm hpaired =>
      exact equal_collection_iff.2 ⟨rfl, _, hperm.append_left _, rel_append hcells hpaired⟩
  | var v => exact equal_collection hcells (some v)
  | token _ _ | app _ _ | sequence _ _ => exact equal_collection hcells frame

/-- Two substitutions bind each variable of the term, and to equal terms. -/
def BoundAlike (subst other : Substitution) (term : Term) : Prop :=
  ∀ v ∈ term.vars, ∃ value value', subst.get? v = some value ∧ other.get? v = some value' ∧
    value.EqualTo value'

theorem BoundAlike.child {subst other : Substitution} {term child : Term}
    (hbound : BoundAlike subst other term) (hchild : child ∈ term.children) :
    BoundAlike subst other child :=
  fun v hv => hbound v (vars_subset_of_mem_children hchild hv)

theorem BoundAlike.instantiate {subst other : Substitution} {term : Term}
    (hbound : BoundAlike subst other term) :
    (term.instantiate subst).EqualTo (term.instantiate other) := by
  induction term using nestedInduction with
  | token sort value => exact beq_refl _
  | var v =>
      obtain ⟨value, value', hget, hget', hequal⟩ :=
        hbound v (mem_vars_iff.2 ⟨_, self_mem_subterms _, rfl⟩)
      rw [instantiate_var hget, instantiate_var hget']
      exact hequal
  | app label args ih =>
      rw [instantiate_app, instantiate_app]
      refine equal_app label (forall₂_map_left_iff.2 (forall₂_map_right_iff.2 (forall₂_same.2 ?_)))
      exact fun arg hmem => ih arg hmem (hbound.child hmem)
  | sequence op items ih =>
      rw [Term.instantiate, Term.instantiate, instantiateAll_eq_map, instantiateAll_eq_map]
      refine equal_flatten op (forall₂_map_left_iff.2 (forall₂_map_right_iff.2 (forall₂_same.2 ?_)))
      exact fun item hmem => ih item hmem (hbound.child hmem)
  | collection cells frame ih =>
      have hcells : Forall₂ CellsEqual (cells.map (Cell.instantiate subst))
          (cells.map (Cell.instantiate other)) := by
        refine forall₂_map_left_iff.2 (forall₂_map_right_iff.2 (forall₂_same.2 fun cell hmem => ?_))
        exact cellsEqual_iff.2 ⟨rfl, ih cell hmem (hbound.child (List.mem_map_of_mem hmem))⟩
      rw [Term.instantiate, Term.instantiate, instantiateCells_eq_map, instantiateCells_eq_map]
      cases frame with
      | none => exact equal_collection hcells none
      | some v =>
          obtain ⟨value, value', hget, hget', hequal⟩ :=
            hbound v (mem_vars_iff.2 ⟨_, self_mem_subterms _, rfl⟩)
          rw [frameBinding, frameBinding, Option.bind_some, Option.bind_some, hget, hget']
          exact hequal.closeWith hcells (some v)

end Term

namespace PathCondition

theorem contains_assumeAll {propositions : List Term} {path : PathCondition} {conjunct : Term}
    (hcontains : path.contains conjunct = true ∨ conjunct ∈ propositions) :
    (path.assumeAll propositions).contains conjunct = true := by
  induction propositions generalizing path with
  | nil => exact hcontains.resolve_right List.not_mem_nil
  | cons first propositions ih =>
      refine ih ?_
      rcases hcontains with hold | hmem
      · exact .inl (contains_assume_of_contains hold first)
      · rcases List.mem_cons.1 hmem with rfl | hlater
        · exact .inl (contains_assume path conjunct)
        · exact .inr hlater

theorem HoldsAt.right {path other : PathCondition} {θ : Substitution}
    (hholds : (path.and other).HoldsAt θ) : other.HoldsAt θ :=
  fun _ _ hmem => hholds.equalTo (contains_assumeAll (.inr hmem))

end PathCondition

namespace Definition

variable {definition : Definition} {use : Variable → Place} {pattern subject : Term}

/-- What is built from the bindings of a match and then instantiated is built from the instances of
the bindings. -/
theorem applySubst_instantiate_of_found
    (hpattern : pattern.Conforms (.over (Variable.UsedAs use)) .alone)
    (hsubject : subject.Flattened) {found : StructuralMatch}
    (hfound : found ∈ (definition.matchPattern pattern subject).found) {term : Term}
    (hterm : term.Conforms (.over (Variable.UsedAs use)) .alone) (hcovers : found.subst.Covers term)
    (θ : Substitution) :
    (term.instantiate found.subst).applySubst θ = term.instantiate (found.subst.andThen θ) := by
  obtain ⟨last, hreaches, -, rfl⟩ := mem_found_matchPattern_iff.1 hfound
  have hconforms := (Branch.conforms_start (.inl hpattern)
    (Or.inl hsubject : subject.Single (.over _))).reaches hreaches
  refine Term.applySubst_instantiate hterm hcovers (fun v bound hframe hget => ?_)
    (last.subst.realizes_andThen θ)
  obtain ⟨-, place, hused, hyields⟩ := hconforms.findings.bound v bound hget
  obtain rfl : place = .frame := hused.1.2 (hframe.1.1 rfl)
  exact hyields

/-- A rule that asks for a match only, builds from the variables of the match only, and uses each
variable in one way. -/
structure Regular (definition : Definition) (rule : Rule) : Prop extends definition.Direct rule where
  vars : rule.rhs.vars ⊆ rule.lhs.vars
  uses : ∃ use, rule.lhs.Conforms (.over (Variable.UsedAs use)) .alone ∧
    rule.rhs.Conforms (.over (Variable.UsedAs use)) .alone

end Definition

namespace Machine

variable {machine : Machine σ} {state : ConstrainedTerm}

/-- The successor comes from the match: it is built by the rule, under the equations of the match. -/
structure TakenBy (machine : Machine σ) (state : ConstrainedTerm) (rule : Rule)
    (found : StructuralMatch) (successor : Successor) : Prop where
  candidate : rule ∈ machine.definition.candidates state.term
  found_mem : found ∈ (machine.definition.matchPattern rule.lhs state.term).found
  id : successor.rule = rule.id
  term : (rule.rhs.instantiate found.subst).Alike successor.state.term
  condition : successor.state.condition = state.condition.and found.constraints

theorem exists_takenBy
    (hrules : ∀ rule ∈ machine.definition.rewriteRules, machine.definition.Direct rule)
    (hrefined : ∀ subst path asked answered other,
      machine.oracle.refine subst path asked = (.refined other, answered) → other = subst)
    {start next : RunState σ} {step : SymbolicStep}
    (hrun : machine.stepSymbolic state start = .ok step next) :
    ∀ successor ∈ step.successors, ∃ rule found, machine.TakenBy state rule found successor := by
  obtain ⟨guarded, between, hguarded, hcomplete⟩ := Run.bind_eq_ok.1 hrun
  obtain ⟨hsuccessors, -⟩ := completion_of_completeStep hcomplete
  have htaken : guarded.All fun successor _ =>
      ∃ rule found, machine.TakenBy state rule found successor := by
    refine machine.ensures_symbolicRules (fun rule hcandidate => ?_) (by simp [Guarded.All]) _ _ _
      hguarded
    have hfounds : (machine.matchRuleUnder rule state.term state.condition).Ensures fun results =>
        ∀ found ∈ results.found.toList,
          ∃ structural ∈ (machine.definition.matchPattern rule.lhs state.term).found,
            found = ⟨structural.subst, structural.constraints⟩ := by
      refine machine.ensures_matchRuleUnder (fun structural hmem _ => ⟨structural, hmem, rfl⟩) ?_
      intro structural hmem subst asked answered hanswer
      rw [hrefined _ _ _ _ _ hanswer]
      exact ⟨structural, hmem, rfl⟩
    refine hfounds.mono fun results hresults found hfound => ?_
    obtain ⟨structural, hmem, rfl⟩ := hresults found hfound
    have hdirect := hrules rule (Definition.mem_rewriteRules_of_mem_candidates hcandidate)
    refine (yields_symbolicMatch state hdirect _).ensures.mono ?_
    rintro _ ⟨built, hbuilt, rfl⟩ successor guard ⟨⟩
    exact ⟨rule, structural, hcandidate, hmem, rfl, hbuilt, rfl⟩
  intro successor hmem
  rw [hsuccessors] at hmem
  obtain ⟨taken, hmember, rfl⟩ := List.mem_map.1 hmem
  exact htaken taken hmember

/-- The instance of the successor is what the rule builds from a match of the instance of the state that
agrees with the one the successor comes from. -/
theorem TakenBy.applySubst_equalTo {rule : Rule} {found : StructuralMatch} {successor : Successor}
    (htaken : machine.TakenBy state rule found successor) (hvars : rule.rhs.vars ⊆ rule.lhs.vars)
    {use : Variable → Place} (hlhs : rule.lhs.Conforms (.over (Variable.UsedAs use)) .alone)
    (hrhs : rule.rhs.Conforms (.over (Variable.UsedAs use)) .alone)
    (hflattened : state.term.Flattened) {subst θ : Substitution}
    (hagrees : ∀ v ∈ rule.lhs.vars, ∃ value recovered,
      (found.subst.andThen θ).get? v = some value ∧ subst.get? v = some recovered ∧
        (recovered == value) = true) :
    (successor.state.term.applySubst θ).EqualTo (rule.rhs.instantiate subst) := by
  have hcovers : found.subst.Covers rule.rhs := by
    intro v hv
    obtain ⟨value, -, hget, -⟩ := hagrees v (hvars hv)
    rw [Substitution.get?_andThen, Option.map_eq_some_iff] at hget
    obtain ⟨bound, hbound, -⟩ := hget
    exact Option.isSome_of_eq_some hbound
  have hsame : Term.BoundAlike (found.subst.andThen θ) subst rule.rhs := by
    intro v hv
    obtain ⟨value, recovered, hvalue, hrecovered, hequal⟩ := hagrees v (hvars hv)
    exact ⟨value, recovered, hvalue, hrecovered, Term.beq_symm hequal⟩
  calc
    Term.EqualTo (successor.state.term.applySubst θ)
        ((rule.rhs.instantiate found.subst).applySubst θ) :=
      Term.EqualTo.applySubst (Term.beq_of_withoutIds_eq htaken.term.symm) θ
    _ = rule.rhs.instantiate (found.subst.andThen θ) :=
      Definition.applySubst_instantiate_of_found hlhs hflattened htaken.found_mem hrhs hcovers θ
    Term.EqualTo _ (rule.rhs.instantiate subst) := hsame.instantiate

/-- Where its equations hold, the instance of a successor is a successor of the instance of the state,
unless an item of the left side stands for a sequence, which instantiation splices. -/
theorem TakenBy.yields_instance {declarations : List Declaration}
    (hdefinition : machine.definition = .assemble declarations)
    (htop : ∀ pair ∈ Declaration.subsorts declarations, pair.1 ≠ Symbol.top)
    (hrules : ∀ rule ∈ machine.definition.rewriteRules, machine.definition.Regular rule)
    {rule : Rule} {found : StructuralMatch} {successor : Successor}
    (htaken : machine.TakenBy state rule found successor)
    {θ : Substitution} (hgrounds : state.term.Conforms (.over (machine.definition.Grounds θ)) .alone)
    (hkeeps : rule.lhs.Conforms (.over (found.subst.andThen θ).KeepsItems) .alone)
    (hholds : successor.state.condition.HoldsAt θ) :
    (machine.successors (state.term.applySubst θ)).Yields fun results =>
      ∃ result ∈ results, result.1 = successor.rule ∧
        (result.2 == successor.state.term.applySubst θ) = true := by
  have hrule : rule ∈ machine.definition.rewriteRules :=
    Definition.mem_rewriteRules_of_mem_candidates htaken.candidate
  have hregular := hrules rule hrule
  obtain ⟨use, hlhs, hrhs⟩ := hregular.uses
  rw [htaken.condition] at hholds
  have hequations := hholds.right
  obtain ⟨haccepted, -⟩ :=
    Definition.accepted_instance hlhs hgrounds htaken.found_mem hkeeps hequations
  obtain ⟨subst, hmatch, hagrees⟩ := Definition.exists_concreteMatch_instance hdefinition htop hlhs
    hgrounds htaken.found_mem hkeeps hequations
  -- The rule is a candidate for the instance, and its match there gives the result.
  have hcandidate : rule ∈ machine.definition.candidates (state.term.instantiate θ) := by
    rw [Definition.candidates_eq_filter]
    exact List.mem_filter.2 ⟨hrule, haccepted.mayMatchTop⟩
  have hresult : (rule.id, rule.rhs.instantiate subst) ∈
      machine.definition.rewrites (state.term.applySubst θ) := by
    rw [hgrounds.applySubst_eq]
    exact List.mem_flatMap.2 ⟨rule, hcandidate, List.mem_map.2 ⟨subst, hmatch, rfl⟩⟩
  have hflattened : state.term.Flattened :=
    hgrounds.mono (fun _ _ _ => True.intro) (fun _ hop => hop) fun hcollection => hcollection
  have hinstance := htaken.applySubst_equalTo hregular.vars hlhs hrhs hflattened hagrees
  have hdirect := fun other hmem => (hrules other hmem).toDirect
  refine (yields_successors hdirect _).mono fun results hresults => ?_
  obtain ⟨result, hmem, halike⟩ := exists_mem_of_forall₂ hresults.flip hresult
  refine ⟨result, hmem, halike.1.symm.trans htaken.id.symm, ?_⟩
  have hequal : result.2.EqualTo (rule.rhs.instantiate subst) :=
    Term.beq_of_withoutIds_eq halike.2.symm
  exact hequal.trans hinstance.symm

/-- Symbolic successors are real. Each one comes from a match, and its instances that satisfy the
equations of its condition are successors of the instances of the state, unless an item of the left side
stands for a sequence, which instantiation splices. -/
theorem stepSymbolic_instances {declarations : List Declaration}
    (hdefinition : machine.definition = .assemble declarations)
    (htop : ∀ pair ∈ Declaration.subsorts declarations, pair.1 ≠ Symbol.top)
    (hrules : ∀ rule ∈ machine.definition.rewriteRules, machine.definition.Regular rule)
    (hrefined : ∀ subst path asked answered other,
      machine.oracle.refine subst path asked = (.refined other, answered) → other = subst)
    {start next : RunState σ} {step : SymbolicStep}
    (hrun : machine.stepSymbolic state start = .ok step next) :
    ∀ successor ∈ step.successors,
      (∃ rule found, machine.TakenBy state rule found successor) ∧
        ∀ rule found, machine.TakenBy state rule found successor →
          ∀ θ, state.term.Conforms (.over (machine.definition.Grounds θ)) .alone →
            rule.lhs.Conforms (.over (found.subst.andThen θ).KeepsItems) .alone →
              successor.state.condition.HoldsAt θ →
                (machine.successors (state.term.applySubst θ)).Yields fun results =>
                  ∃ result ∈ results, result.1 = successor.rule ∧
                    (result.2 == successor.state.term.applySubst θ) = true := by
  intro successor hmem
  have hdirect := fun rule hrule => (hrules rule hrule).toDirect
  exact ⟨exists_takenBy hdirect hrefined hrun successor hmem,
    fun rule found htaken θ hgrounds hkeeps hholds =>
      htaken.yields_instance hdefinition htop hrules hgrounds hkeeps hholds⟩

end Machine

namespace PathCondition

theorem equalityOf?_eq_some_iff {conjunct left right : Term} :
    conjunct.equalityOf? = some (left, right) ↔ conjunct = .equal left right := by
  constructor
  · intro hsome
    unfold Term.equalityOf? at hsome
    split at hsome
    · split at hsome
      · rename_i hlabel
        cases hsome
        rw [hlabel]
        rfl
      · cases hsome
    · cases hsome
  · rintro rfl
    rfl

theorem holdsAt_iff {θ : Substitution} {path : PathCondition} :
    path.HoldsAt θ ↔ ∀ conjunct ∈ path.conjuncts, conjunct.equalityOf?.all (fun sides =>
      sides.1.applySubst θ == sides.2.applySubst θ) = true := by
  constructor
  · intro hholds conjunct hmem
    cases hsides : conjunct.equalityOf? with
    | none => rfl
    | some sides => exact hholds sides.1 sides.2 (equalityOf?_eq_some_iff.1 hsides ▸ hmem)
  · intro hall left right hmem
    have hsides := hall _ hmem
    rwa [equalityOf?_eq_some_iff.2 rfl] at hsides

instance (θ : Substitution) (path : PathCondition) : Decidable (path.HoldsAt θ) :=
  decidable_of_iff _ holdsAt_iff.symm

end PathCondition

namespace Splicing

def repeated : Variable := ⟨"X", Symbol.top, .plain⟩

def unknown : Variable := ⟨"Y", Symbol.top, .plain⟩

/-- The rule asks for its first argument again, as the first item of a sequence. -/
def rule : RuleBody where
  lhs := .app "f" [.var repeated, .app "g" [.sequence Symbol.sequencing [.var repeated, .int 1]]]
  rhs := .app "r" [.var repeated]

def machine : Machine Unit where
  definition := .assemble [.rule rule]
  oracle := DecisionProcedure.syntactic.toOracle Unit

def state (first : Term) : ConstrainedTerm := ⟨.app "f" [first, .var unknown], .trivial⟩

def instances (items : List Term) : Substitution :=
  { bindings := [(unknown, .app "g" [.sequence Symbol.sequencing items])] }

theorem rewriteRules_machine : machine.definition.rewriteRules = [{ rule with id := 0 }] := by rfl

theorem ne_top_of_mem_subsorts :
    ∀ pair ∈ Declaration.subsorts [.rule rule], pair.1 ≠ Symbol.top := by
  simp [Declaration.subsorts]

theorem regular_rules :
    ∀ rule ∈ machine.definition.rewriteRules, machine.definition.Regular rule := by
  rw [rewriteRules_machine, List.forall_mem_singleton]
  refine ⟨⟨rfl, by decide +kernel, ?_⟩, by decide +kernel, fun _ => .alone, ?_⟩
  · rintro part - ⟨label, args, rfl, hlabel⟩
    cases hlabel
  · simp [rule, Variable.UsedAs, repeated, Variable.isRest, Term.int]

theorem eq_of_refine (subst : Substitution) (path : PathCondition) (asked answered : Unit)
    (other : Substitution)
    (hanswer : machine.oracle.refine subst path asked = (.refined other, answered)) :
    other = subst := by
  replace hanswer : DecisionProcedure.syntacticRefine subst path = .refined other :=
    congrArg Prod.fst hanswer
  unfold DecisionProcedure.syntacticRefine at hanswer
  split at hanswer
  · cases hanswer
  · exact (Refinement.refined.inj hanswer).symm

theorem conforms_state {first : Term} {items : List Term} (hfirst : first.Conforms .ground .alone)
    (hitems : (Term.sequence Symbol.sequencing items).Conforms .ground .alone) :
    (state first).term.Conforms (.over (machine.definition.Grounds (instances items))) .alone := by
  have hvalue : (Term.app "g" [.sequence Symbol.sequencing items]).Conforms .ground .alone :=
    Term.conforms_app_iff.2 (List.forall_mem_singleton.2 hitems)
  obtain ⟨hflattened, hground⟩ := Term.conforms_ground_iff.1 hvalue
  have hunknown : machine.definition.Grounds (instances items) unknown .alone := by
    refine ⟨⟨_, rfl, hflattened, hground, rfl⟩, ?_⟩
    rintro - value hget
    cases hget
    rfl
  have hmono : first.Conforms (.over (machine.definition.Grounds (instances items))) .alone :=
    hfirst.mono (fun _ _ hfalse => hfalse.elim) (fun _ hop => hop) fun hcollection => hcollection
  exact Term.conforms_app_iff.2
    (List.forall_mem_cons.2 ⟨hmono, List.forall_mem_singleton.2 (.var hunknown)⟩)

/-- The sequence that stands for the repeated variable. -/
def pair : Term := .sequence Symbol.sequencing [.int 1, .int 2]

/-- The instance of the sequence that the rule asks for, which has one item more than the rule has. -/
def spliced : Substitution := instances [.int 1, .int 2, .int 1]

theorem not_yields_spliced :
    (∀ pair ∈ Declaration.subsorts [.rule rule], pair.1 ≠ Symbol.top) ∧
    (∀ rule ∈ machine.definition.rewriteRules, machine.definition.Regular rule) ∧
    (∀ subst path asked answered other,
      machine.oracle.refine subst path asked = (.refined other, answered) → other = subst) ∧
    ∃ step next, machine.stepSymbolic (state pair) { environment := () } = .ok step next ∧
      ∃ successor ∈ step.successors,
        (state pair).term.Conforms (.over (machine.definition.Grounds spliced)) .alone ∧
        successor.state.condition.HoldsAt spliced ∧
        ¬(machine.successors ((state pair).term.applySubst spliced)).Yields fun results =>
          ∃ result ∈ results, result.1 = successor.rule ∧
            (result.2 == successor.state.term.applySubst spliced) = true := by
  have hsucceeds : (machine.stepSymbolic (state pair)).succeedsWith { environment := () }
      (fun step => step.successors.any fun successor =>
        decide (successor.state.condition.HoldsAt spliced)) = true := by
    decide +kernel
  have hstuck : (machine.successors ((state pair).term.applySubst spliced)).succeedsWith
      { environment := () } List.isEmpty = true := by
    decide +kernel
  obtain ⟨step, next, hrun, htest⟩ := Run.exists_of_succeedsWith hsucceeds
  obtain ⟨successor, hmem, hholds⟩ := List.any_eq_true.1 htest
  have hground : (state pair).term.Conforms (.over (machine.definition.Grounds spliced)) .alone :=
    conforms_state (by simp [pair, Term.int, Grammar.ground]) (by simp [Term.int, Grammar.ground])
  refine ⟨ne_top_of_mem_subsorts, regular_rules, eq_of_refine, step, next, hrun, successor, hmem,
    hground, of_decide_eq_true hholds, fun hyields => ?_⟩
  obtain ⟨results, last, hresults, hempty⟩ := Run.exists_of_succeedsWith hstuck
  obtain ⟨result, hresult, -⟩ := hyields.ensures _ _ _ hresults
  rw [List.isEmpty_iff.1 hempty] at hresult
  cases hresult

/-- An instance of the sequence that has as many items as the rule has. -/
def kept : Substitution := instances [.int 2, .int 1]

theorem keepsItems_kept {taken : Rule} {found : StructuralMatch} {successor : Successor}
    (htaken : machine.TakenBy (state (.int 2)) taken found successor) :
    taken.lhs.Conforms (.over (found.subst.andThen kept).KeepsItems) .alone := by
  have hrule :=
    Definition.mem_rewriteRules_of_mem_candidates htaken.candidate
  rw [rewriteRules_machine, List.mem_singleton] at hrule
  have hlhs : taken.lhs = rule.lhs := congrArg (·.lhs) hrule
  have hall : (machine.definition.matchPattern rule.lhs (state (.int 2)).term).found.all
      (fun found => ((found.subst.andThen kept).get? repeated).all
        (!·.isSequenceOver Symbol.sequencing)) = true := by
    decide +kernel
  have hfound := htaken.found_mem
  rw [hlhs] at hfound ⊢
  have hitem : (found.subst.andThen kept).KeepsItems repeated (.item Symbol.sequencing) := by
    rintro op bound ⟨⟩ - hget
    have hsingle := Array.all_eq_true'.1 hall found hfound
    rw [hget] at hsingle
    simpa using hsingle
  have halone : (found.subst.andThen kept).KeepsItems repeated .alone := by
    rintro op bound ⟨⟩
  simp [rule, Term.int, hitem, halone]

theorem stepSymbolic_instances_kept :
    (∀ rule ∈ machine.definition.rewriteRules, machine.definition.Regular rule) ∧
    ∃ step next, machine.stepSymbolic (state (.int 2)) { environment := () } = .ok step next ∧
      ∃ successor ∈ step.successors,
        (state (.int 2)).term.Conforms (.over (machine.definition.Grounds kept)) .alone ∧
        successor.state.condition.HoldsAt kept ∧
        (∃ rule found, machine.TakenBy (state (.int 2)) rule found successor ∧
          rule.lhs.Conforms (.over (found.subst.andThen kept).KeepsItems) .alone) ∧
        (machine.successors ((state (.int 2)).term.applySubst kept)).Yields fun results =>
          ∃ result ∈ results, result.1 = successor.rule ∧
            (result.2 == successor.state.term.applySubst kept) = true := by
  have hsucceeds : (machine.stepSymbolic (state (.int 2))).succeedsWith { environment := () }
      (fun step => step.successors.any fun successor =>
        decide (successor.state.condition.HoldsAt kept)) = true := by
    decide +kernel
  obtain ⟨step, next, hrun, htest⟩ := Run.exists_of_succeedsWith hsucceeds
  obtain ⟨successor, hmem, htest⟩ := List.any_eq_true.1 htest
  have hholds := of_decide_eq_true htest
  obtain ⟨⟨rule, found, htaken⟩, hinstances⟩ := Machine.stepSymbolic_instances rfl
    ne_top_of_mem_subsorts regular_rules eq_of_refine hrun successor hmem
  have hgrounds : (state (.int 2)).term.Conforms (.over (machine.definition.Grounds kept)) .alone :=
    conforms_state (by simp [Term.int]) (by simp [Term.int, Grammar.ground])
  have hkeeps := keepsItems_kept htaken
  exact ⟨regular_rules, step, next, hrun, successor, hmem, hgrounds, hholds,
    ⟨rule, found, htaken, hkeeps⟩, hinstances rule found htaken kept hgrounds hkeeps hholds⟩

end Splicing

end SymbolicRewriting
