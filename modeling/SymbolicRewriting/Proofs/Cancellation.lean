import Mathlib.Data.List.Induction
import SymbolicRewriting.Proofs.Levels

/-!
A search that is told to stop leaves leaves open, but it settles none of them for that reason. That
a state is found to be covered can be trusted at any time. That it is found not to be covered can be
trusted if the search has not been told to stop until then, and a leaf is expanded or ends a branch
only after the search has asked once more: whoever has been told to stop once is told so again.
-/

namespace SymbolicRewriting

open Relation

variable {σ : Type}

/-- The answers of the oracle depend on the question alone, whatever it does to its surroundings. -/
structure Oracle.AnswersBy (oracle : Oracle σ) (procedure : DecisionProcedure) : Prop where
  decide : ∀ path proposition state,
    (oracle.decide path proposition state).1 = procedure.decide path proposition
  refine : ∀ subst path state, (oracle.refine subst path state).1 = procedure.refine subst path
  implies : ∀ premise conclusion state,
    (oracle.implies premise conclusion state).1 = procedure.implies premise conclusion

theorem DecisionProcedure.answersBy_toOracle (procedure : DecisionProcedure) (σ : Type) :
    (procedure.toOracle σ).AnswersBy procedure where
  decide _ _ _ := rfl
  refine _ _ _ := rfl
  implies _ _ _ := rfl

/-- The oracle may ask for an end while it answers. -/
example (procedure : DecisionProcedure) :
    let oracle : Oracle Bool :=
      { decide := fun path proposition _ => (procedure.decide path proposition, true)
        refine := fun subst path _ => (procedure.refine subst path, true)
        implies := fun premise conclusion _ => (procedure.implies premise conclusion, true) }
    oracle.AnswersBy procedure :=
  ⟨fun _ _ _ => rfl, fun _ _ _ => rfl, fun _ _ _ => rfl⟩

namespace Prover

variable {prover : Prover σ} {procedure : DecisionProcedure}

/-- The search that nobody tells to stop. -/
def undisturbed (prover : Prover σ) : Prover σ :=
  { prover with stopSource := fun environment => (false, environment) }

/-- Nobody tells the search to stop. -/
def Quiet (prover : Prover σ) : Prop :=
  ∀ environment, (prover.stopSource environment).1 = false

/-- Does the match show that the state is an instance of the pattern? -/
def accepts (procedure : DecisionProcedure) (pattern state : ConstrainedTerm)
    (found : StructuralMatch) : Bool :=
  (obligation pattern found).isTrivial ||
    procedure.implies state.condition (obligation pattern found) == .holds

/-- The truth about an instance, as far as matching and the procedure tell it. -/
def coverage (prover : Prover σ) (procedure : DecisionProcedure)
    (pattern state : ConstrainedTerm) : Bool :=
  (prover.machine.definition.matchPattern pattern.term state.term).found.toList.any
    (accepts procedure pattern state)

/-- This is what comes out where the search is not told to stop. -/
def Covers (prover : Prover σ) (pattern state : ConstrainedTerm) (answer : Bool) : Prop :=
  ∀ start, start.cancelled = false →
    ∃ next, prover.undisturbed.covers pattern state start = .ok answer next

/-- The run gives the answer or, if it has been told to stop, says no. It takes nothing back. -/
structure Tells (prover : Prover σ) (truth answer : Bool) (start next : RunState σ) : Prop where
  answer : answer = truth ∨ answer = false ∧ next.cancelled = true
  stays : start.cancelled = true → next.cancelled = true
  quiet : prover.Quiet → start.cancelled = false → next.cancelled = false

theorem Tells.eq_of_not_cancelled {truth answer : Bool} {start next : RunState σ}
    (htells : prover.Tells truth answer start next) (hnext : next.cancelled = false) :
    answer = truth := by
  rcases htells.answer with htruth | ⟨-, hstopped⟩
  · exact htruth
  · rw [hnext] at hstopped
    cases hstopped

theorem Tells.truth_of_yes {truth : Bool} {start next : RunState σ}
    (htells : prover.Tells truth true start next) : truth = true := by
  rcases htells.answer with htruth | ⟨hno, -⟩
  · exact htruth.symm
  · cases hno

/-- Whoever has been told to stop is told so again. -/
theorem stopped_spec (prover : Prover σ) (start : RunState σ) :
    ∃ stop next, prover.stopped start = .ok stop next ∧ next.cancelled = stop ∧
      (start.cancelled = true → stop = true) ∧
      (prover.Quiet → start.cancelled = false → stop = false) := by
  unfold stopped Run.pollCancelled
  cases hcancelled : start.cancelled with
  | true =>
      refine ⟨true, start, ?_, hcancelled, fun _ => rfl, fun _ hfalse => (by cases hfalse)⟩
      exact Run.bind_eq_ok.2 ⟨start, start, rfl, by rw [hcancelled]; rfl⟩
  | false =>
      let asked := prover.stopSource start.environment
      refine ⟨asked.1, { start with environment := asked.2, cancelled := asked.1 }, ?_, rfl,
        fun htrue => (by cases htrue), fun hquiet _ => hquiet start.environment⟩
      exact Run.bind_eq_ok.2 ⟨start, start, rfl, by rw [hcancelled]; rfl⟩

theorem stopped_eq_ok {start next : RunState σ} {stop : Bool}
    (hrun : prover.stopped start = .ok stop next) :
    next.cancelled = stop ∧ (start.cancelled = true → stop = true) := by
  obtain ⟨stop', next', hrun', hstopped, hstays, -⟩ := prover.stopped_spec start
  rw [hrun] at hrun'
  cases hrun'
  exact ⟨hstopped, hstays⟩

/-- From wherever the run starts, it tells the answer. -/
def Heeds (prover : Prover σ) (run : Run σ Bool) (truth : Bool) : Prop :=
  ∀ start, ∃ answer next, run start = .ok answer next ∧ prover.Tells truth answer start next

namespace Heeds

theorem of_pure (prover : Prover σ) (truth : Bool) : prover.Heeds (pure truth) truth :=
  fun start => ⟨truth, start, rfl, .inl rfl, id, fun _ => id⟩

theorem bind_of_forall {α : Type} {run : Run σ α} {continuation : α → Run σ Bool}
    {values : α → Prop} {truth : Bool}
    (hrun : ∀ start, ∃ value next, run start = .ok value next ∧ values value ∧
      next.cancelled = start.cancelled)
    (hcontinuation : ∀ value, values value → prover.Heeds (continuation value) truth) :
    prover.Heeds (run >>= continuation) truth := by
  intro start
  obtain ⟨value, between, hvalue, hallowed, hcancelled⟩ := hrun start
  obtain ⟨answer, next, hanswer, htells⟩ := hcontinuation value hallowed between
  refine ⟨answer, next, Run.bind_eq_ok.2 ⟨value, between, hvalue, hanswer⟩, htells.answer, ?_, ?_⟩
  · rw [← hcancelled]
    exact htells.stays
  · rw [← hcancelled]
    exact htells.quiet

theorem bind {α : Type} {run : Run σ α} {continuation : α → Run σ Bool} {value : α} {truth : Bool}
    (hrun : ∀ start, ∃ next, run start = .ok value next ∧ next.cancelled = start.cancelled)
    (hcontinuation : prover.Heeds (continuation value) truth) :
    prover.Heeds (run >>= continuation) truth := by
  have hsame : ∀ start, ∃ result next, run start = .ok result next ∧ result = value ∧
      next.cancelled = start.cancelled := fun start =>
    let ⟨next, hvalue, hcancelled⟩ := hrun start
    ⟨value, next, hvalue, rfl, hcancelled⟩
  refine bind_of_forall hsame ?_
  rintro _ rfl
  exact hcontinuation

theorem unless_stopped {run : Run σ Bool} {truth : Bool} (hrun : prover.Heeds run truth) :
    prover.Heeds (do if ← prover.stopped then pure false else run) truth := by
  intro start
  obtain ⟨stop, polled, hpoll, hstopped, hstays, hquiet⟩ := prover.stopped_spec start
  cases stop with
  | true =>
      exact ⟨false, polled, Run.bind_eq_ok.2 ⟨true, polled, hpoll, rfl⟩, .inr ⟨rfl, hstopped⟩,
        fun _ => hstopped, fun hnever hstart => (by cases hquiet hnever hstart)⟩
  | false =>
      obtain ⟨answer, next, hanswer, htells⟩ := hrun polled
      exact ⟨answer, next, Run.bind_eq_ok.2 ⟨false, polled, hpoll, hanswer⟩, htells.answer,
        fun hstart => (by cases hstays hstart), fun hnever _ => htells.quiet hnever hstopped⟩

end Heeds

/-- What the examination says of the leaf is so. -/
def Correct (prover : Prover σ) (procedure : DecisionProcedure) (target : ConstrainedTerm)
    (visited : List ProofNode) (leaf : ProofNode) (examination : Examination) : Prop :=
  match examination with
  | .skipped => True
  | .target => prover.coverage procedure target leaf.state = true
  | .circular earlier => ∃ node ∈ closing visited leaf, node.id = earlier ∧
      prover.coverage procedure node.state leaf.state = true
  | .stepped step => prover.coverage procedure target leaf.state = false ∧
      ∃ start next, prover.machine.stepSymbolic leaf.state start = .ok step next

/-- The leaf is in the frontier of a level before which a node of another base, which covers it, has
been expanded. -/
def ClosedBy (prover : Prover σ) (goal : Goal) (state : RunState σ) (leaf : ProofNode)
    (earlier : NodeId) : Prop :=
  ∃ search between, ReflTransGen (prover.NextLevel goal.target)
      (goal.resumed, { state with cancelled := false }) (search, between) ∧
    leaf ∈ search.frontier ∧ ∃ node, search.tree.node? earlier = some node ∧
      node.status.isExpanded = true ∧ node.base ≠ leaf.base ∧
      prover.Covers node.state leaf.state true

/-- An examination of a leaf has a ground if it says what comes out where the search is not told to
stop. -/
def Grounds (prover : Prover σ) (goal : Goal) (state : RunState σ) (leaf : ProofNode)
    (examination : Examination) : Prop :=
  match examination with
  | .skipped => False
  | .target => prover.Covers goal.target leaf.state true
  | .circular earlier => prover.ClosedBy goal state leaf earlier
  | .stepped step => prover.Covers goal.target leaf.state false ∧
      ∃ start next, prover.machine.stepSymbolic leaf.state start = .ok step next

/-- What the status of the node and its transitions say comes out where the search is not told to
stop. -/
def Warrants (prover : Prover σ) (goal : Goal) (state : RunState σ) (tree : ProofTree)
    (node : ProofNode) : Prop :=
  match node.status with
  | .unexamined => False
  | .target => prover.Covers goal.target node.state true
  | .circular earlier => prover.ClosedBy goal state node.reopened earlier
  | .failed | .undecided => prover.Covers goal.target node.state false ∧
      ∃ step start next, prover.machine.stepSymbolic node.state start = .ok step next ∧
        step.successors = []
  | .expanded | .partlyExpanded => prover.Covers goal.target node.state false ∧
      ∃ step start next, prover.machine.stepSymbolic node.state start = .ok step next ∧
        tree.LeadsTo node.id step.children

variable (hanswers : prover.machine.oracle.AnswersBy procedure)
include hanswers

theorem implies_spec (premise conclusion : PathCondition) (start : RunState σ) :
    ∃ next, prover.machine.implies premise conclusion start =
      .ok (procedure.implies premise conclusion) next ∧ next.cancelled = start.cancelled := by
  let reply := prover.machine.oracle.implies premise conclusion start.environment
  have hreply : reply.1 = procedure.implies premise conclusion := hanswers.implies _ _ _
  exact ⟨{ start with environment := reply.2 }, hreply ▸ rfl, rfl⟩

theorem coversBy_heeds (pattern state : ConstrainedTerm) (found : List StructuralMatch) :
    prover.Heeds (prover.coversBy pattern state found)
      (found.any (accepts procedure pattern state)) := by
  induction found with
  | nil => exact .of_pure prover false
  | cons first others ih =>
      unfold coversBy
      dsimp only
      split
      · rename_i htrivial
        rw [List.any_cons, accepts, htrivial, Bool.true_or, Bool.true_or]
        exact .of_pure prover true
      · rename_i hneeded
        refine .unless_stopped (.bind (fun start => ⟨_, rfl, rfl⟩) ?_)
        refine .bind (implies_spec hanswers state.condition (obligation pattern first)) ?_
        rw [List.any_cons, accepts, Bool.eq_false_iff.2 hneeded, Bool.false_or]
        cases procedure.implies state.condition (obligation pattern first) with
        | holds => exact .of_pure prover true
        | fails | unknown => exact ih

theorem covers_heeds (pattern state : ConstrainedTerm) :
    prover.Heeds (prover.covers pattern state) (prover.coverage procedure pattern state) :=
  coversBy_heeds hanswers pattern state _

theorem covers_coverage (pattern state : ConstrainedTerm) :
    prover.Covers pattern state (prover.coverage procedure pattern state) := by
  intro start hstart
  have hundisturbed : prover.undisturbed.machine.oracle.AnswersBy procedure := hanswers
  obtain ⟨answer, next, hrun, htells⟩ := covers_heeds hundisturbed pattern state start
  rw [htells.eq_of_not_cancelled (htells.quiet (fun _ => rfl) hstart)] at hrun
  exact ⟨next, hrun⟩

theorem tells_of_covers {pattern state : ConstrainedTerm} {answer : Bool} {start next : RunState σ}
    (hrun : prover.covers pattern state start = .ok answer next) :
    prover.Tells (prover.coverage procedure pattern state) answer start next := by
  obtain ⟨answer', next', hrun', htells⟩ := covers_heeds hanswers pattern state start
  rw [hrun] at hrun'
  cases hrun'
  exact htells

/-- A node that is said to cover the state does so. -/
theorem coveringNode_sound {state : ConstrainedTerm} {nodes : List ProofNode}
    {found : Option NodeId} {start next : RunState σ}
    (hrun : prover.coveringNode state nodes start = .ok found next) :
    (start.cancelled = true → next.cancelled = true) ∧
      ∀ earlier, found = some earlier → ∃ node ∈ nodes, node.id = earlier ∧
        prover.coverage procedure node.state state = true := by
  induction nodes generalizing start with
  | nil =>
      obtain ⟨rfl, rfl⟩ := Run.pure_eq_ok.1 hrun
      exact ⟨id, fun earlier hnone => (by cases hnone)⟩
  | cons node nodes ih =>
      obtain ⟨answer, between, hcovers, hrest⟩ := Run.bind_eq_ok.1 hrun
      have htells := tells_of_covers hanswers hcovers
      cases answer with
      | true =>
          obtain ⟨rfl, rfl⟩ := Run.pure_eq_ok.1 hrest
          refine ⟨htells.stays, fun earlier hsome => ?_⟩
          exact ⟨node, List.mem_cons_self, Option.some.inj hsome, htells.truth_of_yes⟩
      | false =>
          obtain ⟨hstays, hfound⟩ := ih hrest
          refine ⟨fun hstart => hstays (htells.stays hstart), fun earlier hsome => ?_⟩
          obtain ⟨other, hmem, hother⟩ := hfound earlier hsome
          exact ⟨other, List.mem_cons_of_mem _ hmem, hother⟩

theorem examine_correct {target : ConstrainedTerm} {visited : List ProofNode} {leaf : ProofNode}
    {examination : Examination} {start next : RunState σ}
    (hrun : prover.examine target visited leaf start = .ok examination next) :
    prover.Correct procedure target visited leaf examination := by
  obtain ⟨stop, polled, hpoll, hrun⟩ := Run.bind_eq_ok.1 hrun
  cases stop with
  | true =>
      obtain ⟨rfl, -⟩ := Run.pure_eq_ok.1 hrun
      trivial
  | false =>
      obtain ⟨answer, compared, hcovers, hrun⟩ := Run.bind_eq_ok.1 hrun
      have htells := tells_of_covers hanswers hcovers
      cases answer with
      | true =>
          obtain ⟨rfl, -⟩ := Run.pure_eq_ok.1 hrun
          exact htells.truth_of_yes
      | false =>
          obtain ⟨found, searched, hfound, hrun⟩ := Run.bind_eq_ok.1 hrun
          obtain ⟨hstays, hcovering⟩ := coveringNode_sound hanswers hfound
          cases found with
          | some earlier =>
              obtain ⟨rfl, -⟩ := Run.pure_eq_ok.1 hrun
              exact hcovering earlier rfl
          | none =>
              obtain ⟨stop, asked, hpoll, hrun⟩ := Run.bind_eq_ok.1 hrun
              obtain ⟨-, hstopped⟩ := stopped_eq_ok hpoll
              cases stop with
              | true =>
                  obtain ⟨rfl, -⟩ := Run.pure_eq_ok.1 hrun
                  trivial
              | false =>
                  obtain ⟨step, stepped, hstep, hrun⟩ := Run.bind_eq_ok.1 hrun
                  obtain ⟨rfl, -⟩ := Run.pure_eq_ok.1 hrun
                  -- had the comparison been broken off, the search would have been told so again
                  have hundisturbed : compared.cancelled = false :=
                    Bool.eq_false_iff.2 fun hcancelled => by cases hstopped (hstays hcancelled)
                  exact ⟨(htells.eq_of_not_cancelled hundisturbed).symm, asked, stepped, hstep⟩

theorem grounds_of_examined {goal : Goal} (hwell : goal.tree.WellFormed) {state : RunState σ}
    {leaf : ProofNode} {examination : Examination} (hskipped : examination ≠ .skipped)
    (hexamined : prover.Examined goal.target (goal.resumed, { state with cancelled := false }) leaf
      examination) : prover.Grounds goal state leaf examination := by
  obtain ⟨search, between, hlevels, hmem, start, next, hrun⟩ := hexamined
  have hfound := examine_correct hanswers hrun
  unfold Correct at hfound
  cases examination with
  | skipped => exact hskipped rfl
  | target =>
      have hcovers := covers_coverage hanswers goal.target leaf.state
      rwa [hfound] at hcovers
  | circular earlier =>
      obtain ⟨node, hclosing, rfl, hcovers⟩ := hfound
      obtain ⟨hvisited, hne⟩ := List.mem_filter.1 hclosing
      obtain ⟨hsound, -⟩ := sound_of_levels hlevels ⟨sound_resume hwell, rfl⟩
      obtain ⟨status, hnode, hstatus⟩ := hsound.visited node hvisited
      have hcovering := covers_coverage hanswers node.state leaf.state
      rw [hcovers] at hcovering
      exact ⟨search, between, hlevels, hmem, _, hnode, hstatus, by simpa using hne, hcovering⟩
  | stepped step =>
      have hcovers := covers_coverage hanswers goal.target leaf.state
      rw [hfound.1] at hcovers
      exact ⟨hcovers, hfound.2⟩

end Prover

namespace Goal

/-- One of the calls has settled the leaf, which was open until then, and it had a ground if the
answers of its oracle depend on nothing but the question. -/
def Grounded (goal : Goal) (calls : List Prover.Call) (leaf : ProofNode)
    (examination : Examination) : Prop :=
  ∃ prior call later, calls = prior ++ call :: later ∧
    (∀ node, (goal.after prior).tree.node? leaf.id = some node → node.status = .unexamined) ∧
    ∀ procedure, call.prover.machine.oracle.AnswersBy procedure →
      call.prover.Grounds (goal.after prior) call.state leaf examination

theorem Grounded.append {goal : Goal} {calls : List Prover.Call} {leaf : ProofNode}
    {examination : Examination} (hgrounded : goal.Grounded calls leaf examination)
    (more : List Prover.Call) : goal.Grounded (calls ++ more) leaf examination := by
  obtain ⟨prior, call, later, rfl, hground⟩ := hgrounded
  exact ⟨prior, call, later ++ more, by simp, hground⟩

theorem documented_grounded (initial target : ConstrainedTerm) (calls : List Prover.Call) :
    let goal := start initial target
    (goal.after calls).tree.Documented (goal.Grounded calls) initial := by
  intro goal
  induction calls using List.reverseRecOn with
  | nil => exact ProofTree.documented_start _ initial target
  | append_singleton calls call ih =>
      let before := goal.after calls
      have hwell : before.tree.WellFormed := ((Searched.start initial target).after calls).wellFormed
      have hsettles := call.prover.settlesLeaf_prove hwell call.state
      rw [after_append]
      change (call.prover.prove before call.state).1.2.tree.Documented _ initial
      generalize (call.prover.prove before call.state).1.2.tree = last at hsettles
      have hbefore := ih.mono fun _ _ hgrounded => hgrounded.append [call]
      induction hsettles with
      | refl => exact hbefore
      | @tail tree later hprior hsettled hdocumented =>
          obtain ⟨leaf, examination, hexamined, hopen, hsettled⟩ := hsettled
          refine hdocumented.settledBy hopen ⟨calls, call, [], rfl, ?_, ?_⟩ hsettled
          · intro node hnode
            obtain ⟨status, hkept, hsame⟩ :=
              (ProofTree.evolves_of_settlesLeaf hprior).node leaf.id node hnode
            by_contra hne
            have hstatus := hopen.2
            rw [Option.some.inj (hopen.1.symm.trans hkept)] at hstatus
            exact hne ((hsame hne).symm.trans hstatus)
          · intro procedure hanswers
            refine Prover.grounds_of_examined hanswers hwell ?_ hexamined
            rintro rfl
            cases hsettled

/-- Every node that is not open any more was settled by one of the calls while it was open, and what
its status and its transitions say comes out where the search is not told to stop. This holds of an
oracle whose answers depend on nothing but the question. -/
def Warranted (goal : Goal) (calls : List Prover.Call) : Prop :=
  ∀ id node, (goal.after calls).tree.node? id = some node → node.status = .unexamined ∨
    ∃ prior call later, calls = prior ++ call :: later ∧
      (∀ earlier, (goal.after prior).tree.node? id = some earlier → earlier.status = .unexamined) ∧
      ∀ procedure, call.prover.machine.oracle.AnswersBy procedure →
        call.prover.Warrants (goal.after prior) call.state (goal.after calls).tree node

/-- Whenever searches are told to stop, they may leave leaves open, but never settle one without a
warrant. -/
theorem warranted_after (initial target : ConstrainedTerm) (calls : List Prover.Call) :
    (start initial target).Warranted calls := by
  intro id node hnode
  have hdocumented := documented_grounded initial target calls
  obtain rfl := hdocumented.id_eq id node hnode
  have haccounts := hdocumented.accounts node.id node hnode
  unfold ProofTree.Accounts at haccounts
  cases hstatus : node.status with
  | unexamined => exact .inl rfl
  | target | circular _ =>
      rw [hstatus] at haccounts
      obtain ⟨⟨prior, call, later, hcalls, hfresh, hground⟩, -⟩ := haccounts
      refine .inr ⟨prior, call, later, hcalls, hfresh, fun procedure hanswers => ?_⟩
      unfold Prover.Warrants
      rw [hstatus]
      exact hground procedure hanswers
  | failed | undecided =>
      rw [hstatus] at haccounts
      obtain ⟨⟨step, ⟨prior, call, later, hcalls, hfresh, hground⟩, hstep⟩, -⟩ := haccounts
      refine .inr ⟨prior, call, later, hcalls, hfresh, fun procedure hanswers => ?_⟩
      obtain ⟨hcovers, first, next, hrun⟩ := hground procedure hanswers
      unfold Prover.Warrants
      rw [hstatus]
      refine ⟨hcovers, step, first, next, hrun, ?_⟩
      by_contra hsome
      have hexpanded := step.isExpanded_status_iff.2 hsome
      rw [hstep] at hexpanded
      cases hexpanded
  | expanded | partlyExpanded =>
      rw [hstatus] at haccounts
      obtain ⟨step, ⟨prior, call, later, hcalls, hfresh, hground⟩, -, hleads⟩ := haccounts
      refine .inr ⟨prior, call, later, hcalls, hfresh, fun procedure hanswers => ?_⟩
      obtain ⟨hcovers, first, next, hrun⟩ := hground procedure hanswers
      unfold Prover.Warrants
      rw [hstatus]
      exact ⟨hcovers, step, first, next, hrun, hleads⟩

end Goal

namespace Interrupted

def rule (target : Label) : RuleBody where
  lhs := .app "start" []
  rhs := .app target []

/-- The search is told to stop when it asks for the tenth time. -/
def call : Prover.Call where
  prover :=
    { machine :=
        { definition := .assemble [.rule (rule "left"), .rule (rule "right")]
          oracle := DecisionProcedure.syntactic.toOracle Nat }
      stopSource asked := (decide (9 ≤ asked), asked + 1) }
  state := { environment := 0 }

def goal : Goal := .start ⟨.app "start" [], .trivial⟩ ⟨.app "done" [], .trivial⟩

/-- One leaf has failed before the search is told to stop, and the other one stays open. -/
theorem warranted_after_interrupted :
    ((goal.after [call]).tree.node? 2).map ProofNode.status = some .unexamined ∧
      ∃ node, (goal.after [call]).tree.node? 1 = some node ∧ node.status = .failed ∧
        call.prover.Covers goal.target node.state false ∧
        ∃ step start next, call.prover.machine.stepSymbolic node.state start = .ok step next ∧
          step.successors = [] := by
  have hstatus : ((goal.after [call]).tree.node? 1).map ProofNode.status = some .failed := by
    decide +kernel
  obtain ⟨node, hnode, hfailed⟩ := Option.map_eq_some_iff.1 hstatus
  refine ⟨by decide +kernel, node, hnode, hfailed, ?_⟩
  rcases Goal.warranted_after _ _ [call] 1 node hnode with
    hopen | ⟨prior, settling, later, hcalls, -, hwarrants⟩
  · rw [hfailed] at hopen
    cases hopen
  · obtain ⟨rfl, hsettling⟩ | ⟨rest, rfl, hrest⟩ := List.cons_eq_append_iff.1 hcalls
    · obtain ⟨rfl, rfl⟩ := List.cons.inj hsettling
      have hground := hwarrants .syntactic (DecisionProcedure.syntactic.answersBy_toOracle Nat)
      unfold Prover.Warrants at hground
      rwa [hfailed] at hground
    · cases rest <;> cases hrest

end Interrupted

end SymbolicRewriting
