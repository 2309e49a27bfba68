import SymbolicRewriting.Proofs.Search

/-!
What the reports of searches say about the tree that they leave. A search that goes on from a tree
knows the leaves that fail in it from then on, but not those that had failed before.
-/

namespace SymbolicRewriting

/-- A call of a prover, and the state that it is made in. -/
structure Prover.Call where
  {σ : Type}
  prover : Prover σ
  state : RunState σ

namespace Goal

def ask (goal : Goal) (call : Prover.Call) : Except RewriteError ProofReport × Goal :=
  (call.prover.prove goal call.state).1

/-- The goal that the calls leave behind, one after another. -/
def after (goal : Goal) : List Prover.Call → Goal
  | [] => goal
  | call :: calls => (goal.ask call).2.after calls

def answers (goal : Goal) : List Prover.Call → List (Except RewriteError ProofReport)
  | [] => []
  | call :: calls => (goal.ask call).1 :: (goal.ask call).2.answers calls

theorem Searched.after {goal : Goal} (hgoal : goal.Searched) (calls : List Prover.Call) :
    (goal.after calls).Searched := by
  induction calls generalizing goal with
  | nil => exact hgoal
  | cons call calls ih => exact ih (hgoal.prove call.prover call.state)

theorem after_append (goal : Goal) (calls : List Prover.Call) (call : Prover.Call) :
    goal.after (calls ++ [call]) = ((goal.after calls).ask call).2 := by
  induction calls generalizing goal with
  | nil => rfl
  | cons first calls ih => exact ih _

/-- The call answered that the goal is proved. -/
def IsProof (answer : Except RewriteError ProofReport) : Prop :=
  ∃ report, answer = .ok report ∧ report.status = .proved

end Goal

namespace ProofTree

/-- The answer that the nodes of a tree give. -/
def verdict (tree : ProofTree) : ProofStatus :=
  if tree.nodes.any fun node => node.status == .failed then .disproved
  else if tree.isComplete then .proved
  else .inconclusive

theorem any_failed_iff {tree : ProofTree} :
    (tree.nodes.any fun node => node.status == .failed) = true ↔ ∃ id, tree.Fails id := by
  rw [Array.any_eq_true]
  constructor
  · rintro ⟨id, hlt, hfailed⟩
    exact ⟨id, _, Array.getElem?_eq_getElem hlt, by simpa using hfailed⟩
  · rintro ⟨id, node, hnode, hstatus⟩
    obtain ⟨hlt, hget⟩ := Array.getElem?_eq_some_iff.1 hnode
    exact ⟨id, hlt, by rw [hget, hstatus]; rfl⟩

theorem verdict_eq_disproved_iff {tree : ProofTree} :
    tree.verdict = .disproved ↔ ∃ id, tree.Fails id := by
  rw [← any_failed_iff]
  unfold verdict
  split
  · exact iff_of_true rfl ‹_›
  · split <;> exact iff_of_false (by simp) ‹_›

theorem verdict_eq_proved_iff {tree : ProofTree} :
    tree.verdict = .proved ↔ tree.isComplete = true := by
  unfold verdict
  split
  · rename_i hfailed
    obtain ⟨id, hfails⟩ := any_failed_iff.1 hfailed
    exact iff_of_false (by simp) fun hcomplete => isComplete_iff.1 hcomplete id hfails.isOutstanding
  · split
    · exact iff_of_true rfl ‹_›
    · exact iff_of_false (by simp) ‹_›

end ProofTree

namespace Prover

variable {σ : Type} {prover : Prover σ} {target : ConstrainedTerm}

theorem Ended.verdict_eq_proved_iff {first : ProofTree} {search : SearchState}
    (hended : Ended prover target first search) :
    verdict search = .proved ↔ search.tree.isComplete = true := by
  have hfailed : search.tree.isComplete = true → search.failed = false := by
    intro hcomplete
    apply Bool.eq_false_iff.2
    intro hfailed
    obtain ⟨id, hfails, -⟩ := hended.failed.1 hfailed
    exact ProofTree.isComplete_iff.1 hcomplete id hfails.isOutstanding
  have hincomplete : search.tree.isComplete = true → search.incomplete = false := by
    intro hcomplete
    apply Bool.eq_false_iff.2
    intro hincomplete
    obtain ⟨id, houtstanding⟩ := hended.incomplete hincomplete
    exact ProofTree.isComplete_iff.1 hcomplete id houtstanding
  unfold verdict
  cases hcomplete : search.tree.isComplete with
  | true => simp [hfailed hcomplete, hincomplete hcomplete]
  | false => cases search.failed <;> simp

theorem Ended.verdict_eq_disproved_iff {first : ProofTree} {search : SearchState}
    (hended : Ended prover target first search) :
    verdict search = .disproved ↔ ∃ id, search.tree.Fails id ∧ ¬first.Fails id := by
  rw [← hended.failed]
  unfold verdict
  cases search.failed with
  | true => simp
  | false =>
      simp only [Bool.false_eq_true, if_false, iff_false]
      split <;> simp

/-- What a call says: of the failed leaves it counts those that it has found itself. -/
structure Reports (first : Goal) (report : ProofReport) (last : Goal) : Prop where
  proved : report.status = .proved ↔ last.tree.isComplete = true
  disproved : report.status = .disproved ↔ ∃ id, last.tree.Fails id ∧ ¬first.tree.Fails id

theorem reports_prove (prover : Prover σ) {goal : Goal} (hwell : goal.tree.WellFormed)
    (hproved : goal.proved = true → goal.tree.isComplete = true) {state : RunState σ}
    {report : ProofReport} (hreport : (prover.prove goal state).1.1 = .ok report) :
    Reports goal report (prover.prove goal state).1.2 := by
  have hended := prover.ended_resume goal.target hwell { state with cancelled := false }
  unfold prove at hreport ⊢
  split at hreport
  · rename_i hgoal
    cases hreport
    rw [if_pos hgoal]
    refine ⟨iff_of_true rfl (hproved hgoal), ?_⟩
    exact iff_of_false (by simp) fun ⟨_, hfails, hnone⟩ => hnone hfails
  · rename_i hgoal
    rw [if_neg hgoal]
    dsimp only at hreport ⊢
    split at hreport
    · cases hreport
    · rename_i last next hsearch
      rw [hsearch] at hended
      cases hreport
      exact ⟨hended.verdict_eq_proved_iff, hended.verdict_eq_disproved_iff⟩

/-- The verdict of the tree is reported, unless leaves that had failed before are forgotten. -/
theorem Reports.status_eq_iff {first last : Goal} {report : ProofReport}
    (hreports : Reports first report last) :
    report.status = last.tree.verdict ↔
      ((∃ id, last.tree.Fails id) → ∃ id, last.tree.Fails id ∧ ¬first.tree.Fails id) := by
  rw [← ProofTree.verdict_eq_disproved_iff, ← hreports.disproved]
  constructor
  · intro hsame hfailed
    rw [hsame, hfailed]
  · intro hremembered
    by_cases hproved : report.status = .proved
    · rw [hproved, ProofTree.verdict_eq_proved_iff.2 (hreports.proved.1 hproved)]
    · cases hverdict : last.tree.verdict with
      | disproved => exact hremembered hverdict
      | proved =>
          exact hreports.proved.2 (ProofTree.verdict_eq_proved_iff.1 hverdict)
      | inconclusive =>
          cases hstatus : report.status with
          | proved => exact absurd hstatus hproved
          | inconclusive => rfl
          | disproved =>
              obtain ⟨id, hfails, -⟩ := hreports.disproved.1 hstatus
              rw [ProofTree.verdict_eq_disproved_iff.2 ⟨id, hfails⟩] at hverdict
              cases hverdict

/-- Only the report of a proof marks the goal as proved. -/
theorem proved_prove_iff (prover : Prover σ) (goal : Goal) (state : RunState σ) :
    (prover.prove goal state).1.2.proved = true ↔
      goal.proved = true ∨ Goal.IsProof (prover.prove goal state).1.1 := by
  unfold prove
  split
  · rename_i hgoal
    exact iff_of_true hgoal (.inl hgoal)
  · rename_i hgoal
    dsimp only
    split
    · exact iff_of_false hgoal (not_or.2 ⟨hgoal, fun ⟨_, hreport, _⟩ => by cases hreport⟩)
    · simp [Goal.IsProof, hgoal]

/-- A goal is marked as proved only with a complete tree. -/
theorem isComplete_prove (prover : Prover σ) {goal : Goal} (hwell : goal.tree.WellFormed)
    (hproved : goal.proved = true → goal.tree.isComplete = true) (state : RunState σ)
    (hlater : (prover.prove goal state).1.2.proved = true) :
    (prover.prove goal state).1.2.tree.isComplete = true := by
  rcases (prover.proved_prove_iff goal state).1 hlater with hgoal | ⟨report, hreport, hstatus⟩
  · unfold prove
    rw [if_pos hgoal]
    exact hproved hgoal
  · exact (prover.reports_prove hwell hproved hreport).proved.1 hstatus

end Prover

namespace Goal

theorem proved_after_iff (goal : Goal) (calls : List Prover.Call) :
    (goal.after calls).proved = true ↔
      goal.proved = true ∨ ∃ answer ∈ goal.answers calls, IsProof answer := by
  induction calls generalizing goal with
  | nil => simp [after, answers]
  | cons call calls ih =>
      have hcall : (goal.ask call).2.proved = true ↔
          goal.proved = true ∨ IsProof (goal.ask call).1 :=
        call.prover.proved_prove_iff goal call.state
      simp only [after, answers, List.mem_cons, exists_eq_or_imp, ih, hcall, or_assoc]

theorem isComplete_after {goal : Goal} (hwell : goal.tree.WellFormed)
    (hproved : goal.proved = true → goal.tree.isComplete = true) (calls : List Prover.Call)
    (hafter : (goal.after calls).proved = true) : (goal.after calls).tree.isComplete = true := by
  induction calls generalizing goal with
  | nil => exact hproved hafter
  | cons call calls ih =>
      exact ih (call.prover.wellFormed_prove hwell call.state)
        (call.prover.isComplete_prove hwell hproved call.state) hafter

/-- A call reports the verdict of the tree that it leaves exactly if, should leaves of that tree
have failed, one of them failed in this call. A goal is marked as proved exactly if one of its calls
has reported so. -/
theorem status_eq_verdict_iff (initial target : ConstrainedTerm) (calls : List Prover.Call)
    (call : Prover.Call) :
    let goal := (start initial target).after calls
    let last := (start initial target).after (calls ++ [call])
    (∀ report, (goal.ask call).1 = .ok report →
      (report.status = .proved ↔ last.tree.isComplete = true) ∧
        (report.status = .disproved ↔ ∃ id, last.tree.Fails id ∧ ¬goal.tree.Fails id) ∧
        (report.status = last.tree.verdict ↔
          ((∃ id, last.tree.Fails id) → ∃ id, last.tree.Fails id ∧ ¬goal.tree.Fails id))) ∧
      (last.proved = true ↔
        ∃ answer ∈ (start initial target).answers (calls ++ [call]), IsProof answer) := by
  intro goal last
  have hlast : last = (goal.ask call).2 := after_append _ calls call
  have hwell := ((Searched.start initial target).after calls).wellFormed
  have hproved := isComplete_after (Searched.start initial target).wellFormed (by simp [start]) calls
  constructor
  · intro report hreport
    have hreports := call.prover.reports_prove hwell hproved hreport
    rw [hlast]
    exact ⟨hreports.proved, hreports.disproved, hreports.status_eq_iff⟩
  · refine (proved_after_iff _ _).trans ?_
    simp [start]

/-- There is no rule, and the initial state is not an instance of the target. -/
def stuck : Goal := start ⟨.app "a" [], .trivial⟩ ⟨.app "z" [], .trivial⟩

def ruleless : Prover.Call where
  prover :=
    { machine :=
        { definition := .assemble [], oracle := DecisionProcedure.syntactic.toOracle Unit }
      stopSource environment := (false, environment) }
  state := { environment := () }

theorem exists_report {answer : Except RewriteError ProofReport} {status : ProofStatus}
    (hstatus : (answer.toOption.map ProofReport.status == some status) = true) :
    ∃ report, answer = .ok report ∧ report.status = status := by
  cases answer with
  | error error => cases hstatus
  | ok report => exact ⟨report, rfl, by simpa [Except.toOption] using hstatus⟩

/-- The second call does not see that the only node has failed. -/
theorem answers_stuck :
    (∃ first, (stuck.ask ruleless).1 = .ok first ∧ first.status = .disproved) ∧
      ∃ second, ((stuck.after [ruleless]).ask ruleless).1 = .ok second ∧
        second.status = .inconclusive :=
  ⟨exists_report (by decide +kernel), exists_report (by decide +kernel)⟩

theorem status_eq_verdict_iff_stuck :
    ∃ report, ((stuck.after [ruleless]).ask ruleless).1 = .ok report ∧
      (report.status = (stuck.after [ruleless, ruleless]).tree.verdict ↔
        ((∃ id, (stuck.after [ruleless, ruleless]).tree.Fails id) →
          ∃ id, (stuck.after [ruleless, ruleless]).tree.Fails id ∧
            ¬(stuck.after [ruleless]).tree.Fails id)) := by
  obtain ⟨-, second, hsecond, -⟩ := answers_stuck
  obtain ⟨-, -, hverdict⟩ :=
    (status_eq_verdict_iff ⟨.app "a" [], .trivial⟩ ⟨.app "z" [], .trivial⟩ [ruleless]
      ruleless).1 second hsecond
  exact ⟨second, hsecond, hverdict⟩

/-- A goal that was disproved can be reported as inconclusive later. -/
theorem not_status_eq_verdict_stuck :
    ¬∀ report, ((stuck.after [ruleless]).ask ruleless).1 = .ok report →
      report.status = (stuck.after [ruleless, ruleless]).tree.verdict := by
  intro hverdict
  obtain ⟨-, second, hsecond, hstatus⟩ := answers_stuck
  have hdisproved : (stuck.after [ruleless, ruleless]).tree.verdict = .disproved := by
    decide +kernel
  rw [hverdict second hsecond, hdisproved] at hstatus
  cases hstatus

end Goal

end SymbolicRewriting
