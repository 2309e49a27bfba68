import SymbolicRewriting.Proofs.Budgets
import SymbolicRewriting.Proofs.Cancellation
import SymbolicRewriting.Proofs.SelfMatches

/-!
A goal whose target is its own initial state is proved at once. The initial state is the only leaf of the
first level, and it is compared with the target before anything else. The oracle may be asked about other
matches first; but whatever it says of them, the match of a term with itself leaves it nothing to decide.
-/

namespace SymbolicRewriting

open List Relation

variable {σ : Type}

namespace Prover

variable {prover : Prover σ}

theorem isTrivial_obligation {pattern : ConstrainedTerm} {found : StructuralMatch}
    (hpattern : pattern.condition = .trivial) (hfound : found.constraints = .trivial) :
    (obligation pattern found).isTrivial = true := by
  rw [obligation, hpattern, hfound]
  rfl

/-- A match that leaves nothing to decide is found in spite of those before it. -/
theorem coversBy_heeds_of_trivial {pattern state : ConstrainedTerm} {founds : List StructuralMatch}
    (htrivial : ∃ found ∈ founds, (obligation pattern found).isTrivial = true) :
    prover.Heeds (prover.coversBy pattern state founds) true := by
  induction founds with
  | nil =>
      obtain ⟨_, hmem, -⟩ := htrivial
      cases hmem
  | cons first others ih =>
      unfold coversBy
      dsimp only
      split
      · exact .of_pure prover true
      · rename_i hneeded
        have hothers : ∃ found ∈ others, (obligation pattern found).isTrivial = true :=
          (exists_mem_cons_iff _ _ _).1 htrivial |>.resolve_left hneeded
        have hanswers (start : RunState σ) : ∃ answer next,
            prover.machine.implies state.condition (obligation pattern first) start =
              .ok answer next ∧ True ∧ next.cancelled = start.cancelled :=
          ⟨_, _, rfl, True.intro, rfl⟩
        refine .unless_stopped (.bind (fun start => ⟨_, rfl, rfl⟩) ?_)
        refine .bind_of_forall hanswers fun answer _ => ?_
        cases answer with
        | holds => exact .of_pure prover true
        | fails | unknown => exact ih hothers

/-- A term is an instance of itself, under whatever condition. -/
theorem covers_itself_heeds (prover : Prover σ) {term : Term} (hseparates : term.SeparatesUses)
    (condition : PathCondition) :
    prover.Heeds (prover.covers ⟨term, .trivial⟩ ⟨term, condition⟩) true := by
  obtain ⟨found, hmem, hconstraints, -⟩ :=
    prover.machine.definition.exists_selfMatch hseparates.uses_firstUse
  exact coversBy_heeds_of_trivial
    ⟨found, Array.mem_toList_iff.2 hmem, isTrivial_obligation rfl hconstraints⟩

theorem cancelled_of_pollStopped {state last : RunState σ}
    (hpoll : prover.pollStopped state = (true, last)) : last.cancelled = true := by
  obtain ⟨stop, next, hrun, hstopped, -⟩ := prover.stopped_spec state
  rw [pollStopped, hrun] at hpoll
  cases hpoll
  exact hstopped

section Covered

variable {target : ConstrainedTerm} {leaf : ProofNode}
  (hcovers : prover.Heeds (prover.covers target leaf.state) true)
include hcovers

/-- A leaf that the target covers is closed by it, unless the search is told to stop. -/
theorem examine_of_covers {visited : List ProofNode} (hclosing : closing visited leaf = [])
    (start : RunState σ) :
    ∃ examination next, prover.examine target visited leaf start = .ok examination next ∧
      (examination = .target ∨ examination = .skipped ∧ next.cancelled = true) := by
  obtain ⟨stop, polled, hpoll, hstopped, -, -⟩ := prover.stopped_spec start
  cases stop with
  | true =>
      exact ⟨.skipped, polled, Run.bind_eq_ok.2 ⟨true, polled, hpoll, rfl⟩, .inr ⟨rfl, hstopped⟩⟩
  | false =>
      obtain ⟨answer, compared, hrun, htells⟩ := hcovers polled
      cases answer with
      | true =>
          refine ⟨.target, compared, Run.bind_eq_ok.2 ⟨false, polled, hpoll, ?_⟩, .inl rfl⟩
          exact Run.bind_eq_ok.2 ⟨true, compared, hrun, rfl⟩
      | false =>
          -- the comparison was broken off, and the next question is answered in the same way
          have hcancelled : compared.cancelled = true :=
            (htells.answer.resolve_left Bool.false_ne_true).2
          obtain ⟨stop, asked, hpoll', hstopped', hstays, -⟩ := prover.stopped_spec compared
          obtain rfl : stop = true := hstays hcancelled
          refine ⟨.skipped, asked, Run.bind_eq_ok.2 ⟨false, polled, hpoll, ?_⟩,
            .inr ⟨rfl, hstopped'⟩⟩
          refine Run.bind_eq_ok.2 ⟨false, compared, hrun, ?_⟩
          rw [hclosing]
          refine Run.bind_eq_ok.2 ⟨none, compared, rfl, ?_⟩
          exact Run.bind_eq_ok.2 ⟨true, asked, hpoll', rfl⟩

/-- A lone leaf is examined without a crew, after the question whether to stop. -/
theorem examineAll_of_covers {visited : List ProofNode} (hclosing : closing visited leaf = [])
    (level : Nat) (state : RunState σ) :
    ∃ result last, prover.examineAll target visited level [leaf] state = ([result], last) ∧
      (result = some (.ok .target) ∨
        (result = none ∨ result = some (.ok .skipped)) ∧ last.cancelled = true) := by
  unfold examineAll
  dsimp only
  rw [Pool.mapItems, if_pos (by simp), mapInline]
  cases hpoll : prover.pollStopped state with
  | mk stop polled =>
      cases stop with
      | true => exact ⟨none, polled, rfl, .inr ⟨.inl rfl, cancelled_of_pollStopped hpoll⟩⟩
      | false =>
          obtain ⟨examination, next, hrun, hfound⟩ := examine_of_covers hcovers hclosing polled
          refine ⟨some (.ok examination), next, ?_, ?_⟩
          · simp only [Run.attempt, hrun, mapInline]
          · obtain rfl | ⟨rfl, hcancelled⟩ := hfound
            · exact .inl rfl
            · exact .inr ⟨.inr rfl, hcancelled⟩

theorem searchLevel_of_covers {search : SearchState} (hfrontier : search.frontier = [leaf])
    (hdepth : leaf.depth ≤ prover.config.maxDepth) (hclosing : closing search.visited leaf = [])
    (state : RunState σ) :
    ∃ examination last, prover.searchLevel target search state =
        (((prover.startLevel search).add prover.config.maxNodes leaf examination, none), last) ∧
      (examination = .target ∨ examination = .skipped ∧ last.cancelled = true) := by
  have hreached : prover.reached search = [leaf] := by
    simp [reached, hfrontier, hdepth]
  obtain ⟨result, last, hresults, hfound⟩ :=
    examineAll_of_covers hcovers hclosing (search.stats.levels + 1) state
  have hlevel : prover.searchLevel target search state =
      ((prover.startLevel search).addAll prover.config.maxNodes [(leaf, result)], last) := by
    rw [searchLevel_eq, levelResults, hreached, hresults]
    rfl
  rw [hlevel]
  obtain rfl | ⟨rfl | rfl, hcancelled⟩ := hfound
  · exact ⟨.target, last, rfl, .inl rfl⟩
  · exact ⟨.skipped, last, rfl, .inr ⟨rfl, hcancelled⟩⟩
  · exact ⟨.skipped, last, rfl, .inr ⟨rfl, hcancelled⟩⟩

/-- The search closes the leaf on its first level, which is its last one. -/
theorem searchLevels_of_covers {search : SearchState} (hfrontier : search.frontier = [leaf])
    (hdepth : leaf.depth ≤ prover.config.maxDepth) (hclosing : closing search.visited leaf = [])
    {state last : RunState σ} {found : SearchState × Option RewriteError}
    (hsearch : prover.searchLevels target search state = (found, last))
    (huncancelled : last.cancelled = false) :
    found = (nextSearch search ((prover.startLevel search).closeByTarget leaf), none) := by
  have hends := prover.exists_endsWith target search state
  rw [hsearch] at hends
  obtain ⟨before, hlevels, hends⟩ := hends
  rcases ReflTransGen.cases_head hlevels with rfl | ⟨_, hnext, -⟩
  · cases hends with
    | finished hempty =>
        rw [hfrontier] at hempty
        cases hempty
    | stopped _ hpoll =>
        rw [cancelled_of_pollStopped hpoll] at huncancelled
        cases huncancelled
    | @last _ _ polled _ merge error _ hpoll hlevel _ =>
        obtain ⟨examination, ended, hmerged, hfound⟩ :=
          searchLevel_of_covers hcovers hfrontier hdepth hclosing polled
        cases hlevel.symm.trans hmerged
        obtain rfl | ⟨-, hcancelled⟩ := hfound
        · rfl
        · rw [hcancelled] at huncancelled
          cases huncancelled
  · -- no node is added, so no level follows
    cases hnext with
    | @next _ _ polled _ merge _ _ hlevel hmore =>
        obtain ⟨examination, ended, hmerged, hfound⟩ :=
          searchLevel_of_covers hcovers hfrontier hdepth hclosing polled
        cases hlevel.symm.trans hmerged
        obtain rfl | ⟨rfl, -⟩ := hfound
        · exact absurd (Bool.or_true _) hmore
        · exact absurd (Bool.or_true _) hmore

end Covered

/-- The search that has closed its only node. -/
def closedSearch (initial : ConstrainedTerm) : SearchState where
  tree := { nodes := #[⟨0, initial, 0, 0, .target⟩] }
  visited := []
  frontier := []
  stats := { levels := 1, closedByTarget := 1 }

theorem verdict_closedSearch (initial : ConstrainedTerm) :
    verdict (closedSearch initial) = .proved := by
  simp [verdict, closedSearch, ProofTree.isComplete, NodeStatus.isClosed]

theorem startLevel_start (prover : Prover σ) (initial target : ConstrainedTerm) :
    prover.startLevel (Goal.start initial target).resumed =
      { tree := (Goal.start initial target).tree, stats := { levels := 1 } } := by
  have hbeyond : ((Goal.start initial target).resumed.frontier.filter fun node =>
      !decide (node.depth ≤ prover.config.maxDepth)) = [] := by
    rw [filter_eq_nil_iff]
    rintro node hmem
    obtain rfl : node = ⟨0, initial, 0, 0, .unexamined⟩ := mem_singleton.1 hmem
    simp
  rw [startLevel, hbeyond]
  rfl

/-- The answer to a new goal whose initial state the target covers. -/
theorem prove_of_covers {initial target : ConstrainedTerm}
    (hcovers : prover.Heeds (prover.covers target initial) true) {state : RunState σ}
    (huncancelled : (prover.prove (.start initial target) state).2.cancelled = false) :
    (prover.prove (.start initial target) state).1 =
      (.ok ⟨.proved, { levels := 1, closedByTarget := 1, nodes := 1 }⟩,
        { initial, target, proved := true, tree := (closedSearch initial).tree }) := by
  have hopen : (Goal.start initial target).proved = false := rfl
  let root : ProofNode := ⟨0, initial, 0, 0, .unexamined⟩
  have hroot : prover.Heeds (prover.covers target root.state) true := hcovers
  rw [prover.prove_eq hopen] at huncancelled ⊢
  have hfound := searchLevels_of_covers hroot rfl (Nat.zero_le _) rfl rfl huncancelled
  rw [startLevel_start] at hfound
  refine (congrArg (conclusion (Goal.start initial target)) hfound).trans ?_
  change conclusion (Goal.start initial target) (closedSearch initial, none) = _
  rw [conclusion, verdict_closedSearch]
  rfl

/-- A goal whose target is its own initial state is proved by the first call, unless that is told to
stop: a question that is answered so leaves its mark in the state. The tree has no other node than the
initial state, which is closed by the target. -/
theorem proves_reflexive_goal (prover : Prover σ) {term : Term} (hseparates : term.SeparatesUses)
    (state : RunState σ)
    (huncancelled :
      (prover.prove (.start ⟨term, .trivial⟩ ⟨term, .trivial⟩) state).2.cancelled = false) :
    ∃ report goal,
      (prover.prove (.start ⟨term, .trivial⟩ ⟨term, .trivial⟩) state).1 = (.ok report, goal) ∧
        report.status = .proved ∧ goal.proved = true ∧
        goal.tree.nodes = #[⟨0, ⟨term, .trivial⟩, 0, 0, .target⟩] ∧ goal.tree.transitions = #[] :=
  ⟨_, _, prove_of_covers (prover.covers_itself_heeds hseparates .trivial) huncancelled,
    rfl, rfl, rfl, rfl⟩

end Prover

namespace Reflexive

def value : Variable := ⟨"X", Symbol.int, .plain⟩

def repeated : Variable := ⟨"Items", "List", .rest⟩

def others : Variable := ⟨"Others", "Cells", .rest⟩

/-- Two cells of one name, a segment that is repeated among others, and a frame inside and outside. -/
def configuration : Term :=
  .collection
    [⟨0, "k", .sequence "_;_"
      [.var repeated, .var value, .var repeated, .var ⟨"More", "List", .rest⟩]⟩,
    ⟨1, "k", .app "f" [.var value, .collection [] (some others)]⟩]
    (some others)

def use (v : Variable) : Place :=
  if v = others then .frame else if v = value then .alone else .item "_;_"

/-- The oracle knows nothing about the other matches. -/
def prover : Prover Unit where
  machine := { definition := .assemble [], oracle := DecisionProcedure.syntactic.toOracle Unit }
  stopSource environment := (false, environment)

theorem proves_reflexive_goal_configuration :
    let outcome := prover.prove
      (.start ⟨configuration, .trivial⟩ ⟨configuration, .trivial⟩) { environment := () }
    configuration.SeparatesUses ∧ outcome.2.cancelled = false ∧
      ∃ report goal, outcome.1 = (.ok report, goal) ∧ report.status = .proved ∧
        goal.proved = true ∧
        goal.tree.nodes = #[⟨0, ⟨configuration, .trivial⟩, 0, 0, .target⟩] ∧
        goal.tree.transitions = #[] := by
  have huses : configuration.Uses use .alone := by decide +kernel
  have hseparates : configuration.SeparatesUses := Term.separatesUses_iff.2 ⟨use, huses⟩
  have huncancelled : (prover.prove (.start ⟨configuration, .trivial⟩ ⟨configuration, .trivial⟩)
      { environment := () }).2.cancelled = false := by
    decide +kernel
  exact ⟨hseparates, huncancelled,
    prover.proves_reflexive_goal hseparates { environment := () } huncancelled⟩

end Reflexive

end SymbolicRewriting
