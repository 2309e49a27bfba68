import Mathlib.Logic.Relation
import SymbolicRewriting.Oracle.Syntactic
import SymbolicRewriting.Proofs.SearchRounds

/-!
The limits of a search. Each round uses up one of the states that may still be met or that wait
already, so there are no more rounds than states. The number of solutions is compared with its limit
only when a solution has been added, and the number of states only when a successor is let in: a limit
of zero has the effect of one.
-/

namespace SymbolicRewriting

open List Relation

variable {σ : Type}

/-- Nothing in the result is beyond a limit. -/
structure SearchResult.Respects (result : SearchResult) (config : SearchConfig) : Prop where
  solutions : ∀ limit, config.maxSolutions = some limit → result.solutions.length ≤ limit
  states : result.states ≤ config.maxStates
  depths : ∀ limit, config.maxDepth = some limit →
    ∀ solution ∈ result.solutions, solution.depth ≤ limit

namespace SearchConfig

/-- The limits that a search keeps to. -/
def raised (config : SearchConfig) : SearchConfig :=
  { config with
    maxSolutions := config.maxSolutions.map (max · 1)
    maxStates := max config.maxStates 1 }

def Allows (config : SearchConfig) (depth : Nat) : Prop :=
  ∀ limit, config.maxDepth = some limit → depth ≤ limit

theorem allows_succ {config : SearchConfig} {depth : Nat} (hopen : ¬config.AtLimit depth) :
    config.Allows (depth + 1) := by
  intro limit hmax
  unfold AtLimit at hopen
  rw [hmax, Option.any_some, decide_eq_true_eq] at hopen
  omega

end SearchConfig

theorem size_collectSolutions {config : SearchConfig} {limit : Nat}
    (hmax : config.maxSolutions = some limit) (state : Term) (depth : Nat)
    (found : List Substitution) {solutions : Array Solution} (hbelow : solutions.size < max limit 1) :
    (collectSolutions config state depth found solutions).1.size ≤ max limit 1 ∧
      ((collectSolutions config state depth found solutions).2 = false →
        (collectSolutions config state depth found solutions).1.size < max limit 1) := by
  induction found generalizing solutions with
  | nil => exact ⟨Nat.le_of_lt hbelow, fun _ => hbelow⟩
  | cons subst others ih =>
      simp only [collectSolutions, hmax, Option.any_some, decide_eq_true_eq, Array.size_push]
      split
      · refine ⟨?_, fun hfalse => by cases hfalse⟩
        rw [Array.size_push]
        omega
      · refine ih ?_
        rw [Array.size_push]
        omega

theorem Frontier.measure_start (subject : Term) (maxStates : Nat) :
    (Frontier.start subject maxStates).measure = max maxStates 1 := by
  change maxStates - 1 + 1 = max maxStates 1
  omega

/-- Where a search stands between two rounds. -/
structure SearchPosition (σ : Type) where
  frontier : Frontier
  solutions : Array Solution
  states : Nat
  run : RunState σ

namespace SearchPosition

def start (subject : Term) (config : SearchConfig) (run : RunState σ) : SearchPosition σ :=
  ⟨Frontier.start subject config.maxStates, #[], 0, run⟩

/-- What is found and what waits keeps to the limits, and the states that are left are counted. -/
structure Within (position : SearchPosition σ) (config : SearchConfig) : Prop where
  states : position.states + position.frontier.measure = max config.maxStates 1
  solutions : ∀ limit, config.maxSolutions = some limit → position.solutions.size < max limit 1
  found : ∀ solution ∈ position.solutions.toList, config.Allows solution.depth
  waiting : ∀ entry ∈ position.frontier.waiting.toList, config.Allows entry.2
  begun : 0 < position.states ∨ position.frontier.waiting.toList ≠ []

theorem within_start (subject : Term) (config : SearchConfig) (run : RunState σ) :
    (start subject config run).Within config where
  states := by
    change 0 + (Frontier.start subject config.maxStates).measure = _
    rw [Nat.zero_add, Frontier.measure_start]
  solutions limit _ := by
    change 0 < max limit 1
    omega
  found := forall_mem_nil _
  waiting := by
    change ∀ entry ∈ [(subject, 0)], config.Allows entry.2
    exact forall_mem_singleton.2 fun _ _ => Nat.zero_le _
  begun := .inr (cons_ne_nil (subject, 0) [])

end SearchPosition

namespace Machine

variable (machine : Machine σ) (pattern : Term) (config : SearchConfig)

/-- One round after which the search goes on. -/
inductive Advances (position : SearchPosition σ) : SearchPosition σ → Prop
  | intro {waiting : Queue (Term × Nat)} {term : Term} {depth : Nat} {collected : Array Solution}
      {results : List (RuleId × Term)} {next : RunState σ}
      (hpop : position.frontier.waiting.pop? = some ((term, depth), waiting))
      (hcollect : collectSolutions config term depth
        (machine.definition.concreteMatches pattern term) position.solutions = (collected, false))
      (hsuccessors : machine.successors term position.run = .ok results next) :
      Advances position ⟨extendFrontier config depth results { position.frontier with waiting },
        collected, position.states + 1, next⟩

/-- The search ends here: nothing waits, or there are enough solutions, or the successors of the state
that has waited longest cannot be computed. -/
inductive EndsWith (position : SearchPosition σ) :
    Except RewriteError SearchResult → RunState σ → Prop
  | exhausted (hpop : position.frontier.waiting.pop? = none) :
      EndsWith position
        (.ok ⟨position.solutions.toList, position.states, !position.frontier.truncated⟩) position.run
  | satisfied {waiting : Queue (Term × Nat)} {term : Term} {depth : Nat} {collected : Array Solution}
      (hpop : position.frontier.waiting.pop? = some ((term, depth), waiting))
      (hcollect : collectSolutions config term depth
        (machine.definition.concreteMatches pattern term) position.solutions = (collected, true)) :
      EndsWith position (.ok ⟨collected.toList, position.states + 1, false⟩) position.run
  | failed {waiting : Queue (Term × Nat)} {term : Term} {depth : Nat} {collected : Array Solution}
      {error : RewriteError} {final : RunState σ}
      (hpop : position.frontier.waiting.pop? = some ((term, depth), waiting))
      (hcollect : collectSolutions config term depth
        (machine.definition.concreteMatches pattern term) position.solutions = (collected, false))
      (hsuccessors : machine.successors term position.run = .error error final) :
      EndsWith position (.error error) final

variable {machine pattern config} {position next : SearchPosition σ}

theorem Advances.states (hadvances : machine.Advances pattern config position next) :
    next.states = position.states + 1 := by
  cases hadvances
  rfl

/-- The search goes on in rounds until it ends. -/
theorem exists_endsWith (machine : Machine σ) (pattern : Term) (config : SearchConfig)
    (position : SearchPosition σ) :
    ∃ last outcome final, ReflTransGen (machine.Advances pattern config) position last ∧
      machine.EndsWith pattern config last outcome final ∧
      (machine.searchFrom pattern config position.frontier position.solutions
        position.states).attempt position.run = (outcome, final) := by
  obtain ⟨frontier, solutions, states, run⟩ := position
  dsimp only
  fun_induction searchFrom machine pattern config frontier solutions states generalizing run with
  | case1 frontier solutions states hpop => exact ⟨_, _, _, .refl, .exhausted hpop, rfl⟩
  | case2 _ _ _ _ _ _ hpop =>
      rename_i hcollect
      exact ⟨_, _, _, .refl, .satisfied hpop hcollect, rfl⟩
  | case3 frontier solutions states term depth waiting hpop found collected hcollect ih =>
      cases hsuccessors : machine.successors term run with
      | ok results between =>
          obtain ⟨last, outcome, final, hreaches, hends, hattempt⟩ := ih results between
          refine ⟨last, outcome, final, .head (.intro hpop hcollect hsuccessors) hreaches, hends, ?_⟩
          rw [Run.attempt, Run.bind_of_ok hsuccessors]
          exact hattempt
      | error error between =>
          refine ⟨_, _, _, .refl, .failed hpop hcollect hsuccessors, ?_⟩
          rw [Run.attempt, Run.bind_of_error hsuccessors]

end Machine

namespace SearchPosition.Within

variable {machine : Machine σ} {pattern : Term} {config : SearchConfig}
  {position later : SearchPosition σ}

/-- What is collected at a state that waited keeps to the limits as well. -/
theorem collected (hwithin : position.Within config) {waiting : Queue (Term × Nat)} {term : Term}
    {depth : Nat} (hpop : position.frontier.waiting.pop? = some ((term, depth), waiting))
    (found : List Substitution) :
    ∀ solution ∈ (collectSolutions config term depth found position.solutions).1.toList,
      config.Allows solution.depth := by
  obtain ⟨taken, -, hcollected, -⟩ :=
    collectSolutions_spec config term depth found position.solutions
  have hwaiting := hwithin.waiting
  rw [Queue.toList_of_pop? hpop] at hwaiting
  rw [hcollected, forall_mem_append, forall_mem_map]
  exact ⟨hwithin.found, fun _ _ => (forall_mem_cons.1 hwaiting).1⟩

/-- A round moves one state from those that are left to those that are examined. -/
theorem next (hwithin : position.Within config)
    (hadvances : machine.Advances pattern config position later) : later.Within config := by
  obtain ⟨hpop, hcollect, -⟩ := hadvances
  rename_i waiting term depth collected results _
  have hwaiting := hwithin.waiting
  rw [Queue.toList_of_pop? hpop] at hwaiting
  obtain ⟨-, hlater⟩ := forall_mem_cons.1 hwaiting
  refine ⟨?_, fun limit hmax => ?_, ?_, ?_, .inl (Nat.succ_pos _)⟩
  · have hstates := hwithin.states
    rw [Frontier.measure, Queue.length_of_pop? hpop] at hstates
    rw [Machine.measure_extendFrontier, Frontier.measure]
    dsimp only at hstates ⊢
    omega
  · obtain ⟨-, hsize⟩ := size_collectSolutions hmax term depth
      (machine.definition.concreteMatches pattern term) (hwithin.solutions limit hmax)
    rw [hcollect] at hsize
    exact hsize rfl
  · have hfound := hwithin.collected hpop (machine.definition.concreteMatches pattern term)
    rw [hcollect] at hfound
    exact hfound
  · unfold Machine.extendFrontier
    split
    · exact hlater
    · rename_i hopen
      obtain ⟨added, hadded⟩ := Frontier.exists_letsIn (depth + 1) (results.map Prod.snd)
        { position.frontier with waiting }
      rw [hadded.waiting, forall_mem_append, forall_mem_map]
      exact ⟨hlater, fun _ _ => SearchConfig.allows_succ hopen⟩

theorem of_reaches (hwithin : position.Within config)
    (hreaches : ReflTransGen (machine.Advances pattern config) position later) :
    later.Within config := by
  induction hreaches with
  | refl => exact hwithin
  | tail _ hadvances ih => exact ih.next hadvances

theorem states_le (hwithin : position.Within config) : position.states ≤ config.raised.maxStates :=
  Nat.le_of_add_right_le (Nat.le_of_eq hwithin.states)

/-- The state that is examined last is one of those that were left. -/
theorem respects (hwithin : position.Within config) {result : SearchResult} {final : RunState σ}
    (hends : machine.EndsWith pattern config position (.ok result) final) :
    result.Respects config.raised := by
  cases hends with
  | exhausted hpop =>
      refine ⟨fun limit hlimit => ?_, hwithin.states_le, fun limit hmax solution hsolution => ?_⟩
      · obtain ⟨bound, hmax, rfl⟩ := Option.map_eq_some_iff.1 hlimit
        exact Nat.le_of_lt (hwithin.solutions bound hmax)
      · exact hwithin.found solution hsolution limit hmax
  | @satisfied waiting term depth collected hpop hcollect =>
      refine ⟨fun limit hlimit => ?_, ?_, fun limit hmax solution hsolution => ?_⟩
      · obtain ⟨bound, hmax, rfl⟩ := Option.map_eq_some_iff.1 hlimit
        obtain ⟨hsize, -⟩ := size_collectSolutions hmax term depth
          (machine.definition.concreteMatches pattern term) (hwithin.solutions bound hmax)
        rw [hcollect] at hsize
        exact hsize
      · have hstates := hwithin.states
        rw [Frontier.measure, Queue.length_of_pop? hpop] at hstates
        change position.states + 1 ≤ max config.maxStates 1
        omega
      · have hfound := hwithin.collected hpop (machine.definition.concreteMatches pattern term)
        rw [hcollect] at hfound
        exact hfound solution hsolution limit hmax

theorem states_pos (hwithin : position.Within config) {result : SearchResult} {final : RunState σ}
    (hends : machine.EndsWith pattern config position (.ok result) final) : 0 < result.states := by
  cases hends with
  | exhausted hpop =>
      exact hwithin.begun.resolve_right fun hwaits => hwaits (Queue.toList_of_pop?_eq_none hpop)
  | satisfied => exact Nat.succ_pos _

end SearchPosition.Within

/-- The limits and the raised ones differ only where a limit is zero. -/
theorem SearchResult.Respects.respects_iff {result : SearchResult} {config : SearchConfig}
    (hraised : result.Respects config.raised) (hexamined : 0 < result.states) :
    result.Respects config ↔
      config.maxStates ≠ 0 ∧ (config.maxSolutions = some 0 → result.solutions = []) := by
  constructor
  · intro hrespects
    refine ⟨?_, fun hmax => ?_⟩
    · have hstates := hrespects.states
      omega
    · exact length_eq_zero_iff.1 (Nat.le_zero.1 (hrespects.solutions 0 hmax))
  · rintro ⟨hstates, hsolutions⟩
    refine ⟨fun limit hmax => ?_, ?_, hraised.depths⟩
    · cases limit with
      | zero =>
          rw [hsolutions hmax]
          exact Nat.le_refl 0
      | succ limit =>
          have hlength := hraised.solutions (max (limit + 1) 1)
            (Option.map_eq_some_iff.2 ⟨limit + 1, hmax, rfl⟩)
          omega
    · have hraised := hraised.states
      change result.states ≤ max config.maxStates 1 at hraised
      omega

namespace Machine

variable (machine : Machine σ) (subject pattern : Term) (config : SearchConfig)
  (start : RunState σ)

variable {machine pattern config} in
/-- The states that have been examined count the rounds. -/
theorem states_of_advances {positions : Nat → SearchPosition σ} {rounds : Nat}
    (hwithin : (positions 0).Within config)
    (hrounds : ∀ round < rounds,
      machine.Advances pattern config (positions round) (positions (round + 1))) :
    (positions rounds).Within config ∧
      (positions rounds).states = (positions 0).states + rounds := by
  induction rounds with
  | zero => exact ⟨hwithin, rfl⟩
  | succ rounds ih =>
      obtain ⟨hreached, hcount⟩ := ih fun round hlt => hrounds round (Nat.lt_succ_of_lt hlt)
      have hadvances := hrounds rounds (Nat.lt_succ_self rounds)
      exact ⟨hreached.next hadvances, by rw [hadvances.states, hcount, Nat.add_assoc]⟩

/-- A search ends after at most as many rounds as there may be states, unless it fails where the
successors of a state fail. -/
theorem search_respects_limits_iff :
    (∀ (positions : Nat → SearchPosition σ) (rounds : Nat),
        positions 0 = .start subject config start →
        (∀ round < rounds,
          machine.Advances pattern config (positions round) (positions (round + 1))) →
        rounds ≤ max config.maxStates 1) ∧
      ∃ last outcome final,
        ReflTransGen (machine.Advances pattern config) (.start subject config start) last ∧
        machine.EndsWith pattern config last outcome final ∧
        (machine.search subject pattern config).attempt start = (outcome, final) ∧
        ∀ result, outcome = .ok result → result.Respects config.raised ∧
          (result.Respects config ↔
            config.maxStates ≠ 0 ∧ (config.maxSolutions = some 0 → result.solutions = [])) := by
  have hwithin := SearchPosition.within_start subject config start
  refine ⟨fun positions rounds hfirst hrounds => ?_, ?_⟩
  · obtain ⟨hreached, hcount⟩ := states_of_advances (hfirst ▸ hwithin) hrounds
    have hle := hreached.states_le
    rw [hcount, hfirst] at hle
    exact Nat.le_trans (Nat.le_add_left _ _) hle
  · obtain ⟨last, outcome, final, hreaches, hends, hattempt⟩ :=
      machine.exists_endsWith pattern config (.start subject config start)
    refine ⟨last, outcome, final, hreaches, hends, hattempt, ?_⟩
    rintro result rfl
    have hlast := hwithin.of_reaches hreaches
    have hraised := hlast.respects hends
    exact ⟨hraised, hraised.respects_iff (hlast.states_pos hends)⟩

end Machine

namespace Standstill

def here : Term := .app "here" []

def elsewhere : Term := .app "elsewhere" []

/-- There is no rule, so a search never leaves its subject. -/
def machine : Machine Unit where
  definition := .assemble []
  oracle := DecisionProcedure.syntactic.toOracle Unit

/-- One solution is found if there is a limit of at most one. -/
theorem exists_search_here {limit : Nat} (hlimit : limit ≤ 1) :
    ∃ result final, machine.search here here { maxSolutions := some limit } { environment := () } =
      .ok result final ∧ result.solutions.length = 1 := by
  have hfound : (machine.definition.concreteMatches here here).isEmpty = false := by decide +kernel
  obtain ⟨subst, others, hmatches⟩ := exists_cons_of_ne_nil (isEmpty_eq_false_iff.1 hfound)
  have hcollect : collectSolutions { maxSolutions := some limit } here 0
      (machine.definition.concreteMatches here here) #[] = (#[⟨here, subst, 0⟩], true) := by
    rw [hmatches, collectSolutions, Option.any_some, Array.size_push, Array.size_empty,
      if_pos (decide_eq_true hlimit)]
    rfl
  have hsearch : machine.search here here { maxSolutions := some limit } { environment := () } =
      .ok ⟨[⟨here, subst, 0⟩], 1, false⟩ { environment := () } := by
    rw [Machine.search, Machine.searchFrom_of_satisfied _ rfl hcollect]
    rfl
  exact ⟨_, _, hsearch, rfl⟩

theorem exists_search_elsewhere :
    ∃ result final, machine.search here elsewhere { maxStates := 0 } { environment := () } =
      .ok result final ∧ result.states = 1 := by
  have hfound : (machine.definition.concreteMatches elsewhere here).isEmpty = true := by
    decide +kernel
  have hcollect : collectSolutions { maxStates := 0 } here 0
      (machine.definition.concreteMatches elsewhere here) #[] = (#[], false) := by
    rw [isEmpty_iff.1 hfound]
    rfl
  obtain ⟨results, final, hrun, hempty⟩ := Run.exists_of_succeedsWith
    (by decide +kernel : (machine.successors here).succeedsWith { environment := () }
      isEmpty = true)
  obtain rfl := isEmpty_iff.1 hempty
  refine ⟨⟨[], 1, true⟩, final, ?_, rfl⟩
  rw [Machine.search, Machine.searchFrom_of_next _ rfl hcollect, Run.bind_of_ok hrun,
    Machine.searchFrom_of_exhausted _ rfl]
  rfl

theorem search_respects_limits_iff_standstill :
    ∃ result final,
      machine.search here here { maxSolutions := some 1 } { environment := () } =
        .ok result final ∧
      result.solutions.length = 1 ∧ result.Respects { maxSolutions := some 1 } := by
  obtain ⟨result, final, hsearch, hlength⟩ := exists_search_here (Nat.le_refl 1)
  obtain ⟨-, _, _, _, -, -, hattempt, hrespects⟩ := machine.search_respects_limits_iff here here
    { maxSolutions := some 1 } { environment := () }
  rw [Run.attempt, hsearch] at hattempt
  cases hattempt
  exact ⟨result, final, hsearch, hlength, (hrespects result rfl).2.2 ⟨nofun, nofun⟩⟩

/-- The subject is examined even if no state may be, and one solution is returned even if there may be
none. -/
theorem not_respects_limits_standstill :
    (∃ result final,
        machine.search here elsewhere { maxStates := 0 } { environment := () } =
          .ok result final ∧
        result.states = 1 ∧ ¬result.Respects { maxStates := 0 }) ∧
      ∃ result final,
        machine.search here here { maxSolutions := some 0 } { environment := () } =
          .ok result final ∧
        result.solutions.length = 1 ∧ ¬result.Respects { maxSolutions := some 0 } := by
  obtain ⟨result, final, hsearch, hstates⟩ := exists_search_elsewhere
  obtain ⟨result', final', hsearch', hlength⟩ := exists_search_here (Nat.zero_le 1)
  refine ⟨⟨result, final, hsearch, hstates, fun hrespects => ?_⟩,
    ⟨result', final', hsearch', hlength, fun hrespects => ?_⟩⟩
  · have hle := hrespects.states
    rw [hstates] at hle
    exact absurd hle (Nat.not_succ_le_zero 0)
  · have hle := hrespects.solutions 0 rfl
    rw [hlength] at hle
    exact absurd hle (Nat.not_succ_le_zero 0)

end Standstill

end SymbolicRewriting
