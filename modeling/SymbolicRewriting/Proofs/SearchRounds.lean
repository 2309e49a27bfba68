import SymbolicRewriting.Machine.Search
import SymbolicRewriting.Proofs.Fingerprints
import SymbolicRewriting.Proofs.Run

/-!
The rounds of a search. Each round examines the state that has waited longest, collects the solutions
there, and lets in the successors that have not been met.
-/

namespace SymbolicRewriting

open List

variable {σ : Type}

/-! What the solutions are. -/

/-- The solutions are collected in order, up to the limit. -/
theorem collectSolutions_spec (config : SearchConfig) (state : Term) (depth : Nat)
    (found : List Substitution) (solutions : Array Solution) :
    ∃ taken, taken <+: found ∧
      (collectSolutions config state depth found solutions).1.toList =
        solutions.toList ++ taken.map (⟨state, ·, depth⟩) ∧
      ((collectSolutions config state depth found solutions).2 = false → taken = found) := by
  induction found generalizing solutions with
  | nil => exact ⟨[], prefix_refl _, by simp [collectSolutions], fun _ => rfl⟩
  | cons subst others ih =>
      simp only [collectSolutions]
      split
      · exact ⟨[subst], ⟨others, rfl⟩, by simp, by simp⟩
      · obtain ⟨taken, htaken, hsolutions, hall⟩ := ih (solutions.push ⟨state, subst, depth⟩)
        refine ⟨subst :: taken, (prefix_cons_inj _).2 htaken, ?_, fun hfalse => by rw [hall hfalse]⟩
        rw [hsolutions]
        simp

/-! What a search lets in. -/

namespace Frontier

/-- These of the terms are `added` at the depth. -/
structure LetsIn (terms added : List Term) (depth : Nat) (frontier grown : Frontier) : Prop where
  waiting : grown.waiting.toList = frontier.waiting.toList ++ added.map (·, depth)
  subset : added ⊆ terms
  new : ∀ term ∈ added, frontier.met.contains term = false
  distinct : added.Pairwise fun term other => ¬term.EqualTo other
  met : ∀ term, grown.met.contains term = true ↔
    frontier.met.contains term = true ∨ ∃ other ∈ added, other.EqualTo term
  room : grown.room + added.length = frontier.room
  truncated : frontier.truncated = true → grown.truncated = true
  all : (∀ term ∈ terms, grown.met.contains term = true) ∨ (grown.truncated = true ∧ grown.room = 0)

theorem exists_letsIn (depth : Nat) (terms : List Term) (frontier : Frontier) :
    ∃ added, LetsIn terms added depth frontier (frontier.letIn depth terms) := by
  fun_induction letIn depth terms frontier with
  | case1 frontier =>
      exact ⟨[], by simp, by simp, by simp, .nil, by simp, rfl, id, .inl (by simp)⟩
  | case2 term terms frontier hmet ih =>
      obtain ⟨added, hadded⟩ := ih
      refine ⟨added, { hadded with subset := subset_cons_of_subset _ hadded.subset, all := ?_ }⟩
      refine hadded.all.imp_left fun hall => forall_mem_cons.2 ⟨?_, hall⟩
      exact (hadded.met term).2 (.inl hmet)
  | case3 term terms frontier hmet hroom =>
      exact ⟨[], by simp, by simp, by simp, .nil, by simp, rfl, fun _ => rfl, .inr ⟨rfl, hroom⟩⟩
  | case4 term terms frontier hmet room hroom ih =>
      obtain ⟨added, hadded⟩ := ih
      have hcontains : ∀ other, (frontier.met.insert term).contains other = true ↔
          frontier.met.contains other = true ∨ term.EqualTo other := by
        intro other
        rw [Std.HashSet.contains_insert, Bool.or_eq_true, or_comm]
        rfl
      refine ⟨term :: added, ?_, ?_, ?_, ?_, ?_, ?_, hadded.truncated, ?_⟩
      · rw [hadded.waiting, Queue.toList_push, List.append_assoc]
        rfl
      · exact cons_subset_cons _ hadded.subset
      · refine forall_mem_cons.2 ⟨by simpa using hmet, fun other hother => ?_⟩
        have hnew := hadded.new other hother
        rw [← Bool.not_eq_true, hcontains] at hnew
        simpa using fun hmet => hnew (.inl hmet)
      · refine pairwise_cons.2 ⟨fun other hother hequal => ?_, hadded.distinct⟩
        have hnew := hadded.new other hother
        rw [← Bool.not_eq_true, hcontains] at hnew
        exact hnew (.inr hequal)
      · intro other
        rw [hadded.met, hcontains, or_assoc]
        simp
      · rw [length_cons, ← Nat.add_assoc, hadded.room, hroom]
      · refine hadded.all.imp_left fun hall => forall_mem_cons.2 ⟨?_, hall⟩
        exact (hadded.met term).2 (.inl ((hcontains term).2 (.inr (Term.beq_refl term))))

end Frontier

/-- States at this depth are not gone on from. -/
def SearchConfig.AtLimit (config : SearchConfig) (depth : Nat) : Prop :=
  config.maxDepth.any (fun limit => decide (limit ≤ depth)) = true

theorem SearchConfig.AtLimit.mono {config : SearchConfig} {depth deeper : Nat} (hle : depth ≤ deeper)
    (hlimit : config.AtLimit depth) : config.AtLimit deeper := by
  unfold AtLimit at hlimit ⊢
  rw [Option.any_eq_true] at hlimit ⊢
  obtain ⟨limit, hmax, hlimit⟩ := hlimit
  rw [decide_eq_true_eq] at hlimit
  exact ⟨limit, hmax, decide_eq_true (Nat.le_trans hlimit hle)⟩

namespace Machine

variable (machine : Machine σ) (pattern : Term) (config : SearchConfig)

/-- A search from the frontier on examines these states, with their depths, one after another. -/
inductive Examines : Frontier → Array Solution → Nat → RunState σ → List (Term × Nat) →
    SearchResult → RunState σ → Prop
  | exhausted {frontier : Frontier} {solutions : Array Solution} {states : Nat} {start : RunState σ}
      (hpop : frontier.waiting.pop? = none) :
      Examines frontier solutions states start []
        ⟨solutions.toList, states, !frontier.truncated⟩ start
  | satisfied {frontier : Frontier} {waiting : Queue (Term × Nat)} {term : Term} {depth states : Nat}
      {solutions collected : Array Solution} {start : RunState σ}
      (hpop : frontier.waiting.pop? = some ((term, depth), waiting))
      (hcollect : collectSolutions config term depth
        (machine.definition.concreteMatches pattern term) solutions = (collected, true)) :
      Examines frontier solutions states start [(term, depth)]
        ⟨collected.toList, states + 1, false⟩ start
  | next {frontier : Frontier} {waiting : Queue (Term × Nat)} {term : Term} {depth states : Nat}
      {solutions collected : Array Solution} {start between final : RunState σ}
      {results : List (RuleId × Term)} {examined : List (Term × Nat)} {result : SearchResult}
      (hpop : frontier.waiting.pop? = some ((term, depth), waiting))
      (hcollect : collectSolutions config term depth
        (machine.definition.concreteMatches pattern term) solutions = (collected, false))
      (hsuccessors : machine.successors term start = .ok results between)
      (hrest : Examines (extendFrontier config depth results { frontier with waiting }) collected
        (states + 1) between examined result final) :
      Examines frontier solutions states start ((term, depth) :: examined) result final

variable {machine pattern config}

section Loop

variable {frontier : Frontier} {waiting : Queue (Term × Nat)} {term : Term} {depth : Nat}
  {solutions collected : Array Solution} (states : Nat)

theorem searchFrom_of_exhausted (hpop : frontier.waiting.pop? = none) :
    machine.searchFrom pattern config frontier solutions states =
      pure ⟨solutions.toList, states, !frontier.truncated⟩ := by
  rw [searchFrom]
  split
  · rfl
  · rename_i hsome
    cases hpop.symm.trans hsome

theorem searchFrom_of_satisfied (hpop : frontier.waiting.pop? = some ((term, depth), waiting))
    (hcollect : collectSolutions config term depth
      (machine.definition.concreteMatches pattern term) solutions = (collected, true)) :
    machine.searchFrom pattern config frontier solutions states =
      pure ⟨collected.toList, states + 1, false⟩ := by
  rw [searchFrom]
  split
  · rename_i hnone
    cases hpop.symm.trans hnone
  · rename_i hsome
    cases hpop.symm.trans hsome
    simp only [hcollect]

theorem searchFrom_of_next (hpop : frontier.waiting.pop? = some ((term, depth), waiting))
    (hcollect : collectSolutions config term depth
      (machine.definition.concreteMatches pattern term) solutions = (collected, false)) :
    machine.searchFrom pattern config frontier solutions states =
      machine.successors term >>= fun results => machine.searchFrom pattern config
        (extendFrontier config depth results { frontier with waiting }) collected (states + 1) := by
  rw [searchFrom]
  split
  · rename_i hnone
    cases hpop.symm.trans hnone
  · rename_i hsome
    cases hpop.symm.trans hsome
    simp only [hcollect]

end Loop

/-- What is examined is what the loop examines. -/
theorem searchFrom_eq_ok {frontier : Frontier} {solutions : Array Solution} {states : Nat}
    {start final : RunState σ} {result : SearchResult} :
    machine.searchFrom pattern config frontier solutions states start = .ok result final ↔
      ∃ examined, machine.Examines pattern config frontier solutions states start examined result
        final := by
  constructor
  · intro hsearch
    fun_induction searchFrom machine pattern config frontier solutions states generalizing start with
    | case1 frontier solutions states hpop =>
        obtain ⟨rfl, rfl⟩ := Run.pure_eq_ok.1 hsearch
        exact ⟨[], .exhausted hpop⟩
    | case2 _ _ _ term depth _ hpop =>
        rename_i hcollect
        obtain ⟨rfl, rfl⟩ := Run.pure_eq_ok.1 hsearch
        exact ⟨[(term, depth)], .satisfied hpop hcollect⟩
    | case3 _ _ _ term depth _ hpop _ _ hcollect =>
        rename_i ih
        obtain ⟨results, between, hsuccessors, hrest⟩ := Run.bind_eq_ok.1 hsearch
        obtain ⟨examined, hexamines⟩ := ih results hrest
        exact ⟨(term, depth) :: examined, .next hpop hcollect hsuccessors hexamines⟩
  · rintro ⟨examined, hexamines⟩
    induction hexamines with
    | exhausted hpop =>
        rw [searchFrom_of_exhausted _ hpop]
        rfl
    | satisfied hpop hcollect =>
        rw [searchFrom_of_satisfied _ hpop hcollect]
        rfl
    | next hpop hcollect hsuccessors _ ih =>
        rw [searchFrom_of_next _ hpop hcollect]
        exact Run.bind_eq_ok.2 ⟨_, _, hsuccessors, ih⟩

end Machine

end SymbolicRewriting
