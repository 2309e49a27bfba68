import Mathlib.Data.Set.Card
import SymbolicRewriting.Proofs.Distances
import SymbolicRewriting.Proofs.GroundSearch
import SymbolicRewriting.Proofs.SearchRounds

/-!
Search is breadth-first. The states that a search examines are at their distances from the subject,
nearest first and no two of them equal, and unless a limit cuts it short it examines one state of each
class that can be reached.
-/

namespace SymbolicRewriting

open List

variable {σ : Type}

/-- Terms up to cell identities and the order of cells. -/
def Term.equality : Setoid Term where
  r := EqualTo
  iseqv := ⟨beq_refl, beq_symm, beq_trans⟩

namespace Machine

variable {machine : Machine σ} {pattern : Term} {config : SearchConfig}

/-- What is known between two rounds of a search for which `done` are the states examined so far: a
state that has been examined is closed unless a limit has kept something out. -/
structure Surveys (machine : Machine σ) (config : SearchConfig) (subject : Term)
    (done : List (Term × Nat)) (frontier : Frontier) : Prop where
  layers : machine.Layers subject (done ++ frontier.waiting.toList)
  met : ∀ term, frontier.met.contains term = true ↔ Listed (done ++ frontier.waiting.toList) term
  near : ∀ entry ∈ frontier.waiting.toList, ∀ other ∈ frontier.waiting.toList,
    entry.2 ≤ other.2 + 1
  expanded : ∀ entry ∈ done, machine.ClosedAt (done ++ frontier.waiting.toList) entry.1 ∨
    frontier.truncated = true ∧ (frontier.room = 0 ∨ config.AtLimit entry.2)

namespace Surveys

variable {subject : Term} {done : List (Term × Nat)} {frontier : Frontier}
  {waiting : Queue (Term × Nat)} {term : Term} {depth : Nat}

/-- The first one that waits is as deep as any that has been examined, and the others that wait are at
most one step deeper. -/
theorem depths (hsurveys : machine.Surveys config subject done frontier)
    (hwaiting : frontier.waiting.toList = (term, depth) :: waiting.toList) :
    (∀ entry ∈ done, entry.2 ≤ depth) ∧
      ∀ entry ∈ frontier.waiting.toList, depth ≤ entry.2 ∧ entry.2 ≤ depth + 1 := by
  have hsorted := hsurveys.layers.sorted
  have hnear := hsurveys.near
  rw [hwaiting] at hsorted hnear ⊢
  obtain ⟨-, hwaits, hcross⟩ := pairwise_append.1 hsorted
  refine ⟨fun entry hentry => hcross entry hentry _ mem_cons_self, fun entry hentry => ⟨?_, ?_⟩⟩
  · rcases List.mem_cons.1 hentry with rfl | hlater
    · exact Nat.le_refl _
    · exact (pairwise_cons.1 hwaits).1 entry hlater
  · exact hnear entry hentry _ mem_cons_self

/-- As long as no limit has been met, all states up to the depth of the first one that waits are listed,
so a state that is met for the first time is one step farther away. -/
theorem atDistance_of_new (hsurveys : machine.Surveys config subject done frontier)
    (hwaiting : frontier.waiting.toList = (term, depth) :: waiting.toList)
    (hroom : frontier.room ≠ 0) (hlimit : ¬config.AtLimit depth) {next : Term}
    (hmoves : machine.Moves term next)
    (hnew : ¬Listed (done ++ frontier.waiting.toList) next) :
    machine.AtDistance subject next (depth + 1) := by
  have hclosed : ∀ entry ∈ done ++ frontier.waiting.toList, entry.2 < depth →
      machine.ClosedAt (done ++ frontier.waiting.toList) entry.1 := by
    intro entry hentry hnear
    rcases List.mem_append.1 hentry with hdone | hwaits
    · rcases hsurveys.expanded entry hdone with hclosed | ⟨-, hfull | hcut⟩
      · exact hclosed
      · exact absurd hfull hroom
      · exact absurd (hcut.mono hnear.le) hlimit
    · exact absurd hnear (Nat.not_lt.2 ((hsurveys.depths hwaiting).2 entry hwaits).1)
  have hmem : (term, depth) ∈ done ++ frontier.waiting.toList := by
    rw [hwaiting]
    exact mem_append_right _ mem_cons_self
  refine ⟨.move (hsurveys.layers.distance _ hmem).walk hmoves, fun hwalk hequal => ?_⟩
  by_contra hshort
  have hlisted := hsurveys.layers.listed_of_walk hclosed hwalk (by omega)
  exact hnew (hlisted.congr hequal.symm)

/-- At the limit of the depth nothing is let in. -/
theorem cut (hfresh : machine.definition.NoFreshVars)
    (hcongruent : machine.definition.Congruent)
    (hsurveys : machine.Surveys config subject done frontier)
    (hwaiting : frontier.waiting.toList = (term, depth) :: waiting.toList)
    {results : List (RuleId × Term)} {start final : RunState σ}
    (hsuccessors : machine.successors term start = .ok results final) (hlimit : config.AtLimit depth) :
    machine.Surveys config subject (done ++ [(term, depth)])
      { frontier with waiting, truncated := frontier.truncated || !results.isEmpty } := by
  have hall : done ++ [(term, depth)] ++ waiting.toList = done ++ frontier.waiting.toList := by
    rw [hwaiting, List.append_assoc, List.singleton_append]
  refine ⟨?_, ?_, ?_, ?_⟩
  · rw [hall]
    exact hsurveys.layers
  · rw [hall]
    exact hsurveys.met
  · have hnear := hsurveys.near
    rw [hwaiting] at hnear
    exact fun entry hentry other hother =>
      hnear entry (mem_cons_of_mem _ hentry) other (mem_cons_of_mem _ hother)
  · rw [hall, forall_mem_append, forall_mem_singleton]
    refine ⟨fun entry hentry => ?_, ?_⟩
    · refine (hsurveys.expanded entry hentry).imp_right fun ⟨htruncated, hlimits⟩ => ⟨?_, hlimits⟩
      rw [htruncated, Bool.true_or]
    · cases results with
      | nil =>
          refine .inl fun hequal hmoves => ?_
          obtain ⟨_, hmem, -⟩ :=
            exists_successor_of_moves hfresh hcongruent hsuccessors hequal hmoves
          cases hmem
      | cons _ _ => exact .inr ⟨by simp, .inr hlimit⟩

section LetIn

variable {terms added : List Term} {grown : Frontier}
  (hadded : Frontier.LetsIn terms added (depth + 1) { frontier with waiting } grown)
  (hwaiting : frontier.waiting.toList = (term, depth) :: waiting.toList)
include hadded hwaiting

/-- What is let in is added at the end of what is known. -/
theorem entries_letIn : done ++ [(term, depth)] ++ grown.waiting.toList =
    done ++ frontier.waiting.toList ++ added.map (·, depth + 1) := by
  rw [hadded.waiting, hwaiting]
  simp

variable (hsurveys : machine.Surveys config subject done frontier)
include hsurveys

theorem met_letIn (other : Term) : grown.met.contains other = true ↔
    Listed (done ++ [(term, depth)] ++ grown.waiting.toList) other := by
  rw [entries_letIn hadded hwaiting, listed_append, listed_map, ← hsurveys.met]
  exact hadded.met other

theorem near_letIn : ∀ entry ∈ grown.waiting.toList, ∀ other ∈ grown.waiting.toList,
    entry.2 ≤ other.2 + 1 := by
  have hband : ∀ entry ∈ grown.waiting.toList, depth ≤ entry.2 ∧ entry.2 ≤ depth + 1 := by
    have hwaits := (hsurveys.depths hwaiting).2
    rw [hwaiting] at hwaits
    rw [hadded.waiting, forall_mem_append, forall_mem_map]
    exact ⟨(forall_mem_cons.1 hwaits).2, fun _ _ => ⟨Nat.le_succ depth, Nat.le_refl _⟩⟩
  intro entry hentry other hother
  have hdeep := (hband entry hentry).2
  have hhigh := (hband other hother).1
  omega

/-- The states let in are one step farther away than the one that moves to them. -/
theorem layers_letIn (hmoves : ∀ next ∈ terms, machine.Moves term next)
    (hlimit : ¬config.AtLimit depth) :
    machine.Layers subject (done ++ [(term, depth)] ++ grown.waiting.toList) := by
  have hnew : ∀ next ∈ added, ¬Listed (done ++ frontier.waiting.toList) next := by
    intro next hnext
    rw [← hsurveys.met, Bool.not_eq_true]
    exact hadded.new next hnext
  obtain ⟨hearlier, hwaits⟩ := hsurveys.depths hwaiting
  rw [entries_letIn hadded hwaiting]
  refine hsurveys.layers.append hnew hadded.distinct (fun next hnext => ?_) ?_
  · have hroom : frontier.room ≠ 0 := by
      have hlength := length_pos_of_mem hnext
      have hrooms : grown.room + added.length = frontier.room := hadded.room
      omega
    exact hsurveys.atDistance_of_new hwaiting hroom hlimit (hmoves next (hadded.subset hnext))
      (hnew next hnext)
  · rw [forall_mem_append]
    exact ⟨fun entry hentry => (hearlier entry hentry).trans (Nat.le_succ depth),
      fun entry hentry => (hwaits entry hentry).2⟩

/-- What was closed stays closed, and what a limit has cut off stays cut off. -/
theorem expanded_letIn : ∀ entry ∈ done,
    machine.ClosedAt (done ++ [(term, depth)] ++ grown.waiting.toList) entry.1 ∨
      grown.truncated = true ∧ (grown.room = 0 ∨ config.AtLimit entry.2) := by
  have hsubset : done ++ frontier.waiting.toList ⊆ done ++ [(term, depth)] ++ grown.waiting.toList := by
    rw [entries_letIn hadded hwaiting]
    exact subset_append_left _ _
  intro entry hentry
  refine (hsurveys.expanded entry hentry).imp (ClosedAt.mono hsubset) fun ⟨htruncated, hlimits⟩ =>
    ⟨hadded.truncated htruncated, hlimits.imp_left fun hfull => ?_⟩
  have hrooms : grown.room + added.length = frontier.room := hadded.room
  omega

end LetIn

/-- Before the limit of the depth the successors that have not been met are let in. -/
theorem letIn (hfresh : machine.definition.NoFreshVars)
    (hcongruent : machine.definition.Congruent)
    (hsurveys : machine.Surveys config subject done frontier)
    (hwaiting : frontier.waiting.toList = (term, depth) :: waiting.toList)
    {results : List (RuleId × Term)} {start final : RunState σ}
    (hsuccessors : machine.successors term start = .ok results final)
    (hlimit : ¬config.AtLimit depth) :
    machine.Surveys config subject (done ++ [(term, depth)])
      (Frontier.letIn (depth + 1) (results.map Prod.snd) { frontier with waiting }) := by
  obtain ⟨added, hadded⟩ :=
    Frontier.exists_letsIn (depth + 1) (results.map Prod.snd) { frontier with waiting }
  have hmoves : ∀ next ∈ results.map Prod.snd, machine.Moves term next :=
    forall_mem_map.2 fun result hresult => ⟨start, final, results, result.1, hsuccessors, hresult⟩
  have hmet := met_letIn hadded hwaiting hsurveys
  refine ⟨layers_letIn hadded hwaiting hsurveys hmoves hlimit, hmet,
    near_letIn hadded hwaiting hsurveys, ?_⟩
  rw [forall_mem_append, forall_mem_singleton]
  refine ⟨expanded_letIn hadded hwaiting hsurveys, ?_⟩
  refine hadded.all.imp (fun hall _ _ hequal hmoves => ?_) fun ⟨htruncated, hfull⟩ =>
    ⟨htruncated, .inl hfull⟩
  obtain ⟨result, hresult, hnext⟩ :=
    exists_successor_of_moves hfresh hcongruent hsuccessors hequal hmoves
  exact ((hmet _).1 (hall _ (mem_map_of_mem hresult))).congr hnext

/-- One round of a search. -/
theorem next (hfresh : machine.definition.NoFreshVars)
    (hcongruent : machine.definition.Congruent)
    (hsurveys : machine.Surveys config subject done frontier)
    (hpop : frontier.waiting.pop? = some ((term, depth), waiting)) {results : List (RuleId × Term)}
    {start final : RunState σ}
    (hsuccessors : machine.successors term start = .ok results final) :
    machine.Surveys config subject (done ++ [(term, depth)])
      (extendFrontier config depth results { frontier with waiting }) := by
  have hwaiting := Queue.toList_of_pop? hpop
  unfold extendFrontier
  split
  · rename_i hlimit
    exact hsurveys.cut hfresh hcongruent hwaiting hsuccessors hlimit
  · rename_i hlimit
    exact hsurveys.letIn hfresh hcongruent hwaiting hsuccessors hlimit

end Surveys

namespace Examines

variable {frontier : Frontier} {solutions : Array Solution} {states : Nat}
  {start final : RunState σ} {examined : List (Term × Nat)} {result : SearchResult}

end Examines

end Machine

namespace Relay

def state (label : Label) : Term := .app label []

def move (source target : Label) : RuleBody := { lhs := state source, rhs := state target }

/-- There is a short way from the first state to the last one, and a longer one. -/
def machine : Machine Unit where
  definition := .assemble [.rule (move "first" "middle"), .rule (move "first" "last"),
    .rule (move "middle" "last"), .rule (move "last" "first")]
  oracle := DecisionProcedure.syntactic.toOracle Unit

@[simp]
theorem beq_state (label other : Label) : (state label == state other) = (label == other) := by
  rw [state, state, Term.beq_eq_equals, Term.equals]
  simp [Term.equalsAll]

end Relay

end SymbolicRewriting
