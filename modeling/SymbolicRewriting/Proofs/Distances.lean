import SymbolicRewriting.Proofs.EqualSteps

/-!
Chains of concrete steps and their lengths. States are compared by the equality of terms, so the
distance of a state is the length of a shortest chain to a term equal to it. A list of states with
their distances is a breadth-first survey if it is sorted by distance and states each class once.
-/

namespace SymbolicRewriting

open List

variable {σ : Type}

namespace Machine

/-- Some enumeration of the successors of `term` lists `next`. -/
def Moves (machine : Machine σ) (term next : Term) : Prop :=
  ∃ (start final : RunState σ) (results : List (RuleId × Term)) (rule : RuleId),
    machine.successors term start = .ok results final ∧ (rule, next) ∈ results

/-- Chains of moves from the subject, with their lengths. -/
inductive Walk (machine : Machine σ) (subject : Term) : Nat → Term → Prop
  | start : Walk machine subject 0 subject
  | move {length : Nat} {term next : Term} (hwalk : Walk machine subject length term)
      (hmoves : machine.Moves term next) : Walk machine subject (length + 1) next

def Reaches (machine : Machine σ) (subject term : Term) : Prop :=
  ∃ length, machine.Walk subject length term

/-- A walk of this length leads to the state, and none that is shorter leads to a term equal to it. -/
structure AtDistance (machine : Machine σ) (subject state : Term) (distance : Nat) : Prop where
  walk : machine.Walk subject distance state
  shortest : ∀ {length : Nat} {term : Term}, machine.Walk subject length term →
    state.EqualTo term → distance ≤ length

variable {machine : Machine σ}

/-- One enumeration lists all that equal states can move to. -/
theorem exists_successor_of_moves (hfresh : machine.definition.NoFreshVars)
    (hcongruent : machine.definition.Congruent) {term other next : Term}
    {start final : RunState σ} {results : List (RuleId × Term)}
    (hsuccessors : machine.successors term start = .ok results final) (hequal : term.EqualTo other)
    (hmoves : machine.Moves other next) : ∃ result ∈ results, result.2.EqualTo next := by
  obtain ⟨start', final', results', rule, hsuccessors', hmem⟩ := hmoves
  have hends := successors_agree hfresh hcongruent hequal.symm start' start
  rw [hsuccessors, hsuccessors'] at hends
  cases hends with
  | ok hsame =>
      obtain ⟨result, hresult, hresults⟩ := exists_of_rel_coe hsame hmem
      exact ⟨result, hresult, Term.EqualTo.symm hresults.2⟩

end Machine

/-- The entries have one for a state equal to the term. -/
def Listed (entries : List (Term × Nat)) (term : Term) : Prop :=
  ∃ entry ∈ entries, entry.1.EqualTo term

theorem Listed.congr {entries : List (Term × Nat)} {term other : Term} (hlisted : Listed entries term)
    (hequal : term.EqualTo other) : Listed entries other := by
  obtain ⟨entry, hmem, hentry⟩ := hlisted
  exact ⟨entry, hmem, hentry.trans hequal⟩

theorem Listed.mono {entries more : List (Term × Nat)} {term : Term} (hsubset : entries ⊆ more)
    (hlisted : Listed entries term) : Listed more term := by
  obtain ⟨entry, hmem, hentry⟩ := hlisted
  exact ⟨entry, hsubset hmem, hentry⟩

theorem listed_append {entries more : List (Term × Nat)} {term : Term} :
    Listed (entries ++ more) term ↔ Listed entries term ∨ Listed more term := by
  simp only [Listed, List.mem_append, or_and_right, exists_or]

theorem listed_map {terms : List Term} {depth : Nat} {term : Term} :
    Listed (terms.map (·, depth)) term ↔ ∃ other ∈ terms, other.EqualTo term := by
  simp [Listed]

namespace Machine

/-- Whatever can be reached from the state by one move is listed. -/
def ClosedAt (machine : Machine σ) (entries : List (Term × Nat)) (state : Term) : Prop :=
  ∀ {term next : Term}, state.EqualTo term → machine.Moves term next → Listed entries next

theorem ClosedAt.mono {machine : Machine σ} {entries more : List (Term × Nat)} {state : Term}
    (hsubset : entries ⊆ more) (hclosed : machine.ClosedAt entries state) :
    machine.ClosedAt more state :=
  fun hequal hmoves => (hclosed hequal hmoves).mono hsubset

/-- States with their distances from the subject, nearest first and no two of them equal. -/
structure Layers (machine : Machine σ) (subject : Term) (entries : List (Term × Nat)) : Prop where
  root : Listed entries subject
  distinct : entries.Pairwise fun entry other => ¬entry.1.EqualTo other.1
  distance : ∀ entry ∈ entries, machine.AtDistance subject entry.1 entry.2
  sorted : entries.Pairwise fun entry other => entry.2 ≤ other.2

namespace Layers

variable {machine : Machine σ} {subject : Term} {entries : List (Term × Nat)}

/-- If the entries nearer than some distance are closed, then all states up to it are listed. -/
theorem listed_of_walk (hlayers : machine.Layers subject entries) {distance : Nat}
    (hclosed : ∀ entry ∈ entries, entry.2 < distance → machine.ClosedAt entries entry.1)
    {length : Nat} {term : Term} (hwalk : machine.Walk subject length term)
    (hlength : length ≤ distance) : Listed entries term := by
  induction hwalk with
  | start => exact hlayers.root
  | @move length term next hwalk hmoves ih =>
      obtain ⟨entry, hentry, hequal⟩ := ih (by omega)
      have hnear : entry.2 ≤ length := (hlayers.distance entry hentry).shortest hwalk hequal
      exact hclosed entry hentry (by omega) hequal hmoves

theorem append (hlayers : machine.Layers subject entries) {added : List Term} {distance : Nat}
    (hnew : ∀ term ∈ added, ¬Listed entries term)
    (hdistinct : added.Pairwise fun term other => ¬term.EqualTo other)
    (hdistance : ∀ term ∈ added, machine.AtDistance subject term distance)
    (hdeepest : ∀ entry ∈ entries, entry.2 ≤ distance) :
    machine.Layers subject (entries ++ added.map (·, distance)) where
  root := hlayers.root.mono (List.subset_append_left _ _)
  distinct := by
    refine pairwise_append.2 ⟨hlayers.distinct, pairwise_map.2 hdistinct, ?_⟩
    intro entry hentry other hother hequal
    obtain ⟨term, hterm, rfl⟩ := List.mem_map.1 hother
    exact hnew term hterm ⟨entry, hentry, hequal⟩
  distance := by
    rw [forall_mem_append, forall_mem_map]
    exact ⟨hlayers.distance, hdistance⟩
  sorted := by
    refine pairwise_append.2 ⟨hlayers.sorted, ?_, ?_⟩
    · exact pairwise_map.2 (hdistinct.imp fun _ => Nat.le_refl distance)
    · intro entry hentry other hother
      obtain ⟨term, -, rfl⟩ := List.mem_map.1 hother
      exact hdeepest entry hentry

end Layers

end Machine

end SymbolicRewriting
